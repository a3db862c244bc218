import AttributeFilter.Text.Blank
import AttributeFilter.Text.Letter

/-!
Runs of characters: where the longest run at the front of a text ends. Letters and digits are not white
space, and only a letter has a letter for its small form.
-/

namespace AttributeFilter.Text

-- What is said of the characters of a text is decided along the text, not along all characters.
instance (priority := high) {t : Text} {P : Char → Prop} [DecidablePred P] :
    Decidable (∀ c ∈ t, P c) :=
  List.decidableBAll P t

variable {p : Char → Bool} {t u : Text} {c : Char}

-- The next character, if there is one, does not continue a run.
def Stops (p : Char → Bool) (t : Text) : Prop :=
  ∀ c ∈ t.head?, p c = false

theorem Stops.cons (h : p c = false) : Stops p (c :: t) :=
  fun _ hd => Option.some.inj hd ▸ h

theorem Stops.mono {q : Char → Bool} (h : t.Stops p) (hq : ∀ c, q c = true → p c = true) :
    t.Stops q := by
  intro c hc
  apply Bool.eq_false_iff.mpr
  intro hq'
  cases (hq c hq').symm.trans (h c hc)

theorem stops_dropWhile (p : Char → Bool) (t : Text) : Stops p (t.dropWhile p) := by
  intro c hc
  have h := List.head?_dropWhile_not p t
  rw [Option.mem_def.mp hc] at h
  exact h

theorem takeWhile_of_stops (h : t.Stops p) : t.takeWhile p = [] := by
  cases t
  case nil      => rfl
  case cons c r => simp [h c rfl]

theorem dropWhile_of_stops (h : t.Stops p) : t.dropWhile p = t := by
  cases t
  case nil      => rfl
  case cons c r => simp [h c rfl]

theorem takeWhile_append (ht : ∀ c ∈ t, p c = true) (hu : u.Stops p) : (t ++ u).takeWhile p = t := by
  rw [List.takeWhile_append_of_pos ht, takeWhile_of_stops hu, List.append_nil]

theorem dropWhile_append (ht : ∀ c ∈ t, p c = true) (hu : u.Stops p) : (t ++ u).dropWhile p = u := by
  rw [List.dropWhile_append_of_pos ht, dropWhile_of_stops hu]

-- A run does not go beyond where it has to stop.
theorem takeWhile_append_of_stops (hu : u.Stops p) : (t ++ u).takeWhile p = t.takeWhile p := by
  induction t
  case nil          => exact takeWhile_of_stops hu
  case cons c r ih  => rw [List.cons_append, List.takeWhile_cons, List.takeWhile_cons, ih]

theorem dropWhile_append_of_stops (hu : u.Stops p) : (t ++ u).dropWhile p = t.dropWhile p ++ u := by
  induction t
  case nil => exact dropWhile_of_stops hu
  case cons c r ih =>
    rw [List.cons_append, List.dropWhile_cons, List.dropWhile_cons, ih]
    split <;> rfl

theorem mem_of_mem_takeWhile_append (hu : u.Stops p) (h : c ∈ (t ++ u).takeWhile p) : c ∈ t := by
  rw [takeWhile_append_of_stops hu] at h
  exact (List.takeWhile_prefix p).mem h

-- White space and nothing else.
def Blank (t : Text) : Prop :=
  ∀ c ∈ t, isBlank c = true

instance : DecidablePred Blank :=
  fun t => inferInstanceAs (Decidable (∀ c ∈ t, isBlank c = true))

theorem Blank.nil : Blank [] :=
  nofun

theorem Blank.append (ht : t.Blank) (hu : u.Blank) : Blank (t ++ u) :=
  fun c hc => (List.mem_append.mp hc).elim (ht c) (hu c)

theorem dropBlank_append (ht : t.Blank) (u : Text) : dropBlank (t ++ u) = dropBlank u :=
  List.dropWhile_append_of_pos ht

theorem dropBlank_of_stops (h : u.Stops isBlank) : dropBlank u = u :=
  dropWhile_of_stops h

theorem blank_leadingBlank : Blank (leadingBlank t) :=
  List.all_eq_true.mp List.all_takeWhile

theorem isBlank_eq_false (hl : 0x20 < c.toNat) (hu : c.toNat < 0x85) : isBlank c = false := by
  simp only [isBlank, blankRanges, List.any_cons, List.any_nil, Bool.or_false, Bool.or_eq_false_iff,
    Bool.and_eq_false_iff, decide_eq_false_iff_not]
  omega

theorem toNat_of_isDigit (h : isDigit c = true) : 48 ≤ c.toNat ∧ c.toNat ≤ 57 := by
  simp only [isDigit, Bool.and_eq_true, decide_eq_true_eq] at h
  exact h

theorem isLetter_iff : isLetter c = true ↔
    (97 ≤ c.toNat ∧ c.toNat ≤ 122) ∨ (65 ≤ c.toNat ∧ c.toNat ≤ 90) := by
  simp only [isLetter, Bool.or_eq_true, Bool.and_eq_true, decide_eq_true_eq]
  exact Iff.rfl

theorem toNat_toLower (h : 65 ≤ c.toNat ∧ c.toNat ≤ 90) : c.toLower.toNat = c.toNat + 32 := by
  have hc : c.val ≥ 'A'.val ∧ c.val ≤ 'Z'.val := h
  have hl : c.toLower.val = c.val + ('a'.val - 'A'.val) := congrArg Char.val (dif_pos hc)
  have hn : c.val.toNat = c.toNat := rfl
  rw [Char.toNat, hl, UInt32.toNat_add, hn]
  have : ('a'.val - 'A'.val).toNat = 32 := rfl
  omega

theorem toLower_eq_self (h : ¬(65 ≤ c.toNat ∧ c.toNat ≤ 90)) : c.toLower = c :=
  dif_neg h

theorem toLower_toLower (c : Char) : c.toLower.toLower = c.toLower := by
  by_cases h : 65 ≤ c.toNat ∧ c.toNat ≤ 90
  case pos =>
    have hl := toNat_toLower h
    exact toLower_eq_self (by omega)
  case neg => rw [toLower_eq_self h, toLower_eq_self h]

theorem isLetter_toLower : isLetter c.toLower = isLetter c := by
  rw [Bool.eq_iff_iff, isLetter_iff, isLetter_iff]
  by_cases h : 65 ≤ c.toNat ∧ c.toNat ≤ 90
  case pos => rw [toNat_toLower h]; omega
  case neg => rw [toLower_eq_self h]

theorem eq_of_toLower_eq {d : Char} (h : c.toLower = d) (hd : isLetter d = false) : c = d := by
  have hc : ¬(65 ≤ c.toNat ∧ c.toNat ≤ 90) := by
    intro hc
    have hl : isLetter c.toLower = true := isLetter_toLower.trans (isLetter_iff.mpr (.inr hc))
    rw [h, hd] at hl
    cases hl
  rwa [toLower_eq_self hc] at h

end AttributeFilter.Text
