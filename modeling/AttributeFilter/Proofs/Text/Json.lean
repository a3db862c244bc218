import AttributeFilter.Proofs.Text.Quoted
import AttributeFilter.Proofs.Token.Admits
import AttributeFilter.Text.Json

/-!
Reading compact JSON back. The first character of a value tells what kind of value it is, and a value ends
before a comma, a closing bracket or the end of the text. So no value has the text of another one.
-/

namespace AttributeFilter

open Text Lexeme

namespace Json

-- The numbers in a value are number lexemes.
inductive IsProper : Json → Prop
  | null : IsProper null
  | boolean : IsProper (boolean b)
  | number : IsNumber t → IsProper (number t)
  | string : IsProper (string t)
  | array : (∀ j ∈ js, IsProper j) → IsProper (array js)
  | object : (∀ m ∈ ms, IsProper m.2) → IsProper (object ms)

inductive Kind where
  | null
  | boolean
  | number
  | string
  | array
  | object

def kind : Json → Kind
  | null      => .null
  | boolean _ => .boolean
  | number _  => .number
  | string _  => .string
  | array _   => .array
  | object _  => .object

-- The kind of the value that starts with a character.
def Kind.ofFirst (c : Char) : Kind :=
  if c = 'n' then null
  else if c = 't' || c = 'f' then boolean
  else if c = '"' then string
  else if c = '[' then array
  else if c = '\x7b' then object
  else number

-- The characters before which a value ends.
def closers : List Char :=
  [',', ']', '\x7d']

-- A value may end before a text.
def Ends (t : Text) : Prop :=
  ∀ c ∈ t.head?, c ∈ closers

def isNumberChar (c : Char) : Bool :=
  isDigit c || "+-.eE".toList.contains c

variable {r s t u : Text} {j k : Json} {c : Char}

theorem Ends.cons (h : c ∈ closers) : Ends (c :: t) :=
  fun _ hd => Option.some.inj hd ▸ h

theorem isNumberChar_of_isDigit (h : isDigit c = true) : isNumberChar c = true := by
  simp [isNumberChar, h]

theorem isNumberChar_of_isNumber (h : IsNumber t) : ∀ c ∈ t, isNumberChar c = true := by
  have hd {t : Text} (h : IsDigits t) : ∀ c ∈ t, isNumberChar c = true :=
    fun c hc => isNumberChar_of_isDigit (h.digits c hc)
  have hf {t : Text} (h : IsFraction t) : ∀ c ∈ t, isNumberChar c = true := by
    cases h
    case absent   => nofun
    case digits h => exact List.forall_mem_cons.mpr ⟨rfl, hd h⟩
  have hm {c : Char} (h : Part.isExponentMark c = true) : isNumberChar c = true := by
    rcases (Bool.or_eq_true _ _).mp h with h | h <;> rw [of_decide_eq_true h] <;> rfl
  have hs {c : Char} (h : Part.isSign c = true) : isNumberChar c = true := by
    rcases (Bool.or_eq_true _ _).mp h with h | h <;> rw [of_decide_eq_true h] <;> rfl
  have he {t : Text} (h : IsExponent t) : ∀ c ∈ t, isNumberChar c = true := by
    cases h
    case absent       => nofun
    case digits h₁ h₂ => exact List.forall_mem_cons.mpr ⟨hm h₁, hd h₂⟩
    case signed h₁ h₂ h₃ =>
      exact List.forall_mem_cons.mpr ⟨hm h₁, List.forall_mem_cons.mpr ⟨hs h₂, hd h₃⟩⟩
  cases h
  case unsigned h₁ h₂ h₃ =>
    exact List.forall_mem_append.mpr ⟨List.forall_mem_append.mpr ⟨hd h₁, hf h₂⟩, he h₃⟩
  case negative h₁ h₂ h₃ =>
    exact List.forall_mem_cons.mpr
      ⟨rfl, List.forall_mem_append.mpr ⟨List.forall_mem_append.mpr ⟨hd h₁, hf h₂⟩, he h₃⟩⟩

-- A number ends where it has to.
theorem Ends.stops (h : Ends t) : t.Stops isNumberChar := by
  intro c hc
  have hm := h c hc
  simp only [closers, List.mem_cons, List.not_mem_nil, or_false] at hm
  rcases hm with rfl | rfl | rfl <;> rfl

theorem ofFirst_of_isNumberChar (h : isNumberChar c = true) :
    Kind.ofFirst c = .number ∧ c ∉ closers := by
  have hn {d : Char} (hd : isNumberChar d = false) : c ≠ d := by
    rintro rfl
    cases h.symm.trans hd
  simp [Kind.ofFirst, closers, hn (d := 'n') rfl, hn (d := 't') rfl, hn (d := 'f') rfl, hn (d := '"') rfl,
    hn (d := '[') rfl, hn (d := '\x7b') rfl, hn (d := ',') rfl, hn (d := ']') rfl, hn (d := '\x7d') rfl]

theorem exists_first (h : j.IsProper) :
    ∃ c t, j.compact = c :: t ∧ Kind.ofFirst c = j.kind ∧ c ∉ closers := by
  cases h
  case null   => exact ⟨_, _, rfl, rfl, by decide⟩
  case boolean b =>
    cases b
    case false => exact ⟨_, _, rfl, rfl, by decide⟩
    case true  => exact ⟨_, _, rfl, rfl, by decide⟩
  case string => exact ⟨_, _, rfl, rfl, by decide⟩
  case array  => exact ⟨'[', _, rfl, rfl, by decide⟩
  case object => exact ⟨'\x7b', _, rfl, rfl, by decide⟩
  case number t h =>
    cases t
    case nil      => exact absurd rfl h.ne_nil
    case cons c t =>
      have hc := isNumberChar_of_isNumber h c List.mem_cons_self
      exact ⟨c, t, rfl, ofFirst_of_isNumberChar hc⟩

-- The texts of values of two kinds start differently.
theorem kind_eq (hj : j.IsProper) (hk : k.IsProper) (h : j.compact ++ r = k.compact ++ s) :
    j.kind = k.kind := by
  have ⟨c, t, ht, hc, _⟩ := exists_first hj
  have ⟨d, u, hu, hd, _⟩ := exists_first hk
  rw [ht, hu] at h
  have ⟨he, _⟩ := List.cons.inj h
  rw [← hc, ← hd, he]

section Items

variable {α : Type} {w : α → Text} {a b : α} {as bs : List α} {close : Char}

-- Where the texts of two items agree, and each item ends there, the items agree.
def Distinct (w : α → Text) (a b : α) : Prop :=
  ∀ ⦃r s⦄, Ends r → Ends s → w a ++ r = w b ++ s → a = b ∧ r = s

-- A text that does not start with what may stand behind an item.
def Opens (t : Text) : Prop :=
  ∃ c u, t = c :: u ∧ c ∉ closers

theorem Opens.append (h : Opens t) (u : Text) : Opens (t ++ u) := by
  have ⟨c, v, ht, hc⟩ := h
  exact ⟨c, v ++ u, by rw [ht, List.cons_append], hc⟩

theorem Opens.not_ends (h : Opens t) : ¬Ends t := by
  have ⟨c, u, ht, hc⟩ := h
  exact fun he => hc (he c (by rw [ht]; rfl))

theorem opens_joined (h : Opens t) (ts : List Text) : Opens (joined [','] (t :: ts)) := by
  cases ts
  case nil  => exact h
  case cons => exact (h.append _).append _

theorem joined_cons {ts : List Text} : ',' :: joined [','] (t :: ts) = (t :: ts).flatMap (',' :: ·) := by
  induction ts generalizing t
  case nil          => rw [joined, List.flatMap_singleton]
  case cons u ts ih => rw [joined, List.flatMap_cons, ← ih, List.append_assoc]; rfl

-- What stands behind an item.
theorem ends_behind (h : close ∈ closers) (ts : List Text) :
    Ends (ts.flatMap (',' :: ·) ++ close :: r) := by
  cases ts
  case nil  => exact Ends.cons h
  case cons => exact Ends.cons (by decide)

-- The comma in front of an item tells that there is one.
theorem behind_inj (hc : close ∈ closers) (hn : ',' ≠ close) (hd : ∀ a ∈ as, ∀ b ∈ bs, Distinct w a b)
    (h : (as.map w).flatMap (',' :: ·) ++ close :: r = (bs.map w).flatMap (',' :: ·) ++ close :: s) :
    as = bs ∧ r = s := by
  induction as generalizing bs
  case nil =>
    cases bs
    case nil  => exact ⟨rfl, (List.cons.inj h).right⟩
    case cons => exact absurd (List.cons.inj h).left hn.symm
  case cons a as ih =>
    cases bs
    case nil       => exact absurd (List.cons.inj h).left hn
    case cons b bs =>
      simp only [List.map_cons, List.flatMap_cons, List.cons_append, List.append_assoc] at h
      have ⟨ha, ht⟩ := hd a List.mem_cons_self b List.mem_cons_self (ends_behind hc _) (ends_behind hc _)
        (List.cons.inj h).right
      have hd := fun a ha b hb => hd a (List.mem_cons_of_mem _ ha) b (List.mem_cons_of_mem _ hb)
      have ⟨has, hr⟩ := ih hd ht
      exact ⟨by rw [ha, has], hr⟩

theorem joined_append_inj (hc : close ∈ closers) (hn : ',' ≠ close)
    (ha : ∀ a ∈ as, Opens (w a)) (hb : ∀ b ∈ bs, Opens (w b)) (hd : ∀ a ∈ as, ∀ b ∈ bs, Distinct w a b)
    (h : joined [','] (as.map w) ++ close :: r = joined [','] (bs.map w) ++ close :: s) :
    as = bs ∧ r = s := by
  have hnil {t : Text} {ts : List Text} {r s : Text} (ht : Opens t) :
      joined [','] (t :: ts) ++ r ≠ close :: s :=
    fun he => ((opens_joined ht ts).append r).not_ends (he ▸ Ends.cons hc)
  cases as
  case nil =>
    cases bs
    case nil       => exact ⟨rfl, (List.cons.inj h).right⟩
    case cons b bs => exact absurd h.symm (hnil (hb b List.mem_cons_self))
  case cons a as =>
    cases bs
    case nil       => exact absurd h (hnil (ha a List.mem_cons_self))
    case cons b bs =>
      have h := congrArg (',' :: ·) h
      simp only [← List.cons_append, List.map_cons, joined_cons] at h
      exact behind_inj hc hn hd h

end Items

-- The text of a member of an object.
def memberText (m : Text × Json) : Text :=
  Quoted.encode m.1 ++ ':' :: m.2.compact

theorem compactElements_eq_map (js : List Json) : compactElements js = js.map compact := by
  induction js
  case nil          => rfl
  case cons j js ih => rw [compactElements, ih]; rfl

theorem compactMembers_eq_map (ms : List (Text × Json)) : compactMembers ms = ms.map memberText := by
  induction ms
  case nil          => rfl
  case cons m ms ih => rw [compactMembers, ih]; rfl

theorem compact_array (js : List Json) :
    (array js).compact ++ r = '[' :: (joined [','] (js.map compact) ++ ']' :: r) := by
  rw [compact, compactElements_eq_map, List.append_assoc]
  rfl

theorem compact_object (ms : List (Text × Json)) :
    (object ms).compact ++ r = '\x7b' :: (joined [','] (ms.map memberText) ++ '\x7d' :: r) := by
  rw [compact, compactMembers_eq_map, List.append_assoc]
  rfl

theorem opens_compact (h : j.IsProper) : Opens j.compact := by
  have ⟨c, t, ht, _, hc⟩ := exists_first h
  exact ⟨c, t, ht, hc⟩

theorem opens_memberText (m : Text × Json) : Opens (memberText m) :=
  ⟨'"', _, rfl, by decide⟩

theorem Distinct.member {m n : Text × Json} (h : Distinct compact m.2 n.2) : Distinct memberText m n := by
  intro r s hr hs he
  simp only [memberText, List.append_assoc, List.cons_append] at he
  have ⟨hn, he⟩ := Quoted.encode_append_inj he
  have ⟨hv, hrs⟩ := h hr hs (List.cons.inj he).right
  exact ⟨Prod.ext hn hv, hrs⟩

theorem distinct_number (ht : IsNumber t) (hu : IsNumber u) : Distinct compact (number t) (number u) := by
  intro r s hr hs he
  have hp := congrArg (List.takeWhile isNumberChar) he
  have hd := congrArg (List.dropWhile isNumberChar) he
  have ht := isNumberChar_of_isNumber ht
  have hu := isNumberChar_of_isNumber hu
  simp only [compact, scalar, takeWhile_append ht hr.stops, takeWhile_append hu hs.stops] at hp
  simp only [compact, scalar, dropWhile_append ht hr.stops, dropWhile_append hu hs.stops] at hd
  exact ⟨by rw [hp], hd⟩

theorem distinct_string : Distinct compact (string t) (string u) := by
  intro r s _ _ he
  have ⟨ht, hrs⟩ := Quoted.encode_append_inj he
  exact ⟨by rw [ht], hrs⟩

theorem distinct_boolean {a b : Bool} : Distinct compact (boolean a) (boolean b) := by
  intro r s _ _ he
  cases a <;> cases b <;> simp_all [compact, scalar]

theorem distinct_array {js ks : List Json} (hj : ∀ j ∈ js, j.IsProper) (hk : ∀ k ∈ ks, k.IsProper)
    (h : ∀ j ∈ js, ∀ k ∈ ks, Distinct compact j k) : Distinct compact (array js) (array ks) := by
  intro r s _ _ he
  rw [compact_array, compact_array] at he
  have ⟨hjk, hrs⟩ := joined_append_inj (by decide) (by decide) (fun j hm => opens_compact (hj j hm))
    (fun k hm => opens_compact (hk k hm)) h (List.cons.inj he).right
  exact ⟨by rw [hjk], hrs⟩

theorem distinct_object {ms ns : List (Text × Json)} (h : ∀ m ∈ ms, ∀ n ∈ ns, Distinct compact m.2 n.2) :
    Distinct compact (object ms) (object ns) := by
  intro r s _ _ he
  rw [compact_object, compact_object] at he
  have ⟨hmn, hrs⟩ := joined_append_inj (by decide) (by decide) (fun m _ => opens_memberText m)
    (fun n _ => opens_memberText n) (fun m hm n hn => (h m hm n hn).member) (List.cons.inj he).right
  exact ⟨by rw [hmn], hrs⟩

theorem Distinct.of_kind (hj : j.IsProper) (hk : k.IsProper)
    (h : j.kind = k.kind → Distinct compact j k) : Distinct compact j k :=
  fun _ _ hr hs he => h (kind_eq hj hk he) hr hs he

-- A value can be read off the front of a text, up to where it ends.
theorem distinct (hj : j.IsProper) (hk : k.IsProper) : Distinct compact j k := by
  induction hj generalizing k
  case null =>
    refine .of_kind .null hk fun hkind => ?_
    cases hk <;> cases hkind
    exact fun _ _ _ _ he => ⟨rfl, List.append_cancel_left he⟩
  case boolean =>
    refine .of_kind .boolean hk fun hkind => ?_
    cases hk <;> cases hkind
    exact distinct_boolean
  case number ht =>
    refine .of_kind (.number ht) hk fun hkind => ?_
    cases hk <;> cases hkind
    exact distinct_number ht ‹_›
  case string =>
    refine .of_kind .string hk fun hkind => ?_
    cases hk <;> cases hkind
    exact distinct_string
  case array js hj ih =>
    refine .of_kind (.array hj) hk fun hkind => ?_
    cases hk <;> cases hkind
    case array ks hk => exact distinct_array hj hk fun j hm k hn => ih j hm (hk k hn)
  case object ms hj ih =>
    refine .of_kind (.object hj) hk fun hkind => ?_
    cases hk <;> cases hkind
    case object ns hk => exact distinct_object fun m hm n hn => ih m hm (hk n hn)

theorem compact_inj (hj : j.IsProper) (hk : k.IsProper) (h : j.compact = k.compact) : j = k := by
  have hn : Ends [] := nofun
  exact (distinct hj hk hn hn (congrArg (· ++ []) h)).left

end Json
end AttributeFilter
