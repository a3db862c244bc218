import AttributeFilter.Proofs.Text.Quoted
import AttributeFilter.Proofs.Text.Runs
import AttributeFilter.Proofs.Token.Lexing

/-!
Where a lexeme ends: which texts may stand behind it, so that it is cut off as it is written.
-/

namespace AttributeFilter.Lexeme

open Text

variable {w r t u : Text} {c : Char} {k : Token.Kind}

theorem isWordChar_of_isLetter (h : isLetter c = true) : isWordChar c = true := by
  simp [isWordChar, h]

theorem isWordChar_of_isDigit (h : isDigit c = true) : isWordChar c = true := by
  simp [isWordChar, h]

theorem letters_of_sameWord {v : Text} (h : sameWord v w = true)
    (hl : ∀ c ∈ lower v, isLetter c = true) : ∀ c ∈ w, isLetter c = true := by
  intro c hc
  rw [← isLetter_toLower]
  exact hl _ (sameWord_iff.mp h ▸ List.mem_map_of_mem hc)

theorem letters_of_reserves (h : Token.Kind.Reserves k w) : ∀ c ∈ w, isLetter c = true := by
  cases h
  case operator o h =>
    have hw : ∀ c ∈ lower o.word, isLetter c = true := by cases o <;> decide
    exact letters_of_sameWord h hw
  case word hm h =>
    have hw : ∀ p ∈ Token.Kind.reservedWords, ∀ c ∈ lower p.1, isLetter c = true := by decide
    exact letters_of_sameWord h (hw _ hm)

theorem isWord_of_reserves (h : Token.Kind.Reserves k w) : IsWord w where
  head := by
    have ⟨c, hc⟩ := Option.isSome_iff_exists.mp (List.isSome_head?.mpr h.ne_nil)
    exact ⟨c, hc, .inl (letters_of_reserves h c (List.mem_of_head? hc))⟩
  tail := fun c hc => isWordChar_of_isLetter (letters_of_reserves h c (List.mem_of_mem_tail hc))

-- The text `w` before `r` is cut off as a lexeme of a kind.
def Cuts (k : Token.Kind) (w r : Text) : Prop :=
  ∃ c u, w ++ r = c :: u ∧ first c u = .ok ⟨k, w, r⟩

theorem ofMark?_eq_none (h : isWordChar c = true ∨ c = '$') : Token.Kind.ofMark? c = none := by
  unfold Token.Kind.ofMark?
  split
  case h_7 => rfl
  all_goals exact absurd h (by decide)

theorem isBlank_of_isUriChar (h : isUriChar c = true) : isBlank c = false := by
  simp only [isUriChar, isWordChar, Bool.or_eq_true, decide_eq_true_eq] at h
  rcases h with (((((h | h) | h) | h) | h) | h)
  · have := isLetter_iff.mp h; exact isBlank_eq_false (by omega) (by omega)
  · have := toNat_of_isDigit h; exact isBlank_eq_false (by omega) (by omega)
  all_goals exact h ▸ rfl

-- What a word starts with does not start a number.
theorem beginsNumber_eq_false (h : isLetter c = true ∨ c = '$') : (c = '-' || isDigit c) = false := by
  cases h
  case inr h => exact h ▸ rfl
  case inl h =>
    have := isLetter_iff.mp h
    apply Bool.eq_false_iff.mpr
    intro hd
    cases (Bool.or_eq_true _ _).mp hd
    case inl hd => rw [of_decide_eq_true hd] at h; cases h
    case inr hd => have := toNat_of_isDigit hd; omega

-- No lexeme starts with white space.
theorem isBlank_eq_false_of_first {l : Lexeme} (h : first c r = .ok l) : isBlank c = false := by
  unfold first at h
  split at h
  case h_1 hm =>
    unfold Token.Kind.ofMark? at hm
    split at hm
    case h_7 => cases hm
    all_goals rfl
  case h_2 =>
    split at h
    case isTrue hc => exact hc ▸ rfl
    case isFalse =>
      split at h
      case isTrue hc =>
        cases (Bool.or_eq_true _ _).mp hc
        case inl hc => exact (of_decide_eq_true hc) ▸ rfl
        case inr hc => have := toNat_of_isDigit hc; exact isBlank_eq_false (by omega) (by omega)
      case isFalse =>
        split at h
        case isFalse => cases h
        case isTrue hc =>
          cases (Bool.or_eq_true _ _).mp hc
          case inl hc => have := isLetter_iff.mp hc; exact isBlank_eq_false (by omega) (by omega)
          case inr hc => exact (of_decide_eq_true hc) ▸ rfl

theorem cuts_mark (h : Token.Kind.ofMark? c = some k) (r : Text) : Cuts k [c] r :=
  ⟨c, r, rfl, by simp [first, h]⟩

theorem cuts_string (h : (Quoted.decode? w).isSome) (r : Text) : Cuts .string w r := by
  have ⟨t, ht⟩ := Option.isSome_iff_exists.mp h
  have ⟨u, hu, hw⟩ := Quoted.decode?_eq_some_iff.mp ht
  have hm : Token.Kind.ofMark? '"' = none := rfl
  subst hw
  refine ⟨'"', u ++ '"' :: r, by simp, ?_⟩
  simp only [first, hm, if_true, string, Quoted.throughQuote?_of_writesBody hu, h]

-- The characters that continue a word, or make a scheme of it.
def continuesWord (c : Char) : Bool :=
  isWordChar c || c = ':'

theorem stops_of_continuesWord (hr : r.Stops continuesWord) :
    r.Stops isWordChar ∧ ':' ∉ r.head? := by
  constructor
  case left =>
    intro c hc
    exact ((Bool.or_eq_false_iff).mp (hr c hc)).left
  case right =>
    intro hc
    cases hr _ hc

-- The scheme of schema URIs is three letters and a colon.
theorem of_startsUri (h : startsUri t = true) :
    ∃ a b c u, t = a :: b :: c :: ':' :: u ∧ isLetter a = true ∧ isLetter b = true ∧
      isLetter c = true := by
  have hl : lower (t.take 4) = ['u', 'r', 'n', ':'] := by
    have hs := sameWord_iff.mp h
    exact hs
  match t with
  | [] | [_] | [_, _] | [_, _, _] => simp [lower] at hl
  | a :: b :: c :: d :: u =>
    simp only [lower, List.take_succ_cons, List.take_zero, List.map_cons, List.map_nil,
      List.cons.injEq, and_true] at hl
    have hw {c d : Char} (h : c.toLower = d) (hd : isLetter d = true) : isLetter c = true := by
      rwa [← isLetter_toLower, h]
    refine ⟨a, b, c, u, ?_, hw hl.left rfl, hw hl.right.left rfl, hw hl.right.right.left rfl⟩
    rw [eq_of_toLower_eq hl.right.right.right rfl]

theorem not_startsUri_of_isWord (hw : IsWord w) (hr : r.Stops continuesWord) :
    startsUri (w ++ r) = false := by
  have ⟨hr, hc⟩ := stops_of_continuesWord hr
  apply Bool.eq_false_iff.mpr
  intro hs
  have ⟨a, b, d, u, he, ha, hb, hd⟩ := of_startsUri hs
  have hall : ∀ c ∈ w.tail, isWordChar c = true := hw.tail
  cases w
  case nil => simpa using hw.head
  case cons c w =>
    have he : w ++ r = b :: d :: ':' :: u := (List.cons.inj he).right
    have h₁ : (w ++ r).dropWhile isWordChar = r := dropWhile_append hall hr
    have hn : isWordChar ':' = false := rfl
    have h₂ : (b :: d :: ':' :: u).dropWhile isWordChar = ':' :: u := by
      simp [isWordChar_of_isLetter, hb, hd, hn]
    rw [he, h₂] at h₁
    exact hc (h₁ ▸ rfl)

-- A word ends where no character of a word stands, and is not the beginning of a schema URI.
theorem cuts_word_of (hw : IsWord w) (hu : startsUri (w ++ r) = false) (hr : r.Stops isWordChar) :
    Cuts (.ofWord w) w r := by
  have hall : ∀ c ∈ w.tail, isWordChar c = true := hw.tail
  have ⟨c, hm, hl⟩ := hw.head
  cases w
  case nil => cases hm
  case cons d w =>
    cases hm
    have hq : c ≠ '"' := by rintro rfl; revert hl; decide
    have hd := beginsNumber_eq_false hl
    have hk := ofMark?_eq_none (hl.imp_left isWordChar_of_isLetter)
    have hl : (isLetter c || c = '$') = true := by simpa using hl
    refine ⟨c, w ++ r, rfl, ?_⟩
    rw [List.cons_append] at hu
    have hall : ∀ c ∈ w, isWordChar c = true := hall
    simp only [first, hk, hq, hd, hl, hu, if_false, if_true, Bool.false_eq_true, word]
    rw [takeWhile_append hall hr, dropWhile_append hall hr]

theorem cuts_word (hw : IsWord w) (hr : r.Stops continuesWord) : Cuts (.ofWord w) w r :=
  cuts_word_of hw (not_startsUri_of_isWord hw hr) (stops_of_continuesWord hr).left

theorem cuts_reserved (h : Token.Kind.Reserves k w) (hr : r.Stops continuesWord) : Cuts k w r := by
  have hk : Token.Kind.ofWord w = k := by
    rw [Token.Kind.ofWord, Token.Kind.ofReserved?_eq_some_iff.mpr h]
    rfl
  exact hk ▸ cuts_word (isWord_of_reserves h) hr

theorem cuts_name (h : Token.Kind.identifier.Admits w) (hr : r.Stops continuesWord) :
    Cuts .identifier w r := by
  have hk : Token.Kind.ofWord w = .identifier := by
    rw [Token.Kind.ofWord, Token.Kind.ofReserved?_eq_none_iff.mpr h.right]
    rfl
  exact hk ▸ cuts_word h.left hr

-- The characters that continue a number.
def continuesNumber (c : Char) : Bool :=
  isDigit c || c = '.' || Part.isExponentMark c

namespace Part

variable {f e start : Text}

theorem digitsAfter_eq (hd : IsDigits t) (hr : r.Stops isDigit) :
    digitsAfter start (t ++ r) = ⟨start ++ t, true, r⟩ := by
  have he : t.isEmpty = false := by simpa using hd.ne_nil
  simp [digitsAfter, takeWhile_append hd.digits hr, dropWhile_append hd.digits hr, he]

theorem integer_unsigned (hd : IsDigits t) (hr : r.Stops isDigit) :
    integer (t ++ r) = ⟨t, true, r⟩ := by
  rw [← List.nil_append t, ← digitsAfter_eq hd hr]
  unfold integer
  split
  case h_1 he =>
    cases t
    case nil      => exact absurd rfl hd.ne_nil
    case cons c t =>
      cases he
      exact absurd (hd.digits _ List.mem_cons_self) (by decide)
  case h_2 => rfl

theorem stops_of_continuesNumber (hr : r.Stops continuesNumber) : r.Stops isDigit := by
  intro c hc
  have := hr c hc
  simp only [continuesNumber, Bool.or_eq_false_iff] at this
  exact this.left.left

theorem fraction_eq (hf : IsFraction f) (hr : r.Stops isDigit) (hp : '.' ∉ r.head?) :
    fraction (f ++ r) = ⟨f, true, r⟩ := by
  cases hf
  case absent =>
    cases r
    case nil      => rfl
    case cons c r =>
      unfold fraction
      split
      case h_1 he => cases he; exact absurd rfl hp
      case h_2    => rfl
  case digits hd => exact digitsAfter_eq hd hr

theorem exponent_eq (he : IsExponent e) (hr : r.Stops continuesNumber) :
    exponent (e ++ r) = ⟨e, true, r⟩ := by
  have hs := stops_of_continuesNumber hr
  cases he
  case absent =>
    cases r
    case nil      => rfl
    case cons c r =>
      have hc := hr c rfl
      simp only [continuesNumber, Bool.or_eq_false_iff] at hc
      simp [exponent, hc.right, absent]
  case signed hm hg hd =>
    simp [exponent, hm, hg, digitsAfter_eq hd hs]
  case digits m ds hm hd =>
    cases ds
    case nil       => exact absurd rfl hd.ne_nil
    case cons d ds =>
      have hn : isSign d = false := by
        have := toNat_of_isDigit (hd.digits d List.mem_cons_self)
        apply Bool.eq_false_iff.mpr
        intro hg
        cases (Bool.or_eq_true _ _).mp hg
        case inl hg => rw [of_decide_eq_true hg] at this; revert this; decide
        case inr hg => rw [of_decide_eq_true hg] at this; revert this; decide
      have : digitsAfter [m] (d :: ds ++ r) = ⟨[m] ++ d :: ds, true, r⟩ := digitsAfter_eq hd hs
      rw [List.cons_append] at this
      simp [exponent, hm, hn, this]

theorem stops_exponent (he : IsExponent e) (hr : r.Stops continuesNumber) :
    (e ++ r).Stops isDigit ∧ '.' ∉ (e ++ r).head? := by
  have hm {c : Char} (h : isExponentMark c = true) : isDigit c = false ∧ c ≠ '.' := by
    cases (Bool.or_eq_true _ _).mp h
    case inl h => rw [of_decide_eq_true h]; decide
    case inr h => rw [of_decide_eq_true h]; decide
  cases he
  case absent =>
    refine ⟨stops_of_continuesNumber hr, fun hp => ?_⟩
    cases hr _ hp
  case digits h _ =>
    exact ⟨.cons (hm h).left, fun hp => (hm h).right (Option.some.inj hp)⟩
  case signed h _ _ =>
    exact ⟨.cons (hm h).left, fun hp => (hm h).right (Option.some.inj hp)⟩

theorem stops_fraction (hf : IsFraction f) (hr : r.Stops isDigit) : (f ++ r).Stops isDigit := by
  cases hf
  case absent => exact hr
  case digits => exact .cons rfl

end Part

theorem cuts_number (hn : IsNumber w) (hr : r.Stops continuesNumber) : Cuts .number w r := by
  have hc {c : Char} {u : Text} (h : (c = '-' || isDigit c) = true)
      (hw : number (c :: u) = .ok ⟨.number, w, r⟩) : first c u = .ok ⟨.number, w, r⟩ := by
    have hm : isWordChar c = true := by
      cases (Bool.or_eq_true _ _).mp h
      case inl h => rw [of_decide_eq_true h]; rfl
      case inr h => exact isWordChar_of_isDigit h
    have hq : c ≠ '"' := by rintro rfl; cases hm
    simp only [first, ofMark?_eq_none (.inl hm), hq, h, if_false, if_true, hw]
  cases hn
  case unsigned whole f e hw hf he =>
    have hx := Part.stops_exponent he hr
    have hi := Part.integer_unsigned hw (Part.stops_fraction hf hx.left)
    have hn : number (whole ++ (f ++ (e ++ r))) = .ok ⟨.number, whole ++ f ++ e, r⟩ := by
      simp [number, hi, Part.fraction_eq hf hx.left hx.right, Part.exponent_eq he hr]
    cases whole
    case nil => exact absurd rfl hw.ne_nil
    case cons d ds =>
      refine ⟨d, ds ++ (f ++ (e ++ r)), by simp, hc ?_ hn⟩
      simp [hw.digits d List.mem_cons_self]
  case negative whole f e hw hf he =>
    have hx := Part.stops_exponent he hr
    have hi : Part.integer ('-' :: (whole ++ (f ++ (e ++ r)))) =
        ⟨'-' :: whole, true, f ++ (e ++ r)⟩ :=
      Part.digitsAfter_eq hw (Part.stops_fraction hf hx.left)
    have hn : number ('-' :: (whole ++ (f ++ (e ++ r)))) =
        .ok ⟨.number, '-' :: (whole ++ f ++ e), r⟩ := by
      simp [number, hi, Part.fraction_eq hf hx.left hx.right, Part.exponent_eq he hr]
    exact ⟨'-', whole ++ (f ++ (e ++ r)), by simp, hc rfl hn⟩

theorem isUriChar_of_continuesWord (h : continuesWord c = true) : isUriChar c = true := by
  simp only [continuesWord, isUriChar, Bool.or_eq_true] at h ⊢
  exact .inl h

theorem isUriChar_of_continuesNumber (h : continuesNumber c = true) : isUriChar c = true := by
  simp only [continuesNumber, isUriChar, Bool.or_eq_true, decide_eq_true_eq] at h ⊢
  rcases h with (h | h) | h
  · exact .inl (.inl (isWordChar_of_isDigit h))
  · exact .inr h
  · cases (Bool.or_eq_true _ _).mp h
    case inl h => exact .inl (.inl ((of_decide_eq_true h) ▸ rfl))
    case inr h => exact .inl (.inl ((of_decide_eq_true h) ▸ rfl))

-- All lexemes but schema URIs end where no character of a schema URI stands.
theorem cuts_of_admits (h : k.Admits w) (hk : k ≠ .schemaUri) (hr : r.Stops isUriChar) :
    Cuts k w r := by
  have hw := hr.mono fun _ => isUriChar_of_continuesWord
  have hn := hr.mono fun _ => isUriChar_of_continuesNumber
  cases k
  case schemaUri  => exact absurd rfl hk
  case identifier => exact cuts_name h hw
  case string     => exact cuts_string h r
  case number     => exact cuts_number h hn
  case leftParen | rightParen | leftBracket | rightBracket | dot | colon =>
    rw [show w = [_] from h]
    exact cuts_mark rfl r
  all_goals exact cuts_reserved h hw

theorem splitLastColon?_eq_none (h : ':' ∉ t) : splitLastColon? t = none := by
  induction t
  case nil => rfl
  case cons c r ih =>
    have hc : c ≠ ':' := fun hc => h (hc ▸ List.mem_cons_self)
    simp [splitLastColon?, ih fun hr => h (List.mem_cons_of_mem _ hr), hc]

theorem splitLastColon?_append (h : ':' ∉ u) : splitLastColon? (t ++ ':' :: u) = some (t, u) := by
  induction t
  case nil          => simp [splitLastColon?, splitLastColon?_eq_none h]
  case cons c t ih  => simp [splitLastColon?, ih]

theorem ne_colon_of_isWord (h : IsWord w) (hc : c ∈ w) : c ≠ ':' := by
  rintro rfl
  have ⟨d, hd, hl⟩ := h.head
  have ht := h.tail
  cases w
  case nil => cases hc
  case cons e w =>
    cases hd
    cases hc
    case head => revert hl; decide
    case tail hc => cases ht _ hc

-- Behind a schema URI stands a colon, and then a name.
theorem cuts_schemaUri (hw : IsSchemaUri w) (hn : (t.takeWhile isUriChar) ≠ [])
    (hc : ':' ∉ t.takeWhile isUriChar) : Cuts .schemaUri w (':' :: t) := by
  have hl := hw.longer
  have hs : startsUri (w ++ ':' :: t) = true :=
    (startsUri_append (Nat.le_of_lt hl)).trans hw.scheme
  have ⟨a, _, _, u, he, ha, _, _⟩ := of_startsUri hs
  have hr : (w ++ ':' :: t).takeWhile isUriChar = w ++ ':' :: t.takeWhile isUriChar := by
    rw [List.takeWhile_append_of_pos hw.chars, List.takeWhile_cons_of_pos rfl]
  have hu : schemaUri (w ++ ':' :: t) = .ok ⟨.schemaUri, w, ':' :: t⟩ := by
    simp only [schemaUri, hr, splitLastColon?_append hc, if_pos (And.intro hl hn)]
    rw [List.drop_left]
  refine ⟨a, _, he, ?_⟩
  rw [he] at hs hu
  have hq : a ≠ '"' := by rintro rfl; cases ha
  have hd := beginsNumber_eq_false (.inl ha)
  simp only [first, ofMark?_eq_none (.inl (isWordChar_of_isLetter ha)), hq, hd, ha, hs, hu, if_false,
    if_true, Bool.false_eq_true, Bool.true_or]

-- What stands behind the colon begins with a character of a schema URI, and has no colon in it.
theorem cuts_schemaUri_before (hw : IsSchemaUri w) (hu : ∃ c ∈ u.head?, isUriChar c = true)
    (hn : ∀ c ∈ u, c ≠ ':') (hr : r.Stops isUriChar) : Cuts .schemaUri w (':' :: (u ++ r)) := by
  have ⟨c, hc, hl⟩ := hu
  refine cuts_schemaUri hw ?_ ?_
  case refine_1 =>
    cases u
    case nil => cases hc
    case cons =>
      cases hc
      rw [List.cons_append, List.takeWhile_cons_of_pos hl]
      exact List.cons_ne_nil _ _
  case refine_2 => exact fun hm => hn _ (mem_of_mem_takeWhile_append hr hm) rfl

end AttributeFilter.Lexeme
