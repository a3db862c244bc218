import AttributeFilter.Proofs.Text.Runs
import AttributeFilter.Text.Quoted

/-!
The grammar of string literals. A text is decoded if and only if it is a literal of the grammar, and to
the text that the literal writes; every text has a literal. The scanner finds the end of a literal,
whatever stands behind it.
-/

namespace AttributeFilter.Text.Quoted

-- Four hexadecimal digits and the number that they write.
structure IsQuad (n : Nat) (q : Text) : Prop where
  length  : q.length = 4
  numeral : numeral? 16 q = some n

-- The letters that name a character behind a backslash.
def namedEscapes : List (Char × Char) :=
  [('"', '"'), ('\\', '\\'), ('/', '/'), ('b', '\x08'), ('f', '\x0c'), ('n', '\n'), ('r', '\r'),
   ('t', '\t')]

-- What writes a character behind a backslash. A surrogate writes no character on its own; two of them, a
-- high one and a low one, write a character beyond the first 65536.
inductive Escapes : Char → Text → Prop
  | named : (letter, c) ∈ namedEscapes → Escapes c [letter]
  | numbered : IsQuad n q → ¬isHighSurrogate n → ¬isLowSurrogate n → Escapes (.ofNat n) ('u' :: q)
  | paired : IsQuad n q → IsQuad m q' → isHighSurrogate n → isLowSurrogate m →
    Escapes (.ofNat (0x10000 + (n - 0xD800) * 0x400 + (m - 0xDC00)))
      ('u' :: (q ++ '\\' :: 'u' :: q'))

-- How one character is written between the quotes of a literal.
inductive WritesChar : Char → Text → Prop
  | plain : c ≠ '"' → c ≠ '\\' → 0x20 ≤ c.toNat → WritesChar c [c]
  | escaped : Escapes c w → WritesChar c ('\\' :: w)

inductive WritesBody : Text → Text → Prop
  | nil : WritesBody [] []
  | cons : WritesChar c w → WritesBody t u → WritesBody (c :: t) (w ++ u)

-- A literal writes a text between two quotes.
def Writes (t w : Text) : Prop :=
  ∃ u, WritesBody t u ∧ w = '"' :: (u ++ ['"'])

variable {c : Char} {r s t u w : Text} {m n : Nat}

theorem unescape?_eq_some_iff {letter : Char} :
    unescape? letter = some c ↔ (letter, c) ∈ namedEscapes := by
  simp only [namedEscapes, List.mem_cons, Prod.mk.injEq, List.not_mem_nil, or_false]
  unfold unescape?
  split <;> simp_all [eq_comm]

theorem hexQuad?_eq_some_iff : hexQuad? t = some (n, r) ↔ ∃ q, IsQuad n q ∧ t = q ++ r := by
  constructor
  case mp =>
    intro h
    unfold hexQuad? at h
    split at h
    case h_1 a b c d rest =>
      have ⟨_, hn, he⟩ := Option.map_eq_some_iff.mp h
      cases he
      exact ⟨[a, b, c, d], ⟨rfl, hn⟩, rfl⟩
    case h_2 => cases h
  case mpr =>
    intro ⟨q, hq, ht⟩
    match q, hq.length with
    | [a, b, c, d], _ => rw [ht]; simp [hexQuad?, hq.numeral]

theorem lowHalf?_eq_some_iff :
    lowHalf? t = some (m, r) ↔
      ∃ q, IsQuad m q ∧ isLowSurrogate m = true ∧ t = '\\' :: 'u' :: (q ++ r) := by
  constructor
  case mp =>
    intro h
    unfold lowHalf? at h
    split at h
    case h_1 =>
      have ⟨hq, hm⟩ := Option.filter_eq_some_iff.mp h
      have ⟨q, hq, ht⟩ := hexQuad?_eq_some_iff.mp hq
      exact ⟨q, hq, hm, by rw [ht]⟩
    case h_2 => cases h
  case mpr =>
    rintro ⟨q, hq, hm, rfl⟩
    exact Option.filter_eq_some_iff.mpr ⟨hexQuad?_eq_some_iff.mpr ⟨q, hq, rfl⟩, hm⟩

theorem exists_escapes_of_scalar? {q : Text} (hq : IsQuad n q) (h : scalar? n t = some (c, r)) :
    ∃ w, Escapes c ('u' :: w) ∧ q ++ t = w ++ r := by
  unfold scalar? at h
  split at h
  case isTrue hh =>
    have ⟨⟨m, v⟩, hm, he⟩ := Option.map_eq_some_iff.mp h
    have ⟨q', hq', hl, ht⟩ := lowHalf?_eq_some_iff.mp hm
    have ⟨hc, hr⟩ := Prod.mk.inj he
    subst hc hr
    exact ⟨_, .paired hq hq' hh hl, by simp [ht]⟩
  case isFalse hh =>
    split at h
    case isTrue     => cases h
    case isFalse hl =>
      have ⟨hc, hr⟩ := Prod.mk.inj (Option.some.inj h)
      exact ⟨q, hc ▸ .numbered hq hh hl, hr ▸ rfl⟩

theorem escape?_number :
    escape? ('u' :: t) = (hexQuad? t).bind fun (n, rest) => scalar? n rest := by
  rw [escape?, if_pos rfl]

theorem escape?_name {letter : Char} (h : letter ≠ 'u') :
    escape? (letter :: t) = (unescape? letter).map (·, t) := by
  rw [escape?, if_neg h]

theorem exists_escapes_of_escape? (h : escape? t = some (c, r)) :
    ∃ w, Escapes c w ∧ t = w ++ r := by
  cases t
  case nil => cases h
  case cons letter t =>
    by_cases hu : letter = 'u'
    case pos =>
      rw [hu, escape?_number] at h
      have ⟨⟨n, v⟩, hn, hs⟩ := Option.bind_eq_some_iff.mp h
      have ⟨q, hq, ht⟩ := hexQuad?_eq_some_iff.mp hn
      have ⟨w, hw, hv⟩ := exists_escapes_of_scalar? hq hs
      exact ⟨'u' :: w, hw, by rw [hu, ht, hv]; rfl⟩
    case neg =>
      rw [escape?_name hu] at h
      have ⟨_, hc, he⟩ := Option.map_eq_some_iff.mp h
      cases he
      exact ⟨[letter], .named (unescape?_eq_some_iff.mp hc), rfl⟩

theorem escape?_of_escapes (h : Escapes c w) (r : Text) : escape? (w ++ r) = some (c, r) := by
  cases h
  case named letter hm =>
    have hu : letter ≠ 'u' := by rintro rfl; revert hm; simp [namedEscapes]
    simp [escape?, hu, unescape?_eq_some_iff.mpr hm]
  case numbered hq hh hl =>
    simp [escape?, hexQuad?_eq_some_iff.mpr ⟨_, hq, rfl⟩, scalar?, hh, hl]
  case paired n q m q' hq hq' hh hl =>
    have hm : lowHalf? ('\\' :: 'u' :: (q' ++ r)) = some (m, r) :=
      lowHalf?_eq_some_iff.mpr ⟨q', hq', hl, rfl⟩
    simp [escape?, hexQuad?_eq_some_iff.mpr ⟨_, hq, rfl⟩, scalar?, hh, hm]

theorem decodeBody?_escape {rest : Text} (h : escape? r = some (c, rest)) :
    decodeBody? ('\\' :: r) = (decodeBody? rest).map (c :: ·) := by
  rw [decodeBody?]
  split
  · next h' => simp [h] at h'
  · next h' =>
    obtain ⟨rfl, rfl⟩ := by simpa [h] using h'
    rfl

theorem decodeBody?_plain (hq : c ≠ '"') (hb : c ≠ '\\') (hc : ¬c.toNat < 0x20) :
    decodeBody? (c :: r) = (decodeBody? r).map (c :: ·) := by
  rw [decodeBody?, if_neg hc]
  all_goals assumption

theorem decodeBody?_quote : decodeBody? ['"'] = some [] := by
  simp [decodeBody?]

theorem decodeBody?_of_writesChar (h : WritesChar c w) :
    decodeBody? (w ++ r) = (decodeBody? r).map (c :: ·) := by
  cases h
  case plain hq hb hc => exact decodeBody?_plain hq hb (Nat.not_lt.mpr hc)
  case escaped hw     => exact decodeBody?_escape (escape?_of_escapes hw r)

theorem decodeBody?_eq_some_iff : decodeBody? w = some t ↔ ∃ u, WritesBody t u ∧ w = u ++ ['"'] := by
  constructor
  case mp =>
    intro h
    fun_induction decodeBody? w generalizing t
    case case1 => cases h
    case case2 r hr =>
      cases h
      exact ⟨[], .nil, by rw [List.isEmpty_iff.mp hr]; rfl⟩
    case case3 => cases h
    case case4 => cases h
    case case5 r c rest he ih =>
      have ⟨s, hs, ht⟩ := Option.map_eq_some_iff.mp h
      have ⟨u, hu, hr⟩ := ih hs
      have ⟨v, hv, hr'⟩ := exists_escapes_of_escape? he
      subst ht
      exact ⟨_, .cons (.escaped hv) hu, by simp [hr', hr]⟩
    case case6 => cases h
    case case7 c r hq hb hc ih =>
      have ⟨s, hs, ht⟩ := Option.map_eq_some_iff.mp h
      have ⟨u, hu, hr⟩ := ih hs
      subst ht
      exact ⟨_, .cons (.plain hq hb (Nat.not_lt.mp hc)) hu, by simp [hr]⟩
  case mpr =>
    rintro ⟨u, hu, rfl⟩
    induction hu
    case nil           => exact decodeBody?_quote
    case cons hc _ ih => rw [List.append_assoc, decodeBody?_of_writesChar hc, ih]; rfl

-- A text is decoded if and only if it is a literal, to the text that the literal writes.
theorem decode?_eq_some_iff : decode? w = some t ↔ Writes t w := by
  unfold decode? Writes
  split
  case h_1 r =>
    rw [decodeBody?_eq_some_iff]
    simp
  case h_2 h =>
    constructor
    case mp  => nofun
    case mpr => rintro ⟨u, _, rfl⟩; exact absurd rfl (h _)

theorem mem_namedEscapes_of_shortEscape? {letter : Char} (h : shortEscape? c = some letter) :
    (letter, c) ∈ namedEscapes := by
  unfold shortEscape? at h
  repeat' split at h
  all_goals simp_all [namedEscapes, eq_comm]

theorem ne_of_shortEscape?_eq_none (h : shortEscape? c = none) : c ≠ '"' ∧ c ≠ '\\' := by
  constructor
  all_goals
    rintro rfl
    revert h
    decide

theorem isQuad_padLeft : ∀ n < 0x20, IsQuad n (padLeft 4 '0' (Nat.toDigits 16 n)) := by
  have h : ∀ n < 0x20, (padLeft 4 '0' (Nat.toDigits 16 n)).length = 4 ∧
      numeral? 16 (padLeft 4 '0' (Nat.toDigits 16 n)) = some n := by
    decide
  exact fun n hn => ⟨(h n hn).left, (h n hn).right⟩

theorem writesChar_encodeChar (c : Char) : WritesChar c (encodeChar c) := by
  unfold encodeChar
  split
  case h_1 h => exact .escaped (.named (mem_namedEscapes_of_shortEscape? h))
  case h_2 h =>
    split
    case isTrue hc =>
      have hs : ¬isHighSurrogate c.toNat ∧ ¬isLowSurrogate c.toNat := by
        simp [isHighSurrogate, isLowSurrogate]
        omega
      have hw := Escapes.numbered (isQuad_padLeft c.toNat hc) hs.left hs.right
      rw [Char.ofNat_toNat] at hw
      exact .escaped hw
    case isFalse hc =>
      have hb := ne_of_shortEscape?_eq_none h
      exact .plain hb.left hb.right (Nat.not_lt.mp hc)

theorem writes_encode (t : Text) : Writes t (encode t) := by
  refine ⟨t.flatMap encodeChar, ?_, rfl⟩
  induction t
  case nil         => exact .nil
  case cons c t ih => exact .cons (writesChar_encodeChar c) ih

theorem decode?_encode (t : Text) : decode? (encode t) = some t :=
  decode?_eq_some_iff.mpr (writes_encode t)

theorem throughQuote?_quote : throughQuote? ('"' :: r) = some (['"'], r) := by
  rw [throughQuote?.eq_def]
  rfl

theorem throughQuote?_escape {d : Char} :
    throughQuote? ('\\' :: d :: r) =
      (throughQuote? r).map fun (t, rest) => ('\\' :: d :: t, rest) := by
  rw [throughQuote?.eq_def]
  rfl

theorem throughQuote?_plain (hq : c ≠ '"') (hb : c ≠ '\\') :
    throughQuote? (c :: r) = (throughQuote? r).map fun (t, rest) => (c :: t, rest) := by
  rw [throughQuote?.eq_def]
  simp [hq, hb]

theorem throughQuote?_append {q : Text} (h : ∀ c ∈ q, c ≠ '"' ∧ c ≠ '\\') :
    throughQuote? (q ++ r) = (throughQuote? r).map fun (t, rest) => (q ++ t, rest) := by
  induction q
  case nil => simp
  case cons c q ih =>
    have ⟨hq, hb⟩ := h c List.mem_cons_self
    have ih := ih fun d hd => h d (List.mem_cons_of_mem _ hd)
    simp only [List.cons_append, throughQuote?_plain hq hb, ih, Option.map_map]
    rfl

theorem IsQuad.exists_digitValue? {q : Text} (h : IsQuad n q) :
    ∀ c ∈ q, ∃ v, digitValue? 16 c = some v := by
  match q, h.length, h.numeral with
  | [a, b, c, d], _, hn =>
    simp only [numeral?, List.isEmpty_cons, Bool.false_eq_true, if_false, Option.map_eq_some_iff,
      List.mapM_cons, List.mapM_nil, Option.bind_eq_bind, Option.bind_eq_some_iff] at hn
    grind

theorem IsQuad.ne_of_mem {q : Text} (h : IsQuad n q) : ∀ c ∈ q, c ≠ '"' ∧ c ≠ '\\' := by
  intro c hc
  have ⟨v, hv⟩ := h.exists_digitValue? c hc
  constructor
  all_goals
    rintro rfl
    revert hv
    decide +revert

-- An escape has no quote behind its first character, so none is taken for the end.
theorem throughQuote?_of_writesChar (h : WritesChar c w) :
    throughQuote? (w ++ r) = (throughQuote? r).map fun (t, rest) => (w ++ t, rest) := by
  cases h
  case plain hq hb _ => exact throughQuote?_plain hq hb
  case escaped hw =>
    cases hw
    case named => exact throughQuote?_escape
    case numbered hq _ _ =>
      refine throughQuote?_escape.trans ?_
      rw [List.append_eq, throughQuote?_append hq.ne_of_mem, Option.map_map]
      rfl
    case paired hq hq' _ _ =>
      refine throughQuote?_escape.trans ?_
      simp only [List.append_eq, List.append_assoc, List.cons_append, throughQuote?_append hq.ne_of_mem,
        throughQuote?_escape, throughQuote?_append hq'.ne_of_mem, Option.map_map]
      rfl

theorem throughQuote?_of_writesBody (h : WritesBody t u) :
    throughQuote? (u ++ '"' :: r) = some (u ++ ['"'], r) := by
  induction h
  case nil          => exact throughQuote?_quote
  case cons hc _ ih => simp [throughQuote?_of_writesChar hc, ih]

-- A literal can be read off the front of a text.
theorem encode_append_inj (h : encode t ++ r = encode u ++ s) : t = u ∧ r = s := by
  have ⟨v, hv, ht⟩ := writes_encode t
  have ⟨w, hw, hu⟩ := writes_encode u
  have h : v ++ '"' :: r = w ++ '"' :: s := by simpa [ht, hu] using h
  have hvw := (throughQuote?_of_writesBody hv).symm.trans (h ▸ throughQuote?_of_writesBody hw)
  have ⟨he, hrs⟩ := Prod.mk.inj (Option.some.inj hvw)
  have hd : decode? (encode t) = decode? (encode u) := by rw [ht, hu, he]
  rw [decode?_encode, decode?_encode] at hd
  exact ⟨Option.some.inj hd, hrs⟩

theorem le_toNat_of_digitValue? {base v : Nat} (h : digitValue? base c = some v) : 0x20 ≤ c.toNat := by
  have ⟨h, _⟩ := Option.filter_eq_some_iff.mp h
  apply Nat.le_of_not_lt
  intro hc
  have hd (d : Char) (hd : 0x20 ≤ d.toNat) : ¬d ≤ c :=
    fun hle => absurd hc (Nat.not_lt.mpr (Nat.le_trans hd hle))
  simp [isDigit, hd '0' (by decide), hd 'a' (by decide), hd 'A' (by decide)] at h

theorem Escapes.le_toNat (h : Escapes c w) : ∀ d ∈ w, 0x20 ≤ d.toNat := by
  have hq {q : Text} {n : Nat} (h : IsQuad n q) : ∀ d ∈ q, 0x20 ≤ d.toNat := fun d hd =>
    have ⟨_, hv⟩ := h.exists_digitValue? d hd
    le_toNat_of_digitValue? hv
  cases h
  case named letter hm =>
    have hn : ∀ p ∈ namedEscapes, 0x20 ≤ p.1.toNat := by decide
    exact List.forall_mem_singleton.mpr (hn _ hm)
  case numbered h _ _ => exact List.forall_mem_cons.mpr ⟨by decide, hq h⟩
  case paired h h' _ _ =>
    refine List.forall_mem_cons.mpr ⟨by decide, List.forall_mem_append.mpr ⟨hq h, ?_⟩⟩
    exact List.forall_mem_cons.mpr ⟨by decide, List.forall_mem_cons.mpr ⟨by decide, hq h'⟩⟩

-- No literal holds a control character.
theorem Writes.le_toNat (h : Writes t w) : ∀ d ∈ w, 0x20 ≤ d.toNat := by
  have ⟨u, hu, hw⟩ := h
  have hb : ∀ d ∈ u, 0x20 ≤ d.toNat := by
    clear h hw
    induction hu
    case nil => nofun
    case cons hc _ ih =>
      refine List.forall_mem_append.mpr ⟨?_, ih⟩
      cases hc
      case plain hc    => exact List.forall_mem_singleton.mpr hc
      case escaped hw' => exact List.forall_mem_cons.mpr ⟨by decide, hw'.le_toNat⟩
  rw [hw]
  exact List.forall_mem_cons.mpr
    ⟨by decide, List.forall_mem_append.mpr ⟨hb, List.forall_mem_singleton.mpr (by decide)⟩⟩

theorem Writes.getLast? (h : Writes t w) : w.getLast? = some '"' := by
  have ⟨u, _, hw⟩ := h
  rw [hw, ← List.cons_append, List.getLast?_concat]

-- A literal starts and ends with a quote, so there is nothing around it to be dropped.
theorem decodePadded?_of_isSome (h : (decode? t).isSome) : decodePadded? t = decode? t := by
  have ⟨s, hs⟩ := Option.isSome_iff_exists.mp h
  have ⟨u, _, ht⟩ := decode?_eq_some_iff.mp hs
  subst ht
  have hd : isPadding '"' = false := by decide
  simp [decodePadded?, hd]

end AttributeFilter.Text.Quoted
