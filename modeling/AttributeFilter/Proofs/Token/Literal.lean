import AttributeFilter.Grammar.Basic
import AttributeFilter.Proofs.Token.Makes
import Mathlib.Data.List.TakeWhile

/-!
String literals at the front of a text. The scanner looks for the first quote that no backslash escapes, and the
grammar of literals knows nothing of that; still it is where a literal ends, if one stands there at all.
-/

namespace AttributeFilter

open Text

namespace Text

variable {c d : Char} {t u v : Text}

-- The last character is a backslash that is not escaped itself: the backslashes at the end are odd in number.
def Escapes (t : Text) : Prop :=
  (t.reverse.takeWhile (· = '\\')).length % 2 = 1

-- Every quote is escaped.
def HidesQuotes (t : Text) : Prop :=
  ∀ u v, t = u ++ '"' :: v → u.Escapes

-- The first quote in `t` that is not escaped stands between `u` and `v`.
structure FirstQuote (t u v : Text) : Prop where
  append : u ++ '"' :: v = t
  plain  : ¬u.Escapes
  hidden : u.HidesQuotes

theorem not_escapes_nil : ¬Escapes [] :=
  nofun

theorem escapes_cons_iff (hc : c ≠ '\\') : Escapes (c :: t) ↔ t.Escapes := by
  have hs : Stops (· = '\\') [c] := .cons (decide_eq_false hc)
  rw [Escapes, List.reverse_cons, takeWhile_append_of_stops hs, Escapes]

-- A backslash and what it escapes say nothing about what follows.
theorem escapes_pair_iff : Escapes ('\\' :: d :: t) ↔ t.Escapes := by
  rw [Escapes, List.reverse_cons, List.reverse_cons, List.append_assoc, Escapes]
  by_cases hd : d = '\\'
  case neg =>
    have hs : Stops (· = '\\') ([d] ++ ['\\']) := .cons (decide_eq_false hd)
    rw [takeWhile_append_of_stops hs]
  case pos =>
    subst hd
    by_cases ht : ∀ c ∈ t.reverse, decide (c = '\\') = true
    case pos =>
      rw [List.takeWhile_append_of_pos ht, List.takeWhile_eq_self_iff.mpr ht, List.length_append]
      exact iff_of_eq (congrArg (· = 1) (Nat.add_mod_right _ 2))
    case neg =>
      rw [List.takeWhile_append, if_neg]
      exact fun hl => ht (List.takeWhile_eq_self_iff.mp ((List.takeWhile_prefix _).eq_of_length hl))

theorem hidesQuotes_of_notMem (h : '"' ∉ t) : t.HidesQuotes :=
  fun u _ ht => absurd (ht ▸ List.mem_append_right u List.mem_cons_self) h

theorem hidesQuotes_cons_iff (hq : c ≠ '"') (hc : c ≠ '\\') : HidesQuotes (c :: t) ↔ t.HidesQuotes := by
  constructor
  case mp  => exact fun h u v ht => (escapes_cons_iff hc).mp (h (c :: u) v (congrArg (c :: ·) ht))
  case mpr =>
    intro h u v ht
    cases u
    case nil => exact absurd (List.cons.inj ht).left hq
    case cons =>
      have ⟨he, ht⟩ := List.cons.inj ht
      exact he ▸ (escapes_cons_iff hc).mpr (h _ v ht)

theorem hidesQuotes_pair_iff : HidesQuotes ('\\' :: d :: t) ↔ t.HidesQuotes := by
  constructor
  case mp  => exact fun h u v ht => escapes_pair_iff.mp (h ('\\' :: d :: u) v (congrArg ('\\' :: d :: ·) ht))
  case mpr =>
    intro h u v ht
    match u with
    | []         => exact absurd (List.cons.inj ht).left (by decide)
    | [_]        => exact (List.cons.inj ht).left ▸ rfl
    | _ :: _ :: u =>
      have ⟨hb, ht⟩ := List.cons.inj ht
      have ⟨_, ht⟩ := List.cons.inj ht
      exact hb ▸ escapes_pair_iff.mpr (h u v ht)

namespace FirstQuote

variable {t' u' v' : Text}

theorem length_le (h : FirstQuote t u v) (h' : FirstQuote t u' v') : u'.length ≤ u.length := by
  apply Nat.le_of_not_lt
  intro hlt
  have hu : u ++ ['"'] <+: t := ⟨v, (List.append_assoc ..).trans h.append⟩
  have hl : (u ++ ['"']).length ≤ u'.length := by rwa [List.length_append]
  have ⟨w, hw⟩ := List.prefix_of_prefix_length_le hu ⟨_, h'.append⟩ hl
  exact h.plain (h'.hidden u w (hw.symm.trans (List.append_assoc ..)))

theorem unique (h : FirstQuote t u v) (h' : FirstQuote t u' v') : u = u' := by
  have hl := Nat.le_antisymm (h'.length_le h) (h.length_le h')
  exact (List.append_inj (h.append.trans h'.append.symm) hl).left

theorem not_hidesQuotes (h : FirstQuote t u v) : ¬t.HidesQuotes :=
  fun ht => h.plain (ht u v h.append.symm)

theorem cons (h : FirstQuote t u v) (hq : c ≠ '"') (hc : c ≠ '\\') : FirstQuote (c :: t) (c :: u) v where
  append := congrArg (c :: ·) h.append
  plain  := mt (escapes_cons_iff hc).mp h.plain
  hidden := (hidesQuotes_cons_iff hq hc).mpr h.hidden

theorem pair (h : FirstQuote t u v) (d : Char) : FirstQuote ('\\' :: d :: t) ('\\' :: d :: u) v where
  append := congrArg ('\\' :: d :: ·) h.append
  plain  := mt escapes_pair_iff.mp h.plain
  hidden := hidesQuotes_pair_iff.mpr h.hidden

end FirstQuote

-- The scanner finds the first quote that is not escaped.
theorem throughQuote?_spec (t : Text) :
    (Quoted.throughQuote? t = none ∧ t.HidesQuotes) ∨
      ∃ u v, Quoted.throughQuote? t = some (u ++ ['"'], v) ∧ FirstQuote t u v := by
  fun_induction Quoted.throughQuote? t
  case case1 => exact .inl ⟨rfl, hidesQuotes_of_notMem List.not_mem_nil⟩
  case case2 r => exact .inr ⟨[], r, rfl, rfl, not_escapes_nil, hidesQuotes_of_notMem List.not_mem_nil⟩
  case case3 => exact .inl ⟨rfl, hidesQuotes_of_notMem (by decide)⟩
  case case4 d s _ ih =>
    rcases ih with ⟨hn, hs⟩ | ⟨u, v, ht, hf⟩
    · exact .inl ⟨by rw [hn]; rfl, hidesQuotes_pair_iff.mpr hs⟩
    · exact .inr ⟨_, v, by rw [ht]; rfl, hf.pair d⟩
  case case5 c r hq hc ih =>
    rcases ih with ⟨hn, hr⟩ | ⟨u, v, ht, hf⟩
    · exact .inl ⟨by rw [hn]; rfl, (hidesQuotes_cons_iff hq hc).mpr hr⟩
    · exact .inr ⟨_, v, by rw [ht]; rfl, hf.cons hq hc⟩

-- Some text is written as a literal.
def IsLiteral (w : Text) : Prop :=
  ∃ t, Quoted.Writes t w

end Text

namespace Lexeme

variable {l : Lexeme} {r w w' v : Text}

theorem string_of_isLiteral (h : w.IsLiteral) (he : w ++ v = '"' :: r) : string r = .ok ⟨.string, w, v⟩ := by
  have ⟨t, ht⟩ := h
  have hd : (Quoted.decode? w).isSome := Option.isSome_iff_exists.mpr ⟨t, Quoted.decode?_eq_some_iff.mpr ht⟩
  have ⟨c, u, hu, hf⟩ := cuts_string hd v
  cases he.symm.trans hu
  exact hf

theorem string_eq_ok_iff :
    string r = .ok l ↔ l.kind = .string ∧ l.text.IsLiteral ∧ l.text ++ l.rest = '"' :: r := by
  constructor
  case mp =>
    intro h
    have ⟨hk, hd⟩ := decode?_of_string h
    have ⟨t, ht⟩ := Option.isSome_iff_exists.mp hd
    exact ⟨hk, ⟨t, Quoted.decode?_eq_some_iff.mp ht⟩, (string_starts h).append⟩
  case mpr =>
    rintro ⟨hk, hl, he⟩
    rw [string_of_isLiteral hl he, ← hk]

theorem literal_unique (h : w.IsLiteral) (h' : w'.IsLiteral) (hp : w <+: '"' :: r) (hp' : w' <+: '"' :: r) :
    w = w' := by
  have ⟨v, hv⟩ := hp
  have ⟨v', hv'⟩ := hp'
  have he := (string_of_isLiteral h hv).symm.trans (string_of_isLiteral h' hv')
  exact congrArg Lexeme.text (Except.ok.inj he)

theorem quoted_of_string_error (h : string r = .error w) :
    (∃ u v, FirstQuote r u v ∧ w = '"' :: (u ++ ['"'])) ∨ (r.HidesQuotes ∧ w = '"' :: r) := by
  rcases throughQuote?_spec r with ⟨hn, hr⟩ | ⟨u, v, ht, hf⟩
  case inl =>
    rw [string, hn] at h
    exact .inr ⟨hr, (Except.error.inj h).symm⟩
  case inr =>
    rw [string, ht] at h
    refine .inl ⟨u, v, hf, ?_⟩
    simp only at h
    split at h
    case isTrue  => cases h
    case isFalse => exact (Except.error.inj h).symm

theorem string_eq_error_iff : string r = .error w ↔ (∀ v : Text, v.IsLiteral → ¬v <+: '"' :: r) ∧
    ((∃ u v, FirstQuote r u v ∧ w = '"' :: (u ++ ['"'])) ∨ (r.HidesQuotes ∧ w = '"' :: r)) := by
  constructor
  case mp =>
    intro h
    refine ⟨?_, quoted_of_string_error h⟩
    rintro v hv ⟨s, hs⟩
    cases h.symm.trans (string_of_isLiteral hv hs)
  case mpr =>
    rintro ⟨hl, hw⟩
    cases hs : string r
    case ok l =>
      have ⟨_, ht, he⟩ := string_eq_ok_iff.mp hs
      exact absurd ⟨_, he⟩ (hl _ ht)
    case error w' =>
      congr 1
      rcases hw, quoted_of_string_error hs with
        ⟨⟨u, v, hf, hw⟩ | ⟨hr, hw⟩, ⟨u', v', hf', hw'⟩ | ⟨hr', hw'⟩⟩
      case inl.inl => rw [hw, hw', hf.unique hf']
      case inl.inr => exact absurd hr' hf.not_hidesQuotes
      case inr.inl => exact absurd hr hf'.not_hidesQuotes
      case inr.inr => rw [hw, hw']

end Lexeme

theorem literalValue_encode {k : Token} {t : Text} (hk : k.kind = .string) (ht : k.text = Quoted.encode t) :
    Grammar.literalValue k = .ok (.string t) := by
  have hd : Quoted.decodePadded? k.text = some t := by
    rw [ht, Quoted.decodePadded?_of_isSome (by rw [Quoted.decode?_encode]; rfl), Quoted.decode?_encode]
  simp only [Grammar.literalValue, hk, hd]

theorem exists_scan_literal (t r : Text) :
    ∃ k ks, (Scanner.ofText ((Value.string t).text ++ r)).scan.tokens = k :: ks ∧ k.kind = .string ∧
      k.text = (Value.string t).text ∧ Grammar.literalValue k = .ok (.string t) := by
  have hd : (Quoted.decode? (Quoted.encode t)).isSome := by rw [Quoted.decode?_encode]; rfl
  have ⟨k, s, hk, ht, hn, _⟩ := Scanner.next?_of_cuts (Lexeme.cuts_string hd r)
    (s := .ofText (Quoted.encode t ++ r)) (.of_eq rfl)
  exact ⟨k, s.scan.tokens, congrArg Scan.tokens (Scanner.scan_of_token hn), hk, ht, literalValue_encode hk ht⟩

-- A literal at the front of a text is cut off it, and only that. Where there is none, the scanner quotes the text
-- through the first quote that is not escaped, or all of it. So a text that has been written as a literal is read
-- back, whatever stands behind it.
theorem string_agrees (r : Text) :
    (∀ l, Lexeme.string r = .ok l ↔ l.kind = .string ∧ l.text.IsLiteral ∧ l.text ++ l.rest = '"' :: r) ∧
    (∀ w w' : Text, w.IsLiteral → w'.IsLiteral → w <+: '"' :: r → w' <+: '"' :: r → w = w') ∧
    (∀ w, Lexeme.string r = .error w ↔ (∀ v : Text, v.IsLiteral → ¬v <+: '"' :: r) ∧
      ((∃ u v, FirstQuote r u v ∧ w = '"' :: (u ++ ['"'])) ∨ (r.HidesQuotes ∧ w = '"' :: r))) ∧
    ∀ t, ∃ k ks, (Scanner.ofText ((Value.string t).text ++ r)).scan.tokens = k :: ks ∧ k.kind = .string ∧
      k.text = (Value.string t).text ∧ Grammar.literalValue k = .ok (.string t) :=
  ⟨fun _ => Lexeme.string_eq_ok_iff, fun _ _ => Lexeme.literal_unique, fun _ => Lexeme.string_eq_error_iff,
    fun t => exists_scan_literal t r⟩

end AttributeFilter
