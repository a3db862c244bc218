import AttributeFilter.Proofs.Grammar.Acceptance
import AttributeFilter.Proofs.Grammar.Viable

/-!
Refused tokens. An error is reported at the first token that no accepted tokens have at its place behind
what stands before it, or at the end, if there are such tokens that go on.
-/

namespace AttributeFilter.Grammar

open AttributeFilter.Parser Text
open List (prefix_append_right_inj)

variable {c ts us : List Token} {t : Token} {limit n : Nat} {limit' : Nat → Nat}

theorem factorAbove_blames_nil {factor? : Option (Rule (Option Tree))}
    {p' : Nat → Rule (Option Tree)} :
    Blames (factorAbove limit factor?) p' (Viable .factor) [] := by
  intro e he
  rw [factorAbove, fails_ahead_bind_iff] at he
  cases he
  exact .inl ⟨rfl, default, List.nil_prefix⟩

-- Behind the word `not` that is a name stands a test.
theorem notPath_blames {inner? : Option (Rule (Option Tree))}
    {inner?' : Nat → Option (Rule (Option Tree))} (hf : Fits (n + 1) (t :: ts)) (hk : t.kind = .not)
    (hn : isNext [.operator] ts = true) :
    Blames (factorAbove limit inner?) (fun k => factorAbove (limit' k) (inner?' k)) (Viable .factor)
      (t :: ts) := by
  let word : Terminal [.not] := .ofToken hk hf.head
  have hb := (test_blames hf.tail.lexemes).mono (W := fun c => Viable .factor (t :: c))
    fun c ⟨test, hc⟩ => ⟨.namedNot word test, (prefix_append_right_inj [t]).mpr hc⟩
  have hb : Blames (optional .operator test) (fun _ => optional .operator test) _ ts :=
    .optional fun _ => hb
  have hp {limit : Nat} {filter? : Option (Rule (Option Tree))} {us : List Token}
      (hn : isNext [.operator] us = true) : (path limit filter?).Yields (t :: us) _ us :=
    yields_path_notPath word hn
  refine hb.behind (fun e he => ?_) (fun k us tree? ws hh hy => ?_)
  case refine_1 =>
    have he := he.congr (factorAbove_eq_notPath hk hn).symm
    cases Parser.fails_bind_iff.mp ((hp hn).fails_bind_iff.mp (fails_map_iff.mp he))
    case inl he => exact he
    case inr he =>
      have ⟨t?, _, _, he⟩ := he
      cases t?
      case none => exact absurd he not_fails_pure
      case some => exact absurd he not_fails_pure
  case refine_2 =>
    have hn : isNext [.operator] us = true := (isNext_congr hh).trans hn
    have ⟨tree, hc, _⟩ := yields_map_iff.mp (hy.congr (factorAbove_eq_notPath hk hn).symm)
    have ⟨t?, xs, ht, _⟩ := yields_bind_iff.mp ((hp hn).bind_iff.mp hc)
    exact ⟨t?, xs, ht⟩

section

-- The rule of factors one level deeper.
variable (h : Predicts (s := .factor) n (factor limit n) fun k => factor (limit' k) (k + n))
include h

theorem valueFilter_blames (name : Name) (hf : Fits (n + 1) ts) :
    Blames (valueFilter limit (some (filter (factor limit n))))
      (fun k => valueFilter (limit' k) (some (filter (factor (limit' k) (k + n)))))
      (fun c => Viable .path (name.tokens ++ c)) ts := by
  refine .expect_bind ?_ fun t us hts hk => ?_
  case refine_1 => exact ⟨.bare name, (List.append_nil _).symm ▸ List.prefix_rfl⟩
  case refine_2 =>
    subst hts
    let left : Terminal [.leftBracket] := ⟨t, hk, hf.head⟩
    have hb := (h.filter.blames us hf.tail).mono
      (W := fun c => Viable .path (name.tokens ++ t :: c)) fun c ⟨d, hd⟩ =>
        ⟨.filtered name left d default none,
          (prefix_append_right_inj _).mpr
            ((prefix_append_right_inj [t]).mpr (hd.trans (List.prefix_append _ _)))⟩
    refine hb.bind (fun k => (h.agrees k).filter) fun f? c vs hy hc => ?_
    subst hc
    have ⟨d, hd⟩ := h.filter.exists_derivation hy hf.tail
    have hf := hf.tail.suffix (List.suffix_append c vs)
    refine .expect_bind ?_ fun u ws hvs hk => ?_
    case refine_1 =>
      refine ⟨.filtered name left d default none, ?_⟩
      simp [Derivation.tokens, hd, left]
    case refine_2 =>
      subst hvs
      let right : Terminal [.rightBracket] := ⟨u, hk, hf.head⟩
      have hs : Blames subAttribute (fun _ => subAttribute)
          (fun e => Viable .path (name.tokens ++ t :: (c ++ u :: e))) ws := by
        refine subAttribute_blames ?_ fun v xs hws hk => ?_
        case refine_1 =>
          refine ⟨.filtered name left d right none, ?_⟩
          simp [Derivation.tokens, hd, left, right]
        case refine_2 =>
          have hl := hf.lexemes v (by simp [hws])
          refine ⟨.filtered name left d right (some ⟨.ofToken hk hl, default⟩), ?_⟩
          simp [Derivation.tokens, hd, left, right, Member.tokens, Terminal.ofToken]
      exact (Blames.optional fun _ => hs).bind (fun _ => .optional .subAttribute) fun _ _ _ _ _ => .pure

theorem path_blames (hf : Fits (n + 1) ts) (ho : Opens .path ts) :
    Blames (path limit (some (filter (factor limit n))))
      (fun k => path (limit' k) (some (filter (factor (limit' k) (k + n))))) (Viable .path) ts := by
  have hb := (name_blames hf ho).mono (W := Viable .path) fun c ⟨m, hm⟩ => ⟨.bare m, hm⟩
  refine hb.bind (fun _ => .name) fun p c us hy hc => ?_
  subst hc
  have ⟨m, hm, _⟩ := name_sound hy hf.lexemes ho
  have hm : m.tokens = c := List.append_cancel_right hm
  have hv := valueFilter_blames h m (hf.suffix (List.suffix_append c us))
  rw [hm] at hv
  refine (Blames.optional fun _ => hv).bind
    (fun k => .optional (.valueFilter (h.agrees k).filter.below)) fun f? _ _ _ _ => ?_
  cases f?
  case none => exact .pure
  case some => exact .pure

theorem comparison_blames (hf : Fits (n + 1) ts) (ho : Opens .path ts) :
    Blames (comparison limit (some (filter (factor limit n))))
      (fun k => comparison (limit' k) (some (filter (factor (limit' k) (k + n)))))
      (Viable .factor) ts := by
  have hb := (path_blames h hf ho).mono (W := Viable .factor) fun c ⟨d, hd⟩ => ⟨.reference d, hd⟩
  refine hb.bind (fun k => .path (h.agrees k).filter.below) fun p c us hy hc => ?_
  subst hc
  have hy : (path limit ((below limit (n + 1)).map filter)).Yields (c ++ us) (p.1, p.2) us := hy
  have ⟨d, hd, _⟩ := path_sound (fun _ _ => factor_sound) hy hf.lexemes ho
  have hd : d.tokens = c := List.append_cancel_right hd
  have hb := test_blames (hf.suffix (List.suffix_append c us)).lexemes
  have hb := hb.mono (W := fun e => Viable .factor (c ++ e)) fun e ⟨test, he⟩ =>
    ⟨.comparison d test, hd ▸ (prefix_append_right_inj _).mpr he⟩
  refine (Blames.optional fun _ => hb).bind (fun _ => .optional .test) fun t? _ _ _ _ => ?_
  cases t?
  case none => exact .pure
  case some => exact .pure

theorem group_blames (hf : Fits (n + 1) ts) :
    Blames (group limit (some (filter (factor limit n))))
      (fun k => group (limit' k) (some (filter (factor (limit' k) (k + n))))) (Viable .factor) ts := by
  refine .expect_bind ⟨default, List.nil_prefix⟩ fun t us hts hk => ?_
  subst hts
  let left : Terminal [.leftParen] := ⟨t, hk, hf.head⟩
  have hb := (h.filter.blames us hf.tail).mono (W := fun c => Viable .factor (t :: c))
    fun c ⟨d, hd⟩ => ⟨.group left d default,
      (prefix_append_right_inj [t]).mpr (hd.trans (List.prefix_append _ _))⟩
  refine hb.bind (fun k => (h.agrees k).filter) fun f? c vs hy hc => ?_
  subst hc
  have ⟨d, hd⟩ := h.filter.exists_derivation hy hf.tail
  refine .expect_bind ⟨.group left d default, ?_⟩ fun _ _ _ _ => .pure
  simp [Derivation.tokens, hd, left]

-- Behind the word `not` stands a factor, unless an operator does.
theorem negation_blames (hf : Fits (n + 1) (t :: ts)) (hk : t.kind = .not)
    (hn : isNext [.operator] ts = false) :
    Blames (factorAbove limit (some (factor limit n)))
      (fun k => factorAbove (limit' k) (some (factor (limit' k) (k + n))))
      (Viable .factor) (t :: ts) := by
  have hm := List.mem_singleton.mpr hk
  have hb := (h.blames ts hf.tail).mono (W := fun c => Viable .factor (t :: c)) fun c ⟨d, hd⟩ =>
    ⟨.negation (.ofToken hk hf.head) d, (prefix_append_right_inj [t]).mpr hd⟩
  refine hb.behind (fun e he => ?_) (fun k us m ws hh hy => ?_)
  case refine_1 =>
    have he := he.congr (factorAbove_eq_negation hk hn).symm
    exact fails_bind_pure_iff.mp ((yields_expect hm).fails_bind_iff.mp he)
  case refine_2 =>
    have hn : isNext [.operator] us = false := (isNext_congr hh).trans hn
    have hy := hy.congr (factorAbove_eq_negation hk hn).symm
    have ⟨child?, vs, hc, _⟩ := yields_bind_iff.mp ((yields_expect hm).bind_iff.mp hy)
    exact ⟨child?, vs, hc⟩

theorem factorAbove_blames (hf : Fits (n + 1) ts) :
    Blames (factorAbove limit (some (factor limit n)))
      (fun k => factorAbove (limit' k) (some (factor (limit' k) (k + n)))) (Viable .factor) ts := by
  cases ts
  case nil => exact factorAbove_blames_nil
  case cons t ts =>
    have hh {us : List Token} (hu : us.head? = (t :: ts).head?) : ∃ vs, us = t :: vs :=
      List.head?_eq_some_iff.mp hu
    by_cases hk : t.kind ∈ openers
    case neg =>
      intro e he
      cases he.congr (factorAbove_eq_fail hk).symm
      refine .inr ⟨[], t, ts, rfl, .expectedExpression, ⟨default, List.nil_prefix⟩, ?_⟩
      intro k vs m ws hy
      exact not_yields_fail (hy.congr (factorAbove_eq_fail hk).symm)
    case pos =>
      rcases mem_openers_iff.mp hk with hk | hk | hk
      · cases hn : isNext [.operator] ts
        case false => exact negation_blames h hf hk hn
        case true  => exact notPath_blames hf hk hn
      · refine (group_blames h hf).congr (factorAbove_eq_group hk) fun k us hu => ?_
        have ⟨vs, hu⟩ := hh hu
        rw [hu, factorAbove_eq_group hk]
        rfl
      · have ho : Opens .path (t :: ts) := decide_eq_true hk
        refine ((comparison_blames h hf ho).map some).congr (factorAbove_eq_comparison hk) ?_
        intro k us hu
        have ⟨vs, hu⟩ := hh hu
        rw [hu, factorAbove_eq_comparison hk]
        rfl

end

-- Where no level is left, no token is left either.
theorem predicts_factor :
    Predicts (s := .factor) n (factor limit n) fun k => factor (limit' k) (k + n) := by
  refine ⟨factor_sound, fun k => .factor (Nat.le_add_left n k), ?_⟩
  induction n
  case zero =>
    intro ts hf
    have ht : ts = [] := List.eq_nil_of_length_eq_zero (Nat.le_zero.mp hf.length)
    exact ht ▸ factorAbove_blames_nil
  case succ n ih =>
    exact fun ts => factorAbove_blames ⟨factor_sound, fun k => .factor (Nat.le_add_left n k), ih⟩

theorem predicts_expression :
    Predicts (s := .filter) n (expression n) fun k => expression (k + n) :=
  predicts_factor.filter

end Grammar

open Grammar

variable {l : Limits} {ts us : List Token} {e : Error}

-- Lexemes that are parsed, if no limit of levels is in the way.
def Accepted (ts : List Token) : Prop :=
  (∀ t ∈ ts, t.IsLexeme) ∧ ∃ l : Limits, ts.length ≤ l.maxDepth ∧ ∃ f?, parseTokens l ts = .ok f?

theorem accepted_iff_derivation : Accepted ts ↔ ∃ d : Derivation .filter, d.tokens = ts := by
  constructor
  case mp =>
    rintro ⟨hlex, l, _, f?, h⟩
    have ⟨d, hd, _⟩ := of_parseTokens hlex h
    exact ⟨d, hd⟩
  case mpr =>
    rintro ⟨d, rfl⟩
    have ⟨f?, hf, _⟩ := exists_parseTokens (l := { maxDepth := d.tokens.length }) d (Nat.le_refl _)
    exact ⟨d.isLexeme, _, Nat.le_refl _, f?, hf⟩

-- It does not matter how many more levels may be opened.
theorem accepted_iff_parseTokens (hlex : ∀ t ∈ ts, t.IsLexeme) (hl : ts.length ≤ l.maxDepth) :
    Accepted ts ↔ ∃ f?, parseTokens l ts = .ok f? := by
  constructor
  case mp =>
    intro h
    have ⟨d, hd⟩ := accepted_iff_derivation.mp h
    subst hd
    have ⟨f?, hf, _⟩ := exists_parseTokens d hl
    exact ⟨f?, hf⟩
  case mpr => exact fun h => ⟨hlex, l, hl, h⟩

-- Tokens are refused by the grammar, or because one is left behind what it takes. What it takes can
-- always be laid out.
theorem parseTokens_eq_error (hlex : ∀ t ∈ ts, t.IsLexeme) (h : parseTokens l ts = .error e) :
    (expression l.maxDepth).Fails ts e ∨ ∃ t? t us,
      (expression l.maxDepth).Yields ts t? (t :: us) ∧ e = unexpected t := by
  rw [parseTokens_eq] at h
  cases ho : (expression l.maxDepth ts).outcome
  case error =>
    rw [ho] at h
    cases h
    exact .inl ho
  case ok t? =>
    have hy : (expression l.maxDepth).Yields ts t? (expression l.maxDepth ts).rest := ⟨ho, rfl⟩
    have ⟨d, _, hm, _⟩ := filter_sound factor_sound hy hlex
    have ⟨f?, hf, _⟩ := exists_layOut (hm ▸ d.makeable)
    rw [ho, Except.bind, hf, Except.bind] at h
    cases hr : (expression l.maxDepth ts).rest
    case nil => rw [hr] at h; cases h
    case cons t us =>
      rw [hr] at h hy
      cases h
      exact .inr ⟨t?, t, us, hy, rfl⟩

theorem Accepted.exists_yields (h : Accepted ts) (n : Nat) :
    ∃ k t?, (expression (k + n)).Yields ts t? [] := by
  have ⟨_, l, _, f?, hf⟩ := h
  have ⟨t?, hy, _⟩ := parseTokens_eq_ok_iff.mp hf
  rw [← List.append_nil ts] at hy ⊢
  exact ⟨l.maxDepth, t?, Agrees.expression (Nat.le_add_right _ n) hy (.of_next rfl)⟩

theorem Grammar.Viable.exists_accepted (h : Viable .filter ts) : ∃ us, Accepted (ts ++ us) := by
  have ⟨d, us, hd⟩ := h
  exact ⟨us, accepted_iff_derivation.mpr ⟨d, hd.symm⟩⟩

-- A token behind what the grammar takes is always left.
theorem not_accepted_of_yields {c : List Token} {t : Token} {n : Nat} {t? : Option Tree}
    (h : (expression n).Yields (c ++ t :: us) t? (t :: us)) (vs : List Token) :
    ¬Accepted (c ++ t :: vs) := by
  intro ha
  have ⟨k, _, hy⟩ := ha.exists_yields n
  have hv : (expression (k + n)).Yields (c ++ t :: vs) t? (t :: vs) :=
    Agrees.expression (Nat.le_add_left n k) h (.of_next rfl)
  cases hy.rest.symm.trans hv.rest

-- Where an error is reported, and why not earlier or later.
inductive Refused (ts : List Token) : Error → Prop
  -- The tokens only begin something that is accepted.
  | atEnd {more : List Token} (not_accepted : ¬Accepted ts) (more_ne_nil : more ≠ [])
    (goes_on : Accepted (ts ++ more)) : Refused ts .endOfText
  -- What stands before the token can be gone on with, but not with the token.
  | atToken {i : Nat} {t : Token} {more : List Token} {e : Error} (token : ts[i]? = some t)
    (fault : Fault t e) (goes_on : Accepted (ts.take i ++ more))
    (hopeless : ∀ us, ¬Accepted (ts.take (i + 1) ++ us)) : Refused ts e

theorem Refused.at {c : List Token} {t : Token} (hf : Fault t e) (hc : ∃ vs, Accepted (c ++ vs))
    (hn : ∀ vs, ¬Accepted (c ++ t :: vs)) : Refused (c ++ t :: us) e := by
  have ⟨vs, ha⟩ := hc
  have ht : (c ++ t :: us)[c.length]? = some t := by simp
  have ha : Accepted ((c ++ t :: us).take c.length ++ vs) := by simpa using ha
  exact .atToken ht hf ha (by simpa [List.take_append, List.take_of_length_le] using hn)

-- Tokens are refused at the earliest place where that can be told.
theorem refused_of_parseTokens (hlex : ∀ t ∈ ts, t.IsLexeme) (hl : ts.length ≤ l.maxDepth)
    (h : parseTokens l ts = .error e) : Refused ts e := by
  cases parseTokens_eq_error hlex h
  case inl hf =>
    cases predicts_expression.blames ts ⟨hl, hlex⟩ e hf
    case inl hb =>
      have hn : ¬Accepted ts := by
        intro ha
        have ⟨f?, hf⟩ := (accepted_iff_parseTokens hlex hl).mp ha
        cases h.symm.trans hf
      have ⟨us, ha⟩ := hb.right.exists_accepted
      have hu : us ≠ [] := by
        rintro rfl
        exact hn (List.append_nil ts ▸ ha)
      exact hb.left ▸ .atEnd hn hu ha
    case inr hb =>
      have ⟨c, t, us, hts, hf, hV, hb⟩ := hb
      refine hts ▸ .at hf hV.exists_accepted fun vs ha => ?_
      have ⟨k, t?, hy⟩ := ha.exists_yields l.maxDepth
      exact hb k vs t? [] hy
  case inr hf =>
    have ⟨t?, t, us, hy, he⟩ := hf
    have ⟨c, hc⟩ := hy.suffix
    subst hc he
    have ⟨d, hd, _⟩ := filter_sound factor_sound hy hlex
    have hd : d.tokens = c := List.append_cancel_right hd
    have ha : Accepted (c ++ []) := accepted_iff_derivation.mpr ⟨d, by simpa using hd⟩
    exact .at .unexpected ⟨[], ha⟩ (not_accepted_of_yields hy)

-- A parenthesis that closes where a factor is wanted.
def strayTokens : List Token :=
  [.ofText .leftParen ['('] ⟨1, 2⟩, .ofText .not "not".toList ⟨1, 3⟩, .ofText .rightParen [')'] ⟨2, 1⟩,
    .ofText .or "or".toList ⟨2, 3⟩]

theorem refused_strayTokens : Refused strayTokens (.expectedExpression [')'] ⟨2, 1⟩) := by
  have hn : (Token.ofText .not "not".toList ⟨1, 3⟩).IsLexeme :=
    .word (v := "not".toList) (by decide) (by decide)
  have ho : (Token.ofText .or "or".toList ⟨2, 3⟩).IsLexeme :=
    .word (v := "or".toList) (by decide) (by decide)
  have hlex : ∀ t ∈ strayTokens, t.IsLexeme :=
    List.forall_mem_cons.mpr ⟨rfl, List.forall_mem_cons.mpr ⟨hn, List.forall_mem_cons.mpr
      ⟨rfl, List.forall_mem_singleton.mpr ho⟩⟩⟩
  exact refused_of_parseTokens (l := {}) hlex (by decide) rfl

end AttributeFilter
