import AttributeFilter.Proofs.Grammar.Agreement
import AttributeFilter.Proofs.Parser.Runs

/-!
Where the rules fail. A rule that fails has taken tokens with which something begins that the grammar
derives. Either there are no more tokens, or it fails at the next one, and then nothing that could stand
behind that token would help.
-/

namespace AttributeFilter.Grammar

open AttributeFilter.Parser Text

-- The errors that are reported at a token.
inductive Fault (t : Token) : Error → Prop
  | unexpected : Fault t (.unexpected t.text t.position)
  | expectedExpression : Fault t (.expectedExpression t.raw t.position)
  | unrecognized : Fault t (.unrecognized t.text t.position)

variable {α β : Type} {ts us vs : List Token} {t : Token} {e : Error} {kinds : List Token.Kind}
  {V W : List Token → Prop} {levels n : Nat} {s : Symbol}

-- Where a rule fails, it has taken tokens that are viable. It is at the end, or at a token where no rule
-- of a family succeeds either, whatever stands behind: the same rule with any number of levels more.
def Blames (p : Rule α) (p' : Nat → Rule α) (V : List Token → Prop) (ts : List Token) : Prop :=
  ∀ e, p.Fails ts e → (e = .endOfText ∧ V ts) ∨
    ∃ c t us, ts = c ++ t :: us ∧ Fault t e ∧ V c ∧ ∀ k vs a ws, ¬(p' k).Yields (c ++ t :: vs) a ws

-- The tokens are lexemes, and no more than levels.
structure Fits (levels : Nat) (ts : List Token) : Prop where
  length  : ts.length ≤ levels
  lexemes : ∀ t ∈ ts, t.IsLexeme

namespace Fits

theorem suffix (h : Fits levels ts) (hs : us <:+ ts) : Fits levels us where
  length  := Nat.le_trans hs.length_le h.length
  lexemes := fun t ht => h.lexemes t (hs.mem ht)

theorem tail (h : Fits (n + 1) (t :: ts)) : Fits n ts where
  length  := Nat.le_of_succ_le_succ h.length
  lexemes := fun u hu => h.lexemes u (List.mem_cons_of_mem _ hu)

theorem head (h : Fits levels (t :: ts)) : t.IsLexeme :=
  h.lexemes t List.mem_cons_self

end Fits

namespace Blames

variable {p : Rule α} {p' : Nat → Rule α} {f : α → Rule β} {f' : Nat → α → Rule β}

theorem of_not_fails (h : ∀ e, ¬p.Fails ts e) : Blames p p' V ts :=
  fun e he => absurd he (h e)

theorem pure {a : α} : Blames (pure a) p' V ts :=
  of_not_fails fun _ => not_fails_pure

theorem mono (h : Blames p p' V ts) (hV : ∀ c, V c → W c) : Blames p p' W ts := by
  intro e he
  cases h e he
  case inl h => exact .inl ⟨h.left, hV _ h.right⟩
  case inr h =>
    have ⟨c, t, us, hts, hf, hc, hn⟩ := h
    exact .inr ⟨c, t, us, hts, hf, hV c hc, hn⟩

-- Rules that depend on the same first token fail in the same way.
theorem of_head {q : Rule β} {q' : Nat → Rule β} (hf : ∀ e, q.Fails ts e → p.Fails ts e)
    (hy : ∀ k us b ws, us.head? = ts.head? → (q' k).Yields us b ws → ∃ a vs, (p' k).Yields us a vs)
    (h : Blames p p' V ts) : Blames q q' V ts := by
  intro e he
  cases h e (hf e he)
  case inl h => exact .inl h
  case inr h =>
    have ⟨c, t, us, hts, ht, hc, hn⟩ := h
    refine .inr ⟨c, t, us, hts, ht, hc, fun k vs b ws hq => ?_⟩
    have hh : (c ++ t :: vs).head? = ts.head? := by cases c <;> simp [hts]
    have ⟨a, xs, hp⟩ := hy k _ b ws hh hq
    exact hn k vs a xs hp

theorem congr {q : Rule α} {q' : Nat → Rule α} (hq : q ts = p ts)
    (hq' : ∀ k us, us.head? = ts.head? → q' k us = p' k us) (h : Blames p p' V ts) :
    Blames q q' V ts :=
  h.of_head (fun _ he => he.congr hq.symm) fun k us _ _ hh hy =>
    ⟨_, _, hy.congr (hq' k us hh).symm⟩

-- A rule that takes a token first fails where the rest of it fails.
theorem behind {q : Rule β} {q' : Nat → Rule β} (hf : ∀ e, q.Fails (t :: ts) e → p.Fails ts e)
    (hy : ∀ k us b ws, us.head? = ts.head? → (q' k).Yields (t :: us) b ws →
      ∃ a vs, (p' k).Yields us a vs) (h : Blames p p' (fun c => V (t :: c)) ts) :
    Blames q q' V (t :: ts) := by
  intro e he
  cases h e (hf e he)
  case inl h => exact .inl h
  case inr h =>
    have ⟨c, u, us, hts, ht, hc, hn⟩ := h
    refine .inr ⟨t :: c, u, us, congrArg (t :: ·) hts, ht, hc, fun k vs b ws hq => ?_⟩
    have hh : (c ++ u :: vs).head? = ts.head? := by cases c <;> simp [hts]
    have ⟨a, xs, hp⟩ := hy k _ b ws hh hq
    exact hn k vs a xs hp

theorem bind (hp : Blames p p' V ts) (ha : ∀ k, Agrees p (p' k))
    (hf : ∀ a c us, p.Yields (c ++ us) a us → ts = c ++ us →
      Blames (f a) (fun k => f' k a) (fun d => V (c ++ d)) us) :
    Blames (p >>= f) (fun k => p' k >>= f' k) V ts := by
  intro e he
  cases fails_bind_iff.mp he
  case inl he =>
    cases hp e he
    case inl h => exact .inl h
    case inr h =>
      have ⟨c, t, us, hts, ht, hc, hn⟩ := h
      refine .inr ⟨c, t, us, hts, ht, hc, fun k vs b ws hq => ?_⟩
      have ⟨a, xs, hy, _⟩ := yields_bind_iff.mp hq
      exact hn k vs a xs hy
  case inr he =>
    have ⟨a, us, hy, hfe⟩ := he
    have ⟨c, hc⟩ := hy.suffix
    subst hc
    cases hf a c us hy rfl e hfe
    case inl h => exact .inl h
    case inr h =>
      have ⟨d, t, vs, hus, ht, hd, hn⟩ := h
      subst hus
      refine .inr ⟨c ++ d, t, vs, (List.append_assoc ..).symm, ht, hd, fun k vs' b ws hq => ?_⟩
      rw [List.append_assoc] at hq
      have ⟨a', xs, hy', hq⟩ := yields_bind_iff.mp hq
      -- The first rule does the same whatever stands behind the token.
      have hh : (d ++ t :: vs).head? = (d ++ t :: vs').head? := by cases d <;> rfl
      have hy := ha k hy (.of_next (congrArg _ hh))
      have ha := hy'.value_unique hy
      have hx := hy'.rest.symm.trans hy.rest
      subst ha hx
      exact hn k vs' b ws hq

theorem map (h : Blames p p' V ts) (g : α → β) : Blames (g <$> p) (fun k => g <$> p' k) V ts :=
  h.of_head (fun _ => fails_map_iff.mp) fun _ _ _ ws _ hy =>
    have ⟨a, hy, _⟩ := yields_map_iff.mp hy
    ⟨a, ws, hy⟩

-- A rule for one token fails at that token.
theorem of_token (hV : V []) (hf : ∀ e, p.Fails ts e → (ts = [] ∧ e = .endOfText) ∨
    ∃ t us, ts = t :: us ∧ Fault t e ∧ ∀ k vs a ws, ¬(p' k).Yields (t :: vs) a ws) :
    Blames p p' V ts := by
  intro e he
  cases hf e he
  case inl h => exact .inl ⟨h.right, h.left ▸ hV⟩
  case inr h =>
    have ⟨t, us, hts, ht, hn⟩ := h
    exact .inr ⟨[], t, us, hts, ht, hV, hn⟩

end Blames

theorem fails_expect_iff :
    (expect kinds).Fails ts e ↔
      (ts = [] ∧ e = .endOfText) ∨
        ∃ t us, ts = t :: us ∧ t.kind ∉ kinds ∧ e = .unexpected t.text t.position := by
  cases ts
  case nil => simp [expect, fail, Parser.Fails, Parser.ofExcept, eq_comm]
  case cons t us =>
    by_cases hk : t.kind ∈ kinds
    case pos => simp [expect, hk, Parser.Fails, Reply.weaken, Parser.ofExcept]
    case neg =>
      simp [expect, hk, Parser.Fails, fail, Parser.ofExcept, unexpected, eq_comm]

theorem yields_expect (hk : t.kind ∈ kinds) : (expect kinds).Yields (t :: us) t us :=
  yields_expect_iff.mpr ⟨rfl, hk⟩

theorem fails_optional_iff {kind : Token.Kind} {rule : Rule α} :
    (optional kind rule).Fails ts e ↔ isNext [kind] ts = true ∧ rule.Fails ts e := by
  rw [optional, fails_ahead_bind_iff]
  cases isNext [kind] ts <;> simp [fails_map_iff, not_fails_pure]

theorem fails_behindEach {kind : Token.Kind} {rule : Rule α} (h : (behindEach kind rule).Fails ts e) :
    ∃ t us, ts = t :: us ∧ t.kind = kind ∧
      (rule >>= fun a => (a :: ·) <$> behindEach kind rule).Fails us e := by
  cases hn : isNext [kind] ts
  case false => exact absurd h ((yields_behindEach_stop_iff hn).mpr ⟨rfl, rfl⟩).not_fails
  case true =>
    cases ts
    case nil => cases hn
    case cons t us =>
      have hk : t.kind = kind := by simpa using hn
      exact ⟨t, us, rfl, hk, (fails_many_cons_iff (by simp [hk])).mp h⟩

-- A factor is what its first tokens decide on.
section

variable {limit : Nat} {factor? : Option (Rule (Option Tree))}

theorem factorAbove_eq_negation (hk : t.kind = .not) (hn : isNext [.operator] ts = false) :
    factorAbove limit factor? (t :: ts) = negation limit factor? (t :: ts) := by
  rw [factorAbove, ahead_bind_eq]
  simp [hk, hn]

theorem factorAbove_eq_notPath (hk : t.kind = .not) (hn : isNext [.operator] ts = true) :
    factorAbove limit factor? (t :: ts) =
      (some <$> comparison limit (factor?.map filter) : Rule _) (t :: ts) := by
  rw [factorAbove, ahead_bind_eq]
  simp [hk, hn]

theorem factorAbove_eq_group (hk : t.kind = .leftParen) :
    factorAbove limit factor? (t :: ts) = group limit (factor?.map filter) (t :: ts) := by
  rw [factorAbove, ahead_bind_eq]
  simp [hk]

theorem factorAbove_eq_comparison (hk : t.kind ∈ [.identifier, .schemaUri]) :
    factorAbove limit factor? (t :: ts) =
      (some <$> comparison limit (factor?.map filter) : Rule _) (t :: ts) := by
  rw [factorAbove, ahead_bind_eq]
  simp only [List.mem_cons, List.not_mem_nil, or_false] at hk
  cases hk <;> simp [*]

theorem factorAbove_eq_fail (hk : t.kind ∉ openers) :
    factorAbove limit factor? (t :: ts) =
      (fail (.expectedExpression t.raw t.position) : Rule _) (t :: ts) := by
  rw [factorAbove, ahead_bind_eq]
  dsimp only
  split <;> simp_all [openers]

end

theorem runs_expect_ok (h : t.kind ∈ kinds) : (expect kinds).Runs (t :: us) (.ok t) us :=
  have hy := yields_expect h
  ⟨hy.outcome, hy.rest⟩

theorem runs_expect_error (h : t.kind ∉ kinds) :
    (expect kinds).Runs (t :: us) (.error (unexpected t)) (t :: us) := by
  constructor <;> simp [expect, h, fail, Parser.ofExcept]

namespace Blames

variable {p : Rule α} {p' : Nat → Rule α}

theorem expect (hV : V []) : Blames (expect kinds) (fun _ => Grammar.expect kinds) V ts := by
  refine of_token hV fun e he => (fails_expect_iff.mp he).imp_right ?_
  rintro ⟨t, us, hts, hk, rfl⟩
  exact ⟨t, us, hts, .unexpected, fun _ vs a ws hy => hk (by cases yields_expect_iff.mp hy; grind)⟩

theorem expect_bind {f : Token → Rule α} {f' : Nat → Token → Rule α} (hV : V [])
    (hf : ∀ t us, ts = t :: us → t.kind ∈ kinds →
      Blames (f t) (fun k => f' k t) (fun c => V (t :: c)) us) :
    Blames (Grammar.expect kinds >>= f) (fun k => Grammar.expect kinds >>= f' k) V ts := by
  by_cases hn : ∃ t us, ts = t :: us ∧ t.kind ∈ kinds
  case pos =>
    have ⟨t, us, hts, hk⟩ := hn
    subst hts
    refine behind (fun e he => ?_) (fun k vs b ws _ hy => ?_) (hf t us rfl hk)
    case refine_1 => exact (yields_expect hk).fails_bind_iff.mp he
    case refine_2 => exact ⟨b, ws, (yields_expect hk).bind_iff.mp hy⟩
  case neg =>
    have he : Blames (Grammar.expect kinds) (fun _ => Grammar.expect kinds) V ts := expect hV
    refine of_head (fun e he => ?_) (fun k us b ws _ hy => ?_) he
    case refine_1 =>
      cases fails_bind_iff.mp he
      case inl he => exact he
      case inr he =>
        have ⟨u, vs, hy, _⟩ := he
        exact absurd ⟨u, vs, yields_expect_iff.mp hy⟩ hn
    case refine_2 =>
      have ⟨u, xs, hy, _⟩ := yields_bind_iff.mp hy
      exact ⟨u, xs, hy⟩

theorem optional {kind : Token.Kind} (h : isNext [kind] ts = true → Blames p p' V ts) :
    Blames (optional kind p) (fun k => Grammar.optional kind (p' k)) V ts := by
  intro e he
  have hn := (fails_optional_iff.mp he).left
  refine (h hn).of_head (fun e he => (fails_optional_iff.mp he).right) ?_ e he
  intro k us a? ws hh hy
  have hn : isNext [kind] us = true := (isNext_congr hh).trans hn
  cases yields_optional_iff.mp hy
  case inl hy =>
    have ⟨_, a, hy, _⟩ := hy
    exact ⟨a, ws, hy⟩
  case inr hy => cases hn.symm.trans hy.left

-- Items behind separators are blamed one after the other.
theorem behindEach {kind : Token.Kind} {U W : List Token → Prop} (ha : ∀ k, Agrees p (p' k))
    (hp : ∀ ts, Fits levels ts → Blames p p' U ts)
    (hitem : ∀ t c, t.kind = kind → t.IsLexeme → U c → W (t :: c))
    (hmore : ∀ t c a us d, t.kind = kind → Fits levels (t :: (c ++ us)) → p.Yields (c ++ us) a us →
      W d → W (t :: (c ++ d))) (h : Fits levels ts) :
    Blames (behindEach kind p) (fun k => Grammar.behindEach kind (p' k)) W ts := by
  induction hn : ts.length using Nat.strongRecOn generalizing ts
  case ind n ih =>
    intro e he
    have ⟨t, us, hts, hk, _⟩ := fails_behindEach he
    subst hts
    have hs := h.suffix (List.suffix_cons t us)
    have hb : Blames (p >>= fun a => (a :: ·) <$> Grammar.behindEach kind p)
        (fun k => p' k >>= fun a => (a :: ·) <$> Grammar.behindEach kind (p' k))
        (fun c => W (t :: c)) us := by
      refine ((hp us hs).mono fun c hc => hitem t c hk h.head hc).bind ha fun a c vs hy hc => ?_
      subst hc
      refine ((ih vs.length ?_ (hs.suffix (List.suffix_append c vs)) rfl).map _).mono ?_
      · simp at hn; omega
      · exact fun d hd => hmore t c a vs d hk h hy hd
    refine hb.behind (fun e he => ?_) (fun k vs b ws _ hy => ?_) e he
    case refine_1 => exact (fails_many_cons_iff (by simp [hk])).mp he
    case refine_2 =>
      have ⟨a, xs, as, h₁, h₂, hb⟩ := (yields_behindEach_cons_iff hk).mp hy
      exact ⟨b, ws, yields_bind_iff.mpr ⟨a, xs, h₁, yields_map_iff.mpr ⟨as, h₂, hb⟩⟩⟩

end Blames
end AttributeFilter.Grammar
