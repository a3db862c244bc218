import AttributeFilter.Proofs.Parser.Runs

/-!
Two parsers side by side on the same symbols. They take the same, and where one of them fails the other fails
with the same error; their values may be of different types, and are related.
-/

namespace AttributeFilter.Parser

variable {σ ε α β γ δ : Type} {ts us : List σ} {R : α → β → Prop} {S : γ → δ → Prop} {p : Parser σ ε α}
  {q : Parser σ ε β} {f : α → Parser σ ε γ} {g : β → Parser σ ε δ}

-- On some symbols two parsers do the same.
inductive Matches (R : α → β → Prop) (p : Parser σ ε α) (q : Parser σ ε β) (ts : List σ) : Prop
  | value {a : α} {b : β} {us : List σ} (run : p.Runs ts (.ok a) us) (run' : q.Runs ts (.ok b) us) (rel : R a b)
  | fault {e : ε} {us : List σ} (run : p.Runs ts (.error e) us) (run' : q.Runs ts (.error e) us)

namespace Matches

theorem refl (p : Parser σ ε α) (ts : List σ) : Matches (fun a b => b = a) p p ts := by
  have hr := Runs.intro p ts
  cases h : (p ts).outcome
  case error e => exact .fault (h ▸ hr) (h ▸ hr)
  case ok a    => exact .value (h ▸ hr) (h ▸ hr) rfl

theorem congr {p' : Parser σ ε α} {q' : Parser σ ε β} (h : Matches R p q ts) (hp : p' ts = p ts)
    (hq : q' ts = q ts) : Matches R p' q' ts := by
  cases h
  case value h h' hr => exact .value (h.congr hp) (h'.congr hq) hr
  case fault h h'    => exact .fault (h.congr hp) (h'.congr hq)

theorem pure {a : α} {b : β} (h : R a b) : Matches R (pure a : Parser σ ε α) (pure b) ts :=
  .value (.ofExcept _ _) (.ofExcept _ _) h

theorem fail (e : ε) : Matches R (fail e) (fail e) ts :=
  .fault (.ofExcept _ _) (.ofExcept _ _)

theorem bind (h : Matches R p q ts)
    (hf : ∀ a b us, p.Yields ts a us → R a b → Matches S (f a) (g b) us) :
    Matches S (p >>= f) (q >>= g) ts := by
  cases h
  case fault h h' => exact .fault h.bind_error h'.bind_error
  case value a b us h h' hr =>
    cases hf a b us h.yields hr
    case value k k' hs => exact .value (h.bind_ok k) (h'.bind_ok k') hs
    case fault k k'    => exact .fault (h.bind_ok k) (h'.bind_ok k')

-- Both look at the same symbols.
theorem ahead_bind {f : List σ → Parser σ ε γ} {g : List σ → Parser σ ε δ} (h : Matches S (f ts) (g ts) ts) :
    Matches S (ahead >>= f) (ahead >>= g) ts :=
  h.congr rfl rfl

theorem bind_yields {a : α} {b : β} (h : p.Yields ts a us) (h' : q.Yields ts b us)
    (hf : Matches S (f a) (g b) us) : Matches S (p >>= f) (q >>= g) ts := by
  cases hf
  case value k k' hs => exact .value (h.runs.bind_ok k) (h'.runs.bind_ok k') hs
  case fault k k'    => exact .fault (h.runs.bind_ok k) (h'.runs.bind_ok k')

-- What takes nothing may stand before the second parser.
theorem behind {p : Parser σ ε γ} {b : β} (h : q.Yields ts b ts) (hg : Matches S p (g b) ts) :
    Matches S p (q >>= g) ts := by
  cases hg
  case value k k' hs => exact .value k (h.runs.bind_ok k') hs
  case fault k k'    => exact .fault k (h.runs.bind_ok k')

theorem map_left {R' : γ → β → Prop} {c : α → γ} (h : Matches R p q ts) (hc : ∀ a b, R a b → R' (c a) b) :
    Matches R' (c <$> p) q ts := by
  cases h
  case value h h' hr => exact .value (h.map c) h' (hc _ _ hr)
  case fault h h'    => exact .fault (h.map c) h'

end Matches

variable {announces : σ → Bool} {next : β → Parser σ ε β} {b : β}

theorem runs_iterate_stop (ht : ts.head?.any announces = false) :
    (iterate announces next b).Runs ts (.ok b) ts := by
  apply (Runs.ofExcept (.ok b) ts).congr
  cases ts
  case nil  => rw [iterate]
  case cons => rw [iterate]; simp_all

-- At a symbol that announces it, `iterate` goes on once and then as often as it can.
theorem Runs.iterate_cons {t : σ} {x : Except ε β} (ht : announces t = true)
    (h : (next b >>= iterate announces next).Runs ts x us) :
    (iterate announces next b).Runs (t :: ts) x us := by
  have hd : (next b >>= iterate announces next) ts = (next b ts).andThen (iterate announces next) := rfl
  have ho := h.outcome
  have hr := h.rest
  rw [hd] at ho hr
  constructor
  all_goals
    rw [iterate, if_pos ht]
    rcases hn : next b ts with ⟨outcome, rest, hs⟩
    rw [hn] at ho hr
    cases outcome
    case error => first | exact ho | exact hr
    case ok    => first | exact ho | exact hr

-- What every turn keeps, `iterate` keeps. The induction is on the number of symbols.
theorem iterate_induction {motive : β → Prop} {c : β} (h : (iterate announces next b).Yields ts c us) (start : motive b)
    (turn : ∀ ⦃b ts c us⦄, (next b).Yields ts c us → motive b → motive c) : motive c := by
  induction hl : ts.length using Nat.strongRecOn generalizing b ts
  case ind l ih =>
    cases ht : ts.head?.any announces
    case false =>
      cases (runs_iterate_stop ht).yields.value_unique h
      exact start
    case true =>
      cases ts
      case nil => cases ht
      case cons t ts =>
        have ht : announces t = true := ht
        have hr := Runs.iterate_cons ht (.intro (next b >>= iterate announces next) ts)
        have hy : (next b >>= iterate announces next).Yields ts c us :=
          ⟨hr.outcome.symm.trans h.outcome, hr.rest.symm.trans h.rest⟩
        have ⟨d, vs, hd, hy⟩ := yields_bind_iff.mp hy
        have := hd.suffix.length_le
        exact ih vs.length (by rw [List.length_cons] at hl; omega) hy (turn hd start) rfl

-- Items that are collected on the one side, and on the other side a value that goes on with each of them. The
-- induction is on the number of symbols.
theorem Matches.iterate {item : Parser σ ε α} {Q : β → α → β → Prop} {C : β → List α → β → Prop}
    (nil : ∀ b, C b [] b) (cons : ∀ {b a c as d}, Q b a c → C c as d → C b (a :: as) d)
    (h : ∀ b ts, Matches (Q b) item (next b) ts) (b : β) (ts : List σ) :
    Matches (C b) (many announces item) (iterate announces next b) ts := by
  induction hl : ts.length using Nat.strongRecOn generalizing b ts
  case ind l ih =>
    cases ht : ts.head?.any announces
    case false =>
      have hm : (many announces item).Yields ts [] ts := (yields_many_stop_iff ht).mpr ⟨rfl, rfl⟩
      exact .value hm.runs (runs_iterate_stop ht) (nil b)
    case true =>
      cases ts
      case nil => cases ht
      case cons t us =>
        have hitem : Matches (C b) (item >>= fun a => (a :: ·) <$> many announces item)
            (next b >>= Parser.iterate announces next) us := by
          refine (h b us).bind fun a c vs hy hq => (ih vs.length ?_ c vs rfl).map_left fun _ _ => cons hq
          have := hy.suffix.length_le
          rw [List.length_cons] at hl
          omega
        cases hitem
        case value hr hr' hc => exact .value (hr.many_cons ht) (.iterate_cons ht hr') hc
        case fault hr hr'    => exact .fault (hr.many_cons ht) (.iterate_cons ht hr')

end AttributeFilter.Parser
