import AttributeFilter.Proofs.Parser.Yields

/-!
Runs of parsers as a relation between the symbols given, the outcome, whether it is a value or an error, and
the rest. Every parser has one run on a list of symbols.
-/

namespace AttributeFilter.Parser

variable {σ ε α β : Type} {ts us vs : List σ} {a : α} {e : ε} {x : Except ε α} {y : Except ε β}
  {p : Parser σ ε α} {f : α → Parser σ ε β}

-- A parser has an outcome and leaves a rest on a list of symbols.
structure Runs (p : Parser σ ε α) (ts : List σ) (x : Except ε α) (us : List σ) : Prop where
  outcome : (p ts).outcome = x
  rest    : (p ts).rest = us

theorem Yields.runs (h : p.Yields ts a us) : p.Runs ts (.ok a) us where
  outcome := h.outcome
  rest    := h.rest

namespace Runs

theorem intro (p : Parser σ ε α) (ts : List σ) : p.Runs ts (p ts).outcome (p ts).rest :=
  ⟨rfl, rfl⟩

theorem congr {q : Parser σ ε α} (h : p.Runs ts x us) (hq : q ts = p ts) : q.Runs ts x us where
  outcome := hq ▸ h.outcome
  rest    := hq ▸ h.rest

theorem suffix (h : p.Runs ts x us) : us <:+ ts :=
  h.rest ▸ (p ts).suffix

theorem yields (h : p.Runs ts (.ok a) us) : p.Yields ts a us where
  outcome := h.outcome
  rest    := h.rest

theorem ofExcept (x : Except ε α) (ts : List σ) : (ofExcept x : Parser σ ε α).Runs ts x ts :=
  ⟨rfl, rfl⟩

theorem bind_eq (h : p.Runs ts x us) :
    (p >>= f) ts = Reply.andThen { outcome := x, rest := us, suffix := h.suffix } f := by
  cases h.outcome
  cases h.rest
  rfl

theorem bind_error (h : p.Runs ts (.error e) us) : (p >>= f).Runs ts (.error e) us where
  outcome := congrArg Reply.outcome h.bind_eq
  rest    := congrArg Reply.rest h.bind_eq

theorem bind_ok (h : p.Runs ts (.ok a) us) (h' : (f a).Runs us y vs) : (p >>= f).Runs ts y vs where
  outcome := (congrArg Reply.outcome h.bind_eq).trans h'.outcome
  rest    := (congrArg Reply.rest h.bind_eq).trans h'.rest

-- What is left at last is left by the first parser.
theorem rest_bind_suffix : ((p >>= f) ts).rest <:+ (p ts).rest := by
  have hr := intro p ts
  cases h : (p ts).outcome
  case error e =>
    rw [h] at hr
    exact hr.bind_error.rest ▸ List.suffix_rfl
  case ok a =>
    rw [h] at hr
    exact (hr.bind_ok (intro (f a) _)).rest ▸ (f a _).suffix

theorem map (h : p.Runs ts x us) (g : α → β) : (g <$> p).Runs ts (x.map g) us where
  outcome := congrArg (Except.map g) h.outcome
  rest    := h.rest

-- At a symbol that announces an item, `many` runs as the item and then `many` do.
theorem many_cons {announces : σ → Bool} {t : σ} {z : Except ε (List α)} (ht : announces t = true)
    (h : (p >>= fun a => (a :: ·) <$> many announces p).Runs ts z us) :
    (many announces p).Runs (t :: ts) z us :=
  have ⟨ho, hr⟩ := many_cons_eq p ts ht
  ⟨ho.trans h.outcome, hr.trans h.rest⟩

end Runs
end AttributeFilter.Parser
