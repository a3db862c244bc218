import AttributeFilter.Parser

/-!
Success of parsers as a relation between the symbols given, the value, and the rest, and failure as one
between the symbols and the error. The relations are composed as parsers are, so what a composed parser does
is read off its definition by rewriting.
-/

namespace AttributeFilter.Parser

variable {σ ε α β : Type} {ts us vs : List σ} {a b : α}

-- A parser yields a value and a rest on a list of symbols if it succeeds with them.
structure Yields (p : Parser σ ε α) (ts : List σ) (a : α) (us : List σ) : Prop where
  outcome : (p ts).outcome = .ok a
  rest    : (p ts).rest = us

theorem Yields.suffix {p : Parser σ ε α} (h : p.Yields ts a us) : us <:+ ts :=
  h.rest ▸ (p ts).suffix

theorem Yields.mem {p : Parser σ ε α} {t : σ} (h : p.Yields ts a us) (ht : t ∈ us) : t ∈ ts :=
  h.suffix.mem ht

theorem Yields.congr {p q : Parser σ ε α} (h : p.Yields ts a us) (hq : q ts = p ts) :
    q.Yields ts a us where
  outcome := hq ▸ h.outcome
  rest    := hq ▸ h.rest

theorem Yields.value_unique {p : Parser σ ε α} (h : p.Yields ts a us) (h' : p.Yields ts b vs) :
    a = b := by
  have := h.outcome.symm.trans h'.outcome
  injection this

theorem yields_ofExcept_iff {x : Except ε α} :
    (ofExcept x : Parser σ ε α).Yields ts a us ↔ x = .ok a ∧ ts = us where
  mp h  := ⟨h.outcome, h.rest⟩
  mpr h := ⟨h.left, h.right⟩

theorem yields_pure_iff : (pure b : Parser σ ε α).Yields ts a us ↔ b = a ∧ ts = us := by
  rw [show (pure b : Parser σ ε α) = ofExcept (.ok b) from rfl, yields_ofExcept_iff]
  simp

theorem not_yields_fail {e : ε} : ¬(fail e : Parser σ ε α).Yields ts a us := by
  simp [fail, yields_ofExcept_iff]

theorem yields_ahead_iff {ws : List σ} :
    (ahead : Parser σ ε (List σ)).Yields ts ws us ↔ ws = ts ∧ us = ts := by
  have hd : (ahead : Parser σ ε (List σ)) ts = ofExcept (.ok ts) ts := rfl
  constructor
  case mp =>
    intro h
    have h₁ := hd ▸ h.outcome
    have h₂ := hd ▸ h.rest
    simp only [ofExcept, Except.ok.injEq] at h₁ h₂
    exact ⟨h₁.symm, h₂.symm⟩
  case mpr =>
    rintro ⟨rfl, rfl⟩
    exact ⟨rfl, rfl⟩

theorem yields_bind_iff {p : Parser σ ε α} {f : α → Parser σ ε β} {b : β} :
    (p >>= f).Yields ts b vs ↔ ∃ a us, p.Yields ts a us ∧ (f a).Yields us b vs := by
  have hd : (p >>= f) ts = (p ts).andThen f := rfl
  rcases hp : p ts with ⟨outcome, rest, hs⟩
  rw [hp] at hd
  cases outcome
  case error e =>
    constructor
    case mp =>
      intro h
      have := h.outcome
      simp [hd, Reply.andThen] at this
    case mpr =>
      rintro ⟨a, us, h, -⟩
      have := h.outcome
      simp [hp] at this
  case ok a =>
    constructor
    case mp =>
      intro h
      refine ⟨a, rest, ⟨by simp [hp], by simp [hp]⟩, ?_, ?_⟩
      · have := h.outcome
        rwa [hd] at this
      · have := h.rest
        rwa [hd] at this
    case mpr =>
      rintro ⟨a', us, h, h'⟩
      have h₁ := h.outcome
      have h₂ := h.rest
      simp only [hp, Except.ok.injEq] at h₁ h₂
      subst h₁ h₂
      constructor
      case outcome => rw [hd]; exact h'.outcome
      case rest    => rw [hd]; exact h'.rest

theorem yields_map_iff {p : Parser σ ε α} {f : α → β} {b : β} :
    (f <$> p).Yields ts b us ↔ ∃ a, p.Yields ts a us ∧ f a = b := by
  have hd : (f <$> p) ts = (p ts).map f := rfl
  constructor
  case mp =>
    intro h
    have h₁ := h.outcome
    have h₂ := h.rest
    rw [hd] at h₁ h₂
    cases ho : (p ts).outcome
    case error => simp [Reply.map, ho, Except.map] at h₁
    case ok a =>
      simp only [Reply.map, ho, Except.map, Except.ok.injEq] at h₁
      exact ⟨a, ⟨ho, h₂⟩, h₁⟩
  case mpr =>
    rintro ⟨a, h, rfl⟩
    constructor
    case outcome => simp [hd, Reply.map, h.outcome, Except.map]
    case rest    => rw [hd]; exact h.rest

-- What `many` does at a symbol that announces an item is what the item and `many` do in turn.
theorem many_cons_eq {announces : σ → Bool} (item : Parser σ ε α) (ts : List σ) {t : σ}
    (ht : announces t = true) :
    let turn : Reply σ ε (List α) ts := (item ts).andThen fun a => (a :: ·) <$> many announces item
    (many announces item (t :: ts)).outcome = turn.outcome ∧
      (many announces item (t :: ts)).rest = turn.rest := by
  rw [many, if_pos ht]
  rcases item ts with ⟨outcome, rest, hs⟩
  cases outcome
  case error => exact ⟨rfl, rfl⟩
  case ok a  => exact ⟨rfl, rfl⟩

theorem yields_many_cons_iff {announces : σ → Bool} {item : Parser σ ε α} {t : σ} {as : List α}
    (ht : announces t = true) :
    (many announces item).Yields (t :: ts) as vs ↔
      ∃ a us as', item.Yields ts a us ∧ (many announces item).Yields us as' vs ∧ a :: as' = as := by
  have ⟨ho, hr⟩ := many_cons_eq item ts ht
  have hturn := @yields_bind_iff _ _ _ _ ts vs item (fun a => (a :: ·) <$> many announces item) as
  simp only [yields_map_iff] at hturn
  constructor
  case mp =>
    intro h
    have ⟨a, us, h₁, as', h₂, h₃⟩ := hturn.mp ⟨ho ▸ h.outcome, hr ▸ h.rest⟩
    exact ⟨a, us, as', h₁, h₂, h₃⟩
  case mpr =>
    rintro ⟨a, us, as', h₁, h₂, h₃⟩
    have h := hturn.mpr ⟨a, us, h₁, as', h₂, h₃⟩
    exact ⟨ho.trans h.outcome, hr.trans h.rest⟩

theorem yields_many_stop_iff {announces : σ → Bool} {item : Parser σ ε α} {as : List α}
    (ht : ts.head?.any announces = false) :
    (many announces item).Yields ts as us ↔ as = [] ∧ us = ts := by
  have hd : many announces item ts = ofExcept (.ok []) ts := by
    cases ts
    case nil  => rw [many]
    case cons => rw [many]; simp_all
  constructor
  case mp =>
    intro h
    have h₁ := hd ▸ h.outcome
    have h₂ := hd ▸ h.rest
    simp only [ofExcept, Except.ok.injEq] at h₁ h₂
    exact ⟨h₁.symm, h₂.symm⟩
  case mpr =>
    rintro ⟨rfl, rfl⟩
    constructor
    case outcome => rw [hd]; rfl
    case rest    => rw [hd]; rfl

-- What gives nothing takes nothing.
theorem Yields.orBack_none {p : Parser σ ε (Option α)} (h : p.Yields ts none us) :
    (orBack p).Yields ts none ts := by
  have ho := h.outcome
  rcases hp : p ts with ⟨outcome, rest, hs⟩
  rw [hp] at ho
  cases ho
  have hd : orBack p ts = ofExcept (.ok none) ts := by simp only [orBack, hp]
  exact ⟨congrArg Reply.outcome hd, congrArg Reply.rest hd⟩

theorem Yields.orBack_some {p : Parser σ ε (Option α)} (h : p.Yields ts (some a) us) :
    (orBack p).Yields ts (some a) us := by
  have ho := h.outcome
  rcases hp : p ts with ⟨outcome, rest, hs⟩
  rw [hp] at ho
  cases ho
  have hd : orBack p ts = p ts := by simp only [orBack, hp]
  exact h.congr hd

-- A parser fails on a list of symbols with an error.
def Fails (p : Parser σ ε α) (ts : List σ) (e : ε) : Prop :=
  (p ts).outcome = .error e

variable {e : ε}

theorem Yields.not_fails {p : Parser σ ε α} (h : p.Yields ts a us) : ¬p.Fails ts e :=
  fun hf => nomatch h.outcome.symm.trans hf

theorem Fails.congr {p q : Parser σ ε α} (h : p.Fails ts e) (hq : q ts = p ts) : q.Fails ts e :=
  (congrArg Reply.outcome hq).trans h

theorem fails_ofExcept_iff {x : Except ε α} :
    (ofExcept x : Parser σ ε α).Fails ts e ↔ x = .error e :=
  Iff.rfl

theorem not_fails_pure : ¬(pure b : Parser σ ε α).Fails ts e :=
  (yields_pure_iff.mpr ⟨rfl, rfl⟩).not_fails

theorem fails_bind_iff {p : Parser σ ε α} {f : α → Parser σ ε β} :
    (p >>= f).Fails ts e ↔ p.Fails ts e ∨ ∃ a us, p.Yields ts a us ∧ (f a).Fails us e := by
  have hd : (p >>= f) ts = (p ts).andThen f := rfl
  rw [Fails, Fails, hd]
  rcases hp : p ts with ⟨outcome, rest, hs⟩
  cases outcome
  case error e' =>
    constructor
    case mp =>
      intro h
      injection h with h
      exact .inl (congrArg _ h)
    case mpr =>
      rintro (h | ⟨a, us, h, -⟩)
      · injection h with h
        exact congrArg _ h
      · have := h.outcome
        simp [hp] at this
  case ok a =>
    constructor
    case mp => exact fun h => .inr ⟨a, rest, ⟨by simp [hp], by simp [hp]⟩, h⟩
    case mpr =>
      rintro (h | ⟨a', us, h, h'⟩)
      · cases h
      · have h₁ := h.outcome
        have h₂ := h.rest
        simp only [hp, Except.ok.injEq] at h₁ h₂
        subst h₁ h₂
        exact h'

-- Where the first parser succeeds, the second one decides.
theorem Yields.bind_iff {p : Parser σ ε α} {f : α → Parser σ ε β} {b : β} (h : p.Yields ts a us) :
    (p >>= f).Yields ts b vs ↔ (f a).Yields us b vs := by
  rw [yields_bind_iff]
  constructor
  case mp =>
    rintro ⟨a', us', h', hf⟩
    cases h'.value_unique h
    cases h'.rest.symm.trans h.rest
    exact hf
  case mpr => exact fun hf => ⟨a, us, h, hf⟩

theorem Yields.fails_bind_iff {p : Parser σ ε α} {f : α → Parser σ ε β} (h : p.Yields ts a us) :
    (p >>= f).Fails ts e ↔ (f a).Fails us e := by
  rw [Parser.fails_bind_iff]
  constructor
  case mp =>
    rintro (hp | ⟨a', us', h', hf⟩)
    · exact absurd hp h.not_fails
    · cases h'.value_unique h
      cases h'.rest.symm.trans h.rest
      exact hf
  case mpr => exact fun hf => .inr ⟨a, us, h, hf⟩

theorem fails_map_iff {p : Parser σ ε α} {f : α → β} : (f <$> p).Fails ts e ↔ p.Fails ts e := by
  have hd : (f <$> p) ts = (p ts).map f := rfl
  rw [Fails, Fails, hd]
  cases h : (p ts).outcome <;> simp [Reply.map, h, Except.map]

theorem ahead_bind_eq (f : List σ → Parser σ ε α) : (ahead >>= f) ts = f ts ts :=
  rfl

theorem fails_ahead_bind_iff {f : List σ → Parser σ ε α} :
    (ahead >>= f).Fails ts e ↔ (f ts).Fails ts e :=
  Iff.rfl

theorem fails_bind_pure_iff {p : Parser σ ε α} {f : α → β} :
    (p >>= fun a => pure (f a)).Fails ts e ↔ p.Fails ts e := by
  simp [fails_bind_iff, not_fails_pure]

theorem fails_many_cons_iff {announces : σ → Bool} {item : Parser σ ε α} {t : σ}
    (ht : announces t = true) :
    (many announces item).Fails (t :: ts) e ↔
      (item >>= fun a => (a :: ·) <$> many announces item).Fails ts e := by
  rw [Fails, (many_cons_eq item ts ht).left]
  rfl

-- Where parsers are put in brackets does not matter.
instance : LawfulMonad (Parser σ ε) := by
  refine .mk' _ ?id ?pure ?assoc (fun _ _ => rfl) (fun _ _ => rfl) (fun _ _ => rfl) ?comp fun _ _ => rfl
  case pure => exact fun _ _ => rfl
  case id =>
    intro α p
    funext ts
    change (p ts).map id = p ts
    rcases p ts with ⟨outcome, rest, hs⟩
    cases outcome <;> rfl
  case comp =>
    intro α β f p
    funext ts
    change ((p ts).andThen fun a => pure (f a)) = (p ts).map f
    rcases p ts with ⟨outcome, rest, hs⟩
    cases outcome <;> rfl
  case assoc =>
    intro α β γ p f g
    funext ts
    change ((p ts).andThen f).andThen g = (p ts).andThen fun a => f a >>= g
    rcases p ts with ⟨outcome, rest, hs⟩
    cases outcome
    case error => rfl
    case ok a =>
      change ((f a rest).weaken hs).andThen g = ((f a rest).andThen g).weaken hs
      rcases f a rest with ⟨outcome, rest', hs'⟩
      cases outcome <;> rfl

end AttributeFilter.Parser
