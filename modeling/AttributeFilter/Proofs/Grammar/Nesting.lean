import AttributeFilter.Proofs.Grammar.Faults
import AttributeFilter.Proofs.Token.Places

/-!
Levels of nesting, read off the tokens alone: an opening bracket opens a level up to the bracket that closes
it, and a negation opens one up to the next `and` or `or`, or up to the end of the brackets around it. A rule
that starts with some levels left opens no more of them, or it fails at the first token that does.
-/

namespace AttributeFilter

-- Whether a token opens a level.
def Place.isOpening (p : Place) : Bool :=
  p.token.kind ∈ [.leftParen, .leftBracket] || p.isNegation

-- How deep it is between two tokens: the level, the level inside the innermost brackets, and the same
-- for the brackets around them.
structure Nesting where
  level : Nat := 0
  base : Nat := 0
  outer : List Nat := []

namespace Nesting

-- How deep it is behind a token.
def after (n : Nesting) (p : Place) : Nesting :=
  match p.token.kind with
  | .leftParen | .leftBracket =>
    { level := n.level + 1, base := n.level + 1, outer := n.base :: n.outer }
  | .rightParen | .rightBracket =>
    { level := n.outer.headD 0, base := n.outer.headD 0, outer := n.outer.tail }
  | .and | .or => { n with level := n.base }
  | .not => if p.isNamedNot then n else { n with level := n.level + 1 }
  | _ => n

-- How deep it is behind some tokens.
def through (n : Nesting) (ps : List Place) : Nesting :=
  ps.foldl after n

-- The tokens that open a level, each with the level that it opens.
def openings (n : Nesting) : List Place → List (Token × Nat)
  | [] => []
  | p :: ps =>
    if p.isOpening then (p.token, n.level + 1) :: (n.after p).openings ps
    else (n.after p).openings ps

variable {n : Nesting} {ps qs : List Place}

theorem openings_append : n.openings (ps ++ qs) = n.openings ps ++ (n.through ps).openings qs := by
  induction ps generalizing n
  case nil => rfl
  case cons p ps ih =>
    rw [List.cons_append, openings, openings, ih]
    split <;> rfl

-- Every level takes a token.
theorem level_le_of_mem_openings {bound : Nat} (hl : n.level ≤ bound) (hb : n.base ≤ bound)
    (ho : ∀ k ∈ n.outer, k ≤ bound) : ∀ o ∈ n.openings ps, o.2 ≤ bound + ps.length := by
  induction ps generalizing n bound
  case nil => nofun
  case cons p ps ih =>
    have hh : n.outer.headD 0 ≤ bound := by
      cases h : n.outer
      case nil  => exact Nat.zero_le _
      case cons => exact ho _ (by simp [h])
    have ht : ∀ k ∈ n.outer.tail, k ≤ bound := fun k hk => ho k (List.mem_of_mem_tail hk)
    have hafter : ∀ o ∈ (n.after p).openings ps, o.2 ≤ (bound + 1) + ps.length := by
      apply ih
      all_goals
        unfold after
        split <;> grind
    intro o hm
    rw [List.length_cons]
    rw [openings] at hm
    split at hm
    case isTrue =>
      cases hm
      case head    => show n.level + 1 ≤ _; omega
      case tail hm => have := hafter o hm; omega
    case isFalse => have := hafter o hm; omega

end Nesting

namespace Grammar

open AttributeFilter.Parser

variable {α β : Type} {limit : Nat} {os os' : List (Token × Nat)}

-- No level beyond the limit is opened, and that is not the error; or the first one is, by the last
-- token that opens one, and that is the error.
inductive Tallies (limit : Nat) : List (Token × Nat) → Except Error α → Prop
  | within {levels outcome} (le : ∀ o ∈ levels, o.2 ≤ limit)
      (other : ∀ m p, outcome ≠ .error (.tooDeep m p)) :
    Tallies limit levels outcome
  | beyond {levels} (t : Token) (le : ∀ o ∈ levels, o.2 ≤ limit) :
    Tallies limit (levels ++ [(t, limit + 1)]) (.error (.tooDeep limit t.position))

namespace Tallies

variable {x : Except Error α} {a : α} {e : Error}

theorem ok (h : ∀ o ∈ os, o.2 ≤ limit) : Tallies limit os (.ok a) :=
  within h nofun

theorem le (h : Tallies limit os (.ok a)) : ∀ o ∈ os, o.2 ≤ limit := by
  cases h
  assumption

theorem error (h : Tallies limit os (.error e : Except Error α)) :
    Tallies limit os (.error e : Except Error β) := by
  cases h
  case within h other => exact within h fun m p he => other m p (by injection he with he; rw [he])
  case beyond t h     => exact beyond t h

theorem append (h : ∀ o ∈ os, o.2 ≤ limit) (h' : Tallies limit os' x) :
    Tallies limit (os ++ os') x := by
  cases h'
  case within h' other => exact within (List.forall_mem_append.mpr ⟨h, h'⟩) other
  case beyond os' t h' =>
    rw [← List.append_assoc]
    exact beyond t (List.forall_mem_append.mpr ⟨h, h'⟩)

end Tallies

-- What is known between two tokens, given the token before, the nesting, and the tokens behind.
abbrev Assertion : Type :=
  Option Token → Nesting → List Token → Prop

variable {P Q R S : Assertion} {b : Option Token} {n m : Nesting} {c d us ts : List Token}

-- From a place, a rule takes some tokens with an outcome, and if that is a value, then something is
-- known behind them.
structure Arrives (limit : Nat) (Q : Assertion) (b : Option Token) (n : Nesting) (c us : List Token)
    (x : Except Error α) : Prop where
  tallies : Tallies limit (n.openings (places b c us)) x
  holds   : ∀ a, x = .ok a → Q (lastOf b c) (n.through (places b c us)) us

theorem Arrives.append {x : Except Error α} (h : ∀ o ∈ n.openings (places b c (d ++ us)), o.2 ≤ limit)
    (h' : Arrives limit Q (lastOf b c) (n.through (places b c (d ++ us))) d us x) :
    Arrives limit Q b n (c ++ d) us x where
  tallies := by
    rw [places_append, Nesting.openings_append]
    exact h'.tallies.append h
  holds a ha := by
    have hq := h'.holds a ha
    rw [lastOf_append, places_append, Nesting.through, List.foldl_append]
    exact hq

theorem Arrives.cons {t : Token} {x : Except Error α}
    (h : ∀ o ∈ n.openings [{ before? := b, token := t, behind? := (d ++ us).head? }], o.2 ≤ limit)
    (h' : Arrives limit Q (some t)
      (n.after { before? := b, token := t, behind? := (d ++ us).head? }) d us x) :
    Arrives limit Q b n (t :: d) us x :=
  .append (c := [t]) h h'

-- From a place, a rule keeps count of the levels, and if there is a value, then something is known.
def CountsFrom (limit : Nat) (b : Option Token) (n : Nesting) (ts : List Token) (p : Rule α)
    (Q : Assertion) : Prop :=
  ∃ c us x, p.Runs ts x us ∧ ts = c ++ us ∧ Arrives limit Q b n c us x

namespace CountsFrom

variable {p q : Rule α} {a : α} {e : Error}

theorem congr (h : CountsFrom limit b n ts q Q) (hp : p ts = q ts) : CountsFrom limit b n ts p Q :=
  have ⟨c, us, x, hr, hts, ha⟩ := h
  ⟨c, us, x, hr.congr hp, hts, ha⟩

-- A rule that takes nothing.
theorem value (h : p.Yields ts a ts) (hq : Q b n ts) : CountsFrom limit b n ts p Q :=
  ⟨[], ts, _, ⟨h.outcome, h.rest⟩, rfl, .ok nofun, fun _ _ => hq⟩

theorem fault (h : p.Runs ts (.error e) ts) (he : ∀ m p, e ≠ .tooDeep m p) :
    CountsFrom limit b n ts p Q :=
  ⟨[], ts, _, h, rfl, .within nofun fun m p h => he m p (by injection h), nofun⟩

end CountsFrom

-- Where something is known, a rule keeps count of the levels, and then something else is known.
def Counts (limit : Nat) (P : Assertion) (p : Rule α) (Q : Assertion) : Prop :=
  ∀ ⦃b n ts⦄, P b n ts → CountsFrom limit b n ts p Q

namespace Counts

variable {p : Rule α} {f : α → Rule β} {kinds : List Token.Kind} {kind : Token.Kind}

theorem ofExcept {x : Except Error α} (hx : ∀ m p, x ≠ .error (.tooDeep m p)) :
    Counts limit P (ofExcept x) P :=
  fun _ _ ts h => ⟨[], ts, x, .ofExcept x ts, rfl, .within nofun hx, fun _ _ => h⟩

theorem pure (a : α) : Counts limit P (pure a) P :=
  ofExcept nofun

theorem fail {e : Error} (he : ∀ m p, e ≠ .tooDeep m p) : Counts limit P (fail e : Rule α) P :=
  ofExcept fun m p h => he m p (by injection h)

theorem bind (hp : Counts limit P p Q) (hf : ∀ a, Counts limit Q (f a) R) :
    Counts limit P (p >>= f) R := by
  intro b n ts h
  have ⟨c, us, x, hr, hts, he⟩ := hp h
  cases x
  case error e => exact ⟨c, us, _, hr.bind_error, hts, he.tallies.error, nofun⟩
  case ok a =>
    have ⟨d, vs, x, hr', hus, he'⟩ := hf a (he.holds a rfl)
    subst hus
    exact ⟨c ++ d, vs, x, hr.bind_ok hr', by rw [hts, List.append_assoc], .append he.tallies.le he'⟩

theorem map (h : Counts limit P p Q) (g : α → β) : Counts limit P (g <$> p) Q := by
  intro b n ts hp
  have ⟨c, us, x, hr, hts, he⟩ := h hp
  refine ⟨c, us, _, hr.map g, hts, ?_⟩
  cases x
  case error e => exact ⟨he.tallies.error, nofun⟩
  case ok a    => exact ⟨.ok he.tallies.le, fun _ _ => he.holds a rfl⟩

-- The tokens behind a rule are no more than before it.
theorem bounded (h : Counts limit P p Q) (k : Nat) :
    Counts limit (fun b n ts => P b n ts ∧ ts.length < k) p
      (fun b n ts => Q b n ts ∧ ts.length < k) := by
  intro b n ts ⟨hp, hl⟩
  have ⟨c, us, x, hr, hts, ht, hh⟩ := h hp
  exact ⟨c, us, x, hr, hts, ht, fun a ha => ⟨hh a ha, Nat.lt_of_le_of_lt hr.suffix.length_le hl⟩⟩

-- A token that opens no level.
theorem expect (hk : ∀ b n t us, P b n (t :: us) → t.kind ∈ kinds →
      let place : Place := { before? := b, token := t, behind? := us.head? }
      place.isOpening = false ∧ Q (some t) (n.after place) us) :
    Counts limit P (expect kinds) Q := by
  intro b n ts hp
  cases ts
  case nil => exact .fault (.intro _ _) nofun
  case cons t us =>
    by_cases hm : t.kind ∈ kinds
    case neg => exact .fault (runs_expect_error hm) nofun
    case pos =>
      have ⟨ho, hq⟩ := hk b n t us hp hm
      refine ⟨[t], us, .ok t, runs_expect_ok hm, rfl, .ok ?_, fun _ _ => hq⟩
      simp [places, Nesting.openings, ho]

theorem optional (hp : Counts limit P p Q) (hn : ∀ b n ts, P b n ts → Q b n ts) :
    Counts limit P (optional kind p) Q := by
  intro b n ts h
  cases hk : isNext [kind] ts
  case false => exact .value (yields_optional_iff.mpr (.inr ⟨hk, rfl, rfl⟩)) (hn b n ts h)
  case true =>
    refine CountsFrom.congr ((hp.bind fun a => pure (some a)) h) ?_
    rw [Grammar.optional, ahead_bind_eq, if_pos hk]

-- Items behind separators, as often as there is one. The induction is on the number of tokens.
theorem behindEach (hp : Counts limit P p Q) (hk : ∀ b n t us, Q b n (t :: us) → t.kind = kind →
      let place : Place := { before? := b, token := t, behind? := us.head? }
      place.isOpening = false ∧ P (some t) (n.after place) us) :
    Counts limit Q (behindEach kind p) Q := by
  suffices h : ∀ k, Counts limit (fun b n ts => Q b n ts ∧ ts.length < k)
      (Grammar.behindEach kind p) Q from
    fun b n ts hq => h (ts.length + 1) ⟨hq, Nat.lt_succ_self _⟩
  intro k
  induction k
  case zero => exact fun _ _ _ hq => absurd hq.right (Nat.not_lt_zero _)
  case succ k ih =>
    intro b n ts ⟨hq, hl⟩
    cases hn : isNext [kind] ts
    case false => exact .value ((yields_behindEach_stop_iff hn).mpr ⟨rfl, rfl⟩) hq
    case true =>
      cases ts
      case nil => cases hn
      case cons t us =>
        have ht : t.kind = kind := by simpa using hn
        have ⟨ho, hp'⟩ := hk b n t us hq ht
        have hitem := (hp.bounded k).bind fun a => ih.map (a :: ·)
        have ⟨c, vs, x, hr, hus, ha⟩ := hitem ⟨hp', Nat.lt_of_succ_lt_succ hl⟩
        subst hus
        refine ⟨t :: c, vs, x, hr.many_cons (by simp [ht]), rfl, .cons ?_ ha⟩
        simp only [Nesting.openings, ho, Bool.false_eq_true, if_false]
        nofun

-- A token that opens a level, and what stands behind it. The level is the one of the nesting `m`.
theorem opened {inner? : Option (Rule (Option Tree))} {f : Option Tree → Rule β}
    (hk : ∀ b n t us, P b n (t :: us) → t.kind ∈ kinds →
      let place : Place := { before? := b, token := t, behind? := us.head? }
      place.isOpening = true ∧ n.level + 1 = m.level ∧ Q (some t) (n.after place) us)
    (hnone : inner? = none → m.level = limit + 1)
    (hsome : ∀ inner ∈ inner?, m.level ≤ limit ∧ Counts limit Q inner R)
    (hf : ∀ a, Counts limit R (f a) S) :
    Counts limit P (Grammar.expect kinds >>= fun t => nested limit inner? t >>= f) S := by
  intro b n ts hp
  cases ts
  case nil =>
    have hr : (Grammar.expect kinds).Runs [] (.error .endOfText) [] := .intro _ _
    exact .fault hr.bind_error nofun
  case cons t us =>
    by_cases hm : t.kind ∈ kinds
    case neg => exact .fault (runs_expect_error hm).bind_error nofun
    case pos =>
      obtain ⟨ho, hl, hq⟩ := hk b n t us hp hm
      cases inner?
      case none =>
        have hr : (nested limit none t).Runs us (.error (.tooDeep limit t.position)) us :=
          .ofExcept _ _
        refine ⟨[t], us, _, (runs_expect_ok hm).bind_ok hr.bind_error, rfl, ?_, nofun⟩
        have hl : n.level = limit := Nat.succ.inj (hl.trans (hnone rfl))
        have ht : Tallies limit ([] ++ [(t, limit + 1)])
            (.error (.tooDeep limit t.position) : Except Error β) := .beyond t nofun
        simpa [places, Nesting.openings, ho, hl] using ht
      case some inner =>
        obtain ⟨hle, hi⟩ := hsome inner rfl
        obtain ⟨c, vs, x, hr, rfl, ha⟩ := (hi.bind hf) hq
        refine ⟨t :: c, vs, x, (runs_expect_ok hm).bind_ok hr, rfl, .cons ?_ ha⟩
        have hl : n.level + 1 ≤ limit := hl ▸ hle
        simp [Nesting.openings, hl]

end Counts
end Grammar
end AttributeFilter
