import AttributeFilter.Proofs.Grammar.Building
import AttributeFilter.Proofs.Grammar.Levels

/-!
The limit on the levels. A rule with fewer levels left does the same as one with more, until it is too deep.
So a run within generous limits tells what a run within any limits does.
-/

namespace AttributeFilter

namespace Grammar

open AttributeFilter.Parser

variable {α β : Type} {limit limit' : Nat} {ts : List Token}

-- On some tokens two rules do the same, or the first one is too deep and has taken no more than the
-- second one.
inductive CapsAt (limit : Nat) (p p' : Rule α) (ts : List Token) : Prop
  | same {x : Except Error α} {us : List Token} (run : p.Runs ts x us) (run' : p'.Runs ts x us)
  | deep {pos : Position} {us : List Token} (run : p.Runs ts (.error (.tooDeep limit pos)) us)
    (rest : (p' ts).rest <:+ us)

namespace CapsAt

variable {p p' : Rule α} {f f' : α → Rule β}

theorem refl (p : Rule α) : CapsAt limit p p ts :=
  .same (.intro p ts) (.intro p ts)

theorem bind (hp : CapsAt limit p p' ts)
    (hf : ∀ a us, p.Yields ts a us → CapsAt limit (f a) (f' a) us) :
    CapsAt limit (p >>= f) (p' >>= f') ts := by
  cases hp
  case deep hr hs => exact .deep hr.bind_error (Runs.rest_bind_suffix.trans hs)
  case same x us hr hr' =>
    cases x
    case error e => exact .same hr.bind_error hr'.bind_error
    case ok a =>
      cases hf a us hr.yields
      case same h h' => exact .same (hr.bind_ok h) (hr'.bind_ok h')
      case deep h hs => exact .deep (hr.bind_ok h) ((hr'.bind_ok (.intro _ _)).rest ▸ hs)

theorem map (hp : CapsAt limit p p' ts) (g : α → β) : CapsAt limit (g <$> p) (g <$> p') ts := by
  cases hp
  case same hr hr' => exact .same (hr.map g) (hr'.map g)
  case deep hr hs  => exact .deep (hr.map g) hs

end CapsAt

-- The first of two rules is a rule with fewer levels left.
def Caps (limit : Nat) (p p' : Rule α) : Prop :=
  ∀ ts, CapsAt limit p p' ts

namespace Caps

variable {p p' : Rule α} {f f' : α → Rule β} {kind : Token.Kind}

theorem refl (p : Rule α) : Caps limit p p :=
  fun _ => .refl p

theorem bind (hp : Caps limit p p') (hf : ∀ a, Caps limit (f a) (f' a)) :
    Caps limit (p >>= f) (p' >>= f') :=
  fun ts => (hp ts).bind fun a us _ => hf a us

theorem map (hp : Caps limit p p') (g : α → β) : Caps limit (g <$> p) (g <$> p') :=
  fun ts => (hp ts).map g

theorem optional (hp : Caps limit p p') : Caps limit (optional kind p) (optional kind p') := by
  refine (refl ahead).bind fun ts => ?_
  split
  case isTrue  => exact hp.bind fun _ => refl _
  case isFalse => exact refl _

-- Items behind separators, as often as there is one. The induction is on the number of tokens.
theorem behindEach (hp : Caps limit p p') :
    Caps limit (behindEach kind p) (behindEach kind p') := by
  intro ts
  induction hl : ts.length using Nat.strongRecOn generalizing ts
  case ind l ih =>
    cases hn : isNext [kind] ts
    case false =>
      have hy (p : Rule α) : (Grammar.behindEach kind p).Yields ts [] ts :=
        (yields_behindEach_stop_iff hn).mpr ⟨rfl, rfl⟩
      exact .same ⟨(hy p).outcome, (hy p).rest⟩ ⟨(hy p').outcome, (hy p').rest⟩
    case true =>
      cases ts
      case nil => cases hn
      case cons t us =>
        have hitem : CapsAt limit (p >>= fun a => (a :: ·) <$> Grammar.behindEach kind p)
            (p' >>= fun a => (a :: ·) <$> Grammar.behindEach kind p') us := by
          refine (hp us).bind fun a vs hy => (ih vs.length ?_ vs rfl).map _
          have := hy.suffix.length_le
          rw [List.length_cons] at hl
          omega
        have ha : decide (t.kind = kind) = true := by simpa using hn
        cases hitem
        case same hr hr' => exact .same (hr.many_cons ha) (hr'.many_cons ha)
        case deep hr hs =>
          have hr' : (Grammar.behindEach kind p').Runs (t :: us) _ _ := (Runs.intro _ us).many_cons ha
          exact .deep (hr.many_cons ha) (hr'.rest ▸ hs)

variable {inner inner' : Rule (Option Tree)} {inner? inner?' : Option (Rule (Option Tree))}

-- The rule one level deeper is capped, if there is one.
def Below (limit : Nat) (inner? inner?' : Option (Rule (Option Tree))) : Prop :=
  ∀ inner ∈ inner?, ∃ inner' ∈ inner?', Caps limit inner inner'

theorem below (h : Caps limit inner inner') : Below limit (some inner) (some inner') := by
  rintro _ ⟨⟩
  exact ⟨inner', rfl, h⟩

theorem nested {t : Token} (h : Below limit inner? inner?') :
    Caps limit (nested limit inner? t) (nested limit' inner?' t) := by
  cases inner?
  case none => exact fun ts => .deep (.ofExcept _ _) (Reply.suffix _)
  case some inner =>
    have ⟨inner', hi, hc⟩ := h inner rfl
    rw [hi]
    exact hc

theorem valueFilter (h : Below limit inner? inner?') :
    Caps limit (valueFilter limit inner?) (valueFilter limit' inner?') :=
  (refl _).bind fun _ => (nested h).bind fun _ => refl _

theorem path (h : Below limit inner? inner?') :
    Caps limit (path limit inner?) (path limit' inner?') :=
  (refl _).bind fun _ => (optional (valueFilter h)).bind fun _ => refl _

theorem comparison (h : Below limit inner? inner?') :
    Caps limit (comparison limit inner?) (comparison limit' inner?') :=
  (path h).bind fun _ => refl _

theorem group (h : Below limit inner? inner?') :
    Caps limit (group limit inner?) (group limit' inner?') :=
  (refl _).bind fun _ => (nested h).bind fun _ => refl _

theorem negation (h : Below limit inner? inner?') :
    Caps limit (negation limit inner?) (negation limit' inner?') :=
  (refl _).bind fun _ => (nested h).bind fun _ => refl _

theorem conjunction (h : Caps limit inner inner') :
    Caps limit (conjunction inner) (conjunction inner') :=
  h.bind fun _ => (behindEach h).bind fun _ => refl _

theorem disjunction (h : Caps limit inner inner') :
    Caps limit (disjunction inner) (disjunction inner') :=
  (conjunction h).bind fun _ => (behindEach (conjunction h)).bind fun _ => refl _

theorem filter (h : Caps limit inner inner') : Caps limit (filter inner) (filter inner') := by
  refine (refl ahead).bind fun ts => ?_
  split
  case isTrue  => exact refl _
  case isFalse => exact disjunction h

theorem Below.filter (h : Below limit inner? inner?') :
    Below limit (inner?.map Grammar.filter) (inner?'.map Grammar.filter) := by
  intro rule hr
  have ⟨inner, hi, he⟩ := Option.map_eq_some_iff.mp hr
  have ⟨inner', hi', hc⟩ := h inner hi
  exact ⟨Grammar.filter inner', Option.map_eq_some_iff.mpr ⟨inner', hi', rfl⟩, he ▸ hc.filter⟩

theorem factorAbove (h : Below limit inner? inner?') :
    Caps limit (factorAbove limit inner?) (factorAbove limit' inner?') := by
  refine (refl ahead).bind fun ts => ?_
  split
  case h_1 => exact refl _
  case h_2 t ts =>
    split
    case h_1 =>
      split
      case isTrue  => exact (comparison h.filter).map some
      case isFalse => exact negation h
    case h_2       => exact group h.filter
    case h_3 | h_4 => exact (comparison h.filter).map some
    case h_5       => exact refl _

theorem factor {levels levels' : Nat} (h : levels ≤ levels') :
    Caps limit (factor limit levels) (factor limit' levels') := by
  induction levels generalizing levels'
  case zero => cases levels' <;> exact factorAbove nofun
  case succ n ih =>
    cases levels'
    case zero => cases h
    case succ => exact factorAbove (ih (Nat.le_of_succ_le_succ h)).below

theorem expression (h : limit ≤ limit') : Caps limit (expression limit) (expression limit') :=
  filter (factor h)

end Caps
end Grammar

open Grammar AttributeFilter.Parser

namespace Cursor

variable {c : Cursor} {l l' : Limits} {d us : List Token}

-- The tokens that a run has taken and that open levels, each with its level.
def entered (c : Cursor) (l : Limits) : List (Token × Nat) :=
  Nesting.openings {} (c.passed (c.parse l).2)

-- Limits that are not exceeded, since every level takes a token.
def generous (c : Cursor) : Limits where
  maxDepth := c.tokens.length

-- The deepest level that a run within generous limits enters.
def deepest (c : Cursor) : Nat :=
  ((c.entered c.generous).map Prod.snd).foldr max 0

-- The first token with which such a run enters a level.
def opener? (c : Cursor) (level : Nat) : Option Token :=
  ((c.entered c.generous).find? fun o => o.2 = level).map Prod.fst

theorem deepest_le_iff {k : Nat} : c.deepest ≤ k ↔ ∀ o ∈ c.entered c.generous, o.2 ≤ k := by
  rw [deepest]
  induction c.entered c.generous
  case nil => simp
  case cons o os ih =>
    rw [List.map_cons, List.foldr_cons, Nat.max_le, ih, List.forall_mem_cons]

-- What a run has entered is counted.
theorem exists_tallies (c : Cursor) (l : Limits) :
    ∃ d us x, (expression l.maxDepth).Runs c.remaining x us ∧ c.remaining = d ++ us ∧
      c.entered l = Nesting.openings {} (places none d us) ∧ Tallies l.maxDepth (c.entered l) x := by
  have hc : CountsFrom l.maxDepth none {} c.remaining (expression l.maxDepth) (Within {}) :=
    Counts.expression ⟨rfl, rfl⟩
  have ⟨d, us, x, hr, hd, ha⟩ := hc
  have he : c.entered l = Nesting.openings {} (places none d us) := by
    rw [entered, ← passed_moveTo hd, parse_eq_of_runs hr]
  exact ⟨d, us, x, hr, hd, he, he ▸ ha.tallies⟩

theorem level_le_of_mem_entered {o : Token × Nat} (h : o ∈ c.entered l) : o.2 ≤ c.tokens.length := by
  have ⟨d, us, x, _, hd, he, _⟩ := exists_tallies c l
  have ho : o ∈ Nesting.openings {} (places none d us) := he ▸ h
  have hl : o.2 ≤ 0 + (places none d us).length :=
    Nesting.level_le_of_mem_openings (Nat.le_refl _) (Nat.le_refl _) (by nofun) o ho
  have hp : (places none d us).length = d.length := by
    rw [← List.length_map, map_token_places]
  have hr : c.remaining.length ≤ c.tokens.length := (List.drop_suffix _ _).length_le
  rw [hd, List.length_append] at hr
  omega

theorem deepest_le_length : c.deepest ≤ c.tokens.length :=
  deepest_le_iff.mpr fun _ => level_le_of_mem_entered

-- With a smaller limit either the run is the same, or it ends at the first token with which a run with
-- the larger limit goes beyond the smaller one.
theorem parse_cases (h : l.maxDepth ≤ l'.maxDepth) :
    (c.parse l = c.parse l' ∧ ∀ o ∈ c.entered l, o.2 ≤ l.maxDepth) ∨
    ∃ t os os', c.entered l' = os ++ (t, l.maxDepth + 1) :: os' ∧ (∀ o ∈ os, o.2 ≤ l.maxDepth) ∧
      (c.parse l).1 = .error (.tooDeep l.maxDepth t.position) := by
  have ⟨d, us, x, hr, hd, he, ht⟩ := exists_tallies c l
  cases Caps.expression h c.remaining
  case same y vs hy hy' =>
    have hp : c.parse l = c.parse l' := (parse_eq_of_runs hy).trans (parse_eq_of_runs hy').symm
    generalize ho : c.entered l = os at ht
    cases ht
    case within hle _ => exact .inl ⟨hp, hle⟩
    case beyond os t hle =>
      refine .inr ⟨t, os, [], ?_, hle, congrArg Prod.fst (parse_eq_of_runs hr)⟩
      rw [entered, ← hp, ← ho]
      rfl
  case deep pos vs hy hs =>
    cases hr.outcome.symm.trans hy.outcome
    cases hr.rest.symm.trans hy.rest
    have ⟨d', us', x', hr', hd', he', _⟩ := exists_tallies c l'
    rw [hr'.rest] at hs
    have ⟨e, hs⟩ := hs
    subst hs
    have hd' : d' = d ++ e := by
      rw [← List.append_assoc] at hd
      exact List.append_cancel_right (hd'.symm.trans hd)
    rw [hd', places_append, Nesting.openings_append, ← he] at he'
    generalize c.entered l = os at ht he'
    cases ht
    case within other => exact absurd rfl (other _ _)
    case beyond os t hle =>
      rw [List.append_assoc] at he'
      exact .inr ⟨t, os, _, he', hle, congrArg Prod.fst (parse_eq_of_runs hr)⟩

theorem parse_eq_generous (h : c.deepest ≤ l.maxDepth) : c.parse l = c.parse c.generous := by
  rcases Nat.le_total l.maxDepth c.generous.maxDepth with hl | hl
  · rcases parse_cases (c := c) hl with ⟨hp, _⟩ | ⟨t, os, os', he, _⟩
    · exact hp
    · have := deepest_le_iff.mp h (t, l.maxDepth + 1) (by simp [he])
      omega
  · rcases parse_cases (c := c) hl with ⟨hp, _⟩ | ⟨t, os, os', he, _⟩
    · exact hp.symm
    · have hm : (t, c.generous.maxDepth + 1) ∈ c.entered l := by simp [he]
      have := level_le_of_mem_entered hm
      exact absurd this (Nat.not_succ_le_self _)

theorem exists_opener (h : l.maxDepth < c.deepest) :
    ∃ t, c.opener? (l.maxDepth + 1) = some t ∧
      (c.parse l).1 = .error (.tooDeep l.maxDepth t.position) := by
  have hl : l.maxDepth ≤ c.generous.maxDepth := Nat.le_of_lt (Nat.lt_of_lt_of_le h deepest_le_length)
  rcases parse_cases (c := c) hl with ⟨hp, hle⟩ | ⟨t, os, os', he, hle, hf⟩
  · have hd : c.deepest ≤ l.maxDepth := by
      rw [deepest_le_iff, entered, ← hp]
      exact hle
    omega
  · refine ⟨t, ?_, hf⟩
    have hn : os.find? (fun o => o.2 = l.maxDepth + 1) = none := by
      rw [List.find?_eq_none]
      intro o ho
      have := hle o ho
      simp
      omega
    simp [opener?, he, List.find?_append, hn]

theorem parse_eq_of_le (h : l.maxDepth ≤ l'.maxDepth)
    (hn : ∀ p, (c.parse l).1 ≠ .error (.tooDeep l.maxDepth p)) : c.parse l' = c.parse l := by
  rcases parse_cases (c := c) h with ⟨hp, _⟩ | ⟨t, _, _, _, _, hf⟩
  · exact hp.symm
  · exact absurd hf (hn _)

-- The limit is exact and changes nothing else.
theorem parse_limit (c : Cursor) (l : Limits) :
    (c.deepest ≤ l.maxDepth → c.parse l = c.parse c.generous) ∧
    (l.maxDepth < c.deepest → ∃ t, c.opener? (l.maxDepth + 1) = some t ∧
      (c.parse l).1 = .error (.tooDeep l.maxDepth t.position)) ∧
    ∀ l', l.maxDepth ≤ l'.maxDepth → (∀ p, (c.parse l).1 ≠ .error (.tooDeep l.maxDepth p)) →
      c.parse l' = c.parse l :=
  ⟨parse_eq_generous, exists_opener, fun _ => parse_eq_of_le⟩

-- A negation of a group.
def nestedCursor : Cursor :=
  .ofTokens [.ofText .not "not".toList, .ofText .leftParen "(".toList ⟨1, 5⟩,
    .ofText .identifier "a".toList, .ofText .rightParen ")".toList]

theorem parse_nestedCursor :
    (∃ t, nestedCursor.opener? 2 = some t ∧
      (nestedCursor.parse { maxDepth := 1 }).1 = .error (.tooDeep 1 t.position)) ∧
    nestedCursor.parse { maxDepth := 2 } = nestedCursor.parse nestedCursor.generous ∧
    nestedCursor.parse { maxDepth := 5 } = nestedCursor.parse { maxDepth := 2 } := by
  have hd : nestedCursor.deepest = 2 := by decide +kernel
  have ho : (nestedCursor.parse { maxDepth := 2 }).1.isOk = true := by decide +kernel
  have hn (p : Position) : (nestedCursor.parse { maxDepth := 2 }).1 ≠ .error (.tooDeep 2 p) := by
    intro h
    rw [h] at ho
    cases ho
  exact ⟨(parse_limit _ { maxDepth := 1 }).right.left (by rw [hd]; decide),
    (parse_limit _ { maxDepth := 2 }).left (Nat.le_of_eq hd),
    (parse_limit _ { maxDepth := 2 }).right.right { maxDepth := 5 } (by decide) hn⟩

end Cursor
end AttributeFilter
