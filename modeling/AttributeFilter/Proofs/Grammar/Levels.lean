import AttributeFilter.Proofs.Grammar.Nesting

/-!
Every rule keeps count of the levels. A rule begins at some level, and the brackets around it are the same
behind it; only a negation at its end still counts there.
-/

namespace AttributeFilter

-- The kinds of tokens that change the level.
def Token.Kind.levels : List Token.Kind :=
  [.not, .leftParen, .leftBracket, .rightParen, .rightBracket, .and, .or]

theorem Place.isOpening_eq_false {p : Place} (h : p.token.kind ∉ Token.Kind.levels) :
    p.isOpening = false := by
  simp only [Token.Kind.levels, List.mem_cons, List.not_mem_nil, or_false, not_or] at h
  simp [isOpening, isNegation, h]

theorem Nesting.after_eq_self {n : Nesting} {p : Place} (h : p.token.kind ∉ Token.Kind.levels) :
    n.after p = n := by
  unfold after
  split <;> first | rfl | exact absurd h (by simp [*, Token.Kind.levels])

-- The nesting inside brackets that are opened.
def Nesting.inside (n : Nesting) : Nesting where
  level := n.level + 1
  base  := n.level + 1
  outer := n.base :: n.outer

-- The nesting behind a negation.
def Nesting.negated (n : Nesting) : Nesting :=
  { n with level := n.level + 1 }

namespace Grammar

open AttributeFilter.Parser

variable {α : Type} {limit : Nat} {m : Nesting} {P : Assertion}

-- The nesting is a given one.
def At (m : Nesting) : Assertion :=
  fun b n _ => n = m ∧ isColon b = false

-- The nesting is a given one but for the level.
def Within (m : Nesting) : Assertion :=
  fun b n _ => n.base = m.base ∧ n.outer = m.outer ∧ isColon b = false

-- The nesting is a given one, and if the word `not` is next, it is a name.
def AtName (m : Nesting) : Assertion :=
  fun b n ts => n = m ∧ ∀ t us, ts = t :: us → t.kind = .not →
    ({ before? := b, token := t, behind? := us.head? } : Place).isNamedNot = true

theorem At.within {b : Option Token} {n : Nesting} {ts : List Token} (h : At m b n ts) :
    Within m b n ts :=
  ⟨h.left ▸ rfl, h.left ▸ rfl, h.right⟩

-- The nesting is the same behind a token that does not change the level.
theorem At.behind {b : Option Token} {n : Nesting} {t : Token} {us : List Token} (hn : n = m)
    (hl : t.kind ∉ Token.Kind.levels) (hc : t.kind ≠ .colon) :
    let place : Place := { before? := b, token := t, behind? := us.head? }
    place.isOpening = false ∧ At m (some t) (n.after place) us :=
  ⟨Place.isOpening_eq_false hl, (Nesting.after_eq_self hl).trans hn, by simpa [isColon] using hc⟩

-- The rule that stands one level deeper keeps count, if a level is left.
structure Deeper (limit : Nat) (m : Nesting) (inner? : Option (Rule (Option Tree))) : Prop where
  none : inner? = none → m.level = limit + 1
  some : ∀ inner ∈ inner?, m.level ≤ limit ∧ Counts limit (At m) inner (Within m)

namespace Counts

variable {kinds : List Token.Kind} {kind : Token.Kind} {p : Rule α}

-- Tokens that do not change the level, and are no colons.
theorem expect_at (h : ∀ k ∈ kinds, k ∉ Token.Kind.levels ∧ k ≠ .colon) :
    Counts limit (At m) (Grammar.expect kinds) (At m) :=
  expect fun _ _ _ _ hn hk => At.behind hn.left (h _ hk).left (h _ hk).right

theorem expect_within (h : ∀ k ∈ kinds, k ∉ Token.Kind.levels ∧ k ≠ .colon) :
    Counts limit (Within m) (Grammar.expect kinds) (Within m) := by
  refine expect fun b n t us ⟨hb, ho, _⟩ hk => ?_
  have ⟨hl, hc⟩ := h _ hk
  refine ⟨Place.isOpening_eq_false hl, ?_⟩
  rw [Nesting.after_eq_self hl]
  exact ⟨hb, ho, by simpa [isColon] using hc⟩

theorem literalValue_ne_tooDeep {t : Token} (l : Nat) (p : Position) :
    literalValue t ≠ .error (.tooDeep l p) := by
  unfold literalValue
  split <;> try split
  all_goals nofun

theorem test : Counts limit (Within m) test (Within m) := by
  have hoperator : Counts limit (Within m) operator (Within m) := by
    refine (expect_within (by decide)).bind fun t => ?_
    cases Operator.ofWord? t.text
    case none   => exact fail nofun
    case some o => exact pure o
  have hliteral : Counts limit (Within m) literal (Within m) :=
    (expect_within (by decide)).bind fun t => ofExcept literalValue_ne_tooDeep
  refine hoperator.bind fun o => ?_
  cases o.takesValue
  case false => exact pure _
  case true  => exact hliteral.bind fun _ => pure _

theorem schema : Counts limit (AtName m) schema (AtName m) := by
  refine bind (Q := fun _ n _ => n = m) (expect fun b n t us ⟨hn, _⟩ hk => ?_) fun t => ?_
  · have hl : t.kind ∉ Token.Kind.levels := by rw [List.mem_singleton.mp hk]; decide
    exact ⟨Place.isOpening_eq_false hl, (Nesting.after_eq_self hl).trans hn⟩
  · refine bind (Q := AtName m) (expect fun b n c us hn hk => ?_) fun _ => pure _
    have hk := List.mem_singleton.mp hk
    have hl : c.kind ∉ Token.Kind.levels := by rw [hk]; decide
    refine ⟨Place.isOpening_eq_false hl, (Nesting.after_eq_self hl).trans hn, fun t vs _ ht => ?_⟩
    simp [Place.isNamedNot, isColon, ht, hk]

theorem segment (h : ∀ k ∈ kinds, k ∉ Token.Kind.levels ∧ k ≠ .colon) :
    Counts limit (At m) (segment kinds) (At m) :=
  (expect_at h).bind fun _ => pure _

-- The first segment may be the word `not`.
theorem firstSegment : Counts limit (AtName m) (Grammar.segment [.identifier, .not]) (At m) := by
  refine bind (expect fun b n t us ⟨hn, hname⟩ hk => ?_) fun _ => pure _
  have hk : t.kind = .identifier ∨ t.kind = .not := by simpa using hk
  rcases hk with hk | hk
  · exact At.behind hn (by rw [hk]; decide) (by rw [hk]; decide)
  · have hname := hname t us rfl hk
    refine ⟨?_, ?_, by simp [isColon, hk]⟩
    · simp [Place.isOpening, Place.isNegation, hk, hname]
    · simpa [Nesting.after, hk, hname] using hn

theorem ofSegments_ne_tooDeep {segments : List Text} (l : Nat) (p : Position) :
    Path.ofSegments segments ≠ .error (.tooDeep l p) := by
  intro h
  unfold Path.ofSegments at h
  split at h <;> cases h

theorem name : Counts limit (AtName m) name (At m) := by
  have hschema : Counts limit (AtName m) (Grammar.optional .schemaUri Grammar.schema) (AtName m) :=
    optional schema fun _ _ _ => id
  have hmore : Counts limit (At m) (Grammar.behindEach .dot (Grammar.segment [.identifier])) (At m) :=
    behindEach (segment (by decide)) fun _ _ _ _ hn hk =>
      At.behind hn.left (by rw [hk]; decide) (by rw [hk]; decide)
  exact hschema.bind fun _ => firstSegment.bind fun _ => hmore.bind fun _ =>
    (ofExcept ofSegments_ne_tooDeep).bind fun _ => pure _

-- A bracket that is closed leads back to the level before it was opened.
theorem close {closing : Token.Kind} (hk : closing ∈ [.rightParen, .rightBracket]) :
    Counts limit (Within m.inside) (Grammar.expect [closing]) (Within m) := by
  refine expect fun b n t us ⟨_, ho, _⟩ ht => ?_
  have ht : t.kind = .rightParen ∨ t.kind = .rightBracket := by
    rw [List.mem_singleton.mp ht]
    simpa using hk
  have ho : n.outer = m.base :: m.outer := ho
  rcases ht with ht | ht <;>
    simp [Place.isOpening, Place.isNegation, Nesting.after, Within, isColon, ht, ho]

variable {inner? : Option (Rule (Option Tree))}

theorem opened_at {opening : Token.Kind} {f : Option Tree → Rule α}
    (hk : opening ∈ [.leftParen, .leftBracket]) (h : Deeper limit m.inside inner?)
    (hf : ∀ a, Counts limit (Within m.inside) (f a) (Within m)) :
    Counts limit (At m) (Grammar.expect [opening] >>= fun t => nested limit inner? t >>= f)
      (Within m) := by
  refine opened (fun b n t us ⟨hn, _⟩ ht => ?_) h.none h.some hf
  have ht : t.kind = .leftParen ∨ t.kind = .leftBracket := by
    rw [List.mem_singleton.mp ht]
    simpa using hk
  rcases ht with ht | ht <;>
    simp [Place.isOpening, Nesting.after, At, isColon, Nesting.inside, ht, hn]

theorem valueFilter (h : Deeper limit m.inside inner?) :
    Counts limit (At m) (valueFilter limit inner?) (Within m) := by
  have hsub : Counts limit (Within m) subAttribute (Within m) :=
    (expect_within (by decide)).bind fun _ => (expect_within (by decide)).bind fun _ => pure _
  refine opened_at (by decide) h fun _ => (close (by decide)).bind fun _ => ?_
  exact (optional hsub fun _ _ _ => id).bind fun _ => pure _

theorem path (h : Deeper limit m.inside inner?) :
    Counts limit (AtName m) (path limit inner?) (Within m) := by
  refine name.bind fun _ => (optional (valueFilter h) fun _ _ _ => At.within).bind fun f? => ?_
  cases f?
  case none => exact pure _
  case some => exact pure _

theorem comparison (h : Deeper limit m.inside inner?) :
    Counts limit (AtName m) (comparison limit inner?) (Within m) := by
  refine (path h).bind fun _ => (optional test fun _ _ _ => id).bind fun t? => ?_
  cases t?
  case none => exact pure _
  case some => exact pure _

theorem group (h : Deeper limit m.inside inner?) :
    Counts limit (At m) (group limit inner?) (Within m) :=
  opened_at (by decide) h fun _ => (close (by decide)).bind fun _ => pure _

theorem negation (h : Deeper limit m.negated inner?) :
    Counts limit (fun b n ts => At m b n ts ∧ ∀ t us, ts = t :: us → isNext [.operator] us = false)
      (negation limit inner?) (Within m) := by
  refine opened (fun b n t us ⟨⟨hn, hc⟩, ho⟩ ht => ?_) h.none h.some fun _ => pure _
  have ht := List.mem_singleton.mp ht
  have hname : ({ before? := b, token := t, behind? := us.head? } : Place).isNamedNot = false := by
    have ho := ho t us rfl
    cases us <;> simp_all [Place.isNamedNot]
  simp [Place.isOpening, Place.isNegation, Nesting.after, At, isColon, Nesting.negated, ht, hname, hn]

variable {inner : Rule (Option Tree)} {factor? : Option (Rule (Option Tree))}

-- Behind a separator the level is the one inside the brackets again.
theorem separator {b : Option Token} {n : Nesting} {t : Token} {us : List Token}
    (hm : m.level = m.base) (h : Within m b n (t :: us)) (hk : t.kind ∈ [.and, .or]) :
    let place : Place := { before? := b, token := t, behind? := us.head? }
    place.isOpening = false ∧ At m (some t) (n.after place) us := by
  have ⟨hb, ho, _⟩ := h
  have hk : t.kind = .and ∨ t.kind = .or := by simpa using hk
  have hn : ({ n with level := n.base } : Nesting) = m := by
    cases n
    cases m
    simp_all
  rcases hk with hk | hk <;>
    simp [Place.isOpening, Place.isNegation, Nesting.after, At, isColon, hk, hn]

theorem conjunction (hm : m.level = m.base) (h : Counts limit (At m) inner (Within m)) :
    Counts limit (At m) (conjunction inner) (Within m) :=
  h.bind fun _ => (behindEach h fun _ _ _ _ hw hk => separator hm hw (by simp [hk])).bind
    fun _ => pure _

theorem disjunction (hm : m.level = m.base) (h : Counts limit (At m) inner (Within m)) :
    Counts limit (At m) (disjunction inner) (Within m) :=
  (conjunction hm h).bind fun _ =>
    (behindEach (conjunction hm h) fun _ _ _ _ hw hk => separator hm hw (by simp [hk])).bind
      fun _ => pure _

theorem filter (hm : m.level = m.base) (h : Counts limit (At m) inner (Within m)) :
    Counts limit (At m) (filter inner) (Within m) := by
  intro b n ts ha
  by_cases hc : ts = [] ∨ isNext [.rightParen, .rightBracket] ts = true
  case pos => exact .value (yields_filter_iff.mpr (.inl ⟨hc, rfl, rfl⟩)) ha.within
  case neg =>
    refine CountsFrom.congr (disjunction hm h ha) ?_
    rw [Grammar.filter, ahead_bind_eq, if_neg hc]

-- A factor is what its first tokens decide on. The word `not` is a name if the second one is an operator.
theorem factorAbove (h : Deeper limit m.inside (factor?.map Grammar.filter))
    (hn : Deeper limit m.negated factor?) :
    Counts limit (At m) (factorAbove limit factor?) (Within m) := by
  intro b n ts ha
  cases ts
  case nil => exact .fault (.intro _ _) nofun
  case cons t us =>
    have hc : AtName m b n (t :: us) → CountsFrom limit b n (t :: us)
        (some <$> Grammar.comparison limit (factor?.map Grammar.filter) : Rule _) (Within m) :=
      fun ha => (comparison h).map some ha
    by_cases hk : t.kind ∈ openers
    case neg =>
      refine CountsFrom.congr (.fault (.ofExcept _ _) ?_) (factorAbove_eq_fail hk)
      nofun
    case pos =>
      rcases mem_openers_iff.mp hk with hk | hk | hk
      · cases ho : isNext [.operator] us
        case false =>
          refine .congr (negation hn ⟨ha, ?_⟩) (factorAbove_eq_negation hk ho)
          rintro _ _ ⟨⟩
          exact ho
        case true =>
          refine .congr (hc ⟨ha.left, ?_⟩) (factorAbove_eq_notPath hk ho)
          rintro _ _ ⟨⟩ hk
          cases us <;> simp_all [Place.isNamedNot]
      · exact .congr (group h ha) (factorAbove_eq_group hk)
      · refine .congr (hc ⟨ha.left, ?_⟩) (factorAbove_eq_comparison hk)
        rintro _ _ ⟨⟩ hk'
        simp [hk'] at hk

-- A factor opens as many levels as are left.
theorem factor {levels : Nat} (hm : m.level + levels = limit) :
    Counts limit (At m) (factor limit levels) (Within m) := by
  induction levels generalizing m
  case zero =>
    have hm : m.level = limit := hm
    refine factorAbove ⟨fun _ => ?_, nofun⟩ ⟨fun _ => ?_, nofun⟩
    all_goals exact congrArg (· + 1) hm
  case succ k ih =>
    have hm : m.level + 1 + k = limit := by omega
    have hle : m.level + 1 ≤ limit := by omega
    refine factorAbove ⟨nofun, ?_⟩ ⟨nofun, ?_⟩
    · rintro _ ⟨⟩
      exact ⟨hle, filter rfl (ih hm)⟩
    · rintro _ ⟨⟩
      exact ⟨hle, ih hm⟩

theorem expression : Counts limit (At {}) (expression limit) (Within {}) :=
  filter rfl (factor (Nat.zero_add limit))

end Counts
end Grammar
end AttributeFilter
