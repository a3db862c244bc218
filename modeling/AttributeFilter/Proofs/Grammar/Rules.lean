import AttributeFilter.Proofs.Grammar.Reading
import AttributeFilter.Proofs.Parser.Yields

/-!
What each rule of the grammar does when it succeeds: one lemma for each rule, in terms of the rules that
it is made of.
-/

namespace AttributeFilter.Grammar

open AttributeFilter.Parser

variable {α : Type} {ts us : List Token}

theorem yields_expect_iff {kinds : List Token.Kind} {t : Token} :
    (expect kinds).Yields ts t us ↔ ts = t :: us ∧ t.kind ∈ kinds := by
  constructor
  case mp =>
    intro h
    have h₁ := h.outcome
    have h₂ := h.rest
    cases ts
    case nil => simp [expect, fail, Parser.ofExcept] at h₁
    case cons t' ts =>
      simp only [expect] at h₁ h₂
      split at h₁
      · next hk =>
        simp only [hk, if_true, Reply.weaken, Parser.ofExcept, Except.ok.injEq] at h₁ h₂
        exact ⟨h₁ ▸ h₂ ▸ rfl, h₁ ▸ hk⟩
      · simp [fail, Parser.ofExcept] at h₁
  case mpr =>
    rintro ⟨rfl, hk⟩
    constructor <;> simp [expect, hk, Reply.weaken, Parser.ofExcept]

theorem yields_optional_iff {kind : Token.Kind} {rule : Rule α} {a? : Option α} :
    (optional kind rule).Yields ts a? us ↔
      (isNext [kind] ts = true ∧ ∃ a, rule.Yields ts a us ∧ some a = a?) ∨
      (isNext [kind] ts = false ∧ none = a? ∧ ts = us) := by
  have hahead : (optional kind rule).Yields ts a? us ↔
      (if isNext [kind] ts then rule >>= fun a => pure (some a) else pure none : Rule _).Yields
        ts a? us := by
    simp only [optional, yields_bind_iff, yields_ahead_iff]
    constructor
    case mp  => rintro ⟨_, _, ⟨rfl, rfl⟩, h⟩; exact h
    case mpr => exact fun h => ⟨ts, ts, ⟨rfl, rfl⟩, h⟩
  cases hn : isNext [kind] ts <;> simp [hahead, hn, yields_pure_iff, yields_map_iff]

variable {vs : List Token} {t : Token} {tree? : Option Tree} {limit : Nat}
variable {factor : Rule (Option Tree)} {inner? : Option (Rule (Option Tree))}

@[simp]
theorem isNext_nil (kinds : List Token.Kind) : isNext kinds [] = false :=
  rfl

@[simp]
theorem isNext_cons (kinds : List Token.Kind) (t : Token) (ts : List Token) :
    isNext kinds (t :: ts) = decide (t.kind ∈ kinds) :=
  rfl

theorem isNext_congr {kinds : List Token.Kind} (h : us.head? = ts.head?) :
    isNext kinds us = isNext kinds ts := by
  rw [isNext, isNext, h]

theorem isNext_mono {kinds kinds' : List Token.Kind} (hk : ∀ k ∈ kinds', k ∈ kinds)
    (h : isNext kinds ts = false) : isNext kinds' ts = false := by
  cases ts
  case nil  => rfl
  case cons => simp_all only [isNext_cons, decide_eq_false_iff_not]; exact fun hm => h (hk _ hm)

theorem yields_behindEach_cons_iff {kind : Token.Kind} {rule : Rule α} {t : Token} {as : List α}
    (ht : t.kind = kind) :
    (behindEach kind rule).Yields (t :: ts) as us ↔
      ∃ a vs as', rule.Yields ts a vs ∧ (behindEach kind rule).Yields vs as' us ∧ a :: as' = as :=
  yields_many_cons_iff (by simp [ht])

theorem yields_behindEach_stop_iff {kind : Token.Kind} {rule : Rule α} {as : List α}
    (ht : isNext [kind] ts = false) :
    (behindEach kind rule).Yields ts as us ↔ as = [] ∧ us = ts := by
  apply yields_many_stop_iff
  cases ts
  case nil  => rfl
  case cons => simpa using ht

-- What is taken behind separators is taken one item after the other.
theorem behindEach_induction {kind : Token.Kind} {rule : Rule α} {as : List α}
    {motive : List Token → List α → Prop} (h : (behindEach kind rule).Yields ts as us)
    (stop : isNext [kind] us = false → motive us [])
    (step : ∀ {t ts a vs as}, t.kind = kind → rule.Yields ts a vs →
      (behindEach kind rule).Yields vs as us → motive vs as → motive (t :: ts) (a :: as)) :
    motive ts as := by
  induction hn : ts.length using Nat.strongRecOn generalizing ts as
  case ind n ih =>
    cases hk : isNext [kind] ts
    case false =>
      have ⟨ha, hu⟩ := (yields_behindEach_stop_iff hk).mp h
      exact ha ▸ hu ▸ stop (hu ▸ hk)
    case true =>
      cases ts
      case nil => cases hk
      case cons t ts =>
        have hk : t.kind = kind := by simpa using hk
        have ⟨a, vs, as', h₁, h₂, ha⟩ := (yields_behindEach_cons_iff hk).mp h
        have hl := h₁.suffix.length_le
        exact ha ▸ step hk h₁ h₂ (ih vs.length (by simp at hn; omega) h₂ rfl)

theorem yields_literal_iff {v : Value} :
    literal.Yields ts v us ↔
      ∃ t, ts = t :: us ∧ t.kind ∈ Token.Kind.literals ∧ literalValue t = .ok v := by
  simp only [literal, yields_bind_iff, yields_expect_iff, yields_ofExcept_iff]
  grind

theorem yields_operator_iff {o : Operator} :
    operator.Yields ts o us ↔
      ∃ t, ts = t :: us ∧ t.kind = .operator ∧ Operator.ofWord? t.text = some o := by
  simp only [operator, yields_bind_iff, yields_expect_iff, List.mem_singleton]
  constructor
  case mp =>
    rintro ⟨t, vs, ⟨rfl, hk⟩, h⟩
    split at h
    · next ho =>
      have ⟨rfl, rfl⟩ := yields_pure_iff.mp h
      exact ⟨t, rfl, hk, ho⟩
    · exact absurd h not_yields_fail
  case mpr =>
    rintro ⟨t, rfl, hk, ho⟩
    exact ⟨t, us, ⟨rfl, hk⟩, by simp [ho, yields_pure_iff]⟩

theorem yields_test_iff {o : Operator} {v? : Option Value} :
    test.Yields ts (o, v?) us ↔
      ∃ vs, operator.Yields ts o vs ∧
        ((o = .present ∧ v? = none ∧ vs = us) ∨
         (o ≠ .present ∧ ∃ v, literal.Yields vs v us ∧ v? = some v)) := by
  simp only [test, yields_bind_iff]
  constructor
  case mp =>
    rintro ⟨o', vs, ho, h⟩
    cases o' <;>
      simp only [Operator.takesValue, Bool.false_eq_true, if_true, if_false, yields_bind_iff,
        yields_pure_iff, Prod.mk.injEq] at h <;> grind
  case mpr =>
    rintro ⟨vs, ho, h⟩
    refine ⟨o, vs, ho, ?_⟩
    cases o <;>
      simp only [Operator.takesValue, Bool.false_eq_true, if_true, if_false, yields_bind_iff,
        yields_pure_iff, Prod.mk.injEq] <;> grind

theorem takesValue_of_test {o : Operator} {v? : Option Value} (h : test.Yields ts (o, v?) us) :
    o.takesValue = v?.isSome := by
  have ⟨_, _, h⟩ := yields_test_iff.mp h
  rcases h with ⟨rfl, rfl, _⟩ | ⟨hp, v, _, rfl⟩
  · rfl
  · cases o <;> first | rfl | exact absurd rfl hp

theorem yields_segment_iff {kinds : List Token.Kind} {s : Text} :
    (segment kinds).Yields ts s us ↔ ∃ t, ts = t :: us ∧ t.kind ∈ kinds ∧ t.text = s := by
  simp only [segment, yields_bind_iff, yields_expect_iff, yields_pure_iff]
  grind

theorem yields_schema_iff {s : Text} :
    schema.Yields ts s us ↔
      ∃ t c, ts = t :: c :: us ∧ t.kind = .schemaUri ∧ c.kind = .colon ∧ t.text = s := by
  simp only [schema, yields_bind_iff, yields_expect_iff, yields_pure_iff, List.mem_singleton]
  grind

theorem yields_subAttribute_iff {s : Text} :
    subAttribute.Yields ts s us ↔
      ∃ d t, ts = d :: t :: us ∧ d.kind = .dot ∧ t.kind = .identifier ∧ t.text = s := by
  simp only [subAttribute, yields_bind_iff, yields_expect_iff, yields_segment_iff,
    List.mem_singleton]
  grind

theorem yields_name_iff {p : Path} :
    name.Yields ts p us ↔
      ∃ schema? vs first ws more p', (optional .schemaUri schema).Yields ts schema? vs ∧
        (segment [.identifier, .not]).Yields vs first ws ∧
        (behindEach .dot (segment [.identifier])).Yields ws more us ∧
        Path.ofSegments (first :: more) = .ok p' ∧ p'.withSchema schema? = p := by
  simp only [name, yields_bind_iff, yields_ofExcept_iff, yields_pure_iff]
  grind

theorem yields_nested_iff :
    (nested limit inner? t).Yields ts tree? us ↔
      ∃ inner, inner? = some inner ∧ inner.Yields ts tree? us := by
  cases inner? <;> simp [nested, not_yields_fail]

theorem yields_valueFilter_iff {filter? : Option (Rule (Option Tree))} {sub? : Option Text} :
    (valueFilter limit filter?).Yields ts (tree?, sub?) us ↔
      ∃ l vs r ws inner, ts = l :: vs ∧ l.kind = .leftBracket ∧ filter? = some inner ∧
        inner.Yields vs tree? (r :: ws) ∧ r.kind = .rightBracket ∧
        (optional .dot subAttribute).Yields ws sub? us := by
  simp only [valueFilter, yields_bind_iff, yields_expect_iff, yields_nested_iff, yields_pure_iff,
    List.mem_singleton, Prod.mk.injEq]
  grind

theorem yields_path_iff {filter? : Option (Rule (Option Tree))} {p : Path} :
    (path limit filter?).Yields ts (p, tree?) us ↔
      ∃ p' vs, name.Yields ts p' vs ∧
        ((isNext [.leftBracket] vs = false ∧ p' = p ∧ tree? = none ∧ vs = us) ∨
         (∃ sub?, (valueFilter limit filter?).Yields vs (tree?, sub?) us ∧ p'.withSub sub? = p)) := by
  simp only [path, yields_bind_iff, yields_optional_iff]
  constructor
  case mp =>
    rintro ⟨p', vs, hp, _, ws, ⟨hn, ⟨f?, sub?⟩, hf, rfl⟩ | ⟨hn, rfl, rfl⟩, h⟩
    all_goals
      have ⟨he, rfl⟩ := yields_pure_iff.mp h
      simp only [Prod.mk.injEq] at he
    · exact ⟨p', vs, hp, .inr ⟨sub?, he.right ▸ hf, he.left⟩⟩
    · exact ⟨p', vs, hp, .inl ⟨hn, he.left, he.right.symm, rfl⟩⟩
  case mpr =>
    rintro ⟨p', vs, hp, ⟨hn, rfl, rfl, rfl⟩ | ⟨sub?, hf, rfl⟩⟩
    · exact ⟨p', vs, hp, none, vs, .inr ⟨hn, rfl, rfl⟩, yields_pure_iff.mpr ⟨rfl, rfl⟩⟩
    · have ⟨l, _, _, _, _, hl, hk, _⟩ := yields_valueFilter_iff.mp hf
      have hn : isNext [.leftBracket] vs = true := by simp [hl, hk]
      exact ⟨p', vs, hp, _, us, .inl ⟨hn, _, hf, rfl⟩, yields_pure_iff.mpr ⟨rfl, rfl⟩⟩

theorem yields_comparison_iff {filter? : Option (Rule (Option Tree))} {tree : Tree} :
    (comparison limit filter?).Yields ts tree us ↔
      ∃ p f? vs, (path limit filter?).Yields ts (p, f?) vs ∧
        ((isNext [.operator] vs = false ∧ tree = .path p f? ∧ vs = us) ∨
         (∃ o v?, test.Yields vs (o, v?) us ∧ tree = .comparison p f? o v?)) := by
  simp only [comparison, yields_bind_iff, yields_optional_iff]
  constructor
  case mp =>
    rintro ⟨⟨p, f?⟩, vs, hp, _, ws, ⟨hn, ⟨o, v?⟩, ht, rfl⟩ | ⟨hn, rfl, rfl⟩, h⟩
    all_goals have ⟨he, rfl⟩ := yields_pure_iff.mp h
    · exact ⟨p, f?, vs, hp, .inr ⟨o, v?, ht, he.symm⟩⟩
    · exact ⟨p, f?, vs, hp, .inl ⟨hn, he.symm, rfl⟩⟩
  case mpr =>
    rintro ⟨p, f?, vs, hp, ⟨hn, rfl, rfl⟩ | ⟨o, v?, ht, rfl⟩⟩
    · exact ⟨_, vs, hp, none, vs, .inr ⟨hn, rfl, rfl⟩, yields_pure_iff.mpr ⟨rfl, rfl⟩⟩
    · have ⟨_, ho, _⟩ := yields_test_iff.mp ht
      have ⟨t, hl, hk, _⟩ := yields_operator_iff.mp ho
      have hn : isNext [.operator] vs = true := by simp [hl, hk]
      exact ⟨_, vs, hp, _, us, .inl ⟨hn, _, ht, rfl⟩, yields_pure_iff.mpr ⟨rfl, rfl⟩⟩

theorem yields_group_iff {filter? : Option (Rule (Option Tree))} :
    (group limit filter?).Yields ts tree? us ↔
      ∃ l vs r inner, ts = l :: vs ∧ l.kind = .leftParen ∧ filter? = some inner ∧
        inner.Yields vs tree? (r :: us) ∧ r.kind = .rightParen := by
  simp only [group, yields_bind_iff, yields_expect_iff, yields_nested_iff, yields_pure_iff,
    List.mem_singleton]
  grind

theorem yields_negation_iff {factor? : Option (Rule (Option Tree))} :
    (negation limit factor?).Yields ts tree? us ↔
      ∃ n vs inner child?, ts = n :: vs ∧ n.kind = .not ∧ factor? = some inner ∧
        inner.Yields vs child? us ∧ child?.map .negation = tree? := by
  simp only [negation, yields_bind_iff, yields_expect_iff, yields_nested_iff, yields_pure_iff,
    List.mem_singleton]
  grind

theorem yields_conjunction_iff :
    (conjunction factor).Yields ts tree? us ↔
      ∃ first? vs more, factor.Yields ts first? vs ∧ (behindEach .and factor).Yields vs more us ∧
        combine .conjunction (first? :: more) = tree? := by
  simp only [conjunction, yields_bind_iff, yields_pure_iff]
  grind

theorem yields_disjunction_iff :
    (disjunction factor).Yields ts tree? us ↔
      ∃ first? vs more, (conjunction factor).Yields ts first? vs ∧
        (behindEach .or (conjunction factor)).Yields vs more us ∧
        combine .disjunction (first? :: more) = tree? := by
  simp only [disjunction, yields_bind_iff, yields_pure_iff]
  grind

theorem yields_filter_iff :
    (filter factor).Yields ts tree? us ↔
      ((ts = [] ∨ isNext [.rightParen, .rightBracket] ts = true) ∧ tree? = none ∧ ts = us) ∨
      (¬(ts = [] ∨ isNext [.rightParen, .rightBracket] ts = true) ∧
        (disjunction factor).Yields ts tree? us) := by
  simp only [filter, yields_bind_iff, yields_ahead_iff]
  constructor
  case mp =>
    rintro ⟨_, _, ⟨rfl, rfl⟩, h⟩
    split at h
    · next hc => exact .inl ⟨hc, by grind [yields_pure_iff]⟩
    · next hc => exact .inr ⟨hc, h⟩
  case mpr =>
    rintro (⟨hc, rfl, rfl⟩ | ⟨hc, h⟩)
    all_goals refine ⟨ts, ts, ⟨rfl, rfl⟩, ?_⟩
    · simp [hc, yields_pure_iff]
    · simpa [hc] using h

theorem two_le_length {as : List α} (hn : as = [] → False) (h₁ : ∀ a, as = [a] → False) :
    2 ≤ as.length := by
  cases as
  case nil => exact absurd rfl hn
  case cons a as =>
    cases as
    case nil  => exact absurd rfl (h₁ a)
    case cons => simp

-- What a factor is depends on its first token, and on the second one behind the word `not`.
theorem yields_factorAbove_iff {factor? : Option (Rule (Option Tree))} :
    (factorAbove limit factor?).Yields ts tree? us ↔
      ∃ t vs, ts = t :: vs ∧
        ((t.kind = .not ∧ isNext [.operator] vs = false ∧
            (negation limit factor?).Yields ts tree? us) ∨
         (t.kind = .leftParen ∧ (group limit (factor?.map filter)).Yields ts tree? us) ∨
         ((t.kind = .identifier ∨ t.kind = .schemaUri ∨
              (t.kind = .not ∧ isNext [.operator] vs = true)) ∧
            ∃ tree, (comparison limit (factor?.map filter)).Yields ts tree us ∧
              some tree = tree?)) := by
  simp only [factorAbove, yields_bind_iff, yields_ahead_iff]
  constructor
  case mp =>
    rintro ⟨_, _, ⟨rfl, rfl⟩, h⟩
    split at h
    · exact absurd h not_yields_fail
    · next t vs =>
      refine ⟨t, vs, rfl, ?_⟩
      split at h
      · next hk =>
        split at h
        · next hn => exact .inr (.inr ⟨.inr (.inr ⟨hk, hn⟩), yields_map_iff.mp h⟩)
        · next hn => exact .inl ⟨hk, by simpa using hn, h⟩
      · next hk => exact .inr (.inl ⟨hk, h⟩)
      · next hk => exact .inr (.inr ⟨.inl hk, yields_map_iff.mp h⟩)
      · next hk => exact .inr (.inr ⟨.inr (.inl hk), yields_map_iff.mp h⟩)
      · exact absurd h not_yields_fail
  case mpr =>
    rintro ⟨t, vs, rfl, h⟩
    refine ⟨t :: vs, t :: vs, ⟨rfl, rfl⟩, ?_⟩
    rcases h with ⟨hk, hn, h⟩ | ⟨hk, h⟩ | ⟨hk | hk | ⟨hk, hn⟩, h⟩
    · simpa [hk, hn] using h
    · simpa [hk] using h
    · simpa [hk, yields_map_iff] using h
    · simpa [hk, yields_map_iff] using h
    · simpa [hk, hn, yields_map_iff] using h

end AttributeFilter.Grammar
