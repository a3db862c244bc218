import AttributeFilter.Proofs.Grammar.Derivation
import AttributeFilter.Proofs.Grammar.Rules
import AttributeFilter.Proofs.Text.Quoted

/-!
What the grammar derives, the rules accept with the meaning of the derivation, and they stop where
it ends, if enough levels are left.
-/

namespace AttributeFilter.Grammar

open AttributeFilter.Parser Text

variable {limit levels : Nat} {ts us : List Token} {s : Symbol}

-- The rule of factors one level deeper, if a level is left.
def below (limit : Nat) : Nat → Option (Rule (Option Tree))
  | 0          => none
  | levels + 1 => some (factor limit levels)

theorem factor_eq (limit levels : Nat) :
    factor limit levels = factorAbove limit (below limit levels) := by
  cases levels <;> rfl

def ruleOf (limit levels : Nat) : (s : Symbol) → Rule (Meaning s)
  | .filter       => filter (factor limit levels)
  | .disjunction  => disjunction (factor limit levels)
  | .alternatives => behindEach .or (conjunction (factor limit levels))
  | .conjunction  => conjunction (factor limit levels)
  | .conjuncts    => behindEach .and (factor limit levels)
  | .factor       => factor limit levels
  | .path         => path limit ((below limit levels).map filter)

-- What may stand behind the tokens of a symbol. The rule would go on at any other token.
def Ends : Symbol → List Token → Prop
  | .filter, ts => ts = [] ∨ isNext [.rightParen, .rightBracket] ts = true
  | .disjunction, ts | .alternatives, ts =>
    isNext [.or, .and, .operator, .leftBracket, .dot] ts = false
  | .conjunction, ts | .conjuncts, ts => isNext [.and, .operator, .leftBracket, .dot] ts = false
  | .factor, ts => isNext [.operator, .leftBracket, .dot] ts = false
  | .path, ts => isNext [.leftBracket, .dot] ts = false

theorem literalValue_eq_ok_iff {t : Token} {v : Value} (hl : t.IsLexeme) :
    literalValue t = .ok v ↔ Denotes t v := by
  simp only [Token.IsLexeme] at hl
  constructor
  case mp =>
    intro h
    unfold literalValue at h
    split at h
    · next hk =>
      rw [hk] at hl
      rw [Quoted.decodePadded?_of_isSome hl] at h
      split at h
      · next hs => cases h; exact .string hk hs
      · cases h
    · next hk =>
      split at h
      · next hx =>
        cases h
        have ⟨hx, hf⟩ := Option.filter_eq_some_iff.mp hx
        exact .number hk hx hf
      · cases h
    · next hk => cases h; exact .true hk
    · next hk => cases h; exact .false hk
    · next hk => cases h; exact .null hk
    · cases h
  case mpr =>
    intro h
    cases h
    case string hk hs =>
      rw [hk] at hl
      simp [literalValue, hk, Quoted.decodePadded?_of_isSome hl, hs]
    case number hk hx hf =>
      simp [literalValue, hk, hx, Option.filter, hf]
    all_goals simp [literalValue, *]

namespace Terminal

variable {kinds : List Token.Kind}

theorem kind_eq {kind : Token.Kind} (t : Terminal [kind]) : t.token.kind = kind :=
  List.mem_singleton.mp t.kind_mem

end Terminal

theorem Literal.yields (l : Literal) : literal.Yields (l.word.token :: us) l.value us :=
  yields_literal_iff.mpr
    ⟨_, rfl, l.word.kind_mem, (literalValue_eq_ok_iff l.word.lexeme).mpr l.denotes⟩

theorem Test.yields : (d : Test) → test.Yields (d.tokens ++ us) d.meaning us
  | present word names =>
    yields_test_iff.mpr
      ⟨us, yields_operator_iff.mpr ⟨_, rfl, word.kind_eq, names⟩, .inl ⟨rfl, rfl, rfl⟩⟩
  | relation word _ names ne_present value =>
    yields_test_iff.mpr
      ⟨_, yields_operator_iff.mpr ⟨_, rfl, word.kind_eq, names⟩,
        .inr ⟨ne_present, _, value.yields, rfl⟩⟩

theorem Test.isNext_tokens {kinds : List Token.Kind} (d : Test) :
    isNext kinds (d.tokens ++ us) = decide (.operator ∈ kinds) := by
  cases d <;> simp [tokens, Terminal.kind_eq]

theorem Test.ends_path (d : Test) (us : List Token) : Ends .path (d.tokens ++ us) :=
  d.isNext_tokens

theorem yields_segment {kinds : List Token.Kind} {t : Token} (ht : t.kind ∈ kinds)
    (us : List Token) : (segment kinds).Yields (t :: us) t.text us :=
  yields_segment_iff.mpr ⟨t, rfl, ht, rfl⟩

theorem yields_members (ms : List Member) (hu : isNext [.dot] us = false) :
    (behindEach .dot (segment [.identifier])).Yields
      (ms.flatMap Member.tokens ++ us) (ms.map Member.text) us := by
  induction ms
  case nil          => exact (yields_behindEach_stop_iff hu).mpr ⟨rfl, rfl⟩
  case cons m ms ih =>
    have hm := yields_segment m.name.kind_mem (ms.flatMap Member.tokens ++ us)
    exact (yields_behindEach_cons_iff m.dot.kind_eq).mpr ⟨_, _, _, hm, ih, rfl⟩

theorem ofSegments_eq_ok {segments : List Text} (h : segments ≠ []) (hs : ∀ s ∈ segments, s ≠ []) :
    Path.ofSegments segments = .ok
      { schema? := none, segments, sub? := none, segments_ne_nil := h, ne_nil_of_mem := hs } :=
  dif_pos ⟨h, hs⟩

theorem yields_no_schema (hn : isNext [.schemaUri] ts = false) :
    (optional .schemaUri schema).Yields ts none ts :=
  yields_optional_iff.mpr (.inr ⟨hn, rfl, rfl⟩)

theorem Name.yields (n : Name) (hu : isNext [.dot] us = false) :
    name.Yields (n.tokens ++ us) (n.path none) us := by
  have hp := ofSegments_eq_ok n.segments_ne_nil fun _ => ne_nil_of_mem_segments
  cases n
  case plain first more =>
    have hn : isNext [.schemaUri] ((plain first more).tokens ++ us) = false := by
      simp [tokens, first.kind_eq]
    have hq := yields_no_schema hn
    have hk : first.token.kind ∈ [.identifier, .not] := by simp [first.kind_eq]
    have hf := yields_segment hk (more.flatMap Member.tokens ++ us)
    exact yields_name_iff.mpr ⟨_, _, _, _, _, _, hq, hf, yields_members more hu, hp, rfl⟩
  case qualified uri colon first more =>
    have hn : isNext [.schemaUri] ((qualified uri colon first more).tokens ++ us) = true := by
      simp [tokens, uri.kind_eq]
    have hc : schema.Yields ((qualified uri colon first more).tokens ++ us) uri.token.text
        (first.token :: (more.flatMap Member.tokens ++ us)) :=
      yields_schema_iff.mpr ⟨_, _, rfl, uri.kind_eq, colon.kind_eq, rfl⟩
    have hq := yields_optional_iff.mpr (.inl ⟨hn, _, hc, rfl⟩)
    have hf := yields_segment first.kind_mem (more.flatMap Member.tokens ++ us)
    exact yields_name_iff.mpr ⟨_, _, _, _, _, _, hq, hf, yields_members more hu, hp, rfl⟩

theorem Name.yields_notPath (word : Terminal [.not]) (hu : isNext [.dot] us = false) :
    name.Yields (word.token :: us) (Name.notPath word) us := by
  have hn : isNext [.schemaUri] (word.token :: us) = false := by simp [word.kind_eq]
  have hq := yields_no_schema hn
  have hk : word.token.kind ∈ [.identifier, .not] := by simp [word.kind_eq]
  have hf := yields_segment hk us
  have hm := yields_members [] hu
  have hp := ofSegments_eq_ok (Name.notPath word).segments_ne_nil (Name.notPath word).ne_nil_of_mem
  exact yields_name_iff.mpr ⟨_, _, _, _, _, _, hq, hf, hm, hp, rfl⟩

-- The word `not` before an operator is the whole path.
theorem yields_path_notPath {filter? : Option (Rule (Option Tree))} (word : Terminal [.not])
    (ho : isNext [.operator] us = true) :
    (path limit filter?).Yields (word.token :: us) (Name.notPath word, none) us := by
  have hn : isNext [.dot, .leftBracket] us = false := by
    cases us
    case nil  => rfl
    case cons => simp_all
  have hp := Name.yields_notPath word (isNext_mono (by simp) hn)
  exact yields_path_iff.mpr ⟨_, us, hp, .inl ⟨isNext_mono (by simp) hn, rfl, rfl, rfl⟩⟩

-- The kinds of the tokens that a factor may start with.
def openers : List Token.Kind :=
  [.not, .leftParen, .identifier, .schemaUri]

theorem mem_openers_iff {k : Token.Kind} :
    k ∈ openers ↔ k = .not ∨ k = .leftParen ∨ k ∈ [.identifier, .schemaUri] := by
  simp [openers]

theorem Name.isNext_openers (n : Name) :
    isNext [.identifier, .schemaUri] (n.tokens ++ us) = true := by
  cases n
  case plain first _       => simp [tokens, first.kind_eq]
  case qualified uri _ _ _ => simp [tokens, uri.kind_eq]

def Opens : Symbol → List Token → Prop
  | .filter, _ | .alternatives, _ | .conjuncts, _ => True
  | .path, ts => isNext [.identifier, .schemaUri] ts = true
  | .disjunction, ts | .conjunction, ts | .factor, ts => isNext openers ts = true

theorem isNext_openers_of_path (h : Opens .path ts) : isNext openers ts = true := by
  cases ts
  case nil  => cases h
  case cons => simp_all [Opens, openers, or_comm]

theorem Derivation.opens (d : Derivation s) (us : List Token) : Opens s (d.tokens ++ us) := by
  induction d generalizing us
  case nothing | whole | lastAlternative | alternative | lastConjunct | conjunct => trivial
  case disjunction ih _ | conjunction ih _ => simpa [tokens, Opens] using ih _
  case negation word _ _ => simp [tokens, Opens, openers, word.kind_eq]
  case group left _ _ _  => simp [tokens, Opens, openers, left.kind_eq]
  case namedNot word _   => simp [tokens, Opens, openers, word.kind_eq]
  case reference ih  => exact isNext_openers_of_path (ih us)
  case comparison ih => exact isNext_openers_of_path (by simpa [tokens] using ih _)
  case bare n               => exact n.isNext_openers
  case filtered n _ _ _ _ _ => simpa [tokens, Opens] using n.isNext_openers

-- A symbol that opens with one of some kinds does not end there.
theorem isNext_of_openers {kinds : List Token.Kind} (hk : ∀ k ∈ kinds, k ∉ openers)
    (h : isNext openers ts = true) : isNext kinds ts = false := by
  cases ts
  case nil  => rfl
  case cons => simp_all only [isNext_cons, decide_eq_true_eq, decide_eq_false_iff_not]; grind

theorem Ends.disjunction (h : Ends .filter us) : Ends .disjunction us := by
  cases us
  case nil  => rfl
  case cons => simp_all [Ends]; grind

theorem Ends.alternatives (d : Derivation .alternatives) (h : Ends .alternatives us) :
    Ends .conjunction (d.tokens ++ us) := by
  cases d
  case lastAlternative      => exact isNext_mono (by simp) h
  case alternative word _ _ => simp [Derivation.tokens, Ends, word.kind_eq]

theorem Ends.conjuncts (d : Derivation .conjuncts) (h : Ends .conjuncts us) :
    Ends .factor (d.tokens ++ us) := by
  cases d
  case lastConjunct      => exact isNext_mono (by simp) h
  case conjunct word _ _ => simp [Derivation.tokens, Ends, word.kind_eq]

theorem yields_subAttribute (sub? : Option Member) (hu : isNext [.dot] us = false) :
    (optional .dot subAttribute).Yields (sub?.elim [] Member.tokens ++ us)
      (sub?.map Member.text) us := by
  cases sub?
  case none   => exact yields_optional_iff.mpr (.inr ⟨hu, rfl, rfl⟩)
  case some m =>
    have hm : subAttribute.Yields (m.tokens ++ us) m.text us :=
      yields_subAttribute_iff.mpr ⟨_, _, rfl, m.dot.kind_eq, m.name.kind_eq, rfl⟩
    exact yields_optional_iff.mpr (.inl ⟨by simp [Member.tokens, m.dot.kind_eq], _, hm, rfl⟩)

theorem yields_factor_of_comparison {tree : Tree} (ho : Opens .path ts)
    (h : (comparison limit ((below limit levels).map filter)).Yields ts tree us) :
    (factor limit levels).Yields ts (some tree) us := by
  rw [factor_eq]
  cases ts
  case nil       => cases ho
  case cons t ts =>
    have hk : t.kind = .identifier ∨ t.kind = .schemaUri := by simpa [Opens] using ho
    exact yields_factorAbove_iff.mpr ⟨t, ts, rfl, .inr (.inr ⟨by grind, tree, h, rfl⟩)⟩

theorem yields_of_derivation (d : Derivation s) (hd : d.depth ≤ levels) (hu : Ends s us) :
    (ruleOf limit levels s).Yields (d.tokens ++ us) d.meaning us := by
  induction d generalizing levels us
  case nothing => exact yields_filter_iff.mpr (.inl ⟨hu, rfl, rfl⟩)
  case whole d ih =>
    have ho := d.opens us
    have hc : isNext [.rightParen, .rightBracket] (d.tokens ++ us) = false :=
      isNext_of_openers (by decide) ho
    have hn : ¬(d.tokens ++ us = [] ∨ isNext [.rightParen, .rightBracket] (d.tokens ++ us)) := by
      rintro (he | he)
      · simp [Opens, he] at ho
      · simp [hc] at he
    exact yields_filter_iff.mpr (.inr ⟨hn, ih hd hu.disjunction⟩)
  case disjunction first more ih₁ ih₂ =>
    have hd := Nat.max_le.mp hd
    have hf := ih₁ hd.left (hu.alternatives more)
    simp only [Derivation.tokens, List.append_assoc]
    exact yields_disjunction_iff.mpr ⟨_, _, _, hf, ih₂ hd.right hu, rfl⟩
  case lastAlternative =>
    exact (yields_behindEach_stop_iff (isNext_mono (by simp) hu)).mpr ⟨rfl, rfl⟩
  case alternative word next more ih₁ ih₂ =>
    have hd := Nat.max_le.mp hd
    have hf := ih₁ hd.left (hu.alternatives more)
    simp only [Derivation.tokens, List.append_assoc, List.cons_append]
    exact (yields_behindEach_cons_iff word.kind_eq).mpr ⟨_, _, _, hf, ih₂ hd.right hu, rfl⟩
  case conjunction first more ih₁ ih₂ =>
    have hd := Nat.max_le.mp hd
    have hf := ih₁ hd.left (hu.conjuncts more)
    simp only [Derivation.tokens, List.append_assoc]
    exact yields_conjunction_iff.mpr ⟨_, _, _, hf, ih₂ hd.right hu, rfl⟩
  case lastConjunct =>
    exact (yields_behindEach_stop_iff (isNext_mono (by simp) hu)).mpr ⟨rfl, rfl⟩
  case conjunct word next more ih₁ ih₂ =>
    have hd := Nat.max_le.mp hd
    have hf := ih₁ hd.left (hu.conjuncts more)
    simp only [Derivation.tokens, List.append_assoc, List.cons_append]
    exact (yields_behindEach_cons_iff word.kind_eq).mpr ⟨_, _, _, hf, ih₂ hd.right hu, rfl⟩
  case negation word inner ih =>
    cases levels
    case zero   => exact absurd hd (Nat.not_succ_le_zero _)
    case succ n =>
      have hd : inner.depth ≤ n := Nat.le_of_succ_le_succ hd
      have ho : isNext [.operator] (inner.tokens ++ us) = false :=
        isNext_of_openers (by decide) (inner.opens us)
      have hn : (negation limit (some (factor limit n))).Yields (word.token :: (inner.tokens ++ us))
          (inner.meaning.map .negation) us :=
        yields_negation_iff.mpr ⟨_, _, _, _, rfl, word.kind_eq, rfl, ih hd hu, rfl⟩
      exact yields_factorAbove_iff.mpr ⟨_, _, rfl, .inl ⟨word.kind_eq, ho, hn⟩⟩
  case group left inner right ih =>
    cases levels
    case zero   => exact absurd hd (Nat.not_succ_le_zero _)
    case succ n =>
      have hd : inner.depth ≤ n := Nat.le_of_succ_le_succ hd
      have he : Ends .filter (right.token :: us) := .inr (by simp [right.kind_eq])
      have hg : (group limit (some (filter (factor limit n)))).Yields
          (left.token :: (inner.tokens ++ right.token :: us)) inner.meaning us :=
        yields_group_iff.mpr ⟨_, _, _, _, rfl, left.kind_eq, rfl, ih hd he, right.kind_eq⟩
      simp only [Derivation.tokens, List.cons_append, List.append_assoc, List.nil_append]
      exact yields_factorAbove_iff.mpr ⟨_, _, rfl, .inr (.inl ⟨left.kind_eq, hg⟩)⟩
  case reference p ih =>
    have hp := ih hd (isNext_mono (by simp) hu)
    have hc := yields_comparison_iff.mpr ⟨_, _, _, hp, .inl ⟨isNext_mono (by simp) hu, rfl, rfl⟩⟩
    exact yields_factor_of_comparison (p.opens us) hc
  case comparison p test ih =>
    have hp := ih hd (test.ends_path us)
    have hc := yields_comparison_iff.mpr ⟨_, _, _, hp, .inr ⟨_, _, test.yields, rfl⟩⟩
    simp only [Derivation.tokens, List.append_assoc]
    exact yields_factor_of_comparison (p.opens _) hc
  case namedNot word test =>
    have ho : isNext [.operator] (test.tokens ++ us) := test.isNext_tokens
    have hp : (path limit ((below limit levels).map filter)).Yields _ _ _ :=
      yields_path_notPath word ho
    have hc := yields_comparison_iff.mpr ⟨_, _, _, hp, .inr ⟨_, _, test.yields, rfl⟩⟩
    have hk := And.intro word.kind_eq ho
    rw [ruleOf, factor_eq]
    exact yields_factorAbove_iff.mpr ⟨_, _, rfl, .inr (.inr ⟨.inr (.inr hk), _, hc, rfl⟩)⟩
  case bare n =>
    have hn := n.yields (isNext_mono (by simp) hu)
    exact yields_path_iff.mpr ⟨_, _, hn, .inl ⟨isNext_mono (by simp) hu, rfl, rfl, rfl⟩⟩
  case filtered n left inner right sub? ih =>
    cases levels
    case zero   => exact absurd hd (Nat.not_succ_le_zero _)
    case succ k =>
      have hd : inner.depth ≤ k := Nat.le_of_succ_le_succ hd
      have he : Ends .filter (right.token :: (sub?.elim [] Member.tokens ++ us)) :=
        .inr (by simp [right.kind_eq])
      have hs := yields_subAttribute sub? (isNext_mono (by simp) hu)
      let rest := inner.tokens ++ right.token :: (sub?.elim [] Member.tokens ++ us)
      have hf : (valueFilter limit (some (filter (factor limit k)))).Yields (left.token :: rest)
          (inner.meaning, sub?.map Member.text) us :=
        yields_valueFilter_iff.mpr
          ⟨_, _, _, _, _, rfl, left.kind_eq, rfl, ih hd he, right.kind_eq, hs⟩
      have hl : isNext [.dot] (left.token :: rest) = false := by simp [left.kind_eq]
      have hn := n.yields hl
      simp only [Derivation.tokens, List.cons_append, List.append_assoc]
      exact yields_path_iff.mpr ⟨_, _, hn, .inr ⟨_, hf, rfl⟩⟩

end AttributeFilter.Grammar
