import AttributeFilter.Proofs.Grammar.Spelling
import AttributeFilter.Proofs.Tree.Levels

/-!
The text of a canonical tree spells a derivation that means the tree, wherever the text may stand, and that
opens the levels of the tree, two for each negation.
-/

namespace AttributeFilter.Grammar

open Text Lexeme

variable {levels : Nat} {w r : Text} {t : Tree} {p : Path} {f? : Option Tree}

theorem says_comparison {o : Operator} {v? : Option Value} (ha : v? = none ↔ o = .present)
    (hf : ∀ x, v? = some (.number x) → x.isFinite = true) (hr : r.Ends operandEnds)
    (hp : ∀ r, r.Ends operandEnds → Says levels .path (p, f?) (p.text (Tree.filterText f?)) r) :
    Says levels .factor (some (.comparison p f? o v?)) (Tree.text (.comparison p f? o v?)) r := by
  have ht := spells_test ha hf hr
  have he : Tree.text (.comparison p f? o v?) = p.text (Tree.filterText f?) ++
      ' ' :: (o.word ++ v?.elim [] fun v => ' ' :: v.text) := by
    simp [Tree.text]
  rw [he]
  refine ((hp _ (.cons (by decide))).andBehind ht).map ?_
  rintro ⟨d, test⟩ ⟨⟨hd, hl⟩, ht⟩
  exact ⟨.comparison d test, ⟨by rw [Derivation.meaning, hd, ht], hl⟩, rfl⟩

theorem says_namedNot {o : Operator} {v? : Option Value} (ha : v? = none ↔ o = .present)
    (hf : ∀ x, v? = some (.number x) → x.isFinite = true) (hr : r.Ends operandEnds)
    (hp : p.IsNot) :
    Says 0 .factor (some (.comparison p none o v?)) (Tree.text (.comparison p none o v?)) r := by
  have ht := spells_test ha hf hr
  have hs : p.segments = [p.first] := p.segments_eq.trans (by rw [hp.more])
  have hw : p.text [] = p.first := by
    rw [Path.text, hp.schema, hp.sub, hs]
    simp [joined]
  have he : Tree.text (.comparison p none o v?) = p.first ++
      ' ' :: (o.word ++ v?.elim [] fun v => ' ' :: v.text) := by
    rw [← hw]
    simp [Tree.text, Tree.filterText]
  rw [he]
  have hw := Spells.terminal [.not] List.mem_cons_self
    (cuts_reserved hp.word (r := ' ' :: ((o.word ++ v?.elim [] fun v => ' ' :: v.text) ++ r))
      (.cons rfl))
  apply (hw.andBehind ht).map
  intro n h
  have hp : Name.notPath n.1 = p :=
    Path.eq_of hp.schema.symm (by rw [hs, ← h.left.right]; rfl) hp.sub.symm
  exact ⟨.namedNot n.1 n.2, ⟨by rw [Derivation.meaning, hp, h.right], rfl⟩, rfl⟩

theorem says_group (ht : ∀ r, r.Ends operandEnds → Says levels .filter (some t) w r) (r : Text) :
    Says (levels + 1) .factor (some t) (Tree.inParens w) r :=
  (spells_group (ht ([')'] ++ r) (.cons (by decide)))).map
    fun n hn => ⟨.group n.1 n.2.1 n.2.2, ⟨hn.left, congrArg Nat.succ hn.right⟩, rfl⟩

-- The word `not` opens a level, and the parentheses behind it open another one.
theorem says_negation (ht : ∀ r, r.Ends operandEnds → Says levels .filter (some t) t.text r)
    (r : Text) : Says (levels + 2) .factor (some (.negation t)) (Tree.text (.negation t)) r :=
  (spells_negation (says_group ht r)).map
    fun n hn => ⟨.negation n.1 n.2, ⟨by rw [Derivation.meaning, hn.left]; rfl,
      congrArg Nat.succ hn.right⟩, rfl⟩

-- Operands with a word between neighbours, for lists that are derived one operand after the other.
theorem spells_operands {α β : Type} {tokens : α → List Token} {tokens' : β → List Token}
    {means : α → Option Tree} {means' : β → List (Option Tree)} {depth : α → Nat} {depth' : β → Nat}
    {k : Token.Kind} {word : Text} {outer : Nat} {ts : List Tree} (last : β)
    (next : Terminal [k] → α → β → β)
    (hl : tokens' last = [] ∧ means' last = [] ∧ depth' last = 0)
    (hn : ∀ t a b, tokens' (next t a b) = t.token :: (tokens a ++ tokens' b) ∧
      means' (next t a b) = means a :: means' b ∧ depth' (next t a b) = max (depth a) (depth' b))
    (hw : Token.Kind.Reserves k word)
    (h : ∀ t' ∈ t :: ts, ∀ r, r.Ends operandEnds →
      Spells tokens (fun a => means a = some t' ∧ depth a = t'.operandLevels 2 outer)
        (Tree.operandText outer t') r)
    (hr : r.Ends operandEnds) :
    Spells (fun d : α × β => tokens d.1 ++ tokens' d.2)
      (fun d => means d.1 :: means' d.2 = (t :: ts).map some ∧
        max (depth d.1) (depth' d.2) = Tree.operandsLevels 2 outer (t :: ts))
      (joined (' ' :: word ++ [' ']) (Tree.operandTexts outer (t :: ts))) r := by
  rw [Tree.operandTexts_eq_map]
  induction ts generalizing t
  case nil =>
    refine (h t List.mem_cons_self r hr).map fun a ha => ⟨(a, last), ⟨?_, ?_⟩, ?_⟩
    · rw [ha.left, hl.right.left]
      rfl
    · rw [ha.right, hl.right.right, Tree.operandsLevels_cons]
      rfl
    · rw [hl.left, List.append_nil]
  case cons t' ts ih =>
    obtain ⟨ht, hts⟩ := List.forall_mem_cons.mp h
    have he : joined (' ' :: word ++ [' ']) ((t :: t' :: ts).map (Tree.operandText outer)) =
        Tree.operandText outer t ++ ' ' ::
          (word ++ ' ' :: joined (' ' :: word ++ [' ']) ((t' :: ts).map (Tree.operandText outer))) := by
      simp [joined]
    rw [he]
    apply (spells_between hw (ht _ (.cons (by decide))) (ih hts)).map
    rintro ⟨a, n, b, c⟩ ⟨⟨ha, hda⟩, hb, hdb⟩
    obtain ⟨h₁, h₂, h₃⟩ := hn n b c
    refine ⟨(a, next n b c), ⟨?_, ?_⟩, by rw [h₁]⟩
    · rw [ha, h₂, hb]
      rfl
    · rw [Tree.operandsLevels_cons, ← hda, ← hdb, h₃]

theorem says_conjunction_of_factor {m : Option Tree} (h : Says levels .factor m w r) :
    Says levels .conjunction m w r :=
  h.map fun d hd => have ⟨e, ht, hm, hl⟩ := d.exists_conjunction
    ⟨e, ⟨hm.trans hd.left, hl.trans hd.right⟩, ht⟩

theorem says_disjunction_of_conjunction {m : Option Tree} (h : Says levels .conjunction m w r) :
    Says levels .disjunction m w r :=
  h.map fun d hd => have ⟨e, ht, hm, hl⟩ := d.exists_disjunction
    ⟨e, ⟨hm.trans hd.left, hl.trans hd.right⟩, ht⟩

theorem says_filter_of_disjunction {m : Option Tree} (h : Says levels .disjunction m w r) :
    Says levels .filter m w r :=
  h.map fun d hd => ⟨.whole d, hd, rfl⟩

theorem says_filter_of_factor {m : Option Tree} (h : Says levels .factor m w r) :
    Says levels .filter m w r :=
  says_filter_of_disjunction (says_disjunction_of_conjunction (says_conjunction_of_factor h))

theorem combine_some {join : List Tree → Tree} {ts : List Tree} (hl : 2 ≤ ts.length) :
    combine join (ts.map some) = some (join ts) := by
  have hm : (ts.map some).filterMap id = ts := by simp
  unfold combine
  rw [hm]
  match ts with
  | _ :: _ :: _ => rfl

-- The text of a tree spells the tree, as tightly as the tree holds together.
structure Spelled (t : Tree) : Prop where
  filter      : ∀ r, r.Ends operandEnds → Says (t.levels 2) .filter (some t) t.text r
  conjunction : 1 < t.precedence → ∀ r, r.Ends operandEnds →
    Says (t.levels 2) .conjunction (some t) t.text r
  factor      : 2 < t.precedence → ∀ r, r.Ends operandEnds →
    Says (t.levels 2) .factor (some t) t.text r

namespace Spelled

theorem of_disjunction (hp : t.precedence ≤ 1)
    (h : ∀ r, r.Ends operandEnds → Says (t.levels 2) .disjunction (some t) t.text r) : Spelled t where
  filter      := fun r hr => says_filter_of_disjunction (h r hr)
  conjunction := fun hn => absurd hp (Nat.not_le.mpr hn)
  factor      := fun hn => by omega

theorem of_conjunction (hp : t.precedence ≤ 2)
    (h : ∀ r, r.Ends operandEnds → Says (t.levels 2) .conjunction (some t) t.text r) : Spelled t where
  filter      := fun r hr => says_filter_of_disjunction (says_disjunction_of_conjunction (h r hr))
  conjunction := fun _ => h
  factor      := fun hn => absurd hp (Nat.not_le.mpr hn)

theorem of_factor (h : ∀ r, r.Ends operandEnds → Says (t.levels 2) .factor (some t) t.text r) :
    Spelled t where
  filter      := fun r hr => says_filter_of_factor (h r hr)
  conjunction := fun _ r hr => says_conjunction_of_factor (h r hr)
  factor      := fun _ => h

-- An operand of a conjunction is a factor, in parentheses or without.
theorem conjunct (h : Spelled t) (hr : r.Ends operandEnds) :
    Says (t.operandLevels 2 2) .factor (some t) (Tree.operandText 2 t) r := by
  unfold Tree.operandText Tree.operandLevels
  split
  case isTrue     => exact says_group h.filter r
  case isFalse hp => exact h.factor (Nat.not_le.mp hp) r hr

theorem alternative (h : Spelled t) (hr : r.Ends operandEnds) :
    Says (t.operandLevels 2 1) .conjunction (some t) (Tree.operandText 1 t) r := by
  unfold Tree.operandText Tree.operandLevels
  split
  case isTrue     => exact says_conjunction_of_factor (says_group h.filter r)
  case isFalse hp => exact h.conjunction (Nat.not_le.mp hp) r hr

theorem path (hp : Tree.IsReference p f?) (hf : ∀ f ∈ f?, Spelled f) (hr : r.Ends operandEnds) :
    Says (Tree.filterLevels 2 f?) .path (p, f?) (p.text (Tree.filterText f?)) r := by
  cases f?
  case none   => exact says_bare hp.left (hp.right rfl) hr
  case some f => exact says_filtered hp.left (hf f rfl).filter hr

theorem conjunctions {ts : List Tree} (hl : 2 ≤ ts.length) (h : ∀ t ∈ ts, Spelled t)
    (hr : r.Ends operandEnds) :
    Says (Tree.operandsLevels 2 2 ts) .conjunction (some (.conjunction ts))
      (Tree.text (.conjunction ts)) r := by
  cases ts
  case nil => cases hl
  case cons t ts =>
    have hw : Token.Kind.Reserves .and "and".toList := .of_mem (by decide)
    have hn (t : Terminal [.and]) (d : Derivation .factor) (ds : Derivation .conjuncts) :
        (Derivation.conjunct t d ds).tokens = t.token :: (d.tokens ++ ds.tokens) ∧
          (Derivation.conjunct t d ds).meaning = d.meaning :: ds.meaning ∧
          (Derivation.conjunct t d ds).depth = max d.depth ds.depth := ⟨rfl, rfl, rfl⟩
    refine (spells_operands Derivation.lastConjunct Derivation.conjunct ⟨rfl, rfl, rfl⟩ hn hw
      (fun t ht r hr => (h t ht).conjunct hr) hr).map ?_
    intro ⟨d, ds⟩ ⟨hd, hl'⟩
    refine ⟨.conjunction d ds, ⟨?_, hl'⟩, rfl⟩
    rw [Derivation.meaning, hd, combine_some hl]

theorem disjunctions {ts : List Tree} (hl : 2 ≤ ts.length) (h : ∀ t ∈ ts, Spelled t)
    (hr : r.Ends operandEnds) :
    Says (Tree.operandsLevels 2 1 ts) .disjunction (some (.disjunction ts))
      (Tree.text (.disjunction ts)) r := by
  cases ts
  case nil => cases hl
  case cons t ts =>
    have hw : Token.Kind.Reserves .or "or".toList := .of_mem (by decide)
    have hn (t : Terminal [.or]) (d : Derivation .conjunction) (ds : Derivation .alternatives) :
        (Derivation.alternative t d ds).tokens = t.token :: (d.tokens ++ ds.tokens) ∧
          (Derivation.alternative t d ds).meaning = d.meaning :: ds.meaning ∧
          (Derivation.alternative t d ds).depth = max d.depth ds.depth := ⟨rfl, rfl, rfl⟩
    refine (spells_operands Derivation.lastAlternative Derivation.alternative ⟨rfl, rfl, rfl⟩ hn hw
      (fun t ht r hr => (h t ht).alternative hr) hr).map ?_
    intro ⟨d, ds⟩ ⟨hd, hl'⟩
    refine ⟨.disjunction d ds, ⟨?_, hl'⟩, rfl⟩
    rw [Derivation.meaning, hd, combine_some hl]

theorem of_canonical (h : t.All Tree.IsCanonical) (ha : t.All Tree.HasArity) : Spelled t := by
  induction h
  case intro t hc hs ih =>
    replace ih : ∀ c ∈ t.parts, Spelled c := fun c hm => ih c hm (ha.part hm)
    replace ha := ha.here
    cases t
    case path p f? =>
      apply of_factor
      intro r hr
      have hp := path hc (fun f hf => ih f (Option.mem_toList.mpr hf)) hr
      exact hp.map fun d ⟨hd, hl⟩ => ⟨.reference d, ⟨by rw [Derivation.meaning, hd], hl⟩, rfl⟩
    case comparison p f? o v? =>
      cases hc.left
      case inl hp =>
        exact of_factor fun r hr => says_comparison ha hc.right hr fun r hr =>
          path hp (fun f hm => ih f (Option.mem_toList.mpr hm)) hr
      case inr hp =>
        cases hp.right
        exact of_factor fun r hr => says_namedNot ha hc.right hr hp.left
    case negation c =>
      exact of_factor fun r _ => says_negation (ih c List.mem_cons_self).filter r
    case conjunction ts =>
      exact of_conjunction (Nat.le_refl 2) fun r hr => conjunctions hc ih hr
    case disjunction ts =>
      exact of_disjunction (Nat.le_refl 1) fun r hr => disjunctions hc ih hr

end Spelled
end AttributeFilter.Grammar
