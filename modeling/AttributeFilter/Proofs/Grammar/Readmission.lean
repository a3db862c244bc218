import AttributeFilter.Proofs.Grammar.Accepted
import AttributeFilter.Proofs.Tree.Levels

/-!
Which limits admit the canonical text of a filter that was parsed. The text opens the levels of the tree, two
for each negation, where one was enough to write it. So limits that admitted the filter need not admit its
text: it may be too long, and it may be nested deeper, but at most twice as deep.
-/

namespace AttributeFilter

namespace Grammar

variable {s : Symbol} {k : Nat}

-- What a symbol means opens no more than so many levels, where a negation opens one. An operand may need
-- parentheses.
def Meaning.LevelsLe (k : Nat) : (s : Symbol) → Meaning s → Prop
  | .filter, t? | .disjunction, t? => ∀ t ∈ t?, t.levels 1 ≤ k
  | .conjunction, t?               => ∀ t ∈ t?, t.operandLevels 1 1 ≤ k
  | .factor, t?                    => ∀ t ∈ t?, t.operandLevels 1 2 ≤ k
  | .alternatives, ts              => ∀ t? ∈ ts, ∀ t ∈ t?, t.operandLevels 1 1 ≤ k
  | .conjuncts, ts                 => ∀ t? ∈ ts, ∀ t ∈ t?, t.operandLevels 1 2 ≤ k
  | .path, (_, f?)                 => Tree.filterLevels 1 f? ≤ k

theorem Meaning.LevelsLe.mono {k' : Nat} {m : Meaning s} (h : LevelsLe k s m) (hk : k ≤ k') :
    LevelsLe k' s m := by
  cases s
  case path => exact Nat.le_trans h hk
  case alternatives | conjuncts => exact fun t? hm t ht => Nat.le_trans (h t? hm t ht) hk
  all_goals exact fun t ht => Nat.le_trans (h t ht) hk

theorem levelsLe_conjunction {ts : List (Option Tree)} (h : Meaning.LevelsLe k .conjuncts ts) :
    Meaning.LevelsLe k .conjunction (combine .conjunction ts) := by
  refine of_mem_combine_imp h (fun t ht => Nat.le_trans (Tree.operandLevels_mono (by decide)) ht) ?_
  intro ts _ ht
  exact Tree.operandsLevels_le_iff.mpr ht

theorem levelsLe_disjunction {ts : List (Option Tree)} (h : Meaning.LevelsLe k .alternatives ts) :
    Meaning.LevelsLe k .disjunction (combine .disjunction ts) := by
  refine of_mem_combine_imp h (fun t ht => Nat.le_trans Tree.levels_le_operandLevels ht) ?_
  intro ts _ ht
  exact Tree.operandsLevels_le_iff.mpr ht

theorem filterLevels_le {f? : Option Tree} (h : ∀ t ∈ f?, t.levels 1 ≤ k) :
    Tree.filterLevels 1 f? ≤ k + 1 := by
  cases f?
  case none   => exact Nat.zero_le _
  case some t => exact Nat.succ_le_succ (h t rfl)

-- A derivation opens at least the levels of what it means, where a negation opens one.
theorem Derivation.levelsLe (d : Derivation s) : Meaning.LevelsLe d.depth s d.meaning := by
  induction d
  case nothing | lastAlternative | lastConjunct => nofun
  case whole ih => exact ih
  case disjunction ih₁ ih₂ =>
    exact levelsLe_disjunction (List.forall_mem_cons.mpr
      ⟨ih₁.mono (Nat.le_max_left _ _), ih₂.mono (Nat.le_max_right _ _)⟩)
  case conjunction ih₁ ih₂ =>
    exact levelsLe_conjunction (List.forall_mem_cons.mpr
      ⟨ih₁.mono (Nat.le_max_left _ _), ih₂.mono (Nat.le_max_right _ _)⟩)
  case alternative ih₁ ih₂ | conjunct ih₁ ih₂ =>
    exact List.forall_mem_cons.mpr
      ⟨ih₁.mono (Nat.le_max_left _ _), ih₂.mono (Nat.le_max_right _ _)⟩
  case negation inner ih =>
    intro t ht
    have ⟨c, hc, he⟩ := Option.map_eq_some_iff.mp ht
    subst he
    exact Nat.succ_le_succ (Nat.le_trans Tree.levels_le_operandLevels (ih c hc))
  case group ih =>
    intro t ht
    exact Nat.le_trans Tree.operandLevels_le (Nat.succ_le_succ (ih t ht))
  case reference ih | comparison ih =>
    rintro t ⟨⟩
    exact ih
  case namedNot =>
    rintro t ⟨⟩
    exact Nat.le_refl 0
  case bare => exact Nat.le_refl 0
  case filtered ih => exact filterLevels_le ih

end Grammar

open Text Grammar

variable {l : Limits} {levels : Nat} {input w : Text} {f : Filter} {t : Tree}

-- What is parsed has a derivation that keeps the limits.
theorem exists_derivation_of_parse {f? : Option Filter} (h : parse l input = .ok f?) :
    byteLength input ≤ l.maxLength ∧ ∃ d : Derivation .filter, tokenize input = .ok d.tokens ∧
      d.meaning = f?.map Filter.tree ∧ d.depth ≤ l.maxDepth := by
  have ⟨hl, ts, hts, hp⟩ := parse_eq_ok_iff.mp h
  have ⟨t?, hy, hf⟩ := parseTokens_eq_ok_iff.mp hp
  have ⟨d, hd, hm, hn⟩ := filter_sound factor_sound hy (isLexeme_of_tokenize hts)
  have ⟨g?, hg, ht⟩ := exists_layOut (hm ▸ d.makeable)
  cases hf.symm.trans hg
  rw [List.append_nil] at hd
  exact ⟨hl, d, hd ▸ hts, hm.trans ht.symm, hn⟩

-- There is one derivation only, and so the limits have to admit that one.
theorem parse_iff_of_says (h : Says levels .filter (some t) w []) :
    (∃ g?, parse l w = .ok g?) ↔ byteLength w ≤ l.maxLength ∧ levels ≤ l.maxDepth := by
  have ⟨d, ⟨_, hn⟩, ht, _⟩ := tokenize_of_spells .nil .nil h
  rw [List.nil_append, List.append_nil] at ht
  constructor
  case mp =>
    intro ⟨g?, hg⟩
    have ⟨hl, d', ht', _, hn'⟩ := exists_derivation_of_parse hg
    have hd : d' = d := Derivation.tokens_injective (Except.ok.inj (ht'.symm.trans ht))
    exact ⟨hl, hn ▸ hd ▸ hn'⟩
  case mpr =>
    intro ⟨hl, hk⟩
    have ⟨f?, hf, _⟩ := exists_layOut d.makeable
    have hp : parseTokens l d.tokens = .ok f? := parseTokens_of_derivation d (hn ▸ hk) hf
    exact ⟨f?, parse_eq_ok_iff.mpr ⟨hl, _, ht, hp⟩⟩

-- The text of a filter that was parsed is admitted by the limits that its length and its levels keep. The
-- levels are those of what was parsed, if there are no negations, and no more than twice as many if there
-- are.
theorem parse_text_iff (h : parse l input = .ok (some f)) :
    f.tree.levels 2 ≤ 2 * l.maxDepth ∧
    (f.tree.All Tree.IsPositive → f.tree.levels 2 ≤ l.maxDepth) ∧
    ∀ l', (∃ g?, parse l' f.text = .ok g?) ↔
      byteLength f.text ≤ l'.maxLength ∧ f.tree.levels 2 ≤ l'.maxDepth := by
  have ⟨_, d, _, hm, hn⟩ := exists_derivation_of_parse h
  have hlevels : f.tree.levels 1 ≤ l.maxDepth := by
    have hd := d.levelsLe
    rw [hm] at hd
    exact Nat.le_trans (hd _ rfl) hn
  refine ⟨?_, fun hp => Tree.levels_of_positive hp ▸ hlevels, fun l' => ?_⟩
  case refine_1 =>
    have hmul : f.tree.levels 2 ≤ 2 * f.tree.levels 1 :=
      Tree.levels_mul_le (n := 1) (k := 2) (by decide) f.tree
    exact Nat.le_trans hmul (Nat.mul_le_mul_left 2 hlevels)
  case refine_2 =>
    have ⟨hac, har⟩ := accepted_of_parse h
    have hs := Spelled.of_canonical (hac.settle Tree.isCanonical_settle)
      (har.settle Tree.hasArity_settle)
    have ht := hs.filter [] nofun
    rw [f.tree.text_settle, Tree.levels_settle] at ht
    exact parse_iff_of_says ht

-- One level is enough for a negation, but not for its text.
theorem parse_text_iff_negation :
    ∃ f, parse { maxDepth := 1 } "not a pr".toList = .ok (some f) ∧
      ∀ l, (∃ g?, parse l f.text = .ok g?) ↔ 10 ≤ l.maxLength ∧ 2 ≤ l.maxDepth := by
  have ⟨f, hf, hs⟩ : ∃ f, parse { maxDepth := 1 } "not a pr".toList = .ok (some f) ∧
      (byteLength f.text, f.tree.levels 2) = (10, 2) := exists_of_map_ok (by decide +kernel)
  have ⟨hlength, hlevels⟩ := Prod.mk.inj hs
  refine ⟨f, hf, ?_⟩
  rw [← hlength, ← hlevels]
  exact (parse_text_iff hf).right.right

-- Limits that admitted a filter refuse its text, the one for its levels and the other for its length.
theorem parse_text_of_negation :
    (∃ f, parse { maxDepth := 1 } "not a pr".toList = .ok (some f) ∧
      ∀ g?, parse { maxDepth := 1 } f.text ≠ .ok g?) ∧
    ∃ f, parse { maxLength := 8 } "not a pr".toList = .ok (some f) ∧
      ∀ g?, parse { maxLength := 8 } f.text ≠ .ok g? := by
  have hne {l : Limits} (h : (parse l "not (a pr)".toList).isOk = false) (g? : Option Filter) :
      parse l "not (a pr)".toList ≠ .ok g? := by
    intro hg
    rw [hg] at h
    cases h
  constructor
  case left =>
    have ⟨f, hf, ht⟩ : ∃ f, parse { maxDepth := 1 } "not a pr".toList = .ok (some f) ∧
        f.text = "not (a pr)".toList := exists_of_map_ok (by decide +kernel)
    exact ⟨f, hf, ht ▸ hne (by decide +kernel)⟩
  case right =>
    have ⟨f, hf, ht⟩ : ∃ f, parse { maxLength := 8 } "not a pr".toList = .ok (some f) ∧
        f.text = "not (a pr)".toList := exists_of_map_ok (by decide +kernel)
    exact ⟨f, hf, ht ▸ hne (by decide +kernel)⟩

end AttributeFilter
