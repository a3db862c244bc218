import AttributeFilter.Proofs.Filter.Arity
import AttributeFilter.Proofs.Grammar.Reparsing
import AttributeFilter.Proofs.Workbench.Run

/-!
Parsing the canonical text of a filter that a workbench keeps. Whoever built the filter, parsing gives its
tree back if the tree is canonical.
-/

namespace AttributeFilter.Workbench

variable {w w' : Workbench}

-- Comparisons have a value where their operator takes one.
structure HasArity (w : Workbench) : Prop where
  builders : ∀ n b, (n, b) ∈ w.builders → b.arena.HasArity
  filters  : ∀ n f, (n, some f) ∈ w.filters → f.arena.HasArity

namespace HasArity

theorem insertFilter (h : w.HasArity) {as : Text} {f? : Option Filter}
    (hf : ∀ f ∈ f?, f.arena.HasArity) {n : Text} {g : Filter}
    (hm : (n, some g) ∈ w.filters.insert as f?) : g.arena.HasArity := by
  cases Named.mem_insert_iff.mp hm
  case inl hm => exact hf g hm.right.symm
  case inr hm => exact h.filters n g hm.left

theorem does (h : w.HasArity) (hd : w.Does w') : w'.HasArity := by
  have hb {name : Text} {b : Builder} (hb : w.builders.find? name = some b) : b.arena.HasArity :=
    h.builders name b (Named.mem_of_find? hb)
  cases hd
  case refuse => exact h
  case use => exact ⟨h.builders, h.filters⟩
  case join hn => exact ⟨Named.forall_insert (hb hn) h.builders, h.filters⟩
  case make hn _ hm =>
    have ⟨ha, he⟩ := hm.adds.arena
    have hm := (hb hn).add ha hm.arity
    exact ⟨Named.forall_insert (he ▸ hm) h.builders, h.filters⟩
  case start => exact ⟨Named.forall_insert Arena.hasArity_empty h.builders, h.filters⟩
  case discard => exact ⟨fun n b hm => h.builders n b (Named.mem_erase_iff.mp hm).left, h.filters⟩
  case finish hn _ hf =>
    have ⟨_, ha, _⟩ := Builder.finish_eq_ok_iff.mp hf
    have hf := ha ▸ hb hn
    exact ⟨fun n b hm => h.builders n b (Named.mem_erase_iff.mp hm).left,
      fun _ _ => h.insertFilter (by rintro _ ⟨⟩; exact hf)⟩
  case read => exact ⟨h.builders, h.filters⟩
  case parse hp =>
    exact ⟨h.builders, fun _ _ => h.insertFilter (by rintro _ ⟨⟩; exact (forest_of_parse hp).left.arity)⟩
  case clone hc =>
    have ⟨_, hf, he⟩ := Option.bind_eq_some_iff.mp hc
    cases he
    have hf := h.filters _ _ (Named.mem_of_find? hf)
    exact ⟨h.builders, fun _ _ => h.insertFilter (by rintro _ ⟨⟩; exact hf)⟩

end HasArity

theorem run_hasArity (calls : List Call) : (run calls).HasArity := by
  induction calls using List.reverseRecOn
  case nil => exact ⟨nofun, nofun⟩
  case append_singleton calls c ih =>
    rw [run_append]
    exact ih.does (does_perform _ c)

theorem run_parse_text (calls : List Call) {name : Text} {f : Filter}
    (hf : (run calls).filter? name = some f) (hc : f.tree.All Tree.IsCanonical) {l : Limits}
    (hl : l.Admits f.text) :
    ∃ g, AttributeFilter.parse l f.text = .ok (some g) ∧ g.tree = f.tree := by
  have ⟨_, hn, he⟩ := Option.bind_eq_some_iff.mp hf
  cases he
  have ha := (run_hasArity calls).filters _ _ (Named.mem_of_find? hn)
  exact exists_parse_text hc ((Arena.shows_treeAt f.root_lt).hasArity ha) hl

def negatedCalls : List Call :=
  [.builder "b".toList, .path "b".toList ["a".toList] none none none "p".toList,
    .comparison "b".toList "p".toList "PR".toList none "c".toList,
    .negation "b".toList "c".toList "n".toList, .finish "b".toList "n".toList "f".toList]

theorem run_parse_text_of_negated :
    (∃ f, (run negatedCalls).filter? "f".toList = some f ∧ f.tree = negatedTree) ∧
      negatedTree.All Tree.IsCanonical ∧
      ∃ g, AttributeFilter.parse {} "not (a pr)".toList = .ok (some g) ∧ g.tree = negatedTree := by
  have ⟨f, hf⟩ : ∃ f, (run negatedCalls).filter? "f".toList = some f := ⟨_, rfl⟩
  have hs : f.arena.Shows f.root negatedTree := by
    cases hf
    exact .negation (c := 1) rfl (.comparison (c := 0) rfl rfl)
  have ht : f.tree = negatedTree := (Arena.shows_iff.mp hs).2
  have hp : Path.IsNamed ⟨none, ["a".toList], none, by decide, by decide⟩ :=
    ⟨nofun, nofun, fun _ => by decide, nofun, nofun⟩
  have hc : negatedTree.All Tree.IsCanonical :=
    .intro trivial (List.forall_mem_singleton.mpr (.intro ⟨.inl ⟨hp, fun _ => rfl⟩, nofun⟩ nofun))
  have htext : f.text = "not (a pr)".toList := by
    rw [Filter.text, ht]
    decide
  have h := run_parse_text negatedCalls hf (ht ▸ hc) (l := {})
    (htext ▸ ⟨by decide, by decide⟩)
  rw [htext, ht] at h
  exact ⟨⟨f, hf, ht⟩, hc, h⟩

end AttributeFilter.Workbench
