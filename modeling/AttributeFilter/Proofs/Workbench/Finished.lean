import AttributeFilter.Proofs.Filter.Ancestors
import AttributeFilter.Proofs.Grammar.Arrangement
import AttributeFilter.Proofs.Workbench.Run

/-!
Finished filters: those that parsing gives, and those that a workbench keeps, whatever has been left behind
in their arenas. The walks down from their roots and up from their nodes fit together.
-/

namespace AttributeFilter.Workbench

-- A filter that comes from parsing a text or any tokens, or from builders that each have a serial number of
-- their own.
inductive Finished (f : Filter) : Prop
  | parsed {l : Limits} {t : Text} : AttributeFilter.parse l t = .ok (some f) → Finished f
  | read {l : Limits} {c : Cursor} : (c.parse l).1 = .ok (some f) → Finished f
  | kept {calls : List Call} {name : Text} : (run calls).issued ≤ UInt64.size →
    (run calls).filter? name = some f → Finished f

namespace Finished

variable {f : Filter}

theorem forest (h : Finished f) : f.arena.Forest ∧ f.arena.parent? f.root = none := by
  cases h
  case parsed hp => exact forest_of_parse hp
  case read hp   => exact Cursor.forest_of_parse hp
  case kept hi hf =>
    have ⟨_, hn, he⟩ := Option.bind_eq_some_iff.mp hf
    cases he
    exact (run_sound _ hi).filters _ _ (Named.mem_of_find? hn)

end Finished

theorem isWalked_of_finished {f : Filter} (h : Finished f) : f.IsWalked :=
  Filter.isWalked_of_forest h.forest.left h.forest.right

-- The path `c` is made, but not used.
def strayCalls : List Call :=
  [.builder "b".toList, .path "b".toList ["a".toList] none none none "p".toList,
    .path "b".toList ["c".toList] none none none "q".toList, .negation "b".toList "p".toList "n".toList,
    .finish "b".toList "n".toList "f".toList]

theorem isWalked_strayCalls :
    ∃ f, (run strayCalls).filter? "f".toList = some f ∧ f.size = 3 ∧ f.root = 2 ∧
      f.arena.parent? 1 = none ∧ Finished f ∧ f.IsWalked := by
  have ⟨f, hf⟩ : ∃ f, (run strayCalls).filter? "f".toList = some f := ⟨_, rfl⟩
  have hk : Finished f := .kept (by decide) hf
  cases hf
  exact ⟨_, rfl, rfl, rfl, rfl, hk, isWalked_of_finished hk⟩

theorem isAnswered_of_finished {r : NodeRef} (h : Finished r.filter) : r.IsAnswered :=
  NodeRef.isAnswered_of_forest h.forest.left h.forest.right

theorem isAnswered_strayCalls :
    ∃ f r, (run strayCalls).filter? "f".toList = some f ∧ NodeRef.ofId? "f".toList f 0 = some r ∧
      Finished r.filter ∧ r.parent? = some 2 ∧ r.IsAnswered := by
  have ⟨f, hf⟩ : ∃ f, (run strayCalls).filter? "f".toList = some f := ⟨_, rfl⟩
  have hk : Finished f := .kept (by decide) hf
  cases hf
  exact ⟨_, _, rfl, rfl, hk, rfl, isAnswered_of_finished hk⟩

end AttributeFilter.Workbench
