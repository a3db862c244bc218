import AttributeFilter.Proofs.Grammar.Arrangement
import AttributeFilter.Proofs.Tree.Json

/-!
What the JSON form of a filter tells of it: the tree below its root, and nothing of its arena.
-/

namespace AttributeFilter

open Grammar

variable {c : Cursor} {l : Limits} {f : Filter}

theorem Arena.Shows.isFinite {a : Arena} {i : Nat} {t : Tree} (h : a.Shows i t) (hr : a.IsRegular) :
    t.All Tree.IsFinite := by
  refine h.all fun j u hu => ?_
  cases hu
  case comparison _ hn           => exact Tree.isFinite_comparison (hr _ _ hn)
  case filteredComparison _ _ hn => exact Tree.isFinite_comparison (hr _ _ hn)
  all_goals trivial

theorem isFinite_of_parse (h : (c.parse l).1 = .ok (some f)) : f.tree.All Tree.IsFinite :=
  (Arena.shows_treeAt f.root_lt).isFinite (Cursor.isRegular_of_parse h)

-- The numbers of a parsed filter are finite, and filters without other numbers have the same compact JSON if
-- and only if they have the same tree.
theorem Filter.compact_json_eq_iff :
    (∀ (c : Cursor) (l : Limits) (f : Filter), (c.parse l).1 = .ok (some f) → f.tree.All Tree.IsFinite) ∧
    ∀ f g : Filter, f.tree.All Tree.IsFinite → g.tree.All Tree.IsFinite →
      (f.json.compact = g.json.compact ↔ f.tree = g.tree) :=
  ⟨fun _ _ _ => isFinite_of_parse, fun _ _ => Tree.json_compact_eq_iff⟩

-- A comparison with a number.
def numberCursor (number : Text) : Cursor :=
  .ofTokens [.ofText .identifier "a".toList, .ofText .operator "eq".toList, .ofText .number number]

-- Zero and its negative are different numbers.
theorem Filter.compact_json_eq_iff_zero :
    ∃ f g, ((numberCursor "0".toList).parse {}).1 = .ok (some f) ∧
      ((numberCursor "-0".toList).parse {}).1 = .ok (some g) ∧ f.tree ≠ g.tree := by
  have ⟨f, hf, hfm⟩ : ∃ f, ((numberCursor "0".toList).parse {}).1 = .ok (some f) ∧
      decide ('-' ∈ f.json.compact) = false := exists_of_map_ok (by decide +kernel)
  have ⟨g, hg, hgm⟩ : ∃ g, ((numberCursor "-0".toList).parse {}).1 = .ok (some g) ∧
      decide ('-' ∈ g.json.compact) = true := exists_of_map_ok (by decide +kernel)
  refine ⟨f, g, hf, hg, fun h => ?_⟩
  have ⟨hp, he⟩ := Filter.compact_json_eq_iff
  rw [(he f g (hp _ _ _ hf) (hp _ _ _ hg)).mpr h, hgm] at hfm
  cases hfm

end AttributeFilter
