import AttributeFilter.Proofs.Filter.Forest
import AttributeFilter.Proofs.Tree.Canonical

/-!
Arenas whose comparisons have a value where their operator takes one. The trees that their nodes stand for
are of the same kind.
-/

namespace AttributeFilter.Arena

variable {a : Arena} {n : Node} {i : Nat} {t : Tree}

def HasArity (a : Arena) : Prop :=
  ∀ i n, a.node? i = some n → n.HasArity

theorem hasArity_empty : empty.HasArity := by
  simp [HasArity, node?, empty]

theorem HasArity.add (h : a.HasArity) (hn : a.Admits n) (ha : n.HasArity) : (a.add n hn).HasArity :=
  forall_node?_add h ha

theorem Shows.hasArity (ha : a.HasArity) (h : a.Shows i t) : t.All Tree.HasArity := by
  refine h.all fun j u hu => ?_
  cases hu
  case comparison _ hn           => exact ha _ _ hn
  case filteredComparison _ _ hn => exact ha _ _ hn
  all_goals trivial

end AttributeFilter.Arena
