import AttributeFilter.Proofs.Filter.Standing
import Mathlib.Logic.Relation

/-!
The walk down from the root of a filter. It meets what can be reached by going from nodes to their children,
and in a forest that is what goes up to the root. The slots that are out of reach of the root are left out.
-/

namespace AttributeFilter

open Relation (ReflTransGen)

namespace Arena

variable {a : Arena} {c d i p r : Nat}

-- A node is among the children of another one.
def Child (a : Arena) (p c : Nat) : Prop :=
  c ∈ a.children p

theorem self_mem_preorder : i ∈ a.preorder i := by
  rw [preorder_eq]
  exact List.mem_cons_self

theorem mem_preorder_iff_child : d ∈ a.preorder i ↔ ReflTransGen a.Child i d := by
  constructor
  case mp =>
    induction i using Nat.strongRecOn
    case ind i ih =>
      intro h
      rw [preorder_eq, List.mem_cons, List.mem_flatMap] at h
      rcases h with rfl | ⟨c, hc, h⟩
      · exact .refl
      · exact .head hc (ih c (lt_of_mem_children hc) h)
  case mpr =>
    intro h
    induction h
    case refl          => exact self_mem_preorder
    case tail _ hc ih  => exact mem_preorder_of_child hc ih

-- The walk from a node is a part of the walk from any node above it.
theorem preorder_infix (h : d ∈ a.preorder i) : a.preorder d <:+: a.preorder i := by
  induction mem_preorder_iff_child.mp h
  case refl => exact List.infix_rfl
  case tail p c hp hc ih =>
    have hm : a.preorder c <:+: a.preorder p := by
      rw [preorder_eq a p]
      exact (List.infix_flatMap_of_mem hc a.preorder).trans (List.suffix_cons p _).isInfix
    exact hm.trans (ih (mem_preorder_iff_child.mpr hp))

-- Going up from a node ends at `r` if and only if the node is below `r`.
theorem getLast?_ancestors_iff (hr : a.parent? r = none) :
    (i :: a.ancestors i).getLast? = some r ↔ a.Under r i := by
  constructor
  case mp =>
    intro h
    fun_induction ancestors a i
    case case1         => cases h; exact .refl
    case case2 p hp ih => exact .step hp (ih h)
  case mpr =>
    intro h
    induction h
    case refl => rw [ancestors_of_none hr]; rfl
    case step c p hp _ ih => rw [ancestors_of_some hp, List.getLast?_cons_cons, ih]

end Arena

-- What the walk from the root gives: the root, and behind every node at once the whole walks from its
-- children, from left to right. No node comes twice.
structure Filter.IsWalked (f : Filter) : Prop where
  order   : ∃ walk : Nat → List Nat, f.descendants = walk f.root ∧
    (∀ i, walk i = i :: (f.arena.children i).flatMap walk) ∧ ∀ d ∈ f.descendants, walk d <:+: f.descendants
  once    : f.descendants.Nodup
  reached : ∀ d, d ∈ f.descendants ↔ ReflTransGen f.arena.Child f.root d
  upward  : ∀ d < f.size, d ∈ f.descendants ↔ (d :: f.arena.ancestors d).getLast? = some f.root
  parent  : ∀ p c, f.arena.Child p c → f.arena.parent? c = some p

theorem Filter.isWalked_of_forest {f : Filter} (hf : f.arena.Forest)
    (hr : f.arena.parent? f.root = none) : f.IsWalked := by
  have he := f.descendants_eq
  constructor
  case order   =>
    refine ⟨f.arena.preorder, he, f.arena.preorder_eq, fun d hd => ?_⟩
    rw [he] at hd ⊢
    exact Arena.preorder_infix hd
  case once    => exact he ▸ Arena.preorder_nodup hf f.root
  case reached => exact fun d => he ▸ Arena.mem_preorder_iff_child
  case upward  =>
    intro d _
    rw [he, Arena.mem_preorder_iff hf, Arena.getLast?_ancestors_iff hr]
  case parent  => exact fun p c => (hf.linked c p).mpr

end AttributeFilter
