import AttributeFilter.Proofs.Filter.Postorder
import AttributeFilter.Proofs.Tree.Nodes
import Mathlib.Data.List.Forall2

/-!
What the nodes below a node stand for: the nodes of the tree that it stands for, in the same order and at the
same depths.
-/

namespace AttributeFilter.Arena

open List (Forall₂)

variable {a : Arena} {i r : Nat} {t : Tree}

theorem children_of_node? {n : Node} (h : a.node? i = some n) : a.children i = n.children := by
  rw [children, h, Option.elim_some]

theorem forall₂_shows {cs : List Nat} {ts : List Tree} (hl : cs.length = ts.length)
    (h : ∀ (k c : Nat) (t : Tree), cs[k]? = some c → ts[k]? = some t → a.Shows c t) :
    Forall₂ a.Shows cs ts := by
  refine List.forall₂_iff_get.mpr ⟨hl, fun k hc ht => ?_⟩
  exact h k _ _ (List.getElem?_eq_getElem hc) (List.getElem?_eq_getElem ht)

theorem Shows.children (h : a.Shows i t) : Forall₂ a.Shows (a.children i) t.children := by
  cases h
  case path hn                       => rw [children_of_node? hn]; exact .nil
  case filtered hs hn                => rw [children_of_node? hn]; exact .cons hs .nil
  case comparison hp hn              => rw [children_of_node? hn]; exact .cons (.path hp) .nil
  case filteredComparison hp hs hn   => rw [children_of_node? hn]; exact .cons (.filtered hp hs) .nil
  case negation hs hn                => rw [children_of_node? hn]; exact .cons hs .nil
  case conjunction hl hs hn          => rw [children_of_node? hn]; exact forall₂_shows hl hs
  case disjunction hl hs hn          => rw [children_of_node? hn]; exact forall₂_shows hl hs

-- The walk through the arena and the one through the tree go side by side.
theorem Shows.postorder (h : a.Shows r t) : Forall₂ a.Shows (a.postorder r) t.nodes := by
  induction r using Nat.strongRecOn generalizing t
  case ind r ih =>
    have hlt : ∀ c ∈ a.children r, c < r := fun _ => lt_of_mem_children
    have hc := (List.forall₂_and_left _ _).mpr ⟨hlt, h.children⟩
    rw [postorder_eq, Tree.nodes_eq]
    exact List.rel_append (List.rel_flatMap hc fun c _ hs => ih c hs.left hs.right) (.cons h .nil)

theorem exists_of_forall₂ {α β : Type} {R : α → β → Prop} {as : List α} {bs : List β} {x : α}
    (h : Forall₂ R as bs) (hx : x ∈ as) : ∃ y ∈ bs, R x y := by
  induction h
  case nil => cases hx
  case cons hr _ ih =>
    rcases List.mem_cons.mp hx with rfl | hx
    · exact ⟨_, List.mem_cons_self, hr⟩
    · have ⟨y, hy, hr⟩ := ih hx
      exact ⟨y, List.mem_cons_of_mem _ hy, hr⟩

theorem ancestors_of_none (h : a.parent? i = none) : a.ancestors i = [] := by
  rw [ancestors]
  split
  case h_1      => rfl
  case h_2 p hp => cases h.symm.trans hp

theorem ancestors_of_some {p : Nat} (h : a.parent? i = some p) : a.ancestors i = p :: a.ancestors p := by
  rw [ancestors]
  split
  case h_1 hp => cases h.symm.trans hp
  case h_2 hp => cases h.symm.trans hp; rfl

-- There is no more above a node than the tree is high, less what is below the node.
theorem Shows.length_ancestors_add_height_le (hf : a.Forest) (hr : a.parent? r = none)
    (h : a.Shows r t) (hu : a.Under r i) :
    ∃ u, a.Shows i u ∧ (a.ancestors i).length + u.height ≤ t.height := by
  induction hu
  case refl => exact ⟨t, h, by rw [ancestors_of_none hr]; exact Nat.le_of_eq (Nat.zero_add _)⟩
  case step c p hp _ ih =>
    have ⟨u, hs, hu⟩ := ih
    have ⟨v, hv, hs⟩ := exists_of_forall₂ hs.children ((hf.linked c p).mp hp)
    have hlt := Tree.height_lt_of_mem_children hv
    refine ⟨v, hs, ?_⟩
    rw [ancestors_of_some hp, List.length_cons]
    omega

end AttributeFilter.Arena
