import AttributeFilter.Proofs.Filter.Forest
import Mathlib.Data.List.Perm.Basic

/-!
Walks that leave a node behind all below it. If such a walk meets the nodes of an arena in the order of their
numbers, then the nodes below a node have the numbers right before it, and the children of a node rise.
-/

namespace AttributeFilter.Arena

variable {a a' : Arena} {c d i r : Nat}

-- A node behind all nodes below it, children from left to right.
def postorder (a : Arena) (i : Nat) : List Nat :=
  ((a.children i).attach.flatMap fun ⟨c, _⟩ => a.postorder c) ++ [i]
termination_by i
decreasing_by exact lt_of_mem_children ‹_›

theorem postorder_eq (a : Arena) (i : Nat) :
    a.postorder i = (a.children i).flatMap a.postorder ++ [i] := by
  rw [postorder]
  simp [List.flatMap_subtype]

theorem self_mem_postorder : i ∈ a.postorder i := by
  rw [postorder_eq]
  exact List.mem_append_right _ List.mem_cons_self

-- Both walks meet the same nodes.
theorem postorder_perm_preorder (a : Arena) (i : Nat) : (a.postorder i).Perm (a.preorder i) := by
  induction i using Nat.strongRecOn
  case ind i ih =>
    rw [postorder_eq, preorder_eq]
    have hc := List.Perm.flatMap_left (a.children i) fun c hc => ih c (lt_of_mem_children hc)
    exact (hc.append_right [i]).trans (List.perm_append_singleton i _)

theorem mem_postorder_iff : d ∈ a.postorder i ↔ d ∈ a.preorder i :=
  (a.postorder_perm_preorder i).mem_iff

-- A walk does not see nodes that are added.
theorem Within.postorder_eq (h : a.Within a') (hi : i < a.size) : a'.postorder i = a.postorder i := by
  induction i using Nat.strongRecOn
  case ind i ih =>
    have ⟨n, hn⟩ := Option.isSome_iff_exists.mp (isSome_node?_iff.mpr hi)
    have hc : a'.children i = a.children i := by rw [children, children, h i n hn, hn]
    rw [Arena.postorder_eq, Arena.postorder_eq, hc]
    congr 1
    refine List.flatMap_congr fun c hm => ?_
    have hlt := lt_of_mem_children hm
    exact ih c hlt (Nat.lt_trans hlt hi)

-- The walk to a node is a part of the walk to any node above it.
theorem postorder_infix (h : d ∈ a.preorder i) : a.postorder d <:+: a.postorder i := by
  induction i using Nat.strongRecOn
  case ind i ih =>
    rw [preorder_eq, List.mem_cons, List.mem_flatMap] at h
    rcases h with rfl | ⟨c, hc, h⟩
    · exact List.infix_rfl
    · rw [postorder_eq a i]
      have hm := List.infix_flatMap_of_mem hc a.postorder
      exact (ih c (lt_of_mem_children hc) h).trans (hm.trans (List.prefix_append _ _).isInfix)

theorem children_sublist_postorder (a : Arena) (i : Nat) : (a.children i).Sublist (a.postorder i) := by
  have hs (cs : List Nat) : cs.Sublist (cs.flatMap a.postorder) := by
    induction cs
    case nil          => exact .slnil
    case cons c cs ih =>
      rw [List.flatMap_cons]
      exact (List.singleton_sublist.mpr self_mem_postorder).append ih
  rw [postorder_eq]
  exact (hs _).trans (List.sublist_append_left _ _)

-- What stands together in the row of all numbers up to some number is an interval.
theorem exists_eq_range'_of_infix {l : List Nat} {n : Nat} (h : l <:+: List.range n) :
    ∃ first, l = List.range' first l.length := by
  have ⟨s, t, hst⟩ := h
  rw [List.range_eq_range', List.append_assoc] at hst
  have ⟨k, _, _, hlt⟩ := List.range'_eq_append_iff.mp hst.symm
  have ⟨m, _, hl, _⟩ := List.range'_eq_append_iff.mp hlt.symm
  exact ⟨_, by rw [hl, List.length_range']⟩

-- The nodes of an arena are numbered as a walk to a node leaves them.
def Numbered (a : Arena) (r : Nat) : Prop :=
  a.postorder r = List.range a.size

namespace Numbered

theorem mem_preorder_iff (h : a.Numbered r) : d ∈ a.preorder r ↔ d < a.size := by
  rw [← mem_postorder_iff, h, List.mem_range]

theorem length_preorder (h : a.Numbered r) : (a.preorder r).length = a.size := by
  rw [← (a.postorder_perm_preorder r).length_eq, h, List.length_range]

-- The last number belongs to the node that the walk starts from.
theorem succ_eq_size (h : a.Numbered r) : r + 1 = a.size := by
  have hl : some r = (List.range a.size).getLast? := by
    rw [← h, postorder_eq, List.getLast?_concat]
  rw [List.getLast?_range] at hl
  split at hl
  case isTrue  => cases hl
  case isFalse =>
    have hr := Option.some.inj hl
    omega

theorem exists_postorder_eq (h : a.Numbered r) (hi : i < a.size) :
    ∃ first ≤ i, a.postorder i = List.range' first (i + 1 - first) := by
  have hin := postorder_infix (h.mem_preorder_iff.mpr hi)
  rw [h] at hin
  have ⟨first, hf⟩ := exists_eq_range'_of_infix hin
  have hl : some i = (List.range' first (a.postorder i).length).getLast? := by
    rw [← hf, postorder_eq, List.getLast?_concat]
  rw [List.getLast?_range'] at hl
  split at hl
  case isTrue  => cases hl
  case isFalse =>
    have hi := Option.some.inj hl
    have hlen : (a.postorder i).length = i + 1 - first := by omega
    exact ⟨first, by omega, hlen ▸ hf⟩

-- The nodes below a node and the node itself have numbers without a gap, and that of the node is the last.
theorem exists_block (h : a.Numbered r) (hi : i < a.size) :
    ∃ first ≤ i, ∀ d, d ∈ a.preorder i ↔ first ≤ d ∧ d ≤ i := by
  have ⟨first, hf, he⟩ := h.exists_postorder_eq hi
  refine ⟨first, hf, fun d => ?_⟩
  rw [← mem_postorder_iff, he, List.mem_range'_1]
  omega

theorem children_pairwise (h : a.Numbered r) (i : Nat) : (a.children i).Pairwise (· < ·) := by
  by_cases hi : i < a.size
  case pos =>
    have ⟨first, _, he⟩ := h.exists_postorder_eq hi
    have hs := a.children_sublist_postorder i
    rw [he] at hs
    exact (List.pairwise_lt_range' _).sublist hs
  case neg =>
    have hn : a.node? i = none := by
      rw [← Option.not_isSome_iff_eq_none, isSome_node?_iff]
      exact hi
    simp [children, hn]

-- In a forest, every node but the one that the walk starts from has a parent.
theorem parent?_eq_none_iff (h : a.Numbered r) (hf : a.Forest) (hr : a.parent? r = none)
    (hi : i < a.size) : a.parent? i = none ↔ i = r := by
  constructor
  case mpr => exact fun he => he ▸ hr
  case mp =>
    intro hp
    cases (Arena.mem_preorder_iff hf).mp (h.mem_preorder_iff.mpr hi)
    case refl       => rfl
    case step _ hp' => cases hp.symm.trans hp'

end Numbered
end AttributeFilter.Arena
