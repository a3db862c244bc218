import AttributeFilter.Filter.Arena
import AttributeFilter.Tree.Basic

namespace AttributeFilter.Arena

def preorder (a : Arena) (i : Nat) : List Nat :=
  i :: (a.children i).attach.flatMap fun ⟨c, _⟩ => a.preorder c
termination_by i
decreasing_by exact lt_of_mem_children ‹_›

theorem preorder_eq (a : Arena) (i : Nat) :
    a.preorder i = i :: (a.children i).flatMap a.preorder := by
  rw [preorder]
  simp [List.flatMap_subtype]

-- Takes the nodes off a stack, from its top on. The children of a node that is taken off are put in its
-- place, the first one on top.
def visit (a : Arena) : List Nat → List Nat
  | []         => []
  | i :: stack => i :: a.visit (a.children i ++ stack)
termination_by stack => (stack.flatMap a.preorder).length
decreasing_by
  rw [List.flatMap_cons, List.flatMap_append, preorder_eq a i]
  exact Nat.lt_succ_self _

theorem visit_eq_flatMap (a : Arena) (stack : List Nat) : a.visit stack = stack.flatMap a.preorder := by
  fun_induction visit a stack
  case case1 => rfl
  case case2 i stack ih =>
    rw [ih, List.flatMap_append, List.flatMap_cons, preorder_eq a i]
    rfl

def ancestors (a : Arena) (i : Nat) : List Nat :=
  match _h : a.parent? i with
  | none   => []
  | some p => p :: a.ancestors p
termination_by a.size - i
decreasing_by
  have := bounds_of_parent? _h
  omega

theorem lt_of_node? {a : Arena} {i c : Nat} {n : Node} (h : a.node? i = some n)
    (hc : c ∈ n.children) : c < i :=
  lt_of_mem_children (a := a) (by simpa [children, h] using hc)

theorem lt_size_of_node? {a : Arena} {i : Nat} {n : Node} (h : a.node? i = some n) : i < a.size :=
  isSome_node?_iff.1 (by simp [h])

-- The left side of a comparison is an attribute path.
theorem isSome_operand {a : Arena} {i c : Nat} {n : Node} (h : a.node? i = some n)
    (hc : n.operand? = some c) : ((a.node? c).bind Node.path?).isSome := by
  obtain ⟨s, hs, rfl⟩ := Option.map_eq_some_iff.1 h
  have := a.operand_path hs hc
  rwa [node?, Option.bind_map]

theorem lt_of_path? {a : Arena} {c f : Nat} {p : Path}
    (h : (a.node? c).bind Node.path? = some (p, some f)) : f < c := by
  obtain ⟨n, hn, hp⟩ := Option.bind_eq_some_iff.1 h
  refine lt_of_node? hn ?_
  cases n <;> simp_all [Node.path?, Node.children]

def treeAt (a : Arena) (i : Nat) (h : i < a.size) : Tree :=
  match hn : a.node? i with
  | none => absurd (isSome_node?_iff.2 h) (by simp [hn])
  | some (.path p none) => .path p none
  | some (.path p (some f)) =>
    have hf : f < i := lt_of_node? hn (by simp [Node.children])
    .path p (some (a.treeAt f (Nat.lt_trans hf h)))
  | some (.comparison c o v?) =>
    have hc : c < i := lt_of_node? hn (by simp [Node.children])
    match hp : (a.node? c).bind Node.path? with
    | none => absurd (isSome_operand hn rfl) (by simp [hp])
    | some (p, none) => .comparison p none o v?
    | some (p, some f) =>
      have hf : f < c := lt_of_path? hp
      .comparison p (some (a.treeAt f (Nat.lt_trans hf (Nat.lt_trans hc h)))) o v?
  | some (.negation c) =>
    have hc : c < i := lt_of_node? hn (by simp [Node.children])
    .negation (a.treeAt c (Nat.lt_trans hc h))
  | some (.conjunction cs) =>
    .conjunction (cs.attach.map fun ⟨c, hm⟩ =>
      have hc : c < i := lt_of_node? hn hm
      a.treeAt c (Nat.lt_trans hc h))
  | some (.disjunction cs) =>
    .disjunction (cs.attach.map fun ⟨c, hm⟩ =>
      have hc : c < i := lt_of_node? hn hm
      a.treeAt c (Nat.lt_trans hc h))
termination_by i
decreasing_by all_goals omega

end AttributeFilter.Arena
