import AttributeFilter.Proofs.Tree.Parts

/-!
The nodes of a tree, and how far down they are. A comparison is two nodes, since its path is a node below it;
every other tree is one node besides those of its parts.
-/

namespace AttributeFilter.Tree

variable {P : Tree → Prop} {c t u : Tree} {ts : List Tree} {k : Nat}

-- What the nodes directly below the node of a tree stand for, from left to right.
def children : Tree → List Tree
  | path _ f?                       => f?.toList
  | comparison p f? _ _             => [path p f?]
  | negation c                      => [c]
  | conjunction cs | disjunction cs => cs

-- The path of a comparison is no part of it, so what is said of comparisons has to hold of their paths.
theorem All.child (hp : ∀ p f? o v?, P (comparison p f? o v?) → P (path p f?)) (h : t.All P)
    (hc : c ∈ t.children) : c.All P := by
  cases t
  case comparison p f? o v? =>
    cases List.mem_singleton.mp hc
    exact .intro (hp p f? o v? h.here) fun _ => h.part
  all_goals exact h.part hc

mutual

-- What the nodes of a tree stand for, each behind those below it and from left to right.
def nodes : Tree → List Tree
  | path p f?            => filterNodes f? ++ [path p f?]
  | comparison p f? o v? => filterNodes f? ++ [path p f?, comparison p f? o v?]
  | negation c           => nodes c ++ [negation c]
  | conjunction cs       => operandNodes cs ++ [conjunction cs]
  | disjunction cs       => operandNodes cs ++ [disjunction cs]

def filterNodes : Option Tree → List Tree
  | none   => []
  | some t => nodes t

def operandNodes : List Tree → List Tree
  | []      => []
  | t :: ts => nodes t ++ operandNodes ts

end

theorem operandNodes_eq_flatMap (ts : List Tree) : operandNodes ts = ts.flatMap nodes := by
  induction ts
  case nil          => rfl
  case cons t ts ih => rw [operandNodes, ih, List.flatMap_cons]

theorem nodes_eq (t : Tree) : t.nodes = t.children.flatMap nodes ++ [t] := by
  cases t
  case path f?           => cases f? <;> simp [nodes, children, filterNodes]
  case comparison f? _ _ => simp [nodes, children]
  case negation          => simp [nodes, children]
  case conjunction       => rw [nodes, operandNodes_eq_flatMap, children]
  case disjunction       => rw [nodes, operandNodes_eq_flatMap, children]

mutual

-- How many nodes are above the one that is farthest down.
def height : Tree → Nat
  | path _ f?                       => filterHeight f?
  | comparison _ f? _ _             => filterHeight f? + 1
  | negation c                      => height c + 1
  | conjunction cs | disjunction cs => operandsHeight cs

def filterHeight : Option Tree → Nat
  | none   => 0
  | some t => height t + 1

def operandsHeight : List Tree → Nat
  | []      => 0
  | t :: ts => max (height t + 1) (operandsHeight ts)

end

theorem operandsHeight_le_iff : operandsHeight ts ≤ k ↔ ∀ t ∈ ts, t.height + 1 ≤ k := by
  induction ts
  case nil          => exact ⟨fun _ => nofun, fun _ => Nat.zero_le k⟩
  case cons t ts ih => rw [operandsHeight, Nat.max_le, ih, List.forall_mem_cons]

theorem height_lt_of_mem_children (h : c ∈ t.children) : c.height < t.height := by
  cases t
  case path f? =>
    cases Option.mem_toList.mp h
    exact Nat.lt_succ_self _
  case comparison | negation =>
    cases List.mem_singleton.mp h
    exact Nat.lt_succ_self _
  case conjunction cs | disjunction cs => exact operandsHeight_le_iff.mp (Nat.le_refl _) c h

theorem All.of_mem_nodes (hp : ∀ p f? o v?, P (comparison p f? o v?) → P (path p f?)) (h : t.All P)
    (hu : u ∈ t.nodes) : u.All P := by
  induction hn : t.height using Nat.strongRecOn generalizing t
  case ind n ih =>
    rw [nodes_eq, List.mem_append, List.mem_singleton, List.mem_flatMap] at hu
    rcases hu with ⟨c, hc, hu⟩ | hu
    · exact ih c.height (hn ▸ height_lt_of_mem_children hc) (h.child hp hc) hu rfl
    · exact hu ▸ h

end AttributeFilter.Tree
