import AttributeFilter.Proofs.Filter.Beside
import Mathlib.Data.List.Basic

/-!
What a tree says, without how its parts are joined: the names in it and the tests in it, both from left to
right. The comparisons of an arena in which a tree has been laid out are its tests, in the same order.
-/

namespace AttributeFilter

-- The names of a path, given those of its value filter.
def Path.names (p : Path) (filter : List Text) : List Text :=
  p.schema?.toList ++ p.segments ++ filter ++ p.sub?.toList

namespace Tree

mutual

-- The names of attributes, from left to right.
def names : Tree → List Text
  | path p f? => p.names (filterNames f?)
  | comparison p f? _ _ => p.names (filterNames f?)
  | negation c => names c
  | conjunction cs => operandNames cs
  | disjunction cs => operandNames cs

def filterNames : Option Tree → List Text
  | none   => []
  | some t => names t

def operandNames : List Tree → List Text
  | []      => []
  | t :: ts => names t ++ operandNames ts

end

mutual

-- The operators with their values, from left to right.
def tests : Tree → List (Operator × Option Value)
  | path _ f? => filterTests f?
  | comparison _ f? o v? => filterTests f? ++ [(o, v?)]
  | negation c => tests c
  | conjunction cs => operandTests cs
  | disjunction cs => operandTests cs

def filterTests : Option Tree → List (Operator × Option Value)
  | none   => []
  | some t => tests t

def operandTests : List Tree → List (Operator × Option Value)
  | []      => []
  | t :: ts => tests t ++ operandTests ts

end

theorem operandNames_eq_flatMap (ts : List Tree) : operandNames ts = ts.flatMap names := by
  induction ts
  case nil          => rfl
  case cons t ts ih => rw [operandNames, ih, List.flatMap_cons]

theorem operandTests_eq_flatMap (ts : List Tree) : operandTests ts = ts.flatMap tests := by
  induction ts
  case nil          => rfl
  case cons t ts ih => rw [operandTests, ih, List.flatMap_cons]

theorem filterNames_eq_elim : filterNames = fun t? => t?.elim [] names := by
  funext t?
  cases t? <;> rfl

theorem filterTests_eq_elim : filterTests = fun t? => t?.elim [] tests := by
  funext t?
  cases t? <;> rfl

end Tree

-- The operator and the value of a comparison.
def Node.test? : Node → Option (Operator × Option Value)
  | comparison _ o v? => some (o, v?)
  | _ => none

namespace Arena

-- The operators and values of the comparisons, in the order of their numbers.
def comparisons (a : Arena) : List (Operator × Option Value) :=
  (List.range a.size).filterMap fun i => (a.node? i).bind Node.test?

theorem comparisons_add {a : Arena} {n : Node} (h : a.Admits n) :
    (a.add n h).comparisons = a.comparisons ++ n.test?.toList := by
  have hi : ∀ i ∈ List.range a.size,
      ((a.add n h).node? i).bind Node.test? = (a.node? i).bind Node.test? := by
    intro i hi
    rw [node?_add, if_neg (Nat.ne_of_lt (List.mem_range.mp hi))]
  rw [comparisons, size_add, List.range_succ, List.filterMap_append, List.filterMap_congr hi,
    comparisons]
  simp only [List.filterMap_cons, List.filterMap_nil, node?_add, if_true, Option.bind_some]
  cases n.test? <;> rfl

end Arena

open Builder

variable {b b' : Builder} {h? : Option Handle} {hs : List Handle} {t : Tree} {ts : List Tree}
  {f? : Option Tree}

theorem Builder.Adds.comparisons {n : Node} {h : Handle} (ha : b.Adds n h b') :
    b'.arena.comparisons = b.arena.comparisons ++ n.test?.toList := by
  have ⟨hn, he⟩ := ha.arena
  rw [he, Arena.comparisons_add]

namespace Tree

-- The nodes that are made for something are comparisons as its tests say.
def Lays {α : Type} (make : Builder → Except Error (α × Builder))
    (tests : List (Operator × Option Value)) : Prop :=
  ∀ b a b', make b = .ok (a, b') → b'.arena.comparisons = b.arena.comparisons ++ tests

theorem lays_buildFilter (h : ∀ f ∈ f?, Lays f.build f.tests) :
    Lays (buildFilter f?) (filterTests f?) := by
  intro b a b' hb
  cases f?
  case none   => cases hb; simp [filterTests]
  case some f => exact h f rfl b a b' hb

theorem lays_buildAll (h : ∀ t ∈ ts, Lays t.build t.tests) : Lays (buildAll ts) (operandTests ts) := by
  intro b a b' hb
  induction ts generalizing b a
  case nil => cases hb; simp [operandTests]
  case cons t ts ih =>
    have ⟨ht, hts⟩ := List.forall_mem_cons.mp h
    have ⟨⟨h?, b₁⟩, h₁, hb⟩ := bind_eq_ok_iff.mp hb
    have ⟨⟨hs, b₂⟩, h₂, hb⟩ := bind_eq_ok_iff.mp hb
    cases hb
    rw [ih hts _ _ h₂, ht _ _ _ h₁, operandTests, List.append_assoc]

theorem lays_path {p : Path} (h : ∀ f ∈ f?, Lays f.build f.tests) :
    Lays (path p f?).build (path p f?).tests := by
  intro b a b' hb
  have ⟨⟨f?', b₁⟩, h₁, hb⟩ := bind_eq_ok_iff.mp hb
  have ⟨⟨made, b₂⟩, h₂, hb⟩ := bind_eq_ok_iff.mp hb
  cases hb
  have ha := (path_eq_ok_iff.mp h₂).right
  rw [ha.comparisons, lays_buildFilter h _ _ _ h₁, tests]
  simp [Node.test?]

theorem lays_comparison {p : Path} {o : Operator} {v? : Option Value}
    (h : ∀ f ∈ f?, Lays f.build f.tests) :
    Lays (comparison p f? o v?).build (comparison p f? o v?).tests := by
  intro b a b' hb
  have ⟨⟨f?', b₁⟩, h₁, hb⟩ := bind_eq_ok_iff.mp hb
  have ⟨⟨left, b₂⟩, h₂, hb⟩ := bind_eq_ok_iff.mp hb
  have ⟨⟨made, b₃⟩, h₃, hb⟩ := bind_eq_ok_iff.mp hb
  cases hb
  have ha := (path_eq_ok_iff.mp h₂).right
  have hc := (comparison_eq_ok_iff.mp h₃).right.right
  rw [hc.comparisons, ha.comparisons, lays_buildFilter h _ _ _ h₁, tests]
  simp [Node.test?]

theorem lays_negation (h : Lays t.build t.tests) :
    Lays (negation t).build (negation t).tests := by
  intro b a b' hb
  have ⟨⟨c?, b₁⟩, h₁, hb⟩ := bind_eq_ok_iff.mp hb
  have hc := h _ _ _ h₁
  cases c?
  case none => cases hb; exact hc
  case some c =>
    have ⟨⟨made, b₂⟩, h₂, hb⟩ := bind_eq_ok_iff.mp hb
    cases hb
    rw [(negation_eq_ok_iff.mp h₂).right.comparisons, hc, tests]
    simp [Node.test?]

theorem lays_join {join : List Tree → Tree} {make : List Nat → Node} (hj : JoinsBy join make)
    (hm : ∀ cs, (make cs).test? = none) (h : ∀ t ∈ ts, Lays t.build t.tests) :
    Lays (join ts).build (operandTests ts) := by
  intro b a b' hb
  rw [hj.build] at hb
  have ⟨⟨hs, b₁⟩, h₁, hb⟩ := bind_eq_ok_iff.mp hb
  have hc := lays_buildAll h _ _ _ h₁
  cases combination_eq_ok_iff.mp hb
  case inl h =>
    cases h.right.right
    exact hc
  case inr h =>
    have ⟨_, _, made, _, ha⟩ := h
    rw [ha.comparisons, hc, hm]
    simp

theorem lays_build (t : Tree) : Lays t.build t.tests := by
  induction t using byParts
  case step t ih =>
    cases t
    case path          => exact lays_path fun f hf => ih f (Option.mem_toList.mpr hf)
    case comparison    => exact lays_comparison fun f hf => ih f (Option.mem_toList.mpr hf)
    case negation t    => exact lays_negation (ih t List.mem_cons_self)
    case conjunction _ => rw [tests]; exact lays_join .conjunction (fun _ => rfl) ih
    case disjunction _ => rw [tests]; exact lays_join .disjunction (fun _ => rfl) ih

end Tree

-- The comparisons of the filter that holds a tree are the tests of the tree.
theorem Filter.comparisons_of_ofTree {f : Filter} (h : Filter.ofTree t = .ok (some f)) :
    f.arena.comparisons = t.tests := by
  have ⟨⟨root?, b⟩, hb, h⟩ := bind_eq_ok_iff.mp h
  cases root?
  case none => cases h
  case some root =>
    have ⟨g, hg, h⟩ := bind_eq_ok_iff.mp h
    cases h
    rw [(finish_eq_ok_iff.mp hg).right.left, Tree.lays_build t _ _ _ hb]
    rfl

end AttributeFilter
