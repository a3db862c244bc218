import AttributeFilter.Filter.Node

namespace AttributeFilter

-- A row of slots in which children stand before their parents, and a comparison has an attribute path
-- for its left side.
structure Arena where
  slots : Array Slot
  child_lt : ∀ {i : Nat} {s : Slot}, slots[i]? = some s → ∀ c ∈ s.node.children, c < i
  parent_bounds : ∀ {i p : Nat} {s : Slot}, slots[i]? = some s → s.parent? = some p →
    i < p ∧ p < slots.size
  operand_path : ∀ {i c : Nat} {s : Slot}, slots[i]? = some s → s.node.operand? = some c →
    ((slots[c]?).bind (·.node.path?)).isSome

namespace Arena

def empty : Arena where
  slots         := #[]
  child_lt      := by simp
  parent_bounds := by simp
  operand_path  := by simp

def size (a : Arena) : Nat :=
  a.slots.size

def node? (a : Arena) (i : Nat) : Option Node :=
  (a.slots[i]?).map (·.node)

def parent? (a : Arena) (i : Nat) : Option Nat :=
  (a.slots[i]?).bind (·.parent?)

def children (a : Arena) (i : Nat) : List Nat :=
  (a.node? i).elim [] Node.children

theorem lt_of_mem_children {a : Arena} {i c : Nat} (h : c ∈ a.children i) : c < i := by
  simp only [children, node?] at h
  cases hs : a.slots[i]? with
  | none => simp [hs] at h
  | some s => exact a.child_lt hs c (by simpa [hs] using h)

theorem bounds_of_parent? {a : Arena} {i p : Nat} (h : a.parent? i = some p) :
    i < p ∧ p < a.size := by
  obtain ⟨s, hs, hp⟩ := Option.bind_eq_some_iff.1 h
  exact a.parent_bounds hs hp

theorem isSome_node?_iff {a : Arena} {i : Nat} : (a.node? i).isSome ↔ i < a.size := by
  simp [node?, size]

def adopt (parent : Nat) (slots : Array Slot) (children : List Nat) : Array Slot :=
  children.foldl (fun slots c => slots.modify c fun s => { s with parent? := some parent }) slots

@[simp]
theorem size_adopt (parent : Nat) (slots : Array Slot) (children : List Nat) :
    (adopt parent slots children).size = slots.size := by
  induction children generalizing slots with
  | nil => rfl
  | cons c cs ih => exact (ih _).trans Array.size_modify

theorem getElem?_adopt (parent : Nat) (slots : Array Slot) (children : List Nat) (i : Nat) :
    (adopt parent slots children)[i]? =
      (slots[i]?).map fun s => if i ∈ children then { s with parent? := some parent } else s := by
  induction children generalizing slots with
  | nil => simp [adopt]
  | cons c cs ih =>
    have h : adopt parent slots (c :: cs) =
        adopt parent (slots.modify c fun s => { s with parent? := some parent }) cs := rfl
    rw [h, ih, Array.getElem?_modify]
    by_cases hc : c = i
    · subst hc
      cases slots[c]? <;> simp
    · cases slots[i]? <;> simp [hc, Ne.symm hc]

-- What a node may refer to when it is added: children that are there, and a left side that is an
-- attribute path.
structure Admits (a : Arena) (n : Node) : Prop where
  children_lt  : ∀ c ∈ n.children, c < a.size
  operand_path : ∀ c, n.operand? = some c → ((a.node? c).bind Node.path?).isSome

def slotsWith (a : Arena) (n : Node) : Array Slot :=
  (adopt a.size a.slots n.children).push { node := n }

@[simp]
theorem size_slotsWith (a : Arena) (n : Node) : (a.slotsWith n).size = a.size + 1 := by
  simp [slotsWith, size]

theorem getElem?_slotsWith (a : Arena) (n : Node) (i : Nat) :
    (a.slotsWith n)[i]? =
      if i = a.size then some { node := n }
      else (a.slots[i]?).map fun s =>
        if i ∈ n.children then { s with parent? := some a.size } else s := by
  simp [slotsWith, Array.getElem?_push, getElem?_adopt, size]
  rfl

theorem map_node_slotsWith {a : Arena} (n : Node) {i : Nat} (h : i < a.size) :
    ((a.slotsWith n)[i]?).map (·.node) = a.node? i := by
  rw [getElem?_slotsWith, if_neg (Nat.ne_of_lt h), node?, Option.map_map]
  congr 1
  funext s
  simp only [Function.comp]
  split <;> rfl

def add (a : Arena) (n : Node) (h : a.Admits n) : Arena where
  slots := a.slotsWith n
  child_lt := by
    intro i s hs c hc
    rw [getElem?_slotsWith] at hs
    split at hs
    -- The new slot comes behind everything that it may refer to.
    · next hi =>
      obtain rfl := by simpa using hs
      exact hi ▸ h.children_lt c hc
    · obtain ⟨t, ht, rfl⟩ := Option.map_eq_some_iff.1 hs
      refine a.child_lt ht c ?_
      split at hc <;> exact hc
  parent_bounds := by
    intro i p s hs hp
    rw [size_slotsWith]
    rw [getElem?_slotsWith] at hs
    split at hs
    · obtain rfl := by simpa using hs
      simp at hp
    · obtain ⟨t, ht, rfl⟩ := Option.map_eq_some_iff.1 hs
      have hi : i < a.size := (Array.getElem?_eq_some_iff.1 ht).1
      -- The parent is the new slot or the one from before.
      split at hp
      · obtain rfl := by simpa using hp
        omega
      · have := a.parent_bounds ht hp
        simp only [size] at *
        omega
  operand_path := by
    intro i c s hs hc
    -- Nodes that are there stay what they are, so a left side stays an attribute path.
    have lookup (c : Nat) (hlt : c < a.size) :
        ((a.slotsWith n)[c]?).bind (·.node.path?) = (a.node? c).bind Node.path? := by
      rw [← map_node_slotsWith n hlt, Option.bind_map]
      rfl
    have self (c : Nat) : (a.slots[c]?).bind (·.node.path?) = (a.node? c).bind Node.path? := by
      rw [node?, Option.bind_map]
      rfl
    rw [getElem?_slotsWith] at hs
    split at hs
    · obtain rfl := by simpa using hs
      have hchild : c ∈ n.children := by
        cases n <;> simp_all [Node.operand?, Node.children]
      rw [lookup c (h.children_lt c hchild)]
      exact h.operand_path c hc
    · obtain ⟨t, ht, rfl⟩ := Option.map_eq_some_iff.1 hs
      have hop : t.node.operand? = some c := by
        split at hc <;> exact hc
      have hchild : c ∈ t.node.children := by
        cases ht' : t.node <;> simp_all [Node.operand?, Node.children]
      have hi : i < a.size := (Array.getElem?_eq_some_iff.1 ht).1
      rw [lookup c (Nat.lt_trans (a.child_lt ht c hchild) hi), ← self]
      exact a.operand_path ht hop

@[simp]
theorem size_add (a : Arena) (n : Node) (h : a.Admits n) : (a.add n h).size = a.size + 1 :=
  size_slotsWith a n

end Arena
end AttributeFilter
