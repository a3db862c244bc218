import AttributeFilter.Error
import AttributeFilter.Filter.Arena

namespace AttributeFilter

-- A finished filter: an arena, and the root among its nodes. Nodes that were never given a parent
-- stay in the arena, out of reach of the root.
structure Filter where
  arena : Arena
  root : Nat
  root_lt : root < arena.size

-- A node that has no parent yet: the serial number of the builder that made it, and its place.
structure Handle where
  builder : UInt64
  node : Nat
deriving DecidableEq

structure PathHandle where
  handle : Handle
deriving DecidableEq

structure Builder where
  serial : UInt64
  arena : Arena

namespace Builder

def ofSerial (serial : UInt64) : Builder where
  serial := serial
  arena  := .empty

def size (b : Builder) : Nat :=
  b.arena.size

def Owns (b : Builder) (h : Handle) : Prop :=
  h.builder = b.serial ∧ h.node < b.size

instance (b : Builder) (h : Handle) : Decidable (b.Owns h) :=
  inferInstanceAs (Decidable (_ ∧ _))

def add (b : Builder) (n : Node) (h : b.arena.Admits n) : Handle × Builder :=
  ({ builder := b.serial, node := b.size }, { b with arena := b.arena.add n h })

-- Makes an attribute path, with a value filter below it if one is given. The value filter that the
-- attribute path held before is forgotten.
def path (b : Builder) (a : Attribute) (filter? : Option Handle) :
    Except Error (PathHandle × Builder) :=
  if h : ∀ f ∈ filter?, b.Owns f then
    let (made, b') := b.add (a.withFilter (filter?.map (·.node))).node {
      children_lt  := by
        intro c hc
        obtain ⟨f, hf, rfl⟩ := by simpa [Attribute.node, Attribute.withFilter, Node.children] using hc
        exact (h f hf).2
      operand_path := by simp [Attribute.node, Node.operand?] }
    .ok (⟨made⟩, b')
  else .error .foreignNode

def comparison (b : Builder) (p : PathHandle) (o : Operator) (v? : Option Value) :
    Except Error (Handle × Builder) :=
  -- The second condition holds of every handle that this builder has handed out for a path.
  if h : b.Owns p.handle ∧ ((b.arena.node? p.handle.node).bind Node.path?).isSome then
    if o.takesValue = v?.isSome then
      .ok <| b.add (.comparison p.handle.node o v?) {
        children_lt  := by simpa [Node.children, size] using h.1.2
        operand_path := by simpa [Node.operand?] using h.2 }
    else .error (.arity o)
  else .error .foreignNode

def negation (b : Builder) (c : Handle) : Except Error (Handle × Builder) :=
  if h : b.Owns c then
    .ok <| b.add (.negation c.node) {
      children_lt  := by simpa [Node.children, size] using h.2
      operand_path := by simp [Node.operand?] }
  else .error .foreignNode

-- Makes a node out of any number of children. No children make no node.
def combination (b : Builder) (make : List Nat → Node)
    (hchildren : ∀ cs, (make cs).children = cs) (hoperand : ∀ cs, (make cs).operand? = none)
    (cs : List Handle) : Except Error (Option Handle × Builder) :=
  if cs = [] then .ok (none, b)
  else if h : ∀ c ∈ cs, b.Owns c then
    let (made, b') := b.add (make (cs.map (·.node))) {
      children_lt  := by
        intro c hc
        obtain ⟨d, hd, rfl⟩ := List.mem_map.1 (hchildren _ ▸ hc)
        exact (h d hd).2
      operand_path := by simp [hoperand] }
    .ok (some made, b')
  else .error .foreignNode

def conjunction (b : Builder) (cs : List Handle) : Except Error (Option Handle × Builder) :=
  b.combination .conjunction (fun _ => rfl) (fun _ => rfl) cs

def disjunction (b : Builder) (cs : List Handle) : Except Error (Option Handle × Builder) :=
  b.combination .disjunction (fun _ => rfl) (fun _ => rfl) cs

def finish (b : Builder) (root : Handle) : Except Error Filter :=
  if h : b.Owns root then .ok { arena := b.arena, root := root.node, root_lt := h.2 }
  else .error .foreignNode

end Builder
end AttributeFilter
