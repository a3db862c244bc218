import AttributeFilter.Proofs.Filter.Joining

/-!
Laying out a tree whose outermost path is qualified by a schema. The slots are those of the tree without the
schema, but for the one of the path.
-/

namespace AttributeFilter

-- The tree with a schema for its outermost path. Combinations and negations have no such path.
def Tree.qualified (s : Text) : Tree → Tree
  | path p f?            => path (p.withSchema (some s)) f?
  | comparison p f? o v? => comparison (p.withSchema (some s)) f? o v?
  | t                    => t

-- A single comparison, or a path on its own.
inductive Tree.IsSingle : Tree → Prop
  | path (p : Path) (f? : Option Tree) : IsSingle (path p f?)
  | comparison (p : Path) (f? : Option Tree) (o : Operator) (v? : Option Value) :
    IsSingle (comparison p f? o v?)

def Node.qualified (s : Text) : Node → Node
  | path p f? => path (p.withSchema (some s)) f?
  | n         => n

def Slot.qualified (s : Text) (slot : Slot) : Slot :=
  { slot with node := slot.node.qualified s }

-- The number of the outermost path, which is the left side of a comparison or the root itself.
def Filter.outermost (f : Filter) : Nat :=
  ((f.arena.node? f.root).bind Node.operand?).getD f.root

namespace Arena

variable {a a' : Arena} {n : Node} {p : Path} {f? : Option Nat} {c : Nat} {s : Text}

theorem slotsWith_path_qualified (a : Arena) (p : Path) (f? : Option Nat) (s : Text) :
    a.slotsWith (.path (p.withSchema (some s)) f?) =
      (a.slotsWith (.path p f?)).modify a.size (·.qualified s) := by
  apply Array.ext_getElem?
  intro i
  rw [Array.getElem?_modify, getElem?_slotsWith, getElem?_slotsWith]
  by_cases hi : i = a.size
  case pos => rw [if_pos hi, if_pos hi.symm, if_pos hi]; rfl
  case neg => rw [if_neg hi, if_neg (Ne.symm hi), if_neg hi]; rfl

-- A node that is added later goes behind, and gives its children their parent.
theorem slotsWith_of_modify (h : a'.slots = a.slots.modify c (·.qualified s)) (hc : c < a.size) (n : Node) :
    a'.slotsWith n = (a.slotsWith n).modify c (·.qualified s) := by
  have hsize : a'.size = a.size := (congrArg Array.size h).trans Array.size_modify
  apply Array.ext_getElem?
  intro i
  rw [Array.getElem?_modify, getElem?_slotsWith, getElem?_slotsWith, hsize, h, Array.getElem?_modify]
  by_cases hi : i = a.size
  case pos => rw [if_pos hi, if_neg (hi ▸ Nat.ne_of_lt hc), if_pos hi]
  case neg =>
    rw [if_neg hi, if_neg hi]
    by_cases hci : c = i
    case neg => rw [if_neg hci, if_neg hci]
    case pos =>
      rw [if_pos hci, if_pos hci, Option.map_map, Option.map_map]
      congr 1
      funext slot
      simp only [Function.comp]
      split <;> rfl

end Arena

namespace Builder

variable {b b₁ b₂ : Builder} {p : Path} {f? : Option Nat} {h h' : Handle} {n : Node} {s : Text}
  {o : Operator} {v? : Option Value}

theorem Adds.slots (ha : b.Adds n h b₁) : b₁.arena.slots = b.arena.slotsWith n :=
  have ⟨_, he⟩ := ha.arena
  congrArg Arena.slots he

-- Qualified and not, a path is made in the same place.
theorem exists_adds_qualified (ha : b.Adds (.path p f?) h b₁) (s : Text) :
    ∃ b₁', b.Adds (.path (p.withSchema (some s)) f?) h b₁' ∧
      b₁'.arena.slots = b₁.arena.slots.modify h.node (·.qualified s) := by
  have ⟨hn, _⟩ := ha.arena
  have hn' : b.arena.Admits (.path (p.withSchema (some s)) f?) := ⟨hn.children_lt, nofun⟩
  refine ⟨_, ⟨hn', Prod.ext ha.handle_eq.symm rfl⟩, ?_⟩
  rw [ha.slots, ha.handle_node]
  exact b.arena.slotsWith_path_qualified p f? s

-- So is the comparison of it.
theorem exists_adds_comparison {b₁' : Builder} (hp : b.Adds (.path p f?) h b₁)
    (hp' : b.Adds (.path (p.withSchema (some s)) f?) h b₁')
    (hs : b₁'.arena.slots = b₁.arena.slots.modify h.node (·.qualified s))
    (ha : b₁.Adds (.comparison h.node o v?) h' b₂) :
    ∃ b₂', b₁'.Adds (.comparison h.node o v?) h' b₂' ∧
      b₂'.arena.slots = b₂.arena.slots.modify h.node (·.qualified s) := by
  have hadm : b₁'.arena.Admits (.comparison h.node o v?) := {
    children_lt  := List.forall_mem_singleton.mpr hp'.owns.2
    operand_path := by rintro _ ⟨⟩; rw [hp'.node?]; rfl }
  have he : (⟨b₁'.serial, b₁'.size⟩ : Handle) = h' := by
    rw [ha.handle_eq, hp.serial, hp'.serial, hp.size, hp'.size]
  refine ⟨_, ⟨hadm, Prod.ext he rfl⟩, ?_⟩
  rw [ha.slots]
  exact Arena.slotsWith_of_modify hs hp.owns.2 _

end Builder

namespace Filter

open Builder

variable {f : Filter} {p : Path} {f? : Option Tree} {o : Operator} {v? : Option Value} {t : Tree}
  {s : Text}

-- Two filters have the same slots, but for the schema of the outermost path.
structure Qualifies (f : Filter) (s : Text) (g : Filter) : Prop where
  root  : g.root = f.root
  slots : g.arena.slots = f.arena.slots.modify f.outermost (·.qualified s)

theorem outermost_of_path {p : Path} {c? : Option Nat} (h : f.arena.node? f.root = some (.path p c?)) :
    f.outermost = f.root := by
  rw [outermost, h]
  rfl

theorem outermost_of_comparison {c : Nat} (h : f.arena.node? f.root = some (.comparison c o v?)) :
    f.outermost = c := by
  rw [outermost, h]
  rfl

theorem exists_ofTree_path (h : ofTree (.path p f?) = .ok (some f)) (s : Text) :
    ∃ g, ofTree (.path (p.withSchema (some s)) f?) = .ok (some g) ∧ f.Qualifies s g := by
  have ⟨root, b, hb, ho, ha, hr⟩ := ofTree_eq_ok_iff.mp h
  have ⟨⟨h?, b₀⟩, h₀, hb⟩ := bind_eq_ok_iff.mp hb
  have ⟨⟨made, b₁⟩, h₁, hb⟩ := bind_eq_ok_iff.mp hb
  cases hb
  have ⟨hown, hadds⟩ := path_eq_ok_iff.mp h₁
  have ⟨b₁', hadds', hs⟩ := exists_adds_qualified hadds s
  let g : Filter := ⟨b₁'.arena, made.handle.node, hadds'.owns.2⟩
  have hpath := path_eq_ok_iff (a := { path := p.withSchema (some s) }).mpr ⟨hown, hadds'⟩
  have hg : ofTree (.path (p.withSchema (some s)) f?) = .ok (some g) :=
    ofTree_eq_ok_iff.mpr ⟨made.handle, b₁',
      bind_eq_ok_iff.mpr ⟨_, h₀, bind_eq_ok_iff.mpr ⟨_, hpath, rfl⟩⟩, hadds'.owns, rfl, rfl⟩
  have hroot : f.arena.node? f.root = some (.path p (h?.map (·.node))) := by rw [ha, hr, hadds.node?]
  refine ⟨g, hg, hr.symm, ?_⟩
  rw [outermost_of_path hroot, ha, hr]
  exact hs

theorem exists_ofTree_comparison (h : ofTree (.comparison p f? o v?) = .ok (some f)) (s : Text) :
    ∃ g, ofTree (.comparison (p.withSchema (some s)) f? o v?) = .ok (some g) ∧ f.Qualifies s g := by
  have ⟨root, b, hb, ho, ha, hr⟩ := ofTree_eq_ok_iff.mp h
  have ⟨⟨h?, b₀⟩, h₀, hb⟩ := bind_eq_ok_iff.mp hb
  have ⟨⟨left, b₁⟩, h₁, hb⟩ := bind_eq_ok_iff.mp hb
  have ⟨⟨made, b₂⟩, h₂, hb⟩ := bind_eq_ok_iff.mp hb
  cases hb
  have ⟨hown, hadds⟩ := path_eq_ok_iff.mp h₁
  have ⟨_, hv, hadds₂⟩ := comparison_eq_ok_iff.mp h₂
  have ⟨b₁', hadds', hs⟩ := exists_adds_qualified hadds s
  have ⟨b₂', hadds₂', hs₂⟩ := exists_adds_comparison hadds hadds' hs hadds₂
  let g : Filter := ⟨b₂'.arena, root.node, hadds₂'.owns.2⟩
  have hpath := path_eq_ok_iff (a := { path := p.withSchema (some s) }).mpr ⟨hown, hadds'⟩
  have hleft : ((b₁'.arena.node? left.handle.node).bind Node.path?).isSome := by rw [hadds'.node?]; rfl
  have hcomparison := comparison_eq_ok_iff.mpr ⟨⟨hadds'.owns, hleft⟩, hv, hadds₂'⟩
  have hg : ofTree (.comparison (p.withSchema (some s)) f? o v?) = .ok (some g) :=
    ofTree_eq_ok_iff.mpr ⟨root, b₂', bind_eq_ok_iff.mpr ⟨_, h₀, bind_eq_ok_iff.mpr ⟨_, hpath,
      bind_eq_ok_iff.mpr ⟨_, hcomparison, rfl⟩⟩⟩, hadds₂'.owns, rfl, rfl⟩
  have hroot : f.arena.node? f.root = some (.comparison left.handle.node o v?) := by
    rw [ha, hr, hadds₂.node?]
  refine ⟨g, hg, hr.symm, ?_⟩
  rw [outermost_of_comparison hroot, ha]
  exact hs₂

theorem exists_ofTree_qualified (ht : t.IsSingle) (h : ofTree t = .ok (some f)) (s : Text) :
    ∃ g, ofTree (t.qualified s) = .ok (some g) ∧ f.Qualifies s g := by
  cases ht
  case path       => exact exists_ofTree_path h s
  case comparison => exact exists_ofTree_comparison h s

end Filter
end AttributeFilter
