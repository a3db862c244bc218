import AttributeFilter.Proofs.Filter.Standing

/-!
A tree told by indentation. Its items stand in a row, parents before their children, and each item stands farther
in than the one above it. Such a row is read back by indentation alone, and the item above another one is the
nearest one before it that stands one step less far in.
-/

namespace AttributeFilter

-- A tree of labels.
inductive Outline (α : Type) where
  | item (label : α) (below : List (Outline α))

namespace Outline

variable {α : Type}

def label : Outline α → α
  | item l _ => l

-- An item with one label has an item with another label directly below it.
inductive Links (p c : α) : Outline α → Prop
  | here {o : Outline α} : o ∈ below → o.label = c → Links p c (item p below)
  | inside {o : Outline α} : o ∈ below → Links p c o → Links p c (item l below)

variable {l p c : α} {below : List (Outline α)} {indent : Nat}

theorem links_item_iff :
    Links p c (item l below) ↔ (l = p ∧ ∃ o ∈ below, o.label = c) ∨ ∃ o ∈ below, Links p c o := by
  constructor
  case mp =>
    intro h
    cases h
    case here o hc ho   => exact .inl ⟨rfl, o, ho, hc⟩
    case inside o hl ho => exact .inr ⟨o, ho, hl⟩
  case mpr =>
    rintro (⟨rfl, o, ho, hc⟩ | ⟨o, ho, hl⟩)
    · exact .here ho hc
    · exact .inside ho hl

-- Puts an item in front of others. Those that stand farther in, up to the first one that does not, get below it.
def push (r : Nat × α) (items : List (Nat × Outline α)) : List (Nat × Outline α) :=
  (r.1, item r.2 ((items.takeWhile (r.1 < ·.1)).map (·.2))) :: items.dropWhile (r.1 < ·.1)

-- The trees that are told by a row of labels and how far in each of them stands.
def read (rows : List (Nat × α)) : List (Outline α) :=
  (rows.foldr push []).map (·.2)

-- The items that stand all as far in and are followed by none that is farther in are what an item gets below it.
theorem push_append {items rest : List (Nat × Outline α)} (hi : ∀ o ∈ items, indent < o.1)
    (hr : ∀ o ∈ rest.head?, o.1 ≤ indent) :
    push (indent, l) (items ++ rest) = (indent, item l (items.map (·.2))) :: rest := by
  have hi : ∀ o ∈ items, decide (indent < o.1) = true := fun o ho => decide_eq_true (hi o ho)
  have hr : rest.takeWhile (fun o => indent < o.1) = [] ∧ rest.dropWhile (fun o => indent < o.1) = rest := by
    cases rest
    case nil         => exact ⟨rfl, rfl⟩
    case cons o rest =>
      have ho : ¬indent < o.1 := Nat.not_lt_of_le (hr o rfl)
      simp [ho]
  rw [push, List.takeWhile_append_of_pos hi, List.dropWhile_append_of_pos hi, hr.left, hr.right, List.append_nil]

end Outline

namespace Arena

variable {a : Arena} {c d i p : Nat} {α : Type} {label : Nat → α}

-- The tree below a node, with labels for the nodes.
def outline (a : Arena) (label : Nat → α) (i : Nat) : Outline α :=
  .item (label i) ((a.children i).attach.map fun ⟨c, _⟩ => a.outline label c)
termination_by i
decreasing_by exact lt_of_mem_children ‹_›

theorem outline_eq (a : Arena) (label : Nat → α) (i : Nat) :
    a.outline label i = .item (label i) ((a.children i).map (a.outline label)) := by
  rw [outline]
  simp

@[simp]
theorem label_outline : (a.outline label i).label = label i := by
  rw [outline_eq]
  rfl

-- What is directly below what in the tree of a node is what the children say, from that node on.
theorem links_outline_iff {x y : α} : (a.outline label i).Links x y ↔
    ∃ p ∈ a.preorder i, ∃ c ∈ a.children p, label p = x ∧ label c = y := by
  induction i using Nat.strongRecOn
  case ind i ih =>
    rw [outline_eq, preorder_eq, Outline.links_item_iff]
    constructor
    case mp =>
      rintro (⟨hx, o, ho, hy⟩ | ⟨o, ho, hl⟩)
      · have ⟨c, hc, he⟩ := List.mem_map.mp ho
        exact ⟨i, List.mem_cons_self, c, hc, hx, by rw [← hy, ← he, label_outline]⟩
      · have ⟨q, hq, he⟩ := List.mem_map.mp ho
        have ⟨p, hp, hl⟩ := (ih q (lt_of_mem_children hq)).mp (he ▸ hl)
        exact ⟨p, List.mem_cons_of_mem _ (List.mem_flatMap_of_mem hq hp), hl⟩
    case mpr =>
      rintro ⟨p, hp, c, hc, hx, hy⟩
      rcases List.mem_cons.mp hp with rfl | hp
      · exact .inl ⟨hx, _, List.mem_map_of_mem hc, by rw [label_outline, hy]⟩
      · have ⟨q, hq, hp⟩ := List.mem_flatMap.mp hp
        exact .inr ⟨_, List.mem_map_of_mem hq, (ih q (lt_of_mem_children hq)).mpr ⟨p, hp, c, hc, hx, hy⟩⟩

-- How many nodes are above a node.
def depth (a : Arena) (i : Nat) : Nat :=
  (a.ancestors i).length

theorem depth_of_parent? (h : a.parent? c = some p) : a.depth c = a.depth p + 1 := by
  rw [depth, ancestors_of_some h, List.length_cons, depth]

theorem depth_of_mem_children (hf : a.Forest) (h : c ∈ a.children p) : a.depth c = a.depth p + 1 :=
  depth_of_parent? ((hf.linked c p).mpr h)

theorem depth_le_of_mem_preorder (hf : a.Forest) (h : d ∈ a.preorder i) : a.depth i ≤ a.depth d := by
  induction (mem_preorder_iff hf).mp h
  case refl => exact Nat.le_refl _
  case step hp hu ih =>
    rw [depth_of_parent? hp]
    exact Nat.le_succ_of_le (ih ((mem_preorder_iff hf).mpr hu))

-- How far in a node stands, and its label.
def row (a : Arena) (label : Nat → α) (i : Nat) : Nat × α :=
  (2 * a.depth i, label i)

-- Walks that follow one another are read one by one, if each of them is read so before anything that stands as far
-- out as the node it starts from.
theorem foldr_push_walks {cs : List Nat} {k : Nat} {rest : List (Nat × Outline α)}
    (hc : ∀ c ∈ cs, ∀ rest : List (Nat × Outline α), (∀ o ∈ rest.head?, o.1 ≤ k) →
      ((a.preorder c).map (a.row label)).foldr Outline.push rest = (k, a.outline label c) :: rest)
    (hr : ∀ o ∈ rest.head?, o.1 ≤ k) :
    ((cs.flatMap a.preorder).map (a.row label)).foldr Outline.push rest =
      cs.map (fun c => (k, a.outline label c)) ++ rest := by
  induction cs
  case nil => rfl
  case cons c cs ih =>
    have ⟨hc, hcs⟩ := List.forall_mem_cons.mp hc
    rw [List.flatMap_cons, List.map_append, List.foldr_append, ih hcs, hc]
    · rfl
    · cases cs
      case nil  => exact hr
      case cons => rintro o ⟨⟩; exact Nat.le_refl k

-- The walk from a node is read as the tree below it, if what follows stands as far out as the node.
theorem foldr_push_preorder (hf : a.Forest) {rest : List (Nat × Outline α)}
    (hr : ∀ o ∈ rest.head?, o.1 ≤ 2 * a.depth i) :
    ((a.preorder i).map (a.row label)).foldr Outline.push rest =
      (2 * a.depth i, a.outline label i) :: rest := by
  induction i using Nat.strongRecOn generalizing rest
  case ind i ih =>
    have hc : ∀ c ∈ a.children i, ∀ rest : List (Nat × Outline α),
        (∀ o ∈ rest.head?, o.1 ≤ 2 * a.depth i + 2) →
          ((a.preorder c).map (a.row label)).foldr Outline.push rest =
            (2 * a.depth i + 2, a.outline label c) :: rest := by
      intro c hc rest hr
      have hd : 2 * a.depth c = 2 * a.depth i + 2 := congrArg (2 * ·) (depth_of_mem_children hf hc)
      rw [← hd] at hr ⊢
      exact ih c (lt_of_mem_children hc) hr
    have hw := foldr_push_walks hc fun o ho => Nat.le_add_right_of_le (hr o ho)
    rw [preorder_eq, List.map_cons, List.foldr_cons, hw, row, Outline.push_append ?_ hr, outline_eq, List.map_map]
    · rfl
    · intro o ho
      have ⟨c, _, he⟩ := List.mem_map.mp ho
      exact he ▸ Nat.lt_add_of_pos_right Nat.two_pos

theorem read_preorder (hf : a.Forest) (label : Nat → α) (i : Nat) :
    Outline.read ((a.preorder i).map (a.row label)) = [a.outline label i] := by
  have hn : ∀ o ∈ ([] : List (Nat × Outline α)).head?, o.1 ≤ 2 * a.depth i := by simp
  rw [Outline.read, foldr_push_preorder hf hn]
  rfl

theorem exists_of_flatMap_eq_append_cons {β γ : Type} {g : β → List γ} {l : List β} {x y : List γ} {z : γ}
    (h : l.flatMap g = x ++ z :: y) :
    ∃ l₁ q l₂ x' y', l = l₁ ++ q :: l₂ ∧ g q = x' ++ z :: y' ∧ x = l₁.flatMap g ++ x' := by
  induction l generalizing x
  case nil => cases List.append_ne_nil_of_right_ne_nil x (List.cons_ne_nil z y) h.symm
  case cons b l ih =>
    rw [List.flatMap_cons] at h
    rcases List.append_eq_append_iff.mp h with ⟨u, hx, hl⟩ | ⟨u, hg, hz⟩
    · have ⟨l₁, q, l₂, x', y', hl, hq, hu⟩ := ih hl
      exact ⟨b :: l₁, q, l₂, x', y', by rw [hl]; rfl, hq, by rw [hx, hu, List.flatMap_cons, List.append_assoc]⟩
    · cases u
      case nil =>
        have ⟨l₁, q, l₂, x', y', hl, hq, hu⟩ := ih (x := []) hz.symm
        refine ⟨b :: l₁, q, l₂, x', y', by rw [hl]; rfl, hq, ?_⟩
        rw [List.flatMap_cons, List.append_assoc, ← hu, hg, List.append_nil, List.append_nil]
      case cons w u =>
        obtain ⟨rfl, -⟩ := List.cons.inj hz
        exact ⟨[], b, l, x, u, rfl, hg, rfl⟩

-- In the walk from a node, the parent of any other node stands before it, and between them are only nodes that
-- are as deep or deeper: those below the children that come before.
theorem exists_parent_before (hf : a.Forest) {before after : List Nat}
    (h : a.preorder i = before ++ c :: after) (hb : before ≠ []) :
    ∃ x p y, before = x ++ p :: y ∧ a.parent? c = some p ∧ ∀ d ∈ y, a.depth c ≤ a.depth d := by
  induction i using Nat.strongRecOn generalizing before after
  case ind i ih =>
    cases before
    case nil            => exact absurd rfl hb
    case cons b before =>
      rw [preorder_eq, List.cons_append] at h
      obtain ⟨rfl, hw⟩ := List.cons.inj h
      obtain ⟨cs, q, ds, x, y, hc, hq, rfl⟩ := exists_of_flatMap_eq_append_cons hw
      have hqi : q ∈ a.children i := hc ▸ List.mem_append_right _ List.mem_cons_self
      cases x
      case nil =>
        rw [preorder_eq] at hq
        obtain ⟨rfl, -⟩ := List.cons.inj hq
        refine ⟨[], i, _, rfl, (hf.linked q i).mpr hqi, fun d hd => ?_⟩
        rw [List.append_nil] at hd
        have ⟨e, he, hd⟩ := List.mem_flatMap.mp hd
        have hei : e ∈ a.children i := hc ▸ List.mem_append_left _ he
        rw [depth_of_mem_children hf hqi, ← depth_of_mem_children hf hei]
        exact depth_le_of_mem_preorder hf hd
      case cons b x =>
        have ⟨u, p, v, hx, hp, hd⟩ := ih q (lt_of_mem_children hqi) hq (List.cons_ne_nil b x)
        exact ⟨i :: (cs.flatMap a.preorder ++ u), p, v, by rw [hx]; simp, hp, hd⟩

end Arena
end AttributeFilter
