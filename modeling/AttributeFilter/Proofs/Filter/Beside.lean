import AttributeFilter.Proofs.Filter.Layout

/-!
Laying a tree out behind nodes that are there already. The nodes of the tree are the same as in an arena
of their own, and all numbers are greater by the number of the nodes before them.
-/

namespace AttributeFilter

variable {k : Nat}

namespace Node

-- The node with greater numbers.
def shift (k : Nat) : Node → Node
  | path p f?         => path p (f?.map (k + ·))
  | comparison c o v? => comparison (k + c) o v?
  | negation c        => negation (k + c)
  | conjunction cs    => conjunction (cs.map (k + ·))
  | disjunction cs    => disjunction (cs.map (k + ·))

theorem children_shift (n : Node) : (n.shift k).children = n.children.map (k + ·) := by
  cases n
  case path f? => cases f? <;> rfl
  all_goals rfl

theorem operand?_shift (n : Node) : (n.shift k).operand? = n.operand?.map (k + ·) := by
  cases n <;> rfl

theorem isSome_path?_shift (n : Node) : (n.shift k).path?.isSome = n.path?.isSome := by
  cases n <;> rfl

end Node

def Slot.shift (k : Nat) (s : Slot) : Slot where
  node    := s.node.shift k
  parent? := s.parent?.map (k + ·)

-- The handle of a node that is made behind those of a builder.
def Handle.behind (base : Builder) (h : Handle) : Handle where
  builder := base.serial
  node    := base.size + h.node

theorem Node.shift_zero (n : Node) : n.shift 0 = n := by
  cases n <;> simp [shift]

theorem Slot.shift_zero : Slot.shift 0 = id := by
  funext s
  simp [shift, Node.shift_zero]

namespace Arena

variable {a b c : Arena} {n : Node} {i : Nat}

theorem eq_of_slots_eq (h : a.slots = b.slots) : a = b := by
  cases a
  cases b
  cases h
  rfl

-- An arena holds the nodes of one arena, and behind them those of another one.
structure Beside (a c b : Arena) : Prop where
  size  : b.size = a.size + c.size
  left  : ∀ i < a.size, b.slots[i]? = a.slots[i]?
  right : ∀ i, b.slots[a.size + i]? = (c.slots[i]?).map (Slot.shift a.size)

namespace Beside

theorem empty (a : Arena) : a.Beside .empty a where
  size  := rfl
  left  := fun _ _ => rfl
  right := fun _ => Array.getElem?_eq_none (Nat.le_add_right _ _)

theorem eq_of_empty (h : Arena.empty.Beside c b) : b = c := by
  apply eq_of_slots_eq
  apply Array.ext_getElem?
  intro i
  have hr : b.slots[0 + i]? = (c.slots[i]?).map (Slot.shift 0) := h.right i
  simpa [Slot.shift_zero] using hr

theorem node? (h : a.Beside c b) (i : Nat) :
    b.node? (a.size + i) = (c.node? i).map (Node.shift a.size) := by
  rw [Arena.node?, h.right, Arena.node?, Option.map_map, Option.map_map]
  rfl

theorem admits (h : a.Beside c b) (hn : c.Admits n) : b.Admits (n.shift a.size) where
  children_lt := by
    intro d hd
    rw [Node.children_shift] at hd
    have ⟨e, he, hed⟩ := List.mem_map.mp hd
    have := hn.children_lt e he
    have := h.size
    omega
  operand_path := by
    intro d hd
    rw [Node.operand?_shift] at hd
    have ⟨e, he, hed⟩ := Option.map_eq_some_iff.mp hd
    have hp := hn.operand_path e he
    rw [← hed, h.node?]
    cases hc : c.node? e
    case none   => simp [hc] at hp
    case some m => simpa [hc, Node.isSome_path?_shift] using hp

theorem add (h : a.Beside c b) (hn : c.Admits n) :
    a.Beside (c.add n hn) (b.add (n.shift a.size) (h.admits hn)) where
  size := by
    rw [size_add, size_add, h.size]
    rfl
  left := by
    intro i hi
    have hb : i ≠ b.size := by have := h.size; omega
    have hm : i ∉ n.children.map (a.size + ·) := by simp; omega
    refine (getElem?_slotsWith b (n.shift a.size) i).trans ?_
    rw [if_neg hb, h.left i hi, Node.children_shift]
    simp only [hm, if_false, Option.map_id']
  right := by
    intro i
    have hm : a.size + i ∈ n.children.map (a.size + ·) ↔ i ∈ n.children := by simp
    refine (getElem?_slotsWith b (n.shift a.size) (a.size + i)).trans ?_
    refine Eq.trans ?_ (congrArg (Option.map _) (getElem?_slotsWith c n i).symm)
    simp only [Node.children_shift, hm, h.right, h.size, Nat.add_left_cancel_iff]
    split
    case isTrue  => rfl
    case isFalse =>
      rw [Option.map_map, Option.map_map]
      congr 1
      funext s
      simp only [Function.comp]
      split <;> rfl

end Beside
end Arena

namespace Builder

variable {base b b' c c' : Builder} {n : Node} {h h' : Handle} {h? : Option Handle} {hs : List Handle}

-- A builder that goes on from a base has made the nodes of another one behind those of the base.
structure Beside (base c b : Builder) : Prop where
  serial : b.serial = base.serial
  arena  : base.arena.Beside c.arena b.arena

namespace Beside

theorem owns (hb : Beside base c b) (ho : c.Owns h) : b.Owns (h.behind base) := by
  refine ⟨hb.serial.symm, ?_⟩
  have hs := hb.arena.size
  have hn := ho.2
  simp only [Builder.size, Handle.behind] at hn ⊢
  omega

theorem adds (hb : Beside base c b) (ha : c.Adds n h c') :
    ∃ b', b.Adds (n.shift base.size) (h.behind base) b' ∧ Beside base c' b' := by
  have ⟨hn, he⟩ := ha
  cases he
  have hs := hb.arena.size
  refine ⟨_, ⟨hb.arena.admits hn, Prod.ext ?_ rfl⟩, hb.serial, hb.arena.add hn⟩
  simp only [Builder.add, Handle.behind, hb.serial, Builder.size, hs]

theorem path {p : Path} {f? : Option Handle} {made : PathHandle} (hb : Beside base c b)
    (h : c.path { path := p } f? = .ok (made, c')) :
    ∃ b', b.path { path := p } (f?.map (·.behind base)) = .ok (⟨made.handle.behind base⟩, b') ∧
      Beside base c' b' := by
  have ⟨ho, ha⟩ := path_eq_ok_iff.mp h
  have ⟨b', ha, hb'⟩ := hb.adds ha
  refine ⟨b', path_eq_ok_iff.mpr ⟨?_, ?_⟩, hb'⟩
  case refine_1 =>
    intro f hf
    have ⟨g, hg, he⟩ := Option.map_eq_some_iff.mp hf
    exact he ▸ hb.owns (ho g hg)
  case refine_2 => cases f? <;> exact ha

theorem comparison {p : PathHandle} {o : Operator} {v? : Option Value} (hb : Beside base c b)
    (h : c.comparison p o v? = .ok (h', c')) :
    ∃ b', b.comparison ⟨p.handle.behind base⟩ o v? = .ok (h'.behind base, b') ∧
      Beside base c' b' := by
  have ⟨⟨ho, hp⟩, hv, ha⟩ := comparison_eq_ok_iff.mp h
  have ⟨b', ha, hb'⟩ := hb.adds ha
  refine ⟨b', comparison_eq_ok_iff.mpr ⟨⟨hb.owns ho, ?_⟩, hv, ha⟩, hb'⟩
  have hn : b.arena.node? (p.handle.behind base).node = _ := hb.arena.node? p.handle.node
  rw [hn]
  cases hc : c.arena.node? p.handle.node
  case none   => simp [hc] at hp
  case some m => simpa [hc, Node.isSome_path?_shift] using hp

theorem negation (hb : Beside base c b) (hn : c.negation h = .ok (h', c')) :
    ∃ b', b.negation (h.behind base) = .ok (h'.behind base, b') ∧ Beside base c' b' := by
  have ⟨ho, ha⟩ := negation_eq_ok_iff.mp hn
  have ⟨b', ha, hb'⟩ := hb.adds ha
  exact ⟨b', negation_eq_ok_iff.mpr ⟨hb.owns ho, ha⟩, hb'⟩

theorem combination {make : List Nat → Node} {hc : ∀ cs, (make cs).children = cs}
    {ho : ∀ cs, (make cs).operand? = none}
    (hm : ∀ cs, (make cs).shift base.size = make (cs.map (base.size + ·))) (hb : Beside base c b)
    (h : c.combination make hc ho hs = .ok (h?, c')) :
    ∃ b', b.combination make hc ho (hs.map (·.behind base)) = .ok (h?.map (·.behind base), b') ∧
      Beside base c' b' := by
  cases combination_eq_ok_iff.mp h
  case inl h =>
    have ⟨hn, hh, he⟩ := h
    subst hn hh he
    exact ⟨b, rfl, hb⟩
  case inr h =>
    have ⟨hn, hown, made, hh, ha⟩ := h
    subst hh
    have ⟨b', ha, hb'⟩ := hb.adds ha
    refine ⟨b', combination_eq_ok_iff.mpr (.inr ⟨by simpa using hn, ?_, _, rfl, ?_⟩), hb'⟩
    case refine_1 =>
      intro g hg
      have ⟨d, hd, he⟩ := List.mem_map.mp hg
      exact he ▸ hb.owns (hown d hd)
    case refine_2 =>
      rw [hm, List.map_map] at ha
      rw [List.map_map]
      exact ha

end Beside

-- What is made for a tree in one builder is made in the same way behind other nodes.
def Shifts (base : Builder) (make : Builder → Except Error (Option Handle × Builder)) : Prop :=
  ∀ c b h? c', Beside base c b → make c = .ok (h?, c') →
    ∃ b', make b = .ok (h?.map (·.behind base), b') ∧ Beside base c' b'

end Builder

theorem bind_eq_ok_iff {α β : Type} {x : Except Error α} {f : α → Except Error β} {b : β} :
    (x >>= f) = .ok b ↔ ∃ a, x = .ok a ∧ f a = .ok b := by
  cases x <;> simp [bind, Except.bind]

namespace Tree

open Builder

variable {base b c c' : Builder} {t : Tree} {ts : List Tree} {f? : Option Tree}
  {h? : Option Handle} {hs : List Handle}

-- Trees that are joined are laid out as their parts, and a node for the joint.
structure JoinsBy (join : List Tree → Tree) (make : List Nat → Node) : Prop where
  parts    : ∀ ts, (join ts).parts = ts
  makeable : ∀ ts, ts ≠ [] → (join ts).Makeable
  children : ∀ cs, (make cs).children = cs
  operand  : ∀ cs, (make cs).operand? = none
  shift    : ∀ n cs, (make cs).shift n = make (cs.map (n + ·))
  build    : ∀ ts b, (join ts).build b =
    (buildAll ts b >>= fun made => made.2.combination make children operand made.1)

namespace JoinsBy

theorem conjunction : JoinsBy .conjunction .conjunction where
  parts    := fun _ => rfl
  makeable := fun _ => id
  children := fun _ => rfl
  operand  := fun _ => rfl
  shift    := fun _ _ => rfl
  build    := fun ts b => by rw [Tree.build]; rfl

theorem disjunction : JoinsBy .disjunction .disjunction where
  parts    := fun _ => rfl
  makeable := fun _ => id
  children := fun _ => rfl
  operand  := fun _ => rfl
  shift    := fun _ _ => rfl
  build    := fun ts b => by rw [Tree.build]; rfl

end JoinsBy

theorem shifts_buildFilter (hf : ∀ f ∈ f?, Shifts base f.build) : Shifts base (buildFilter f?) := by
  intro c b h? c' hb h
  cases f?
  case none   => cases h; exact ⟨b, rfl, hb⟩
  case some f => exact hf f rfl c b h? c' hb h

theorem shift_buildAll (hts : ∀ t ∈ ts, Shifts base t.build) (hb : Beside base c b)
    (h : buildAll ts c = .ok (hs, c')) :
    ∃ b', buildAll ts b = .ok (hs.map (·.behind base), b') ∧ Beside base c' b' := by
  induction ts generalizing c b hs
  case nil => cases h; exact ⟨b, rfl, hb⟩
  case cons t ts ih =>
    have ⟨ht, hts⟩ := List.forall_mem_cons.mp hts
    have ⟨⟨h?, c₁⟩, h₁, h⟩ := bind_eq_ok_iff.mp h
    have ⟨⟨hs', c₂⟩, h₂, h⟩ := bind_eq_ok_iff.mp h
    cases h
    have ⟨b₁, hb₁, hbe₁⟩ := ht c b h? c₁ hb h₁
    have ⟨b₂, hb₂, hbe₂⟩ := ih hts hbe₁ h₂
    refine ⟨b₂, ?_, hbe₂⟩
    cases h? <;> simp [buildAll, hb₁, hb₂, bind, Except.bind, pure, Except.pure]

section

variable {p : Path} {o : Operator} {v? : Option Value} {join : List Tree → Tree}
  {make : List Nat → Node}

theorem shifts_path (hf : ∀ f ∈ f?, Shifts base f.build) : Shifts base (path p f?).build := by
  intro c b h? c' hb h
  have ⟨⟨g?, c₁⟩, h₁, h⟩ := bind_eq_ok_iff.mp h
  have ⟨⟨made, c₂⟩, h₂, h⟩ := bind_eq_ok_iff.mp h
  cases h
  have ⟨b₁, hb₁, hbe₁⟩ := shifts_buildFilter hf c b g? c₁ hb h₁
  have ⟨b₂, hb₂, hbe₂⟩ := hbe₁.path h₂
  exact ⟨b₂, bind_eq_ok_iff.mpr ⟨_, hb₁, bind_eq_ok_iff.mpr ⟨_, hb₂, rfl⟩⟩, hbe₂⟩

theorem shifts_comparison (hf : ∀ f ∈ f?, Shifts base f.build) :
    Shifts base (comparison p f? o v?).build := by
  intro c b h? c' hb h
  have ⟨⟨g?, c₁⟩, h₁, h⟩ := bind_eq_ok_iff.mp h
  have ⟨⟨left, c₂⟩, h₂, h⟩ := bind_eq_ok_iff.mp h
  have ⟨⟨made, c₃⟩, h₃, h⟩ := bind_eq_ok_iff.mp h
  cases h
  have ⟨b₁, hb₁, hbe₁⟩ := shifts_buildFilter hf c b g? c₁ hb h₁
  have ⟨b₂, hb₂, hbe₂⟩ := hbe₁.path h₂
  have ⟨b₃, hb₃, hbe₃⟩ := hbe₂.comparison h₃
  refine ⟨b₃, bind_eq_ok_iff.mpr ⟨_, hb₁, bind_eq_ok_iff.mpr ⟨_, hb₂, ?_⟩⟩, hbe₃⟩
  exact bind_eq_ok_iff.mpr ⟨_, hb₃, rfl⟩

theorem shifts_negation (ht : Shifts base t.build) : Shifts base (negation t).build := by
  intro c b h? c' hb h
  have ⟨⟨g?, c₁⟩, h₁, h⟩ := bind_eq_ok_iff.mp h
  have ⟨b₁, hb₁, hbe₁⟩ := ht c b g? c₁ hb h₁
  cases g?
  case none =>
    cases h
    exact ⟨b₁, bind_eq_ok_iff.mpr ⟨_, hb₁, rfl⟩, hbe₁⟩
  case some g =>
    have ⟨⟨made, c₂⟩, h₂, h⟩ := bind_eq_ok_iff.mp h
    cases h
    have ⟨b₂, hb₂, hbe₂⟩ := hbe₁.negation h₂
    exact ⟨b₂, bind_eq_ok_iff.mpr ⟨_, hb₁, bind_eq_ok_iff.mpr ⟨_, hb₂, rfl⟩⟩, hbe₂⟩

theorem shifts_join (hj : JoinsBy join make) (hts : ∀ t ∈ ts, Shifts base t.build) :
    Shifts base (join ts).build := by
  intro c b h? c' hb h
  rw [hj.build] at h
  have ⟨⟨hs, c₁⟩, h₁, h⟩ := bind_eq_ok_iff.mp h
  have ⟨b₁, hb₁, hbe₁⟩ := shift_buildAll hts hb h₁
  have ⟨b₂, hb₂, hbe₂⟩ := hbe₁.combination (hj.shift _) h
  exact ⟨b₂, (hj.build _ _).trans (bind_eq_ok_iff.mpr ⟨_, hb₁, hb₂⟩), hbe₂⟩

theorem shifts_build (base : Builder) (t : Tree) : Shifts base t.build := by
  induction t using byParts
  case step t ih =>
    cases t
    case path        => exact shifts_path fun f hf => ih f (Option.mem_toList.mpr hf)
    case comparison  => exact shifts_comparison fun f hf => ih f (Option.mem_toList.mpr hf)
    case negation t  => exact shifts_negation (ih t List.mem_cons_self)
    case conjunction => exact shifts_join .conjunction ih
    case disjunction => exact shifts_join .disjunction ih

end

end Tree

-- A tree is laid out in the same way whatever serial number the builder has.
theorem Filter.exists_ofTree_of_build {serial : UInt64} {t : Tree} {root : Handle} {b : Builder}
    (hm : t.All Tree.Makeable) (h : t.build (.ofSerial serial) = .ok (some root, b)) :
    ∃ f, ofTree t = .ok (some f) ∧ b.finish root = .ok f := by
  have ⟨root', c, hc, hl⟩ := Tree.makes_build hm (.ofSerial 0)
  have ho := hl.owns root' List.mem_cons_self
  have ⟨_, hb, hbe⟩ := Tree.shifts_build (.ofSerial serial) t _ _ _ _ ⟨rfl, .empty _⟩ hc
  cases h.symm.trans hb
  let f : Filter := ⟨c.arena, root'.node, ho.2⟩
  have hf : c.finish root' = .ok f := Builder.finish_eq_ok_iff.mpr ⟨ho, rfl, rfl⟩
  refine ⟨f, by simp [ofTree, hc, hf, bind, Except.bind, pure, Except.pure], ?_⟩
  exact Builder.finish_eq_ok_iff.mpr ⟨hbe.owns ho, hbe.arena.eq_of_empty.symm, (Nat.zero_add _).symm⟩

end AttributeFilter
