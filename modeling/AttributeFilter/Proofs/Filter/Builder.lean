import AttributeFilter.Filter.Builder
import AttributeFilter.Proofs.Filter.Shows

/-!
What the calls of a builder do: one lemma for each call says when it is accepted, and that it then adds
one node and hands it out.
-/

namespace AttributeFilter.Builder

variable {b b' : Builder} {n : Node} {h : Handle}

-- A builder has added a node and handed it out.
def Adds (b : Builder) (n : Node) (h : Handle) (b' : Builder) : Prop :=
  ∃ ha : b.arena.Admits n, b.add n ha = (h, b')

theorem exists_adds (ha : b.arena.Admits n) : ∃ h b', b.Adds n h b' :=
  ⟨_, _, ha, rfl⟩

namespace Adds

theorem serial (ha : b.Adds n h b') : b'.serial = b.serial := by
  cases ha with | intro _ he => cases he; rfl

theorem arena (ha : b.Adds n h b') : ∃ hn : b.arena.Admits n, b'.arena = b.arena.add n hn := by
  cases ha with | intro hn he => cases he; exact ⟨hn, rfl⟩

theorem handle_eq (ha : b.Adds n h b') : h = ⟨b.serial, b.size⟩ := by
  cases ha with | intro _ he => cases he; rfl

theorem handle_builder (ha : b.Adds n h b') : h.builder = b.serial :=
  congrArg Handle.builder ha.handle_eq

theorem handle_node (ha : b.Adds n h b') : h.node = b.size :=
  congrArg Handle.node ha.handle_eq

theorem size (ha : b.Adds n h b') : b'.size = b.size + 1 := by
  cases ha with | intro ha he => cases he; exact Arena.size_add _ _ ha

theorem owns (ha : b.Adds n h b') : b'.Owns h := by
  refine ⟨ha.handle_builder.trans ha.serial.symm, ?_⟩
  have hn := ha.handle_node
  have hs := ha.size
  omega

theorem within (ha : b.Adds n h b') : b.arena.Within b'.arena := by
  cases ha with | intro ha he => cases he; exact Arena.within_add ha

theorem node? (ha : b.Adds n h b') : b'.arena.node? h.node = some n := by
  cases ha with | intro ha he => cases he; exact (Arena.node?_add ha _).trans (if_pos rfl)

-- The node that is added has no parent.
theorem parent? (ha : b.Adds n h b') : b'.arena.parent? h.node = none := by
  have ⟨hn, he⟩ := ha.arena
  have hm : b.size ∉ n.children := fun hm => Nat.lt_irrefl _ (hn.children_lt _ hm)
  rw [he, ha.handle_node, Arena.parent?_add, if_neg hm]
  cases hp : b.arena.parent? b.size
  case none   => rfl
  case some p => exact absurd (Arena.bounds_of_parent? hp) (by simp [Builder.size]; omega)

end Adds

-- A builder has only added nodes.
structure Grows (b b' : Builder) : Prop where
  serial : b'.serial = b.serial
  within : b.arena.Within b'.arena

namespace Grows

theorem refl (b : Builder) : b.Grows b where
  serial := rfl
  within := .refl _

theorem trans {b'' : Builder} (h : b.Grows b') (h' : b'.Grows b'') : b.Grows b'' where
  serial := h'.serial.trans h.serial
  within := h.within.trans h'.within

theorem owns (hg : b.Grows b') (ho : b.Owns h) : b'.Owns h := by
  have ⟨n, hn⟩ := Option.isSome_iff_exists.mp (Arena.isSome_node?_iff.mpr ho.2)
  exact ⟨ho.1.trans hg.serial.symm, Arena.lt_size_of_node? (hg.within _ _ hn)⟩

end Grows

theorem Adds.grows (ha : b.Adds n h b') : b.Grows b' where
  serial := ha.serial
  within := ha.within

-- The value filter that the attribute path held before does not matter.
theorem path_eq_ok_iff {a : Attribute} {f? : Option Handle} {made : PathHandle} :
    b.path a f? = .ok (made, b') ↔
      (∀ f ∈ f?, b.Owns f) ∧ b.Adds (.path a.path (f?.map (·.node))) made.handle b' := by
  simp only [path]
  split
  case isTrue ho =>
    constructor
    case mp  => intro h; cases h; exact ⟨ho, _, rfl⟩
    case mpr => rintro ⟨_, ha, he⟩; cases made; cases he; rfl
  case isFalse ho => exact ⟨nofun, fun h => absurd h.left ho⟩

theorem comparison_eq_ok_iff {p : PathHandle} {o : Operator} {v? : Option Value} :
    b.comparison p o v? = .ok (h, b') ↔
      (b.Owns p.handle ∧ ((b.arena.node? p.handle.node).bind Node.path?).isSome) ∧
        o.takesValue = v?.isSome ∧ b.Adds (.comparison p.handle.node o v?) h b' := by
  simp only [comparison]
  split
  case isTrue ho =>
    split
    case isTrue hv =>
      constructor
      case mp  => intro h; cases h; exact ⟨ho, hv, _, rfl⟩
      case mpr => rintro ⟨_, _, ha, he⟩; cases he; rfl
    case isFalse hv => simp [hv]
  case isFalse ho => simp [ho]

theorem negation_eq_ok_iff {c : Handle} :
    b.negation c = .ok (h, b') ↔ b.Owns c ∧ b.Adds (.negation c.node) h b' := by
  simp only [negation]
  split
  case isTrue ho =>
    constructor
    case mp  => intro h; cases h; exact ⟨ho, _, rfl⟩
    case mpr => rintro ⟨_, ha, he⟩; cases he; rfl
  case isFalse ho => simp [ho]

theorem combination_eq_ok_iff {make : List Nat → Node} {hc : ∀ cs, (make cs).children = cs}
    {ho : ∀ cs, (make cs).operand? = none} {cs : List Handle} {made? : Option Handle} :
    b.combination make hc ho cs = .ok (made?, b') ↔
      (cs = [] ∧ made? = none ∧ b = b') ∨
        cs ≠ [] ∧ (∀ c ∈ cs, b.Owns c) ∧
          ∃ made, made? = some made ∧ b.Adds (make (cs.map (·.node))) made b' := by
  simp only [combination]
  split
  case isTrue hn => simp [hn, eq_comm]
  case isFalse hn =>
    split
    case isTrue ho =>
      constructor
      case mp  => intro h; cases h; exact .inr ⟨hn, ho, _, rfl, _, rfl⟩
      case mpr =>
        rintro (h | ⟨_, _, made, rfl, ha, he⟩)
        · exact absurd h.left hn
        · cases he; rfl
    case isFalse ho => simp [hn, ho]

theorem conjunction_eq_ok_iff {cs : List Handle} {made? : Option Handle} :
    b.conjunction cs = .ok (made?, b') ↔
      (cs = [] ∧ made? = none ∧ b = b') ∨
        cs ≠ [] ∧ (∀ c ∈ cs, b.Owns c) ∧
          ∃ made, made? = some made ∧ b.Adds (.conjunction (cs.map (·.node))) made b' :=
  combination_eq_ok_iff

theorem disjunction_eq_ok_iff {cs : List Handle} {made? : Option Handle} :
    b.disjunction cs = .ok (made?, b') ↔
      (cs = [] ∧ made? = none ∧ b = b') ∨
        cs ≠ [] ∧ (∀ c ∈ cs, b.Owns c) ∧
          ∃ made, made? = some made ∧ b.Adds (.disjunction (cs.map (·.node))) made b' :=
  combination_eq_ok_iff

theorem finish_eq_ok_iff {root : Handle} {f : Filter} :
    b.finish root = .ok f ↔ b.Owns root ∧ f.arena = b.arena ∧ f.root = root.node := by
  simp only [finish]
  split
  case isTrue ho =>
    constructor
    case mp  => intro h; cases h; exact ⟨ho, rfl, rfl⟩
    case mpr => rintro ⟨_, ha, hr⟩; cases f; cases ha; cases hr; rfl
  case isFalse ho => simp [ho]

end AttributeFilter.Builder
