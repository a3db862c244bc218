import AttributeFilter.Filter.Basic
import AttributeFilter.Proofs.Filter.Builder
import Mathlib.Data.List.Nodup

/-!
The shape of an arena. Parents and children agree, and every node is a child once at most, so the nodes
below a node form a tree. Adding a node keeps this up if its children are different and have no parents
yet.
-/

namespace AttributeFilter

-- A comparison has no value if and only if its operator is `pr`.
def Node.HasArity : Node → Prop
  | .comparison _ o v? => v? = none ↔ o = .present
  | _                  => True

namespace Arena

variable {a : Arena} {n : Node} {c d i p q : Nat}

structure Forest (a : Arena) : Prop where
  linked  : ∀ c p, a.parent? c = some p ↔ c ∈ a.children p
  once    : ∀ p, (a.children p).Nodup
  only    : ∀ c p q, c ∈ a.children p → c ∈ a.children q → p = q
  ordered : ∀ p, ∀ c ∈ a.children p, c < p
  operand : ∀ i c o v?, a.node? i = some (.comparison c o v?) → ∃ p f?, a.node? c = some (.path p f?)
  arity   : ∀ i n, a.node? i = some n → n.HasArity
  named   : ∀ i p f?, a.node? i = some (.path p f?) → p.segments ≠ [] ∧ ∀ s ∈ p.segments, s ≠ []

-- Some of it any arena has.
theorem Forest.of_linked (hl : ∀ c p, a.parent? c = some p ↔ c ∈ a.children p)
    (ho : ∀ p, (a.children p).Nodup) (ha : ∀ i n, a.node? i = some n → n.HasArity) : a.Forest where
  linked  := hl
  once    := ho
  only    := fun c p q hp hq => Option.some.inj <| ((hl c p).mpr hp).symm.trans ((hl c q).mpr hq)
  ordered := fun _ _ => lt_of_mem_children
  operand := by
    intro i c o v? hn
    have ⟨⟨p, f?⟩, hp⟩ := Option.isSome_iff_exists.mp (isSome_operand hn rfl)
    exact ⟨p, f?, node?_of_path? hp⟩
  arity   := ha
  named   := fun _ p _ _ => ⟨p.segments_ne_nil, p.ne_nil_of_mem⟩

theorem forest_empty : empty.Forest :=
  .of_linked (by simp [parent?, children, node?, empty]) (by simp [children, node?, empty])
    (by simp [node?, empty])

theorem Forest.add (hf : a.Forest) (h : a.Admits n) (hd : n.children.Nodup)
    (hp : ∀ c ∈ n.children, a.parent? c = none) (ha : n.HasArity) : (a.add n h).Forest := by
  refine .of_linked (fun c p => ?_) (fun p => ?_) (forall_node?_add hf.arity ha)
  · rw [parent?_add, children_add]
    split
    case isTrue hc =>
      split
      case isTrue he  => simp [hc, he]
      case isFalse he => simp [← hf.linked, hp c hc, Ne.symm he]
    case isFalse hc =>
      split
      case isTrue he =>
        have hb : a.parent? c ≠ some p := fun hq => Nat.ne_of_lt (bounds_of_parent? hq).2 he
        simp [hc, hb]
      case isFalse => exact hf.linked c p
  · rw [children_add]
    split
    · exact hd
    · exact hf.once p

-- Before a node is added its children have no parents, if the arena has its shape before and after.
theorem Forest.parent?_of_add (hf : a.Forest) (h : a.Admits n) (hf' : (a.add n h).Forest) :
    ∀ c ∈ n.children, a.parent? c = none := by
  intro c hc
  cases hp : a.parent? c
  case none   => rfl
  case some p =>
    have hlt := (bounds_of_parent? hp).2
    have hc₁ : c ∈ (a.add n h).children a.size := by simpa [children_add] using hc
    have hc₂ : c ∈ (a.add n h).children p := by
      simpa [children_add, Nat.ne_of_lt hlt] using (hf.linked c p).mp hp
    exact absurd (hf'.only c _ _ hc₁ hc₂) (Nat.ne_of_gt hlt)

-- As `adopt`, but it breaks off at a slot that has a parent already.
def adoptAsserting (parent : Nat) (slots : Array Slot) (children : List Nat) : Option (Array Slot) :=
  children.foldlM
    (fun slots c =>
      if (slots[c]?).bind (·.parent?) = none then
        some (slots.modify c fun s => { s with parent? := some parent })
      else none)
    slots

theorem adoptAsserting_eq_adopt {slots : Array Slot} {children : List Nat} (hd : children.Nodup)
    (hp : ∀ c ∈ children, (slots[c]?).bind (·.parent?) = none) :
    adoptAsserting p slots children = some (adopt p slots children) := by
  induction children generalizing slots
  case nil => rfl
  case cons c cs ih =>
    have ⟨hc, hd⟩ := List.nodup_cons.mp hd
    have ⟨hpc, hp⟩ := List.forall_mem_cons.mp hp
    have hs : adoptAsserting p slots (c :: cs) =
        adoptAsserting p (slots.modify c fun s => { s with parent? := some p }) cs := by
      simp only [adoptAsserting, List.foldlM_cons, hpc]
      rfl
    rw [hs, ih hd fun d hm => ?_]
    · rfl
    · have hne : c ≠ d := fun he => hc (he ▸ hm)
      rw [Array.getElem?_modify, if_neg hne]
      exact hp d hm

-- A node with those above it, up to a given one.
inductive Under (a : Arena) (i : Nat) : Nat → Prop
  | refl : Under a i i
  | step {c p : Nat} : a.parent? c = some p → Under a i p → Under a i c

namespace Under

theorem le (h : a.Under i d) : d ≤ i := by
  induction h
  case refl => exact Nat.le_refl i
  case step hp _ ih => exact Nat.le_trans (Nat.le_of_lt (bounds_of_parent? hp).1) ih

theorem trans (h : a.Under i c) (h' : a.Under c d) : a.Under i d := by
  induction h'
  case refl         => exact h
  case step hp _ ih => exact .step hp ih

-- Going up from a node, one meets one child of a node at most.
theorem sibling_unique (h : a.Under c d) (h' : a.Under q d) (hc : a.parent? c = some i)
    (hq : a.parent? q = some i) : c = q := by
  have above {x y : Nat} (hx : a.parent? x = some i) (hy : a.parent? y = some i)
      (h : a.Under x y) : y = x := by
    cases h
    case refl      => rfl
    case step h hp =>
      cases hy.symm.trans hp
      exact absurd h.le (Nat.not_le_of_gt (bounds_of_parent? hx).1)
  induction h
  case refl => exact above hq hc h'
  case step hp hu ih =>
    cases h'
    case refl       => exact (above hc hq (.step hp hu)).symm
    case step h hp' =>
      cases hp.symm.trans hp'
      exact ih h

end Under

theorem mem_preorder_of_child (hc : d ∈ a.children p) (hp : p ∈ a.preorder i) :
    d ∈ a.preorder i := by
  induction i using Nat.strongRecOn
  case ind i ih =>
    rw [preorder_eq, List.mem_cons, List.mem_flatMap] at hp
    rw [preorder_eq, List.mem_cons, List.mem_flatMap]
    rcases hp with rfl | ⟨c, hci, hp⟩
    · exact .inr ⟨d, hc, by rw [preorder_eq]; exact List.mem_cons_self⟩
    · exact .inr ⟨c, hci, ih c (lt_of_mem_children hci) hp⟩

theorem mem_preorder_iff (hf : a.Forest) : d ∈ a.preorder i ↔ a.Under i d := by
  constructor
  case mp =>
    induction i using Nat.strongRecOn
    case ind i ih =>
      intro h
      rw [preorder_eq, List.mem_cons, List.mem_flatMap] at h
      rcases h with rfl | ⟨c, hc, h⟩
      · exact .refl
      · exact .trans (.step ((hf.linked c i).mpr hc) .refl) (ih c (hf.ordered i c hc) h)
  case mpr =>
    intro h
    induction h
    case refl => rw [preorder_eq]; exact List.mem_cons_self
    case step hp _ ih => exact mem_preorder_of_child ((hf.linked _ _).mp hp) ih

theorem preorder_nodup (hf : a.Forest) (i : Nat) : (a.preorder i).Nodup := by
  induction i using Nat.strongRecOn
  case ind i ih =>
    have under {c d : Nat} (hd : d ∈ a.preorder c) : a.Under c d := (mem_preorder_iff hf).mp hd
    rw [preorder_eq, List.nodup_cons, List.nodup_flatMap]
    refine ⟨fun h => ?_, fun c hc => ih c (hf.ordered i c hc), ?_⟩
    · have ⟨c, hc, h⟩ := List.mem_flatMap.mp h
      exact absurd (under h).le (Nat.not_le_of_gt (hf.ordered i c hc))
    · apply (hf.once i).imp_of_mem
      intro c d hc hq hne e hd hd'
      apply hne
      exact (under hd).sibling_unique (under hd') ((hf.linked _ i).mpr hc) ((hf.linked _ i).mpr hq)

end Arena
end AttributeFilter
