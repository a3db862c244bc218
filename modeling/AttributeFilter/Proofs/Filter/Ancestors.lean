import AttributeFilter.Filter.NodeRef
import AttributeFilter.Proofs.Filter.Descendants

/-!
The walk up from a node of a filter, and what is answered to questions about the nodes above. Parents are
written into slots and children into nodes; in a forest both say the same, so what a node finds above itself
is what it is reached from by going down.
-/

namespace AttributeFilter

open Relation (TransGen)

namespace Arena

variable {a : Arena} {c d i p : Nat}

-- Parents stand behind their children.
theorem pairwise_ancestors (a : Arena) (i : Nat) : (i :: a.ancestors i).Pairwise (· < ·) := by
  fun_induction ancestors a i
  case case1 => exact List.pairwise_singleton _ _
  case case2 i p hp ih =>
    have hi := (bounds_of_parent? hp).left
    refine List.pairwise_cons.mpr ⟨fun d hd => ?_, ih⟩
    rcases List.mem_cons.mp hd with rfl | hd
    · exact hi
    · exact Nat.lt_trans hi ((List.pairwise_cons.mp ih).left d hd)

theorem exists_last_ancestor (a : Arena) (i : Nat) :
    ∃ t, (i :: a.ancestors i).getLast? = some t ∧ a.parent? t = none := by
  fun_induction ancestors a i
  case case1 i hp => exact ⟨i, rfl, hp⟩
  case case2 i p hp ih =>
    obtain ⟨t, ht, hn⟩ := ih
    exact ⟨t, List.getLast?_cons_cons.trans ht, hn⟩

theorem take_one_ancestors (a : Arena) (i : Nat) : (a.ancestors i).take 1 = (a.parent? i).toList := by
  cases hp : a.parent? i
  case none   => rw [ancestors_of_none hp]; rfl
  case some p => rw [ancestors_of_some hp]; rfl

theorem mem_ancestors_iff : d ∈ a.ancestors i ↔ ∃ p, a.parent? i = some p ∧ (d = p ∨ d ∈ a.ancestors p) := by
  cases hp : a.parent? i
  case none   => simp [ancestors_of_none hp]
  case some p => simp [ancestors_of_some hp]

theorem mem_ancestors_iff_child (hf : a.Forest) : d ∈ a.ancestors i ↔ TransGen a.Child d i := by
  constructor
  case mp =>
    intro h
    fun_induction ancestors a i
    case case1 => cases h
    case case2 i p hp ih =>
      have hc : a.Child p i := (hf.linked i p).mp hp
      rcases List.mem_cons.mp h with rfl | h
      · exact .single hc
      · exact .tail (ih h) hc
  case mpr =>
    intro h
    induction h
    case single i hc          => exact mem_ancestors_iff.mpr ⟨d, (hf.linked i d).mpr hc, .inl rfl⟩
    case tail p i _ hc ih     => exact mem_ancestors_iff.mpr ⟨p, (hf.linked i p).mpr hc, .inr ih⟩

end Arena

namespace NodeRef

variable {r s : NodeRef} {q : ParentQuery} {id : Nat} {k : Node.Kind}

theorem hasParentMatching_true_iff :
    r.hasParentMatching q true ↔ ∃ id ∈ r.ancestors, r.answers id q :=
  List.any_eq_true

theorem hasParentMatching_false_iff :
    r.hasParentMatching q false ↔ ∃ id, r.parent? = some id ∧ r.answers id q := by
  simp [hasParentMatching, ancestors, parent?, Arena.take_one_ancestors]

-- Whether two references are to nodes of the same filter.
structure SameFilter (s r : NodeRef) : Prop where
  owner  : s.owner = r.owner
  filter : s.filter = r.filter

theorem answers_node_iff (h : s.SameFilter r) : r.answers id (.node s) ↔ id = s.id := by
  simp [answers, h.owner]

theorem answers_node_of_other (h : s.owner ≠ r.owner) : r.answers id (.node s) = false := by
  simp [answers, h.symm]

theorem node?_id (s : NodeRef) : s.filter.arena.node? s.id = some s.node := by
  rw [node, Option.some_get]

theorem answers_kind_iff : r.answers id (.kind k) ↔ ∃ s : NodeRef, s.SameFilter r ∧ s.kind = k ∧ s.id = id := by
  constructor
  case mp =>
    intro h
    cases hn : r.filter.arena.node? id
    case none => simp [answers, hn] at h
    case some n =>
      let s : NodeRef := { r with id, id_lt := Arena.lt_size_of_node? hn }
      have hs : s.node = n := Option.some.inj (s.node?_id.symm.trans hn)
      exact ⟨s, ⟨rfl, rfl⟩, by simpa [answers, hn, kind, hs] using h, rfl⟩
  case mpr =>
    rintro ⟨s, hs, rfl, rfl⟩
    simp [answers, ← hs.filter, s.node?_id, kind]

-- What the questions of a node about the nodes above say, in terms of the way down to it.
structure IsAnswered (r : NodeRef) : Prop where
  rising     : (r.id :: r.ancestors).Pairwise (· < ·)
  top        : ∃ t, (r.id :: r.ancestors).getLast? = some t ∧ r.filter.arena.parent? t = none
  above      : ∀ s : NodeRef, s.SameFilter r →
    (r.hasParentMatching (.node s) true ↔ TransGen r.filter.arena.Child s.id r.id)
  parent     : ∀ s : NodeRef, s.SameFilter r → (r.hasParentMatching (.node s) false ↔ r.id ∈ s.children)
  kindAbove  : ∀ k, r.hasParentMatching (.kind k) true ↔
    ∃ s : NodeRef, s.SameFilter r ∧ s.kind = k ∧ TransGen r.filter.arena.Child s.id r.id
  kindParent : ∀ k, r.hasParentMatching (.kind k) false ↔
    ∃ s : NodeRef, s.SameFilter r ∧ s.kind = k ∧ r.id ∈ s.children
  any        : r.hasParentMatching .any true = r.hasParentMatching .any false
  other      : ∀ (s : NodeRef) (recursive : Bool), s.owner ≠ r.owner →
    r.hasParentMatching (.node s) recursive = false
  root       : r.id = r.filter.root → ∀ q recursive, r.hasParentMatching q recursive = false

theorem hasParentMatching_eq_false_of_answers {recursive : Bool} (h : ∀ id, r.answers id q = false) :
    r.hasParentMatching q recursive = false := by
  simp [hasParentMatching, h]

-- Without a parent there is nothing to be found above.
theorem hasParentMatching_of_isRoot {recursive : Bool} (h : r.parent? = none) :
    r.hasParentMatching q recursive = false := by
  have ha : r.ancestors = [] := Arena.ancestors_of_none h
  simp [hasParentMatching, ha]

theorem hasParentMatching_any (r : NodeRef) :
    r.hasParentMatching .any true = r.hasParentMatching .any false := by
  have ht : r.ancestors.take 1 = r.parent?.toList := Arena.take_one_ancestors _ _
  cases hp : r.parent?
  case none => rw [hasParentMatching_of_isRoot hp, hasParentMatching_of_isRoot hp]
  case some p =>
    have ha : r.ancestors = p :: r.filter.arena.ancestors p := Arena.ancestors_of_some hp
    simp [hasParentMatching, ha, answers]

theorem isAnswered_of_forest (hf : r.filter.arena.Forest)
    (hr : r.filter.arena.parent? r.filter.root = none) : r.IsAnswered := by
  have up {id : Nat} : id ∈ r.ancestors ↔ TransGen r.filter.arena.Child id r.id :=
    Arena.mem_ancestors_iff_child hf
  have one {s : NodeRef} (hs : s.SameFilter r) : r.parent? = some s.id ↔ r.id ∈ s.children := by
    rw [children, hs.filter]
    exact hf.linked r.id s.id
  constructor
  case rising     => exact Arena.pairwise_ancestors _ _
  case top        => exact Arena.exists_last_ancestor _ _
  case above =>
    intro s hs
    simp only [hasParentMatching_true_iff, answers_node_iff hs, exists_eq_right, up]
  case parent =>
    intro s hs
    simp only [hasParentMatching_false_iff, answers_node_iff hs, exists_eq_right, one hs]
  case kindAbove =>
    intro k
    simp only [hasParentMatching_true_iff, answers_kind_iff]
    constructor
    case mp  => rintro ⟨_, ha, s, hs, hk, rfl⟩; exact ⟨s, hs, hk, up.mp ha⟩
    case mpr => rintro ⟨s, hs, hk, ha⟩; exact ⟨s.id, up.mpr ha, s, hs, hk, rfl⟩
  case kindParent =>
    intro k
    simp only [hasParentMatching_false_iff, answers_kind_iff]
    constructor
    case mp  => rintro ⟨_, hp, s, hs, hk, rfl⟩; exact ⟨s, hs, hk, (one hs).mp hp⟩
    case mpr => rintro ⟨s, hs, hk, hc⟩; exact ⟨s.id, (one hs).mpr hc, s, hs, hk, rfl⟩
  case any        => exact r.hasParentMatching_any
  case other      => exact fun s _ hs => hasParentMatching_eq_false_of_answers fun _ => answers_node_of_other hs
  case root       => exact fun he _ _ => hasParentMatching_of_isRoot (by rw [parent?, he, hr])

end NodeRef
end AttributeFilter
