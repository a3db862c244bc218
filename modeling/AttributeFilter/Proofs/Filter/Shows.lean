import AttributeFilter.Filter.Walk
import AttributeFilter.Proofs.Tree.Parts

/-!
The tree that a node stands for, as a relation between the nodes of an arena and trees. Adding nodes does
not change what the nodes before them stand for.
-/

namespace AttributeFilter.Arena

variable {a a' : Arena}

-- The nodes of an arena are also in another one, under the same numbers.
def Within (a a' : Arena) : Prop :=
  ∀ i n, a.node? i = some n → a'.node? i = some n

namespace Within

theorem refl (a : Arena) : a.Within a :=
  fun _ _ h => h

theorem trans {a'' : Arena} (h : a.Within a') (h' : a'.Within a'') : a.Within a'' :=
  fun i n hn => h' i n (h i n hn)

end Within

theorem node?_add {n : Node} (h : a.Admits n) (i : Nat) :
    (a.add n h).node? i = if i = a.size then some n else a.node? i := by
  simp only [node?, add, getElem?_slotsWith]
  split
  · rfl
  · rw [Option.map_map]
    congr 1
    funext s
    simp only [Function.comp]
    split <;> rfl

-- What all nodes have, they have with one more that has it.
theorem forall_node?_add {P : Node → Prop} {n : Node} {h : a.Admits n} (ha : ∀ i m, a.node? i = some m → P m)
    (hn : P n) (i : Nat) (m : Node) (hm : (a.add n h).node? i = some m) : P m := by
  rw [node?_add] at hm
  split at hm
  case isTrue  => cases hm; exact hn
  case isFalse => exact ha i m hm

theorem children_add {n : Node} (h : a.Admits n) (i : Nat) :
    (a.add n h).children i = if i = a.size then n.children else a.children i := by
  rw [children, node?_add]
  split <;> rfl

theorem parent?_add {n : Node} (h : a.Admits n) (c : Nat) :
    (a.add n h).parent? c = if c ∈ n.children then some a.size else a.parent? c := by
  simp only [parent?, add, getElem?_slotsWith]
  split
  case isTrue hc =>
    have hn : c ∉ n.children := fun hm => Nat.ne_of_lt (h.children_lt c hm) hc
    have hs : a.slots[c]? = none := Array.getElem?_eq_none (Nat.le_of_eq hc.symm)
    simp [hn, hs]
  case isFalse hc =>
    by_cases hm : c ∈ n.children
    · have hs := Array.getElem?_eq_getElem (h.children_lt c hm)
      simp [hm, hs]
    · simp [hm]

theorem within_add {n : Node} (h : a.Admits n) : a.Within (a.add n h) := by
  intro i m hm
  have hi := lt_size_of_node? hm
  rw [node?_add, if_neg (Nat.ne_of_lt hi), hm]

-- What a node stands for, by the kinds of nodes.
inductive Shows (a : Arena) : Nat → Tree → Prop
  | path : a.node? i = some (.path p none) → Shows a i (.path p none)
  | filtered : a.node? i = some (.path p (some f)) → Shows a f t → Shows a i (.path p (some t))
  | comparison : a.node? i = some (.comparison c o v?) → a.node? c = some (.path p none) →
    Shows a i (.comparison p none o v?)
  | filteredComparison : a.node? i = some (.comparison c o v?) →
    a.node? c = some (.path p (some f)) → Shows a f t → Shows a i (.comparison p (some t) o v?)
  | negation : a.node? i = some (.negation c) → Shows a c t → Shows a i (.negation t)
  | conjunction {cs : List Nat} {ts : List Tree} : a.node? i = some (.conjunction cs) →
    cs.length = ts.length →
    (∀ (k c : Nat) (t : Tree), cs[k]? = some c → ts[k]? = some t → Shows a c t) →
    Shows a i (.conjunction ts)
  | disjunction {cs : List Nat} {ts : List Tree} : a.node? i = some (.disjunction cs) →
    cs.length = ts.length →
    (∀ (k c : Nat) (t : Tree), cs[k]? = some c → ts[k]? = some t → Shows a c t) →
    Shows a i (.disjunction ts)

variable {i c : Nat} {p : Path} {t t' : Tree}

theorem node?_of_path? {f? : Option Nat}
    (h : (a.node? c).bind Node.path? = some (p, f?)) : a.node? c = some (.path p f?) := by
  have ⟨n, hn, hp⟩ := Option.bind_eq_some_iff.mp h
  cases n <;> simp_all [Node.path?]

-- What stands in a list at a place that another list of the same length has too.
theorem getElem?_attach_map {cs : List Nat} {g : {c // c ∈ cs} → Tree} {k c : Nat}
    (hc : cs[k]? = some c) (ht : (cs.attach.map g)[k]? = some t) : ∃ hm : c ∈ cs, g ⟨c, hm⟩ = t := by
  have ⟨hk, he⟩ := List.getElem?_eq_some_iff.mp hc
  subst he
  exact ⟨List.getElem_mem hk, by simpa [hk] using ht⟩

theorem shows_attach_map {cs : List Nat} {g : {c // c ∈ cs} → Tree}
    (h : ∀ c (hm : c ∈ cs), a.Shows c (g ⟨c, hm⟩)) (k c : Nat) (t : Tree) (hc : cs[k]? = some c)
    (ht : (cs.attach.map g)[k]? = some t) : a.Shows c t := by
  have ⟨hm, he⟩ := getElem?_attach_map hc ht
  exact he ▸ h c hm

theorem shows_treeAt (h : i < a.size) : a.Shows i (a.treeAt i h) := by
  induction i using Nat.strongRecOn
  case _ i ih =>
    unfold treeAt
    split
    case _ hn => exact absurd (isSome_node?_iff.mpr h) (by simp [hn])
    case _ hn => exact .path hn
    case _ hn => exact .filtered hn (ih _ (lt_of_node? hn (by simp [Node.children])) _)
    case _ c _ _ hn =>
      have hc : c < i := lt_of_node? hn (by simp [Node.children])
      split
      case _ hp => exact absurd (isSome_operand hn rfl) (by simp [hp])
      case _ hp => exact .comparison hn (node?_of_path? hp)
      case _ hp =>
        exact .filteredComparison hn (node?_of_path? hp) (ih _ (Nat.lt_trans (lt_of_path? hp) hc) _)
    case _ hn => exact .negation hn (ih _ (lt_of_node? hn (by simp [Node.children])) _)
    case _ hn =>
      exact .conjunction hn (by simp) (shows_attach_map fun c hm => ih c (lt_of_node? hn hm) _)
    case _ hn =>
      exact .disjunction hn (by simp) (shows_attach_map fun c hm => ih c (lt_of_node? hn hm) _)

theorem eq_of_shows_all {cs : List Nat} {ts ts' : List Tree} (hl : cs.length = ts.length)
    (hl' : cs.length = ts'.length)
    (h : ∀ (k c : Nat) (t : Tree), cs[k]? = some c → ts[k]? = some t → ∀ t', a.Shows c t' → t = t')
    (h' : ∀ (k c : Nat) (t : Tree), cs[k]? = some c → ts'[k]? = some t → a.Shows c t) : ts = ts' := by
  apply List.ext_getElem (hl.symm.trans hl')
  intro k hk hk'
  have hc := List.getElem?_eq_getElem (l := cs) (hl ▸ hk)
  have ht' := h' k _ _ hc (List.getElem?_eq_getElem hk')
  exact h k _ _ hc (List.getElem?_eq_getElem hk) _ ht'

theorem Shows.unique (h : a.Shows i t) (h' : a.Shows i t') : t = t' := by
  induction h generalizing t' <;> cases h' <;> try (simp_all; done)
  case filtered.filtered hn _ ih _ _ _ h' hn' =>
    cases hn.symm.trans hn'
    rw [ih h']
  case filteredComparison.filteredComparison hn hp _ ih _ _ _ _ _ _ hp' h' hn' =>
    cases hn.symm.trans hn'
    cases hp.symm.trans hp'
    rw [ih h']
  case negation.negation hn _ ih _ _ h' hn' =>
    cases hn.symm.trans hn'
    rw [ih h']
  case conjunction.conjunction hn hl _ ih _ _ hl' h' hn' =>
    cases hn.symm.trans hn'
    rw [eq_of_shows_all hl hl' (fun k c t hc ht _ => ih k c t hc ht) h']
  case disjunction.disjunction hn hl _ ih _ _ hl' h' hn' =>
    cases hn.symm.trans hn'
    rw [eq_of_shows_all hl hl' (fun k c t hc ht _ => ih k c t hc ht) h']

theorem shows_iff : a.Shows i t ↔ ∃ h : i < a.size, a.treeAt i h = t := by
  constructor
  case mpr => rintro ⟨h, rfl⟩; exact shows_treeAt h
  case mp =>
    intro h
    have hi : i < a.size := by cases h <;> exact lt_size_of_node? ‹_›
    exact ⟨hi, (shows_treeAt hi).unique h⟩

theorem Shows.node?_path {f? : Option Tree} (h : a.Shows i (.path p f?)) :
    ∃ f?', a.node? i = some (.path p f?') := by
  cases h <;> exact ⟨_, ‹_›⟩

-- A comparison of a node that stands for a path stands for the comparison of that path.
theorem Shows.compare {f? : Option Tree} {o : Operator} {v? : Option Value}
    (h : a.Shows c (.path p f?)) (hn : a.node? i = some (.comparison c o v?)) :
    a.Shows i (.comparison p f? o v?) := by
  cases h
  case path hp         => exact .comparison hn hp
  case filtered _ h hp => exact .filteredComparison hn hp h

theorem forall_of_getElem? {P : Tree → Prop} {cs : List Nat} {ts : List Tree}
    (hl : cs.length = ts.length)
    (h : ∀ (k c : Nat) (t : Tree), cs[k]? = some c → ts[k]? = some t → P t) : ∀ t ∈ ts, P t := by
  intro t ht
  have ⟨k, hk, he⟩ := List.mem_iff_getElem.mp ht
  exact h k _ t (List.getElem?_eq_getElem (hl ▸ hk)) (List.getElem?_eq_some_iff.mpr ⟨hk, he⟩)

-- All below a node that stands for a tree stands for a tree.
theorem Shows.all {P : Tree → Prop} (h : a.Shows i t) (hP : ∀ j u, a.Shows j u → P u) : t.All P := by
  induction h
  case path hn                     => exact .intro (hP _ _ (.path hn)) nofun
  case filtered hn h ih            => exact .intro (hP _ _ (.filtered hn h)) (List.forall_mem_singleton.mpr ih)
  case comparison hn hp            => exact .intro (hP _ _ (.comparison hn hp)) nofun
  case filteredComparison hn hp h ih =>
    exact .intro (hP _ _ (.filteredComparison hn hp h)) (List.forall_mem_singleton.mpr ih)
  case negation hn h ih            => exact .intro (hP _ _ (.negation hn h)) (List.forall_mem_singleton.mpr ih)
  case conjunction hn hl h ih      => exact .intro (hP _ _ (.conjunction hn hl h)) (forall_of_getElem? hl ih)
  case disjunction hn hl h ih      => exact .intro (hP _ _ (.disjunction hn hl h)) (forall_of_getElem? hl ih)

theorem Shows.within (hw : a.Within a') (h : a.Shows i t) : a'.Shows i t := by
  induction h
  case path hn                          => exact .path (hw _ _ hn)
  case filtered hn _ ih                 => exact .filtered (hw _ _ hn) ih
  case comparison hn hp                 => exact .comparison (hw _ _ hn) (hw _ _ hp)
  case filteredComparison hn hp _ ih    => exact .filteredComparison (hw _ _ hn) (hw _ _ hp) ih
  case negation hn _ ih                 => exact .negation (hw _ _ hn) ih
  case conjunction hn hl _ ih           => exact .conjunction (hw _ _ hn) hl ih
  case disjunction hn hl _ ih           => exact .disjunction (hw _ _ hn) hl ih

end AttributeFilter.Arena
