import AttributeFilter.Proofs.Workbench.Issued

/-!
Orders are atomic. Everything that is given is checked before anything is written, so an order that is refused
leaves all builders as they were; one that is not adds a single slot and touches what was given to it, and
nothing else.
-/

namespace AttributeFilter.Workbench

-- A builder has one more slot, for a node whose children it is the parent of. Every other slot is as before.
structure Appends (b : Builder) (n : Node) (b' : Builder) : Prop where
  serial : b'.serial = b.serial
  size   : b'.size = b.size + 1
  slots  : ∀ i, b'.arena.slots[i]? =
    if i = b.size then some { node := n }
    else (b.arena.slots[i]?).map fun s => if i ∈ n.children then { s with parent? := some b.size } else s

theorem appends_of_adds {b b' : Builder} {n : Node} {h : Handle} (ha : b.Adds n h b') : Appends b n b' where
  serial := ha.serial
  size   := ha.size
  slots  := by
    have ⟨hn, he⟩ := ha.arena
    rw [he]
    exact b.arena.getElem?_slotsWith n

-- What an order does after some calls, by its call and by what it reaches.
structure Atomic (calls : List Call) (c : Call) (o : Order) (b : Builder) (given : List Handed) : Prop where
  foreign : ((run calls).perform c).1 = .refused (.error .foreignNode) ↔
    ∃ n ∈ o.names, ¬ IssuedBy calls n o.builder
  arity : ∀ p, ((run calls).perform c).1 = .refused (.error (.arity p)) ↔
    (∀ n ∈ o.names, IssuedBy calls n o.builder) ∧
      ∃ v?, o.request = .comparison p v? ∧ ¬ (v? = none ↔ p = .present)
  nothing : (∃ k, ((run calls).perform c).1 = .made false k) ↔ o.request.Joins ∧ o.names = []
  frozen : (∀ n ∈ o.names, IssuedBy calls n o.builder) → o.request = .finish →
    ∃ f, ((run calls).perform c).1 = .filter (some f) ∧ (run (calls ++ [c])).filter? o.as = some f ∧
      f.arena = b.arena ∧ given.map (·.handle.node) = [f.root] ∧
      ∀ name ≠ o.builder, (run (calls ++ [c])).builders.find? name = (run calls).builders.find? name
  appended : (∀ n ∈ o.names, IssuedBy calls n o.builder) → o.request ≠ .finish → o.request.HasArity →
    ¬ (o.request.Joins ∧ o.names = []) →
    ∃ n b' made, ((run calls).perform c).1 = .made true b'.size ∧
      o.request.node? (given.map (·.handle.node)) = some n ∧ n.children = given.map (·.handle.node) ∧
      (run (calls ++ [c])).builders.find? o.builder = some b' ∧ Appends b n b' ∧
      (run (calls ++ [c])).handles.find? o.as = some made ∧ made.handle = ⟨b.serial, b.size⟩ ∧
      ∀ name ≠ o.builder, (run (calls ++ [c])).builders.find? name = (run calls).builders.find? name

variable {w : Workbench} {calls : List Call} {c : Call} {o : Order} {b : Builder} {given : List Handed}

-- A builder owns what it has issued.
theorem owns_iff_issuedBy (hi : (run calls).issued ≤ UInt64.size) {n : Text} {g : Handed}
    (hb : (run calls).builders.find? o.builder = some b) (hg : (run calls).handles.find? n = some g) :
    b.Owns g.handle ↔ IssuedBy calls n o.builder := by
  rw [issuedBy_iff_serial hi hg hb]
  constructor
  case mp  => exact And.left
  case mpr =>
    intro h
    have hs := run_sound calls hi
    exact ⟨h, (hs.free _ _ _ _ (Named.mem_of_find? hg) (Named.mem_of_find? hb) h).node_lt⟩

theorem forall_owns_iff (hi : (run calls).issued ≤ UInt64.size) (hr : (run calls).Reaches o b given) :
    (∀ g ∈ given, b.Owns g.handle) ↔ ∀ n ∈ o.names, IssuedBy calls n o.builder := by
  have hb := hr.builder
  have hall := (handed?_eq_some hr.given).right
  clear hr
  generalize o.names = names at hall ⊢
  induction hall
  case nil => simp
  case cons hg _ ih =>
    rw [List.forall_mem_cons, List.forall_mem_cons]
    exact and_congr (owns_iff_issuedBy hi hb hg) ih

namespace Ends

variable {r : Answer × Workbench}

theorem foreign_iff (h : Ends w o b given r) :
    r.1 = .refused (.error .foreignNode) ↔ ∃ g ∈ given, ¬ b.Owns g.handle := by
  cases h
  case foreign hn _ => exact iff_of_true rfl hn
  case nothing hg _ => subst hg; exact iff_of_false nofun nofun
  case arity ho _ _ _ | made ho _ _ _ _ _ | finished ho _ _ _ _ _ =>
    exact iff_of_false nofun fun ⟨g, hg, hn⟩ => hn (ho g hg)

theorem arity_iff (h : Ends w o b given r) {p : Operator} :
    r.1 = .refused (.error (.arity p)) ↔ (∀ g ∈ given, b.Owns g.handle) ∧
      ∃ v?, o.request = .comparison p v? ∧ ¬ (v? = none ↔ p = .present) := by
  cases h
  case foreign hn _ =>
    have ⟨g, hg, hn⟩ := hn
    exact iff_of_false nofun fun h => hn (h.left g hg)
  case arity ho hq ha _ =>
    constructor
    case mp =>
      intro he
      cases he
      exact ⟨ho, _, hq, fun h => ha (hq ▸ h)⟩
    case mpr =>
      rintro ⟨_, v?, he, _⟩
      cases hq.symm.trans he
      rfl
  case nothing hj _ _ =>
    refine iff_of_false nofun ?_
    rintro ⟨_, _, he, _⟩
    exact hj.ne_comparison he
  case made ha _ _ _ _ =>
    refine iff_of_false nofun ?_
    rintro ⟨_, _, he, hn⟩
    rw [he] at ha
    exact hn ha
  case finished hq _ _ _ _ =>
    refine iff_of_false nofun ?_
    rintro ⟨_, _, he, _⟩
    cases hq.symm.trans he

theorem nothing_iff (h : Ends w o b given r) :
    (∃ k, r.1 = .made false k) ↔ o.request.Joins ∧ given = [] := by
  cases h
  case nothing hj hg _ => exact iff_of_true ⟨_, rfl⟩ ⟨hj, hg⟩
  case foreign hn _ =>
    refine iff_of_false nofun ?_
    rintro ⟨_, rfl⟩
    exact nomatch hn
  case arity hq _ _ =>
    refine iff_of_false nofun ?_
    rintro ⟨hj, _⟩
    exact hj.ne_comparison hq
  case made hn _ _ _ =>
    refine iff_of_false nofun ?_
    rintro ⟨hj, rfl⟩
    rcases hj with hj | hj <;> simp [hj, Request.node?] at hn
  case finished hq _ _ _ _ =>
    refine iff_of_false nofun ?_
    rintro ⟨hj, _⟩
    exact hj.ne_finish hq

theorem frozen (h : Ends w o b given r) (ho : ∀ g ∈ given, b.Owns g.handle) (hq : o.request = .finish) :
    ∃ f, r.1 = .filter (some f) ∧ r.2.filter? o.as = some f ∧ f.arena = b.arena ∧
      given.map (·.handle.node) = [f.root] ∧
      ∀ name ≠ o.builder, r.2.builders.find? name = w.builders.find? name := by
  cases h
  case foreign hn _ =>
    have ⟨g, hg, hn⟩ := hn
    exact absurd (ho g hg) hn
  case arity he _ _   => cases hq.symm.trans he
  case nothing hj _ _ => exact absurd hq hj.ne_finish
  case made hn _ _ _  => simp [hq, Request.node?] at hn
  case finished hroot ha hs hf =>
    exact ⟨_, rfl, hf, ha, hroot, fun name hne => hs.kept name fun h => hne h.right⟩

theorem appended (h : Ends w o b given r) (ho : ∀ g ∈ given, b.Owns g.handle) (hq : o.request ≠ .finish)
    (ha : o.request.HasArity) (hg : ¬ (o.request.Joins ∧ given = [])) :
    ∃ n b' made, r.1 = .made true b'.size ∧
      o.request.node? (given.map (·.handle.node)) = some n ∧ n.children = given.map (·.handle.node) ∧
      r.2.builders.find? o.builder = some b' ∧ Appends b n b' ∧
      r.2.handles.find? o.as = some made ∧ made.handle = ⟨b.serial, b.size⟩ ∧
      ∀ name ≠ o.builder, r.2.builders.find? name = w.builders.find? name := by
  cases h
  case foreign hn _ =>
    have ⟨g, hg, hn⟩ := hn
    exact absurd (ho g hg) hn
  case arity hn _          => exact absurd ha hn
  case nothing hj hn _     => exact absurd ⟨hj, hn⟩ hg
  case finished he _ _ _ _ => exact absurd he hq
  case made hn hadds hb hh =>
    refine ⟨_, _, _, rfl, hn, Request.children_of_node? hn, ?_, appends_of_adds hadds, ?_, hadds.handle_eq, ?_⟩
    · rw [hb, Named.find?_insert, if_pos rfl]
    · rw [hh, Named.find?_insert, if_pos rfl]
    · intro name hne
      rw [hb, Named.find?_insert, if_neg hne]

end Ends

theorem atomic_perform (hi : (run calls).issued ≤ UInt64.size) (ho : (run calls).order? c = some o)
    (hr : (run calls).Reaches o b given) : Atomic calls c o b given := by
  have he := ends_perform (run_sound calls hi) ho hr
  have hown := forall_owns_iff hi hr
  have hnil : given = [] ↔ o.names = [] := by
    have hl := (handed?_eq_some hr.given).right.length_eq
    rw [← List.length_eq_zero_iff, ← List.length_eq_zero_iff, hl]
  constructor
  case foreign =>
    rw [he.foreign_iff]
    simpa using not_congr hown
  case arity    => intro p; rw [he.arity_iff, hown]
  case nothing  => rw [he.nothing_iff, hnil]
  case frozen   => rw [run_append]; exact fun ha hq => he.frozen (hown.mpr ha) hq
  case appended =>
    rw [run_append]
    exact fun ha hq hh hn => he.appended (hown.mpr ha) hq hh (by rwa [hnil])

-- What is answered when nothing has been done.
def Answer.IsIdle : Answer → Prop
  | .refused _    => True
  | .made false _ => True
  | _             => False

theorem Ends.spends {r : Answer × Workbench} (h : Ends w o b given r) (hr : r.1.IsIdle) :
    Spends o w r.2 := by
  cases h
  case foreign hs | arity hs | nothing hs => exact hs
  case made                               => cases hr
  case finished                           => cases hr

-- A call that does nothing leaves the builders as they were, but for one that was to be finished.
theorem builders_of_idle (hs : w.Sound) (ha : (w.perform c).1.IsIdle) {name : Text}
    (hn : ∀ root as, c ≠ .finish name root as) :
    (w.perform c).2.builders.find? name = w.builders.find? name := by
  rcases perform_cases hs c with ⟨o, _, _, ho, _, he⟩ | ⟨_, hu⟩
  · refine (he.spends ha).kept name fun ⟨hq, he⟩ => ?_
    have ⟨root, _, hc⟩ := eq_finish_of_order ho hq
    exact hn root o.as (he ▸ hc)
  · rw [hu]
    rintro m rfl
    exact ha

-- Whatever the calls before, a call that does nothing changes no builder, and an order is atomic.
theorem run_atomic (calls : List Call) (hi : (run calls).issued ≤ UInt64.size) (c : Call) :
    (((run calls).perform c).1.IsIdle → ∀ name, (∀ root as, c ≠ .finish name root as) →
      (run (calls ++ [c])).builders.find? name = (run calls).builders.find? name) ∧
    ∀ o b given, (run calls).order? c = some o → (run calls).Reaches o b given → Atomic calls c o b given := by
  refine ⟨fun ha name hn => ?_, fun o b given ho hr => atomic_perform hi ho hr⟩
  rw [run_append]
  exact builders_of_idle (run_sound calls hi) ha hn

-- Each of two builders has made a path.
def twoBuilderCalls : List Call :=
  [.builder "b".toList, .path "b".toList ["a".toList] none none none "p".toList, .builder "c".toList,
    .path "c".toList ["a".toList] none none none "q".toList]

def joinBoth : Call :=
  .conjunction "b".toList ["p".toList, "q".toList] "n".toList

theorem run_atomic_joinBoth :
    (run twoBuilderCalls).issued ≤ UInt64.size ∧
      ((run twoBuilderCalls).perform joinBoth).1 = .refused (.error .foreignNode) ∧
      (∃ n ∈ ["p".toList, "q".toList], ¬ IssuedBy twoBuilderCalls n "b".toList) ∧
      (run (twoBuilderCalls ++ [joinBoth])).builders.find? "b".toList =
        (run twoBuilderCalls).builders.find? "b".toList := by
  have hi : (run twoBuilderCalls).issued ≤ UInt64.size := by decide
  have h := run_atomic twoBuilderCalls hi joinBoth
  have ha : ((run twoBuilderCalls).perform joinBoth).1 = .refused (.error .foreignNode) := rfl
  have hat := h.right ⟨"b".toList, .conjunction, ["p".toList, "q".toList], "n".toList⟩ _ _ rfl ⟨rfl, rfl⟩
  exact ⟨hi, ha, hat.foreign.mp ha, h.left (ha ▸ trivial) "b".toList nofun⟩

end AttributeFilter.Workbench
