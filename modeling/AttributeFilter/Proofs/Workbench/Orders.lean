import AttributeFilter.Proofs.Workbench.Sound

/-!
Orders: the calls of a workbench that reach a builder, with what the builder is asked to do and the nodes
that are given to it. There are five ways in which an order ends, and only one of them adds anything to a
builder.
-/

namespace AttributeFilter.Workbench

-- What a builder is asked to do with the nodes that are given to it.
inductive Request where
  | path (a : Attribute)
  | comparison (o : Operator) (v? : Option Value)
  | negation
  | conjunction
  | disjunction
  | finish

namespace Request

-- The node that is asked for, with the given nodes as its children.
def node? : Request → List Nat → Option Node
  | path a, []            => some (.path a.path none)
  | path a, [c]           => some (.path a.path (some c))
  | comparison o v?, [c]  => some (.comparison c o v?)
  | negation, [c]         => some (.negation c)
  | conjunction, c :: cs  => some (.conjunction (c :: cs))
  | disjunction, c :: cs  => some (.disjunction (c :: cs))
  | _, _                  => none

theorem children_of_node? {r : Request} {cs : List Nat} {n : Node} (h : r.node? cs = some n) :
    n.children = cs := by
  unfold node? at h
  split at h <;> cases h <;> rfl

-- A comparison is asked for with a value if and only if its operator takes one.
def HasArity : Request → Prop
  | comparison o v? => v? = none ↔ o = .present
  | _               => True

-- Whether any number of nodes may be given.
def Joins (r : Request) : Prop :=
  r = conjunction ∨ r = disjunction

theorem Joins.ne_finish {r : Request} (h : r.Joins) : r ≠ finish := by
  intro he
  rcases h with h | h <;> cases h.symm.trans he

theorem Joins.ne_comparison {r : Request} {o : Operator} {v? : Option Value} (h : r.Joins) :
    r ≠ comparison o v? := by
  intro he
  rcases h with h | h <;> cases h.symm.trans he

end Request

-- A request to the builder of a name, with the names of the handles that are given and the name for what
-- comes of it.
structure Order where
  builder : Text
  request : Request
  names : List Text
  as : Text

-- The order that a call gives, once its paths and words have been understood. A comparison is not ordered
-- with the handle of a node that is no path.
def order? (w : Workbench) : Call → Option Order
  | .path b segments schema? sub? filter? as =>
    (Path.ofSegments segments).toOption.map fun p =>
      ⟨b, .path { path := (p.withSchema schema?).withSub sub? }, filter?.toList, as⟩
  | .copiedPath b f id schema? sub? filter? as =>
    ((w.filter? f).bind fun g => (g.arena.node? id).bind Node.attribute?).map fun a =>
      ⟨b, .path ((a.qualified schema?).narrowed sub?), filter?.toList, as⟩
  | .comparison b path operator value? as =>
    match Operator.ofWord? operator, (w.handles.find? path).bind Handed.path? with
    | some o, some _ => some ⟨b, .comparison o value?, [path], as⟩
    | _, _           => none
  | .negation b child as       => some ⟨b, .negation, [child], as⟩
  | .conjunction b children as => some ⟨b, .conjunction, children, as⟩
  | .disjunction b children as => some ⟨b, .disjunction, children, as⟩
  | .finish b root as          => some ⟨b, .finish, [root], as⟩
  | .builder _ | .parse .. | .clone .. => none

-- An order reaches a builder with the handles that are kept under its names.
structure Reaches (w : Workbench) (o : Order) (builder : Builder) (given : List Handed) : Prop where
  builder : w.builders.find? o.builder = some builder
  given   : w.handed? o.names = some given

-- How a builder answers a request.
inductive Fulfils (r : Request) (b : Builder) (given : List Handed) :
    Except Error (Option Handed × Builder) → Prop
  | foreign : (∃ g ∈ given, ¬ b.Owns g.handle) → Fulfils r b given (.error .foreignNode)
  | arity : (∀ g ∈ given, b.Owns g.handle) → r = .comparison o v? → ¬ r.HasArity →
    Fulfils r b given (.error (.arity o))
  | nothing : r.Joins → given = [] → Fulfils r b given (.ok (none, b))
  | made : (∀ g ∈ given, b.Owns g.handle) → r.HasArity →
    r.node? (given.map (·.handle.node)) = some n → b.Adds n made.handle b' →
    Fulfils r b given (.ok (some made, b'))

section

variable {b : Builder} {given : List Handed}

theorem not_forall_owns (h : ¬ ∀ g ∈ given, b.Owns g.handle) : ∃ g ∈ given, ¬ b.Owns g.handle := by
  simpa using h

theorem fulfils_path (a : Attribute) (hg : given.length ≤ 1) :
    Fulfils (.path a) b given
      ((b.path a (given.head?.map Handed.handle)).map fun (h, b) => (some (.path h), b)) := by
  have hall : (∀ f ∈ given.head?.map Handed.handle, b.Owns f) ↔ ∀ g ∈ given, b.Owns g.handle := by
    match given, hg with
    | [], _  => simp
    | [g], _ => simp
  have hn : Request.node? (.path a) (given.map (·.handle.node)) =
      some (.path a.path ((given.head?.map Handed.handle).map (·.node))) := by
    match given, hg with
    | [], _  => rfl
    | [g], _ => rfl
  cases hp : b.path a (given.head?.map Handed.handle)
  case error e =>
    rw [Builder.path] at hp
    split at hp
    case isTrue     => cases hp
    case isFalse ho => cases hp; exact .foreign (not_forall_owns (mt hall.mpr ho))
  case ok r =>
    obtain ⟨ho, ha⟩ := Builder.path_eq_ok_iff.mp hp
    exact .made (hall.mp ho) trivial hn ha

theorem fulfils_comparison {p : PathHandle} {o : Operator} {v? : Option Value}
    (hp : b.Owns p.handle → ((b.arena.node? p.handle.node).bind Node.path?).isSome) :
    Fulfils (.comparison o v?) b [.path p] (handOut (b.comparison p o v?)) := by
  cases hc : b.comparison p o v?
  case error e =>
    rw [Builder.comparison] at hc
    split at hc
    case isTrue ho =>
      split at hc
      case isTrue     => cases hc
      case isFalse hv =>
        cases hc
        exact .arity (List.forall_mem_singleton.mpr ho.left) rfl (mt Operator.takesValue_iff.mpr hv)
    case isFalse ho =>
      cases hc
      exact .foreign ⟨_, List.mem_singleton_self _, fun h => ho ⟨h, hp h⟩⟩
  case ok r =>
    obtain ⟨ho, hv, ha⟩ := Builder.comparison_eq_ok_iff.mp hc
    exact .made (List.forall_mem_singleton.mpr ho.left) (Operator.takesValue_iff.mp hv) rfl ha

theorem fulfils_negation {g : Handed} : Fulfils .negation b [g] (handOut (b.negation g.handle)) := by
  cases hc : b.negation g.handle
  case error e =>
    rw [Builder.negation] at hc
    split at hc
    case isTrue     => cases hc
    case isFalse ho => cases hc; exact .foreign ⟨g, List.mem_singleton_self g, ho⟩
  case ok r =>
    obtain ⟨ho, ha⟩ := Builder.negation_eq_ok_iff.mp hc
    exact .made (List.forall_mem_singleton.mpr ho) trivial rfl ha

theorem fulfils_combination {r : Request} {make : List Nat → Node} {hm : ∀ cs, (make cs).children = cs}
    {ho : ∀ cs, (make cs).operand? = none} (hr : r.Joins) (hn : ∀ cs, cs ≠ [] → r.node? cs = some (make cs)) :
    Fulfils r b given
      ((b.combination make hm ho (given.map Handed.handle)).map fun (made?, b) => (made?.map .node, b)) := by
  have har : r.HasArity := by rcases hr with rfl | rfl <;> trivial
  have hall : (∀ c ∈ given.map Handed.handle, b.Owns c) ↔ ∀ g ∈ given, b.Owns g.handle :=
    List.forall_mem_map
  cases hc : b.combination make hm ho (given.map Handed.handle)
  case error e =>
    rw [Builder.combination] at hc
    split at hc
    case isTrue => cases hc
    case isFalse =>
      split at hc
      case isTrue      => cases hc
      case isFalse hno => cases hc; exact .foreign (not_forall_owns (mt hall.mpr hno))
  case ok result =>
    rcases Builder.combination_eq_ok_iff.mp hc with ⟨hg, hm, hb⟩ | ⟨hg, ho, made, hm, ha⟩
    · cases result
      cases hm
      cases hb
      exact .nothing hr (List.map_eq_nil_iff.mp hg)
    · cases result
      cases hm
      rw [List.map_map] at ha
      exact .made (hall.mp ho) har (hn _ (by simpa using hg)) ha

end

-- An order uses the handles up that are given. The builders are as before, but finishing takes its builder
-- away.
structure Spends (o : Order) (w w' : Workbench) : Prop where
  handles : w'.handles = (w.consume o.names).handles
  kept    : ∀ name, ¬ (o.request = .finish ∧ name = o.builder) →
    w'.builders.find? name = w.builders.find? name
  gone    : o.request = .finish → w'.builders.find? o.builder = none

-- How an order ends that reaches a builder.
inductive Ends (w : Workbench) (o : Order) (b : Builder) (given : List Handed) :
    Answer × Workbench → Prop
  | foreign : (∃ g ∈ given, ¬ b.Owns g.handle) → Spends o w w' →
    Ends w o b given (.refused (.error .foreignNode), w')
  | arity : (∀ g ∈ given, b.Owns g.handle) → o.request = .comparison p v? → ¬ o.request.HasArity →
    Spends o w w' → Ends w o b given (.refused (.error (.arity p)), w')
  | nothing : o.request.Joins → given = [] → Spends o w w' →
    Ends w o b given (.made false b.size, w')
  | made : (∀ g ∈ given, b.Owns g.handle) → o.request.HasArity →
    o.request.node? (given.map (·.handle.node)) = some n → b.Adds n made.handle b' →
    w'.builders = w.builders.insert o.builder b' →
    w'.handles = (w.consume o.names).handles.insert o.as made →
    Ends w o b given (.made true b'.size, w')
  | finished : (∀ g ∈ given, b.Owns g.handle) → o.request = .finish →
    given.map (·.handle.node) = [f.root] → f.arena = b.arena → Spends o w w' →
    w'.filter? o.as = some f → Ends w o b given (.filter (some f), w')

variable {w : Workbench} {o : Order} {b : Builder} {given : List Handed} {c : Call}
  {call : Builder → List Handed → Except Error (Option Handed × Builder)}

/-! ### What calls order -/

-- A result is that of giving handles to a builder, which answers as an order requests.
def Serves (w : Workbench) (o : Order) (result : Answer × Workbench) : Prop :=
  ∃ call, result = w.make o.builder o.as o.names call ∧
    ∀ b given, w.Reaches o b given → Fulfils o.request b given (call b given)

theorem serves_makeAttribute (b as : Text) (a : Attribute) (filter? : Option Text) :
    w.Serves ⟨b, .path a, filter?.toList, as⟩ (w.makeAttribute b as a filter?) := by
  refine ⟨_, rfl, fun b given hr => fulfils_path a ?_⟩
  rw [← (handed?_eq_some hr.given).right.length_eq]
  cases filter? <;> simp

theorem serves_makePath {b as : Text} {segments : List Text} {schema? sub? filter? : Option Text}
    (ho : w.order? (.path b segments schema? sub? filter? as) = some o) :
    w.Serves o (w.makePath b as segments schema? sub? filter?) := by
  have ⟨p, hp, he⟩ := Option.map_eq_some_iff.mp ho
  subst he
  cases hs : Path.ofSegments segments
  case error e => rw [hs] at hp; cases hp
  case ok p' =>
    rw [hs] at hp
    cases hp
    cases hb : w.builders.find? b
    case none =>
      -- Nothing is made in either way.
      have hm := serves_makeAttribute (w := w) b as { path := (p.withSchema schema?).withSub sub? } filter?
      simpa only [makePath, makeAttribute, make, hb] using hm
    case some =>
      simp only [makePath, hb, hs]
      exact serves_makeAttribute ..

theorem serves_copyPath {b f as : Text} {id : Nat} {schema? sub? filter? : Option Text}
    (ho : w.order? (.copiedPath b f id schema? sub? filter? as) = some o) :
    w.Serves o (w.copyPath b as f id schema? sub? filter?) := by
  have ⟨a, ha, he⟩ := Option.map_eq_some_iff.mp ho
  have ⟨g, hf, hn⟩ := Option.bind_eq_some_iff.mp ha
  subst he
  simp only [copyPath, hf, hn]
  exact serves_makeAttribute ..

theorem serves_makeComparison (hs : w.Sound) {b path operator as : Text} {v? : Option Value}
    (ho : w.order? (.comparison b path operator v? as) = some o) :
    w.Serves o (w.makeComparison b as path operator v?) := by
  simp only [order?] at ho
  split at ho
  case h_2 => cases ho
  case h_1 op p hop hp =>
    obtain ⟨g, hg, hgp⟩ := Option.bind_eq_some_iff.mp hp
    cases ho
    refine ⟨fun builder _ => handOut (builder.comparison p op v?), ?_, fun builder given hr => ?_⟩
    · cases hb : w.builders.find? b
      case none   => simp only [makeComparison, make, hb]
      case some b => simp only [makeComparison, hb, hop, hg, hgp]
    · obtain ⟨g', hg', rfl⟩ := handed?_singleton hr.given
      cases hg.symm.trans hg'
      cases g
      case node => cases hgp
      case path =>
        cases hgp
        refine fulfils_comparison fun ho => ?_
        exact (hs.free _ _ _ _ (Named.mem_of_find? hg) (Named.mem_of_find? hr.builder) ho.left).path rfl

-- All orders but those to finish have their nodes made in one way.
theorem serves_perform (hs : w.Sound) (ho : w.order? c = some o) (hq : o.request ≠ .finish) :
    w.Serves o (w.perform c) := by
  cases c
  case builder | parse | clone => cases ho
  case path       => exact serves_makePath ho
  case copiedPath => exact serves_copyPath ho
  case comparison => exact serves_makeComparison hs ho
  case negation =>
    cases ho
    refine ⟨_, rfl, fun b given hr => ?_⟩
    obtain ⟨g, _, rfl⟩ := handed?_singleton hr.given
    exact fulfils_negation
  case conjunction =>
    cases ho
    exact ⟨_, rfl, fun _ _ _ => fulfils_combination (.inl rfl) fun cs hcs => by cases cs <;> trivial⟩
  case disjunction =>
    cases ho
    exact ⟨_, rfl, fun _ _ _ => fulfils_combination (.inr rfl) fun cs hcs => by cases cs <;> trivial⟩
  case finish     => cases ho; exact absurd rfl hq

theorem eq_finish_of_order (ho : w.order? c = some o) (hq : o.request = .finish) :
    ∃ root, o.names = [root] ∧ c = .finish o.builder root o.as := by
  cases c
  case finish => cases ho; exact ⟨_, rfl, rfl⟩
  case path =>
    obtain ⟨_, _, rfl⟩ := Option.map_eq_some_iff.mp ho
    cases hq
  case copiedPath =>
    obtain ⟨_, _, rfl⟩ := Option.map_eq_some_iff.mp ho
    cases hq
  case comparison =>
    simp only [order?] at ho
    split at ho <;> cases ho
    cases hq
  all_goals cases ho <;> cases hq

/-! ### How orders end -/

theorem ends_make (hq : o.request ≠ .finish) (hr : w.Reaches o b given)
    (hf : Fulfils o.request b given (call b given)) :
    Ends w o b given (w.make o.builder o.as o.names call) := by
  have hb := hr.builder
  have hsame : Spends o w (w.consume o.names) := ⟨rfl, fun _ _ => rfl, fun h => absurd h hq⟩
  rw [make, hb, hr.given]
  simp only
  generalize call b given = result at hf
  cases hf <;> simp only
  case foreign h      => exact .foreign h hsame
  case arity h he ha  => exact .arity h he ha hsame
  case nothing hj hg  =>
    refine .nothing hj hg ⟨rfl, fun name _ => ?_, fun h => absurd h hq⟩
    rw [Named.find?_insert]
    split
    case isTrue he => rw [he, hb]
    case isFalse   => rfl
  case made h ha hn hadds => exact .made h ha hn hadds rfl rfl

theorem ends_finish {root : Text} (hq : o.request = .finish) (hn : o.names = [root])
    (hr : w.Reaches o b given) : Ends w o b given (w.finish o.builder o.as root) := by
  have ⟨g, hg, he⟩ := handed?_singleton (hn ▸ hr.given)
  have hkept : ∀ name, ¬ (o.request = .finish ∧ name = o.builder) →
      (w.builders.erase o.builder).find? name = w.builders.find? name :=
    fun name hne => by rw [Named.find?_erase, if_neg fun he => hne ⟨hq, he⟩]
  have hgone : (w.builders.erase o.builder).find? o.builder = none := by
    rw [Named.find?_erase, if_pos rfl]
  rw [finish, hr.builder, hg]
  simp only
  cases hb : b.finish g.handle
  case error e =>
    rw [Builder.finish] at hb
    split at hb
    case isTrue => cases hb
    case isFalse ho =>
      cases hb
      exact .foreign ⟨g, he ▸ List.mem_singleton_self g, ho⟩ ⟨hn ▸ rfl, hkept, fun _ => hgone⟩
  case ok f =>
    obtain ⟨ho, ha, hroot⟩ := Builder.finish_eq_ok_iff.mp hb
    have hfind : (w.filters.insert o.as (some f)).find? o.as = some (some f) := by
      rw [Named.find?_insert, if_pos rfl]
    refine .finished ?_ hq ?_ ha ⟨hn ▸ rfl, hkept, fun _ => hgone⟩ (congrArg (·.bind id) hfind)
    · exact he ▸ List.forall_mem_singleton.mpr ho
    · rw [he, hroot]; rfl

-- An order that reaches its builder ends in one of the five ways.
theorem ends_perform (hs : w.Sound) (ho : w.order? c = some o) (hr : w.Reaches o b given) :
    Ends w o b given (w.perform c) := by
  by_cases hq : o.request = .finish
  case pos =>
    have ⟨root, hn, he⟩ := eq_finish_of_order ho hq
    exact he ▸ ends_finish hq hn hr
  case neg =>
    have ⟨call, he, hf⟩ := serves_perform hs ho hq
    exact he ▸ ends_make hq hr (hf b given hr)

/-! ### Calls that reach no builder -/

theorem make_of_unreached (hu : ∀ b given, ¬ w.Reaches o b given) :
    (w.make o.builder o.as o.names call).2 = w := by
  unfold make
  split
  case h_1 => rfl
  case h_2 b hb =>
    split
    case h_1       => rfl
    case h_2 g hg  => exact absurd ⟨hb, hg⟩ (hu b g)

theorem finish_of_unreached {root : Text} (hn : o.names = [root]) (hu : ∀ b given, ¬ w.Reaches o b given) :
    (w.finish o.builder o.as root).2 = w := by
  unfold finish
  split
  case h_1 | h_2 => rfl
  case h_3 b g hb hg =>
    refine absurd ⟨hb, ?_⟩ (hu b [g])
    simp [hn, handed?, hg]

-- A call that gives no order leaves handles alone, and builders too if it does not start one.
theorem perform_of_no_order (ho : w.order? c = none) :
    (w.perform c).2.handles = w.handles ∧
      ((∀ b, c ≠ .builder b) → (w.perform c).2.builders = w.builders) := by
  cases c
  case builder b => exact ⟨rfl, fun hc => absurd rfl (hc b)⟩
  case path =>
    simp only [perform, makePath]
    split
    case h_1 | h_2  => exact ⟨rfl, fun _ => rfl⟩
    case h_3 p _ hp => rw [order?, hp] at ho; cases ho
  case copiedPath =>
    simp only [perform, copyPath]
    split
    case h_1      => exact ⟨rfl, fun _ => rfl⟩
    case h_2 g hg =>
      split
      case h_1      => exact ⟨rfl, fun _ => rfl⟩
      case h_2 a ha => rw [order?, hg, Option.bind_some, ha] at ho; cases ho
  case comparison =>
    simp only [perform, makeComparison]
    split
    case h_1 | h_2 | h_3 => exact ⟨rfl, fun _ => rfl⟩
    case h_4 op g _ hop hg =>
      split
      case h_1      => exact ⟨rfl, fun _ => rfl⟩
      case h_2 p hp => simp only [order?, hop, hg, Option.bind_some, hp] at ho; cases ho
  case parse =>
    simp only [perform, parse]
    split <;> exact ⟨rfl, fun _ => rfl⟩
  case clone =>
    simp only [perform]
    split <;> exact ⟨rfl, fun _ => rfl⟩
  all_goals cases ho

-- So does an order that reaches no builder.
theorem perform_of_unreached (hs : w.Sound)
    (hu : ∀ o b given, w.order? c = some o → ¬ w.Reaches o b given) :
    (w.perform c).2.handles = w.handles ∧
      ((∀ b, c ≠ .builder b) → (w.perform c).2.builders = w.builders) := by
  cases ho : w.order? c
  case none => exact perform_of_no_order ho
  case some o =>
    have hu := fun b given => hu o b given ho
    by_cases hq : o.request = .finish
    case pos =>
      obtain ⟨root, hn, he⟩ := eq_finish_of_order ho hq
      rw [he, perform, finish_of_unreached hn hu]
      exact ⟨rfl, fun _ => rfl⟩
    case neg =>
      obtain ⟨call, he, _⟩ := serves_perform hs ho hq
      rw [he, make_of_unreached hu]
      exact ⟨rfl, fun _ => rfl⟩

-- What a call does with handles and builders.
theorem perform_cases (hs : w.Sound) (c : Call) :
    (∃ o b given, w.order? c = some o ∧ w.Reaches o b given ∧ Ends w o b given (w.perform c)) ∨
    ((w.perform c).2.handles = w.handles ∧
      ((∀ b, c ≠ .builder b) → (w.perform c).2.builders = w.builders)) := by
  by_cases hr : ∃ o b given, w.order? c = some o ∧ w.Reaches o b given
  case pos =>
    obtain ⟨o, b, given, ho, hr⟩ := hr
    exact .inl ⟨o, b, given, ho, hr, ends_perform hs ho hr⟩
  case neg => exact .inr (perform_of_unreached hs fun o b given ho hr' => hr ⟨o, b, given, ho, hr'⟩)

end AttributeFilter.Workbench
