import AttributeFilter.Proofs.Filter.Forest
import AttributeFilter.Proofs.Filter.Layout
import AttributeFilter.Workbench

/-!
What a call of a workbench may do. Every property that calls keep up is proved from this.
-/

namespace AttributeFilter

namespace Named

variable {α : Type} {l : Named α} {name other : Text} {a b : α}

theorem mem_of_find? (h : l.find? name = some a) : (name, a) ∈ l := by
  have ⟨_, _, hl, _⟩ := List.lookup_eq_some_iff.mp h
  exact hl ▸ List.mem_append_right _ List.mem_cons_self

theorem mem_erase_iff : (other, b) ∈ l.erase name ↔ (other, b) ∈ l ∧ other ≠ name := by
  simp [erase]

theorem find?_cons (p : Text × α) (l : Named α) (name : Text) :
    find? (p :: l) name = if name = p.1 then some p.2 else l.find? name := by
  rw [find?, List.lookup_cons]
  split
  case h_1 h => rw [if_pos (beq_iff_eq.mp h)]
  case h_2 h => rw [if_neg (ne_of_beq_false h)]; rfl

theorem find?_erase (l : Named α) (name other : Text) :
    (l.erase name).find? other = if other = name then none else l.find? other := by
  induction l
  case nil => simp [erase, find?]
  case cons p l ih =>
    have he : erase (p :: l) name = if p.1 = name then erase l name else p :: erase l name := by
      simp [erase, List.filter_cons]
    rw [he, find?_cons]
    split
    case isTrue hp  => rw [ih]; split <;> simp_all
    case isFalse hp => rw [find?_cons, ih]; split <;> simp_all

theorem find?_insert (l : Named α) (name other : Text) (a : α) :
    (l.insert name a).find? other = if other = name then some a else l.find? other := by
  rw [insert, find?_cons, find?_erase]
  split <;> rfl

theorem mem_insert_iff :
    (other, b) ∈ l.insert name a ↔ (other = name ∧ b = a) ∨ ((other, b) ∈ l ∧ other ≠ name) := by
  simp [insert, mem_erase_iff]

theorem forall_insert {P : Text → α → Prop} (ha : P name a) (hl : ∀ n b, (n, b) ∈ l → P n b) :
    ∀ n b, (n, b) ∈ l.insert name a → P n b := by
  intro n b h
  cases mem_insert_iff.mp h
  case inl h => exact h.left ▸ h.right ▸ ha
  case inr h => exact hl n b h.left

theorem erase_sublist (l : Named α) (name : Text) : (l.erase name).Sublist l :=
  List.filter_sublist

theorem mem_foldl_erase_iff {names : List Text} :
    (other, b) ∈ names.foldl erase l ↔ (other, b) ∈ l ∧ other ∉ names := by
  induction names generalizing l
  case nil          => simp
  case cons n ns ih => simp [ih, mem_erase_iff, and_assoc]

theorem foldl_erase_sublist (names : List Text) (l : Named α) : (names.foldl erase l).Sublist l := by
  induction names generalizing l
  case nil          => exact List.Sublist.refl l
  case cons n ns ih => exact (ih _).trans (erase_sublist l n)

end Named

namespace Workbench

-- What a call of a builder does with what is given to it: the nodes given become the children of a new
-- node.
structure Makes (b : Builder) (given : List Handed) (made : Handed) (b' : Builder) (n : Node) :
    Prop where
  adds     : b.Adds n made.handle b'
  owns     : ∀ g ∈ given, b.Owns g.handle
  children : n.children = given.map (·.handle.node)
  arity    : n.HasArity
  path     : made.path?.isSome → n.path?.isSome

-- What a call does with a workbench.
inductive Does (w : Workbench) : Workbench → Prop
  | refuse : Does w w
  -- The handles are used up, and the builder refuses them or has nothing to join.
  | use (names : List Text) : Does w (w.consume names)
  | join (names : List Text) : w.builders.find? b = some builder →
    Does w { w.consume names with builders := w.builders.insert b builder }
  | make : w.builders.find? b = some builder → w.handed? names = some given →
    Makes builder given made builder' node → Does w { w.consume names with
      builders := w.builders.insert b builder'
      handles := (w.consume names).handles.insert as made }
  | start (b : Text) : Does w { w with
      issued := w.issued + 1
      builders := w.builders.insert b (.ofSerial (.ofNat w.issued)) }
  | discard (b root : Text) : Does w { w.consume [root] with builders := w.builders.erase b }
  | finish : w.builders.find? b = some builder → w.handles.find? root = some given →
    builder.finish given.handle = .ok f → Does w { w.consume [root] with
      builders := w.builders.erase b
      filters := w.filters.insert as (some f) }
  | read : w.issued ≤ serials → Does w { w with issued := serials }
  | parse : w.issued ≤ serials → AttributeFilter.parse limits input = .ok f? →
    Does w { w with issued := serials, filters := w.filters.insert as f? }
  | clone : w.filter? name = some f → Does w { w with filters := w.filters.insert as (some f) }

variable {w : Workbench} {b as : Text} {names : List Text}

-- What a call of a builder may do: nothing, or make a node of what is given to it.
def Proper (call : Builder → List Handed → Except Error (Option Handed × Builder))
    (given : List Handed) : Prop :=
  ∀ b made? b', call b given = .ok (made?, b') →
    (made? = none ∧ b' = b) ∨ ∃ made n, made? = some made ∧ Makes b given made b' n

-- Each name goes with the handle that is kept under it, and none is given twice.
theorem handed?_eq_some {given : List Handed} (hg : w.handed? names = some given) :
    names.Nodup ∧ List.Forall₂ (fun name g => w.handles.find? name = some g) names given := by
  unfold handed? at hg
  split at hg
  case isFalse => cases hg
  case isTrue hd =>
    refine ⟨hd, ?_⟩
    clear hd
    induction names generalizing given
    case nil => cases hg; exact .nil
    case cons name names ih =>
      simp only [List.mapM_cons, Option.bind_eq_bind, Option.bind_eq_some_iff, Option.pure_def,
        Option.some.injEq] at hg
      obtain ⟨g, hf, gs, hgs, rfl⟩ := hg
      exact .cons hf (ih hgs)

theorem handed?_singleton {name : Text} {given : List Handed} (hg : w.handed? [name] = some given) :
    ∃ g, w.handles.find? name = some g ∧ given = [g] := by
  have h := (handed?_eq_some hg).right
  cases h
  case cons hf hnil =>
    cases hnil
    exact ⟨_, hf, rfl⟩

theorem proper_path (a : Attribute) (given : List Handed) (hg : given.length ≤ 1) :
    Proper (fun b given => (b.path a (given.head?.map Handed.handle)).map
      fun (h, b) => (some (.path h), b)) given := by
  intro b made? b' hc
  cases hp : b.path a (given.head?.map Handed.handle)
  case error e => simp [hp, Except.map] at hc
  case ok r =>
    simp only [hp, Except.map, Except.ok.injEq, Prod.mk.injEq] at hc
    have ⟨ho, ha⟩ := Builder.path_eq_ok_iff.mp hp
    have hm := hc.right ▸ ha
    refine .inr ⟨.path r.1, _, hc.left.symm, hm, ?owns, ?children, ?arity, fun _ => rfl⟩
    case arity => trivial
    all_goals
      match given, hg with
      | [], _  => simp [Node.children]
      | [g], _ => simp_all [Node.children]

theorem proper_comparison (p : PathHandle) (o : Operator) (v? : Option Value) :
    Proper (fun b _ => Workbench.handOut (b.comparison p o v?)) [.path p] := by
  intro b made? b' hc
  cases hp : b.comparison p o v?
  case error e => simp [hp, Workbench.handOut, Except.map] at hc
  case ok r =>
    simp only [hp, Workbench.handOut, Except.map, Except.ok.injEq, Prod.mk.injEq] at hc
    have ⟨ho, hv, ha⟩ := Builder.comparison_eq_ok_iff.mp hp
    have har := Operator.takesValue_iff.mp hv
    have hm := hc.right ▸ ha
    exact .inr ⟨.node r.1, _, hc.left.symm, hm, List.forall_mem_singleton.mpr ho.left, rfl, har, nofun⟩

theorem proper_negation (g : Handed) :
    Proper (fun b given =>
      match given with
      | [c] => Workbench.handOut (b.negation c.handle)
      | _   => .error .foreignNode) [g] := by
  intro b made? b' hc
  cases hp : b.negation g.handle
  case error e => simp [hp, Workbench.handOut, Except.map] at hc
  case ok r =>
    simp only [hp, Workbench.handOut, Except.map, Except.ok.injEq, Prod.mk.injEq] at hc
    have ⟨ho, ha⟩ := Builder.negation_eq_ok_iff.mp hp
    have hm := hc.right ▸ ha
    exact .inr ⟨.node r.1, _, hc.left.symm, hm, List.forall_mem_singleton.mpr ho, rfl, trivial, nofun⟩

theorem proper_combination {join : Builder → List Handle → Except Error (Option Handle × Builder)}
    (node : List Nat → Node) (hn : ∀ cs, (node cs).children = cs ∧ (node cs).HasArity)
    (hj : ∀ b b' cs made?, join b cs = .ok (made?, b') →
      (cs = [] ∧ made? = none ∧ b = b') ∨
        cs ≠ [] ∧ (∀ c ∈ cs, b.Owns c) ∧
          ∃ made, made? = some made ∧ b.Adds (node (cs.map (·.node))) made b')
    (given : List Handed) :
    Proper (fun b given => (join b (given.map Handed.handle)).map
      fun (made?, b) => (made?.map .node, b)) given := by
  intro b made? b' hc
  cases hp : join b (given.map Handed.handle)
  case error e => simp [hp, Except.map] at hc
  case ok r =>
    simp only [hp, Except.map, Except.ok.injEq, Prod.mk.injEq] at hc
    rcases hj _ _ _ _ hp with ⟨_, hm, hb⟩ | ⟨_, ho, made, hm, ha⟩
    · exact .inl ⟨by simp [← hc.left, hm], hc.right ▸ hb.symm⟩
    · refine .inr ⟨.node made, _, by simp [← hc.left, hm], hc.right ▸ ha, ?_, ?_, (hn _).right, nofun⟩
      · exact fun g hg => ho _ (List.mem_map_of_mem hg)
      · rw [(hn _).left, List.map_map]
        rfl

theorem does_make {call : Builder → List Handed → Except Error (Option Handed × Builder)}
    (hcall : ∀ given, w.handed? names = some given → Proper call given) :
    w.Does (w.make b as names call).2 := by
  unfold Workbench.make
  split
  case h_1 => exact .refuse
  case h_2 builder hb =>
    split
    case h_1 => exact .refuse
    case h_2 given hg =>
      simp only
      split
      case h_1 => exact .use names
      case h_2 made? builder' hc =>
        cases hcall given hg builder made? builder' hc
        case inl h =>
          cases h.left
          cases h.right
          exact .join names hb
        case inr h =>
          have ⟨made, n, he, hm⟩ := h
          cases he
          exact .make hb hg hm

theorem does_makeAttribute (a : Attribute) (filter? : Option Text) :
    w.Does (w.makeAttribute b as a filter?).2 := by
  apply does_make
  intro given hg
  apply proper_path a given
  cases filter?
  case none   => cases hg; exact Nat.zero_le 1
  case some f =>
    have ⟨g, _, he⟩ := handed?_singleton hg
    exact he ▸ Nat.le_refl 1

theorem does_makeComparison {path operator : Text} {value? : Option Value} :
    w.Does (w.makeComparison b as path operator value?).2 := by
  unfold Workbench.makeComparison
  split
  case h_1 | h_2 | h_3 => exact .refuse
  case h_4 o given _ _ hf =>
    split
    case h_1 => exact .refuse
    case h_2 p hp =>
      apply does_make
      intro given' hg
      have ⟨g, hf', he⟩ := handed?_singleton hg
      cases hf.symm.trans hf'
      cases given
      case node => cases hp
      case path => cases hp; exact he ▸ proper_comparison p o value?

theorem does_finish {root : Text} : w.Does (w.finish b as root).2 := by
  unfold Workbench.finish
  split
  case h_1 | h_2 => exact .refuse
  case h_3 builder given hb hg =>
    simp only
    split
    case h_1      => exact .discard b root
    case h_2 f hf => exact .finish hb hg hf

theorem does_parse {limits : Limits} {input : Text} : w.Does (w.parse limits input as).2 := by
  have hi : w.issued ≤ if Text.byteLength input ≤ limits.maxLength ∧ (tokenize input).isOk then
      w.issued + 1 else w.issued := by
    split <;> omega
  unfold Workbench.parse
  simp only
  split
  case h_1       => exact .read hi
  case h_2 f? hf => exact .parse hi hf

theorem does_perform (w : Workbench) (c : Call) : w.Does (w.perform c).2 := by
  cases c
  case builder b => exact .start b
  case path =>
    simp only [perform, makePath]
    split
    case h_1 | h_2 => exact .refuse
    case h_3       => exact does_makeAttribute _ _
  case copiedPath =>
    simp only [perform, copyPath]
    split
    case h_1 => exact .refuse
    case h_2 =>
      split
      case h_1 => exact .refuse
      case h_2 => exact does_makeAttribute _ _
  case comparison => exact does_makeComparison
  case negation =>
    apply does_make
    intro given hg
    have ⟨g, _, he⟩ := handed?_singleton hg
    exact he ▸ proper_negation g
  case conjunction =>
    exact does_make fun given _ => proper_combination .conjunction (fun _ => ⟨rfl, trivial⟩)
      (fun _ _ _ _ => Builder.conjunction_eq_ok_iff.mp) given
  case disjunction =>
    exact does_make fun given _ => proper_combination .disjunction (fun _ => ⟨rfl, trivial⟩)
      (fun _ _ _ _ => Builder.disjunction_eq_ok_iff.mp) given
  case finish => exact does_finish
  case parse  => exact does_parse
  case clone =>
    simp only [perform]
    split
    case h_1      => exact .refuse
    case h_2 g hg => exact .clone hg

-- A call leaves a builder as it is, replaces it by a new one, or makes one node with it.
theorem Does.adds {w' : Workbench} {name : Text} {builder builder' : Builder} (h : w.Does w')
    (hb : w.builders.find? name = some builder) (hb' : w'.builders.find? name = some builder') :
    builder' = builder ∨ builder'.arena = .empty ∨ ∃ n made, builder.Adds n made builder' := by
  cases h
  case refuse | use | read | parse | clone =>
    exact .inl (Option.some.inj (hb'.symm.trans hb))
  case join hj =>
    rw [Named.find?_insert] at hb'
    split at hb'
    case isTrue he  => exact .inl (Option.some.inj (hb'.symm.trans (hj.symm.trans (he ▸ hb))))
    case isFalse he => exact .inl (Option.some.inj (hb'.symm.trans hb))
  case make hj _ hm =>
    rw [Named.find?_insert] at hb'
    split at hb'
    case isTrue he  =>
      cases hb'
      cases hj.symm.trans (he ▸ hb)
      exact .inr (.inr ⟨_, _, hm.adds⟩)
    case isFalse he => exact .inl (Option.some.inj (hb'.symm.trans hb))
  case start =>
    rw [Named.find?_insert] at hb'
    split at hb'
    case isTrue he  => cases hb'; exact .inr (.inl rfl)
    case isFalse he => exact .inl (Option.some.inj (hb'.symm.trans hb))
  case discard | finish =>
    rw [Named.find?_erase] at hb'
    split at hb'
    case isTrue he  => cases hb'
    case isFalse he => exact .inl (Option.some.inj (hb'.symm.trans hb))

-- Serial numbers are only counted up.
theorem Does.issued_le {w' : Workbench} (h : w.Does w') : w.issued ≤ w'.issued := by
  cases h
  case start         => exact Nat.le_succ _
  case read hi       => exact hi
  case parse hi _    => exact hi
  all_goals exact Nat.le_refl _

end Workbench
end AttributeFilter
