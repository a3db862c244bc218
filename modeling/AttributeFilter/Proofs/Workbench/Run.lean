import AttributeFilter.Proofs.Workbench.Sound
import Mathlib.Data.List.Induction

/-!
Runs of a workbench, and what is true after every one of them.
-/

namespace AttributeFilter.Workbench

variable {w : Workbench} {b as : Text} {c : Call}

-- The workbench after some calls.
def run (calls : List Call) : Workbench :=
  calls.foldl (fun w c => (w.perform c).2) {}

theorem run_append (calls : List Call) (c : Call) :
    run (calls ++ [c]) = ((run calls).perform c).2 := by
  simp [run]

-- The handles of the nodes that a builder has made and that were not given away.
def outstanding (w : Workbench) (b : Builder) : List Handle :=
  (w.handles.map fun (_, h) => h.handle).filter fun h => h.builder = b.serial

theorem run_sound (calls : List Call) (hi : (run calls).issued ≤ UInt64.size) : (run calls).Sound := by
  induction calls using List.reverseRecOn
  case nil => exact .empty
  case append_singleton calls c ih =>
    rw [run_append] at hi ⊢
    have hd := does_perform (run calls) c
    exact (ih (Nat.le_trans hd.issued_le hi)).does hd hi

namespace Sound

theorem outstanding_nodup (hs : w.Sound) (b : Builder) :
    ((w.outstanding b).map (·.node)).Nodup := by
  have hd : (w.outstanding b).Nodup := hs.different.filter _
  apply hd.map_on
  intro g hg h hh he
  have hg := (List.mem_filter.mp hg).right
  have hh := (List.mem_filter.mp hh).right
  cases g
  cases h
  simp_all

theorem of_outstanding (hs : w.Sound) {name : Text} {b : Builder}
    (hb : w.builders.find? name = some b) :
    ∀ h ∈ w.outstanding b, h.node < b.size ∧ b.arena.parent? h.node = none := by
  intro h hh
  have ⟨hm, hb'⟩ := List.mem_filter.mp hh
  have ⟨⟨n, g⟩, hg, he⟩ := List.mem_map.mp hm
  subst he
  have ho := hs.free n g name b hg (Named.mem_of_find? hb) (by simpa using hb')
  exact ⟨ho.node_lt, ho.parent⟩

end Sound

-- The nodes that are reached from the root of a filter form a tree.
structure Rooted (f : Filter) : Prop where
  forest : f.arena.Forest
  root   : f.arena.parent? f.root = none
  once   : f.descendants.Nodup
  linked : ∀ d ∈ f.descendants, d ≠ f.root → ∃ p ∈ f.descendants, f.arena.parent? d = some p

theorem rooted_of_forest {f : Filter} (hf : f.arena.Forest) (hr : f.arena.parent? f.root = none) :
    Rooted f where
  forest := hf
  root   := hr
  once   := by
    rw [f.descendants_eq]
    exact Arena.preorder_nodup hf _
  linked := by
    rw [f.descendants_eq]
    intro d hd hne
    have hu := (Arena.mem_preorder_iff hf).mp hd
    cases hu
    case refl => exact absurd rfl hne
    case step p hu hp => exact ⟨p, (Arena.mem_preorder_iff hf).mpr hu, hp⟩

-- Between two forests, no node that is adopted has a parent already.
theorem isSome_adoptAsserting {b b' : Builder} {n : Node} {h : Handle} (hf : b.arena.Forest)
    (hf' : b'.arena.Forest) (ha : b.Adds n h b') :
    (Arena.adoptAsserting b.size b.arena.slots n.children).isSome := by
  have ⟨hn, he⟩ := ha.arena
  rw [he] at hf'
  have hd : n.children.Nodup := by
    have := hf'.once b.arena.size
    rwa [Arena.children_add, if_pos rfl] at this
  rw [Arena.adoptAsserting_eq_adopt hd (hf.parent?_of_add hn hf')]
  rfl

theorem run_forest (calls : List Call) (hi : (run calls).issued ≤ UInt64.size) :
    (∀ name b, (run calls).builders.find? name = some b →
      b.arena.Forest ∧
      ((run calls).outstanding b |>.map (·.node)).Nodup ∧
      ∀ h ∈ (run calls).outstanding b, h.node < b.size ∧ b.arena.parent? h.node = none) ∧
    (∀ name f, (run calls).filter? name = some f → Rooted f) ∧
    ∀ call name b b', (run (calls ++ [call])).issued ≤ UInt64.size →
      (run calls).builders.find? name = some b →
      (run (calls ++ [call])).builders.find? name = some b' →
      b' = b ∨ b'.arena = .empty ∨
        ∃ n h, b.Adds n h b' ∧
          (Arena.adoptAsserting b.size b.arena.slots n.children).isSome := by
  have hs := run_sound calls hi
  refine ⟨fun name b hb => ?_, fun name f hf => ?_, fun call name b b' hi' hb hb' => ?_⟩
  · exact ⟨hs.forest _ _ (Named.mem_of_find? hb), hs.outstanding_nodup b, hs.of_outstanding hb⟩
  · have ⟨f?, hf, he⟩ := Option.bind_eq_some_iff.mp hf
    cases he
    have ⟨hf, hr⟩ := hs.filters _ _ (Named.mem_of_find? hf)
    exact rooted_of_forest hf hr
  · have hd : (run calls).Does (run (calls ++ [call])) := run_append .. ▸ does_perform _ call
    have hf := hs.forest _ _ (Named.mem_of_find? hb)
    have hf' := (run_sound _ hi').forest _ _ (Named.mem_of_find? hb')
    apply (hd.adds hb hb').imp_right
    apply Or.imp_right
    intro ⟨n, h, ha⟩
    exact ⟨n, h, ha, isSome_adoptAsserting hf hf' ha⟩

def pathCalls : List Call :=
  [.builder "b".toList, .path "b".toList ["a".toList] none none none "p".toList]

def negate : Call :=
  .negation "b".toList "p".toList "n".toList

def finishNegation : Call :=
  .finish "b".toList "n".toList "f".toList

theorem run_forest_of_negation :
    (∃ b b', (run pathCalls).builders.find? "b".toList = some b ∧ b.arena.Forest ∧
      (run (pathCalls ++ [negate])).builders.find? "b".toList = some b' ∧
      ∃ n h, b.Adds n h b' ∧ (Arena.adoptAsserting b.size b.arena.slots n.children).isSome) ∧
    ∃ f, (run (pathCalls ++ [negate, finishNegation])).filter? "f".toList = some f ∧ Rooted f := by
  have h := run_forest pathCalls (by decide)
  have hf := (run_forest (pathCalls ++ [negate, finishNegation]) (by decide)).2.1 "f".toList _ rfl
  refine ⟨⟨_, _, rfl, (h.1 "b".toList _ rfl).1, rfl, ?_⟩, _, rfl, hf⟩
  have ha := h.2.2 negate "b".toList _ _ (by decide) rfl rfl
  exact (ha.resolve_left fun he => nomatch congrArg Builder.size he).resolve_left
    fun he => nomatch congrArg Arena.size he

end AttributeFilter.Workbench
