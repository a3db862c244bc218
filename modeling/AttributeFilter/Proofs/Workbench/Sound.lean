import AttributeFilter.Proofs.Grammar.Arrangement
import AttributeFilter.Proofs.Workbench.Steps

/-!
The invariant of a workbench: every arena is a forest, no two builders have one serial number, and the
handles that are kept name different nodes, none of which has a parent. Every call keeps it up, as long as
there are serial numbers left.
-/

namespace AttributeFilter

namespace Workbench

variable {w : Workbench} {b as : Text} {names : List Text}

-- What is known of a handle that was handed out, in the builder that made it.
structure Outstanding (h : Handed) (b : Builder) : Prop where
  node_lt : h.handle.node < b.size
  parent  : b.arena.parent? h.handle.node = none
  path    : h.path?.isSome → ((b.arena.node? h.handle.node).bind Node.path?).isSome

structure Sound (w : Workbench) : Prop where
  forest    : ∀ n b, (n, b) ∈ w.builders → b.arena.Forest
  serial    : ∀ n b, (n, b) ∈ w.builders → ∃ k < w.issued, b.serial = .ofNat k
  distinct  : ∀ n b m c, (n, b) ∈ w.builders → (m, c) ∈ w.builders → b.serial = c.serial →
    n = m ∧ b = c
  origin    : ∀ n h, (n, h) ∈ w.handles → ∃ k < w.issued, h.handle.builder = .ofNat k
  different : (w.handles.map fun (_, h) => h.handle).Nodup
  free      : ∀ n h m b, (n, h) ∈ w.handles → (m, b) ∈ w.builders → h.handle.builder = b.serial →
    Outstanding h b
  filters   : ∀ n f, (n, some f) ∈ w.filters → f.arena.Forest ∧ f.arena.parent? f.root = none

namespace Sound

theorem empty : Sound {} where
  forest    := nofun
  serial    := nofun
  distinct  := nofun
  origin    := nofun
  different := List.nodup_nil
  free      := nofun
  filters   := nofun

-- Handles that are kept are kept under one name each.
theorem name_unique (hs : w.Sound) {n m : Text} {g h : Handed} (hn : (n, g) ∈ w.handles)
    (hm : (m, h) ∈ w.handles) (he : g.handle = h.handle) : n = m := by
  have := List.inj_on_of_nodup_map hs.different hn hm he
  exact congrArg Prod.fst this

theorem consume (hs : w.Sound) (names : List Text) : (w.consume names).Sound where
  forest    := hs.forest
  serial    := hs.serial
  distinct  := hs.distinct
  origin    := fun n h hm => hs.origin n h (Named.mem_foldl_erase_iff.mp hm).left
  different := hs.different.sublist ((Named.foldl_erase_sublist names w.handles).map _)
  free      := fun n h m b hm => hs.free n h m b (Named.mem_foldl_erase_iff.mp hm).left
  filters   := hs.filters

theorem keep (hs : w.Sound) {name : Text} {f? : Option Filter}
    (hf : ∀ f ∈ f?, f.arena.Forest ∧ f.arena.parent? f.root = none) :
    Sound { w with filters := w.filters.insert name f? } where
  forest    := hs.forest
  serial    := hs.serial
  distinct  := hs.distinct
  origin    := hs.origin
  different := hs.different
  free      := hs.free
  filters   := by
    intro n f hm
    rcases Named.mem_insert_iff.mp hm with ⟨_, he⟩ | ⟨hm, _⟩
    · exact hf f he.symm
    · exact hs.filters n f hm

section Make

variable {builder builder' : Builder} {given : List Handed} {made : Handed} {node : Node}

theorem children_nodup (hm : Makes builder given made builder' node)
    (hd : (given.map Handed.handle).Nodup) : node.children.Nodup := by
  have he : (given.map (·.handle.node)).map (Handle.mk builder.serial) = given.map Handed.handle := by
    rw [List.map_map]
    apply List.map_congr_left
    intro g hg
    exact congrArg (Handle.mk · g.handle.node) (hm.owns g hg).1.symm
  rw [hm.children]
  exact .of_map _ (he ▸ hd)

theorem forest_of_makes (hs : w.Sound) (hb : (b, builder) ∈ w.builders)
    (hg : ∀ g ∈ given, ∃ n, (n, g) ∈ w.handles) (hd : (given.map Handed.handle).Nodup)
    (hm : Makes builder given made builder' node) : builder'.arena.Forest := by
  have ⟨ha, he⟩ := hm.adds.arena
  rw [he]
  refine (hs.forest _ _ hb).add ha (children_nodup hm hd) (fun c hc => ?_) hm.arity
  have ⟨g, hgm, hgc⟩ := List.mem_map.mp (hm.children ▸ hc)
  have ⟨n, hn⟩ := hg g hgm
  exact hgc ▸ (hs.free n g b builder hn hb (hm.owns g hgm).1).parent

theorem parent?_of_makes (hm : Makes builder given made builder' node) (c : Nat) :
    builder'.arena.parent? c =
      if c ∈ given.map (·.handle.node) then some builder.size else builder.arena.parent? c := by
  have ⟨ha, he⟩ := hm.adds.arena
  rw [he, Arena.parent?_add, hm.children]
  rfl

theorem outstanding_made (hm : Makes builder given made builder' node) :
    Outstanding made builder' where
  node_lt := hm.adds.owns.2
  parent  := hm.adds.parent?
  path    := fun hp => by rw [hm.adds.node?]; exact hm.path hp

theorem outstanding_other (hm : Makes builder given made builder' node) {h : Handed}
    (ho : Outstanding h builder) (hh : h.handle.builder = builder.serial)
    (hne : ∀ g ∈ given, h.handle ≠ g.handle) : Outstanding h builder' where
  node_lt := Nat.lt_trans ho.node_lt (hm.adds.size ▸ Nat.lt_succ_self _)
  parent  := by
    rw [parent?_of_makes hm, if_neg]
    · exact ho.parent
    · intro hc
      have ⟨g, hg, he⟩ := List.mem_map.mp hc
      apply hne g hg
      have hs := hh.trans (hm.owns g hg).1.symm
      cases hx : h.handle
      cases hy : g.handle
      simp_all
  path    := by
    intro hp
    have ⟨⟨p, f?⟩, hn⟩ := Option.isSome_iff_exists.mp (ho.path hp)
    rw [hm.adds.within _ _ (Arena.node?_of_path? hn)]
    rfl

-- The node that a call makes is kept in place of the handles that were given to it.
theorem handOut (hs : w.Sound) (hb : w.builders.find? b = some builder)
    (hg : ∀ g ∈ given, ∃ n ∈ names, (n, g) ∈ w.handles) (hd : (given.map Handed.handle).Nodup)
    (hm : Makes builder given made builder' node) :
    Sound { w.consume names with
      builders := w.builders.insert b builder'
      handles := (w.consume names).handles.insert as made } := by
  have hb := Named.mem_of_find? hb
  have hc := hs.consume names
  have hserial := hm.adds.serial
  have hmade := hm.adds.handle_builder
  -- What is still kept under another name is no handle that was given.
  have other {n : Text} {h : Handed} (hn : (n, h) ∈ (w.consume names).handles) :
      ∀ g ∈ given, h.handle ≠ g.handle := by
    intro g hgm he
    have ⟨m, hmn, hmh⟩ := hg g hgm
    have ⟨hn, hnn⟩ := Named.mem_foldl_erase_iff.mp hn
    exact hnn (hs.name_unique hn hmh he ▸ hmn)
  constructor
  case forest =>
    have hf := forest_of_makes hs hb (fun g hgm => (hg g hgm).imp fun _ h => h.right) hd hm
    exact Named.forall_insert hf hs.forest
  case serial => exact Named.forall_insert (hserial ▸ hs.serial b builder hb) hs.serial
  case distinct =>
    intro n c m d hn hm' he
    replace hn := Named.mem_insert_iff.mp hn
    replace hm' := Named.mem_insert_iff.mp hm'
    rcases hn with ⟨rfl, rfl⟩ | ⟨hn, hnb⟩ <;> rcases hm' with ⟨rfl, rfl⟩ | ⟨hm', hmb⟩
    · exact ⟨rfl, rfl⟩
    · exact absurd (hs.distinct _ _ _ _ hb hm' (hserial ▸ he)).left.symm hmb
    · exact absurd (hs.distinct _ _ _ _ hn hb (hserial ▸ he)).left hnb
    · exact hs.distinct _ _ _ _ hn hm' he
  case origin => exact Named.forall_insert (hmade ▸ hs.serial b builder hb) hc.origin
  case different =>
    refine List.nodup_cons.mpr ⟨fun hin => ?_, ?_⟩
    · have ⟨⟨n, h⟩, hn, he⟩ := List.mem_map.mp hin
      replace he : h.handle = made.handle := he
      have hn := (Named.mem_erase_iff.mp hn).left
      have ho := hc.free n h b builder hn hb (he ▸ hmade)
      exact Nat.ne_of_lt ho.node_lt (he ▸ hm.adds.handle_node)
    · exact hc.different.sublist ((Named.erase_sublist _ as).map _)
  case free =>
    intro n h m c hn hmc he
    replace hn := Named.mem_insert_iff.mp hn
    replace hmc := Named.mem_insert_iff.mp hmc
    rcases hn with ⟨rfl, rfl⟩ | ⟨hn, hna⟩ <;> rcases hmc with ⟨rfl, rfl⟩ | ⟨hmc, hmb⟩
    · exact outstanding_made hm
    · exact absurd (hs.distinct _ _ _ _ hb hmc (hmade ▸ he)).left.symm hmb
    · have he := he.trans hserial
      exact outstanding_other hm (hc.free _ _ _ _ hn hb he) he (other hn)
    · exact hc.free _ _ _ _ hn hmc he
  case filters => exact hs.filters

end Make

-- Builders may go.
theorem withBuilders (hs : w.Sound) {builders : Named Builder}
    (h : ∀ n b, (n, b) ∈ builders → (n, b) ∈ w.builders) : Sound { w with builders } where
  forest    := fun n b hn => hs.forest n b (h n b hn)
  serial    := fun n b hn => hs.serial n b (h n b hn)
  distinct  := fun n b m c hn hm => hs.distinct n b m c (h n b hn) (h m c hm)
  origin    := hs.origin
  different := hs.different
  free      := fun n g m b hn hm => hs.free n g m b hn (h m b hm)
  filters   := hs.filters

-- What is given under some names is there, and no handle is given twice.
theorem of_handed? (hs : w.Sound) {given : List Handed} (hg : w.handed? names = some given) :
    (∀ g ∈ given, ∃ n ∈ names, (n, g) ∈ w.handles) ∧ (given.map Handed.handle).Nodup := by
  obtain ⟨hd, hall⟩ := handed?_eq_some hg
  clear hg
  induction hall
  case nil => exact ⟨nofun, List.nodup_nil⟩
  case cons n g names given hf _ ih =>
    obtain ⟨hn, hd⟩ := List.nodup_cons.mp hd
    obtain ⟨hgs, hgd⟩ := ih hd
    have hf := Named.mem_of_find? hf
    refine ⟨List.forall_mem_cons.mpr ⟨⟨n, List.mem_cons_self, hf⟩, fun g hg => ?_⟩, ?_⟩
    · obtain ⟨m, hm, h⟩ := hgs g hg
      exact ⟨m, List.mem_cons_of_mem n hm, h⟩
    · refine List.nodup_cons.mpr ⟨fun hin => ?_, hgd⟩
      obtain ⟨h, hh, he⟩ := List.mem_map.mp hin
      obtain ⟨m, hm, hmh⟩ := hgs h hh
      exact hn (hs.name_unique hmh hf he ▸ hm)

theorem withIssued (hs : w.Sound) {issued : Nat} (hi : w.issued ≤ issued) :
    Sound { w with issued } where
  forest    := hs.forest
  serial    := fun n b hn => (hs.serial n b hn).imp fun _ h => ⟨Nat.lt_of_lt_of_le h.left hi, h.right⟩
  distinct  := hs.distinct
  origin    := fun n h hn => (hs.origin n h hn).imp fun _ h => ⟨Nat.lt_of_lt_of_le h.left hi, h.right⟩
  different := hs.different
  free      := hs.free
  filters   := hs.filters

-- Serial numbers do not come again before all have been given.
theorem serial_ne {i k : Nat} (hi : i < UInt64.size) (hk : k < i) :
    (.ofNat k : UInt64) ≠ .ofNat i := by
  intro he
  have he := congrArg UInt64.toNat he
  rw [UInt64.toNat_ofNat_of_lt' (Nat.lt_trans hk hi), UInt64.toNat_ofNat_of_lt' hi] at he
  exact Nat.ne_of_lt hk he

theorem openBuilder (hs : w.Sound) (hi : w.issued < UInt64.size) :
    Sound { w with
      issued := w.issued + 1
      builders := w.builders.insert b (.ofSerial (.ofNat w.issued)) } := by
  have hw : Sound { w with issued := w.issued + 1 } := hs.withIssued (Nat.le_succ _)
  have older {n : Text} {c : Builder} (hn : (n, c) ∈ w.builders) : c.serial ≠ .ofNat w.issued := by
    have ⟨k, hk, he⟩ := hs.serial n c hn
    exact he ▸ serial_ne hi hk
  constructor
  case forest => exact Named.forall_insert Arena.forest_empty hs.forest
  case serial => exact Named.forall_insert ⟨w.issued, Nat.lt_succ_self _, rfl⟩ hw.serial
  case distinct =>
    intro n c m d hn hm he
    replace hn := Named.mem_insert_iff.mp hn
    replace hm := Named.mem_insert_iff.mp hm
    rcases hn with ⟨rfl, rfl⟩ | ⟨hn, _⟩ <;> rcases hm with ⟨rfl, rfl⟩ | ⟨hm, _⟩
    · exact ⟨rfl, rfl⟩
    · exact absurd he.symm (older hm)
    · exact absurd he (older hn)
    · exact hs.distinct _ _ _ _ hn hm he
  case origin    => exact hw.origin
  case different => exact hs.different
  case free =>
    intro n h m c hn hm he
    rcases Named.mem_insert_iff.mp hm with ⟨_, rfl⟩ | ⟨hm, _⟩
    · have ⟨k, hk, ho⟩ := hs.origin n h hn
      exact absurd (ho.symm.trans he) (serial_ne hi hk)
    · exact hs.free _ _ _ _ hn hm he
  case filters   => exact hs.filters

-- What a call does keeps up the invariant while there are serial numbers left.
theorem does {w' : Workbench} (hs : w.Sound) (hd : w.Does w') (hi : w'.issued ≤ UInt64.size) :
    w'.Sound := by
  cases hd
  case refuse    => exact hs
  case use names => exact hs.consume names
  case join names hb =>
    apply (hs.consume names).withBuilders
    intro m c hm
    cases Named.mem_insert_iff.mp hm
    case inl h => cases h.left; cases h.right; exact Named.mem_of_find? hb
    case inr h => exact h.left
  case make hb hg hm =>
    have ⟨hn, hd⟩ := hs.of_handed? hg
    exact hs.handOut hb hn hd hm
  case start => exact hs.openBuilder hi
  case discard root =>
    exact (hs.consume [root]).withBuilders fun n c hn => (Named.mem_erase_iff.mp hn).left
  case finish hb hg hf =>
    have hb := Named.mem_of_find? hb
    have ⟨ho, ha, hr⟩ := Builder.finish_eq_ok_iff.mp hf
    apply keep ((hs.consume [_]).withBuilders fun n c hn => (Named.mem_erase_iff.mp hn).left)
    intro g he
    cases he
    rw [ha, hr]
    exact ⟨hs.forest _ _ hb, (hs.free _ _ _ _ (Named.mem_of_find? hg) hb ho.1).parent⟩
  case read hr => exact hs.withIssued hr
  case parse hr hp =>
    apply (hs.withIssued hr).keep
    intro f he
    cases he
    exact forest_of_parse hp
  case clone hc =>
    have ⟨f?, hf, he⟩ := Option.bind_eq_some_iff.mp hc
    cases he
    apply hs.keep
    intro f he
    cases he
    exact hs.filters _ _ (Named.mem_of_find? hf)

end Sound
end Workbench
end AttributeFilter
