import AttributeFilter.Proofs.Filter.Postorder

/-!
What the calls of a builder keep up while handles are pending. The nodes that are new are the nodes below the
pending handles and no others, numbered as walks leave them: children before their parents, and from left to
right. A call that takes all handles that are pending, and leaves its own one, keeps this up.
-/

namespace AttributeFilter

-- Combinations join several nodes, and numbers are finite.
def Node.IsRegular : Node → Prop
  | comparison _ _ v?              => ∀ x, v? = some (.number x) → x.isFinite = true
  | conjunction cs | disjunction cs => 2 ≤ cs.length
  | _                              => True

def Arena.IsRegular (a : Arena) : Prop :=
  ∀ i n, a.node? i = some n → n.IsRegular

namespace Builder

variable {b b₁ b₂ : Builder} {hs hs' : List Handle} {h : Handle} {n : Node}

-- A builder has made new nodes, of which some have no parents, and left all others alone.
structure Plants (b : Builder) (hs : List Handle) (b' : Builder) : Prop where
  forest    : b'.arena.Forest
  size_le   : b.size ≤ b'.size
  older     : ∀ c < b.size, b'.arena.parent? c = b.arena.parent? c
  newer     : ∀ h ∈ hs, b.size ≤ h.node ∧ h.node < b'.size
  parent    : ∀ h ∈ hs, b'.arena.parent? h.node = none
  different : (hs.map (·.node)).Nodup

namespace Plants

theorem nil (hf : b.arena.Forest) : b.Plants [] b where
  forest    := hf
  size_le   := Nat.le_refl _
  older     := fun _ _ => rfl
  newer     := nofun
  parent    := nofun
  different := List.nodup_nil

theorem append (h : b.Plants hs b₁) (h' : b₁.Plants hs' b₂) : b.Plants (hs ++ hs') b₂ where
  forest  := h'.forest
  size_le := Nat.le_trans h.size_le h'.size_le
  older   := fun c hc => (h'.older c (Nat.lt_of_lt_of_le hc h.size_le)).trans (h.older c hc)
  newer   := by
    intro g hg
    rcases List.mem_append.mp hg with hg | hg
    · exact ⟨(h.newer g hg).left, Nat.lt_of_lt_of_le (h.newer g hg).right h'.size_le⟩
    · exact ⟨Nat.le_trans h.size_le (h'.newer g hg).left, (h'.newer g hg).right⟩
  parent  := by
    intro g hg
    rcases List.mem_append.mp hg with hg | hg
    · exact (h'.older _ (h.newer g hg).right).trans (h.parent g hg)
    · exact h'.parent g hg
  different := by
    rw [List.map_append, List.nodup_append]
    refine ⟨h.different, h'.different, fun c hc d hd he => ?_⟩
    have ⟨g, hg, hgc⟩ := List.mem_map.mp hc
    have ⟨g', hg', hgd⟩ := List.mem_map.mp hd
    have h₁ := (h.newer g hg).right
    have h₂ := (h'.newer g' hg').left
    omega

-- A node that takes all that have no parents is the only one without.
theorem add (h : b.Plants hs b₁) {m : Handle} (ha : b₁.Adds n m b₂)
    (hc : n.children = hs.map (·.node)) (hn : n.HasArity) : b.Plants [m] b₂ := by
  have ⟨hadm, he⟩ := ha.arena
  have hp : ∀ c ∈ n.children, b₁.arena.parent? c = none := by
    intro c hm
    have ⟨g, hg, hgc⟩ := List.mem_map.mp (hc ▸ hm)
    exact hgc ▸ h.parent g hg
  constructor
  case forest  => exact he ▸ h.forest.add hadm (hc ▸ h.different) hp hn
  case size_le => exact Nat.le_trans h.size_le (ha.size ▸ Nat.le_succ _)
  case older =>
    intro c hlt
    rw [he, Arena.parent?_add, if_neg]
    · exact h.older c hlt
    · intro hm
      have ⟨g, hg, hgc⟩ := List.mem_map.mp (hc ▸ hm)
      exact Nat.not_le_of_gt hlt (hgc ▸ (h.newer g hg).left)
  case newer =>
    refine List.forall_mem_singleton.mpr ⟨?_, ha.owns.2⟩
    exact ha.handle_node ▸ h.size_le
  case parent    => exact List.forall_mem_singleton.mpr ha.parent?
  case different => exact List.nodup_singleton _

end Plants

-- A builder has added nodes, and the walks to those that it hands out leave the new nodes in the order of
-- their numbers.
structure Numbers (b : Builder) (hs : List Handle) (b' : Builder) : Prop where
  within : b.arena.Within b'.arena
  order  : List.range b.size ++ hs.flatMap (fun h => b'.arena.postorder h.node) = List.range b'.size

namespace Numbers

theorem nil (b : Builder) : b.Numbers [] b where
  within := .refl _
  order  := List.append_nil _

theorem node_lt (hb : b.Numbers hs b₁) (hm : h ∈ hs) : h.node < b₁.size := by
  rw [← List.mem_range, ← hb.order]
  exact List.mem_append_right _ (List.mem_flatMap.mpr ⟨h, hm, Arena.self_mem_postorder⟩)

-- Nodes that are added later are not on the way.
theorem postorder_eq (hb : b.Numbers hs b₁) (hw : b₁.arena.Within b₂.arena) :
    hs.flatMap (fun h => b₂.arena.postorder h.node) =
      hs.flatMap (fun h => b₁.arena.postorder h.node) :=
  List.flatMap_congr fun _ hm => hw.postorder_eq (hb.node_lt hm)

theorem append (hb : b.Numbers hs b₁) (hb' : b₁.Numbers hs' b₂) : b.Numbers (hs ++ hs') b₂ where
  within := hb.within.trans hb'.within
  order  := by rw [List.flatMap_append, hb.postorder_eq hb'.within, ← List.append_assoc, hb.order, hb'.order]

-- A node that is added is left behind all that was handed out, if these are its children.
theorem add (hb : b.Numbers hs b₁) (ha : b₁.Adds n h b₂) (hc : n.children = hs.map (·.node)) :
    b.Numbers [h] b₂ where
  within := hb.within.trans ha.within
  order  := by
    have hch : b₂.arena.children h.node = hs.map (·.node) := by
      rw [Arena.children, ha.node?]
      exact hc
    have hp : b₂.arena.postorder h.node =
        hs.flatMap (fun h => b₁.arena.postorder h.node) ++ [b₁.size] := by
      rw [Arena.postorder_eq, hch, List.flatMap_map, hb.postorder_eq ha.within, ha.handle_node]
    rw [List.flatMap_singleton, hp, ← List.append_assoc, hb.order, ha.size, List.range_succ]

end Numbers

-- What a builder has made is arranged: it is planted and numbered, and its nodes are regular.
structure Arranges (b : Builder) (hs : List Handle) (b' : Builder) : Prop where
  numbers : b.Numbers hs b'
  plants  : b.arena.Forest → b.Plants hs b'
  regular : b.arena.IsRegular → b'.arena.IsRegular

namespace Arranges

theorem nil (b : Builder) : b.Arranges [] b where
  numbers := .nil b
  plants  := .nil
  regular := id

theorem append (hb : b.Arranges hs b₁) (hb' : b₁.Arranges hs' b₂) : b.Arranges (hs ++ hs') b₂ where
  numbers := hb.numbers.append hb'.numbers
  plants  := fun hf => (hb.plants hf).append (hb'.plants (hb.plants hf).forest)
  regular := fun hr => hb'.regular (hb.regular hr)

theorem add (hb : b.Arranges hs b₁) (ha : b₁.Adds n h b₂) (hc : n.children = hs.map (·.node))
    (hn : n.HasArity) (hr : n.IsRegular) : b.Arranges [h] b₂ where
  numbers := hb.numbers.add ha hc
  plants  := fun hf => (hb.plants hf).add ha hc hn
  regular := fun hreg => by
    have ⟨_, he⟩ := ha.arena
    exact he ▸ Arena.forall_node?_add (hb.regular hreg) hr

end Arranges
end Builder
end AttributeFilter
