import AttributeFilter.Proofs.Filter.Beside

/-!
Filters of two trees that are joined. They hold the nodes of the filters of both trees, as they are there,
and the node that joins them.
-/

namespace AttributeFilter

namespace Filter

-- A filter holds the nodes of a first one, behind them those of a second one, and then a node that both
-- roots are below.
structure Joins (make : List Nat → Node) (f g h : Filter) : Prop where
  size  : h.size = f.size + g.size + 1
  root  : h.root = f.size + g.size
  left  : ∀ i < f.size, h.arena.slots[i]? = (f.arena.slots[i]?).map fun s =>
    if i = f.root then { s with parent? := some h.root } else s
  right : ∀ i < g.size, h.arena.slots[f.size + i]? = (g.arena.slots[i]?).map fun s =>
    if i = g.root then { s.shift f.size with parent? := some h.root } else s.shift f.size
  last  : h.arena.slots[h.root]? = some { node := make [f.root, f.size + g.root] }

theorem ofTree_eq_ok_iff {t : Tree} {f : Filter} :
    ofTree t = .ok (some f) ↔ ∃ root b, t.build (.ofSerial 0) = .ok (some root, b) ∧
      b.Owns root ∧ f.arena = b.arena ∧ f.root = root.node := by
  simp only [← Builder.finish_eq_ok_iff]
  unfold ofTree
  constructor
  case mp =>
    intro h
    have ⟨⟨h?, b⟩, hb, h⟩ := bind_eq_ok_iff.mp h
    cases h?
    case none => cases h
    case some root =>
      have ⟨g, hg, h⟩ := bind_eq_ok_iff.mp h
      cases h
      exact ⟨root, b, hb, hg⟩
  case mpr =>
    rintro ⟨root, b, hb, hf⟩
    exact bind_eq_ok_iff.mpr ⟨_, hb, bind_eq_ok_iff.mpr ⟨f, hf, rfl⟩⟩

-- Two trees are laid out one behind the other.
theorem exists_buildAll_pair {t u : Tree} {f g : Filter} (hf : ofTree t = .ok (some f))
    (hg : ofTree u = .ok (some g)) :
    ∃ r q b, Tree.buildAll [t, u] (.ofSerial 0) = .ok ([r, q], b) ∧ (∀ h ∈ [r, q], b.Owns h) ∧
      f.arena.Beside g.arena b.arena ∧ r.node = f.root ∧ q.node = f.size + g.root := by
  have ⟨r, b, hr, hor, hfa, hfr⟩ := ofTree_eq_ok_iff.mp hf
  have ⟨q, c, hq, hoq, hga, hgr⟩ := ofTree_eq_ok_iff.mp hg
  have ⟨b', hb, hbe⟩ := Tree.shifts_build b u _ b _ _ ⟨rfl, .empty _⟩ hq
  have hall : Tree.buildAll [t, u] (.ofSerial 0) = .ok ([r, q.behind b], b') :=
    bind_eq_ok_iff.mpr ⟨_, hr, bind_eq_ok_iff.mpr ⟨_, bind_eq_ok_iff.mpr ⟨_, hb, rfl⟩, rfl⟩⟩
  have hor : b'.Owns r := by
    refine ⟨hor.1.trans hbe.serial.symm, ?_⟩
    have := hor.2
    have := hbe.arena.size
    simp only [Builder.size] at *
    omega
  refine ⟨r, q.behind b, b', hall, ?_, ?_, hfr.symm, ?_⟩
  · exact List.forall_mem_cons.mpr ⟨hor, List.forall_mem_singleton.mpr (hbe.owns hoq)⟩
  · rw [hfa, hga]
    exact hbe.arena
  · rw [Filter.size, hfa, hgr]
    rfl

variable {join : List Tree → Tree} {make : List Nat → Node} {f g h : Filter} {t u : Tree}

theorem joins_add (hj : Tree.JoinsBy join make) {b : Arena} (hb : f.arena.Beside g.arena b)
    (hn : b.Admits (make [f.root, f.size + g.root])) (ha : h.arena = b.add _ hn)
    (hr : h.root = b.size) : Joins make f g h := by
  have hs (i : Nat) : h.arena.slots[i]? =
      if i = h.root then some { node := make [f.root, f.size + g.root] }
      else (b.slots[i]?).map fun s =>
        if i = f.root ∨ i = f.size + g.root then { s with parent? := some h.root } else s := by
    have hg := Arena.getElem?_slotsWith b (make [f.root, f.size + g.root]) i
    simp only [hj.children, List.mem_cons, List.not_mem_nil, or_false] at hg
    rw [ha, hr]
    exact hg
  have hr : h.root = f.size + g.size := hr.trans hb.size
  constructor
  case size => rw [Filter.size, ha, Arena.size_add, hb.size]; rfl
  case root => exact hr
  case last => rw [hs, if_pos rfl]
  case left =>
    intro i hi
    have hi' : i ≠ h.root := by omega
    have hg : i = f.root ∨ i = f.size + g.root ↔ i = f.root := by omega
    rw [hs, if_neg hi', hb.left i hi]
    simp only [hg]
  case right =>
    intro i hi
    have hi' : f.size + i ≠ h.root := by omega
    have hf := f.root_lt
    have hg : f.size + i = f.root ∨ f.size + i = f.size + g.root ↔ i = g.root := by
      simp only [Filter.size]
      omega
    have hr : b.slots[f.size + i]? = _ := hb.right i
    rw [hs, if_neg hi', hr, Option.map_map]
    simp only [hg]
    rfl

-- Joined trees are laid out as filters of them joined.
theorem exists_ofTree_join (hj : Tree.JoinsBy join make) (ht : t.All Tree.Makeable)
    (hu : u.All Tree.Makeable) (hf : ofTree t = .ok (some f)) (hg : ofTree u = .ok (some g)) :
    ∃ h, ofTree (join [t, u]) = .ok (some h) ∧ h.tree = join [t, u] ∧ Joins make f g h := by
  have ⟨r, q, b, hall, how, hbe, hr, hq⟩ := exists_buildAll_pair hf hg
  have hn : b.arena.Admits (make [f.root, f.size + g.root]) := by
    constructor
    case children_lt =>
      rw [hj.children, ← hr, ← hq]
      exact List.forall_mem_cons.mpr ⟨(how r (by simp)).2,
        List.forall_mem_singleton.mpr (how q (by simp)).2⟩
    case operand_path =>
      rw [hj.operand]
      nofun
  have ⟨m, c, ha⟩ := Builder.exists_adds hn
  have hm : b.combination make hj.children hj.operand [r, q] = .ok (some m, c) :=
    Builder.combination_eq_ok_iff.mpr
      (.inr ⟨List.cons_ne_nil _ _, how, m, rfl, by simpa only [List.map, hr, hq] using ha⟩)
  have hb : (join [t, u]).build (.ofSerial 0) = .ok (some m, c) :=
    (hj.build _ _).trans (bind_eq_ok_iff.mpr ⟨_, hall, hm⟩)
  let h : Filter := ⟨c.arena, m.node, ha.owns.2⟩
  have hh : ofTree (join [t, u]) = .ok (some h) :=
    ofTree_eq_ok_iff.mpr ⟨m, c, hb, ha.owns, rfl, rfl⟩
  have hp : ∀ t' ∈ (join [t, u]).parts, t'.All Tree.Makeable := by
    rw [hj.parts]
    exact List.forall_mem_cons.mpr ⟨ht, List.forall_mem_singleton.mpr hu⟩
  have ⟨h', hh', htree⟩ := ofTree_tree (.intro (hj.makeable _ (List.cons_ne_nil _ _)) hp)
  cases hh.symm.trans hh'
  have ⟨_, he⟩ := ha.arena
  exact ⟨h, hh, htree, joins_add hj hbe hn he ha.handle_node⟩

end Filter
end AttributeFilter
