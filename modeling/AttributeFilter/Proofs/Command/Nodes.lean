import AttributeFilter.Proofs.Filter.Outline
import AttributeFilter.Proofs.Grammar.Accepted
import AttributeFilter.Proofs.Tree.Printed

/-!
The printed nodes of a filter. No text of a node holds a line feed or ends in white space, so every node has a line of
its own, from which all that is told of the node can be read. The lines stand in the order of the walk down from the
root and are indented by depth, so the tree can be read off the indentation alone, and that is the tree which the
numbers of the parents tell.
-/

namespace AttributeFilter

open Text Lexeme

theorem Node.Kind.solid_name (k : Node.Kind) : k.name.Solid := by
  unfold Solid
  cases k <;> decide

namespace Filter

variable {f : Filter} {r : NodeRef} {i : Nat}

-- The nodes below the root and the root, in the order of the walk.
def nodes (f : Filter) : List NodeRef :=
  f.descendants.filterMap (NodeRef.ofId? [] f)

theorem filter_of_mem_nodes (h : r ∈ f.nodes) : r.filter = f := by
  have ⟨i, _, hr⟩ := List.mem_filterMap.mp h
  unfold NodeRef.ofId? at hr
  split at hr
  case isTrue  => cases hr; rfl
  case isFalse => cases hr

theorem map_id_nodes (h : ∀ i ∈ f.descendants, i < f.size) : f.nodes.map (·.id) = f.descendants := by
  rw [nodes, List.map_filterMap]
  refine (List.filterMap_congr fun i hi => ?_).trans List.filterMap_some
  simp [NodeRef.ofId?, h i hi]

end Filter

namespace Command

variable {l : Limits} {t : Text} {f : Filter} {r : NodeRef}

-- The number of a node as it is printed.
def number (i : Nat) : Text :=
  '#' :: ofNat i

theorem solid_number (i : Nat) : (number i).Solid :=
  (solid_ofNat i).cons rfl

-- What the line of a node tells.
structure Row where
  indent : Nat
  kind : Text
  id : Text
  parent? : Option Text
  text : Text
deriving DecidableEq

-- Reads a line: how many spaces there are at its front, what stands between the next spaces and brackets, and the rest.
def Row.ofLine (line : Text) : Row :=
  let (kind, line')   := cut ' ' (line.dropWhile (· = ' '))
  let (id, line')     := cut ' ' line'
  let (_, line')      := cut ' ' line'
  let (parent, line') := cut ')' line'
  let (_, text)       := cut ' ' line'
  { indent  := (line.takeWhile (· = ' ')).length
    kind, id, text
    parent? := if parent = "none".toList then none else some parent }

-- What there is to tell of a node.
def Row.ofNode (r : NodeRef) : Row where
  indent  := 2 * r.ancestors.length
  kind    := r.kind.name
  id      := number r.id
  parent? := r.parent?.map number
  text    := r.tree.text

def parentText (p? : Option Nat) : Text :=
  p?.elim "none".toList number

theorem solid_parentText (p? : Option Nat) : (parentText p?).Solid := by
  cases p?
  case none   => exact (by decide : Solid "none".toList)
  case some p => exact solid_number p

theorem bracket_notMem_parentText (p? : Option Nat) : ')' ∉ parentText p? := by
  cases p?
  case none   => exact (by decide : ')' ∉ "none".toList)
  case some p =>
    intro h
    rcases List.mem_cons.mp h with h | h
    · cases h
    · cases (isDigits_toDigits p).digits _ h

theorem nodeLine_eq (r : NodeRef) : nodeLine r =
    List.replicate (2 * r.ancestors.length) ' ' ++ (r.kind.name ++ ' ' :: (number r.id ++ ' ' ::
      ("(parent".toList ++ ' ' :: (parentText r.parent? ++ ')' :: (":".toList ++ ' ' :: r.tree.text))))) := by
  simp [nodeLine, number, parentText]
  rfl

theorem readParent_parentText (p? : Option Nat) :
    (if parentText p? = "none".toList then none else some (parentText p?)) = p?.map number := by
  cases p?
  case none   => rfl
  case some p =>
    have hn : number p ≠ "none".toList := fun h => absurd (List.cons.inj h).left (by decide)
    exact if_neg hn

theorem ofLine_nodeLine (r : NodeRef) : Row.ofLine (nodeLine r) = Row.ofNode r := by
  have hn : ' ' ∉ r.kind.name := r.kind.solid_name.notMem rfl
  have hi : ' ' ∉ number r.id := (solid_number _).notMem rfl
  have hw : ' ' ∉ "(parent".toList := by decide
  have hc : ' ' ∉ ":".toList := by decide
  have hs : ∀ c ∈ List.replicate (2 * r.ancestors.length) ' ', decide (c = ' ') = true :=
    fun c hc => decide_eq_true (List.eq_of_mem_replicate hc)
  have hk (t : Text) : Stops (· = ' ') (r.kind.name ++ t) := by
    cases r.kind <;> exact .cons rfl
  simp only [nodeLine_eq, Row.ofLine, dropWhile_append hs (hk _), takeWhile_append hs (hk _), List.length_replicate,
    cut_append hn, cut_append hi, cut_append hw, cut_append (bracket_notMem_parentText _), cut_append hc,
    readParent_parentText, Row.ofNode]

theorem isPrinted_nodeLine (h : r.tree.text.IsPrinted) : (nodeLine r).IsPrinted := by
  have hs {u : Text} (h : u.IsPrinted) : IsPrinted (' ' :: u) := h.cons (by decide)
  rw [nodeLine_eq]
  apply IsPrinted.append fun hm => absurd (List.eq_of_mem_replicate hm) (by decide)
  apply IsPrinted.append (r.kind.solid_name.notMem rfl) (hs _)
  apply IsPrinted.append ((solid_number _).notMem rfl) (hs _)
  apply IsPrinted.append (by decide) (hs _)
  apply IsPrinted.append ((solid_parentText _).notMem rfl) (IsPrinted.cons (by decide) _)
  exact .append (by decide) (hs h)

theorem splitOn_nodeLines (hne : f.nodes ≠ []) (h : ∀ r ∈ f.nodes, r.tree.text.IsPrinted) :
    (nodeLines f).splitOn '\n' = f.nodes.map nodeLine := by
  have hp : printedLines (nodeLines f) = f.nodes.map nodeLine := by
    refine printedLines_joined fun l hl => ?_
    have ⟨r, hr, he⟩ := List.mem_map.mp hl
    exact he ▸ isPrinted_nodeLine (h r hr)
  have hn : nodeLines f ≠ [] := by
    intro hn
    rw [hn] at hp
    exact hne (List.map_eq_nil_iff.mp hp.symm)
  rwa [printedLines, if_neg hn] at hp

theorem rows_nodeLines (hne : f.nodes ≠ []) (h : ∀ r ∈ f.nodes, r.tree.text.IsPrinted) :
    ((nodeLines f).splitOn '\n').map Row.ofLine = f.nodes.map Row.ofNode := by
  rw [splitOn_nodeLines hne h, List.map_map]
  exact List.map_congr_left fun r _ => ofLine_nodeLine r

theorem ofNode_of_parent?_eq_none (h : r.parent? = none) :
    (Row.ofNode r).indent = 0 ∧ (Row.ofNode r).parent? = none := by
  have ha : r.ancestors = [] := Arena.ancestors_of_none h
  rw [Row.ofNode, ha, h]
  exact ⟨rfl, rfl⟩

-- The lines of a filter tell all of its nodes, and how these stand below one another. The first line is that of the
-- root. Any other line names as the parent what the nearest line before it names that stands out by just two spaces.
structure TellsTree (lines : List Text) (f : Filter) : Prop where
  count   : lines.length = f.size
  each    : ∃ nodes : List NodeRef, (∀ r ∈ nodes, r.filter = f) ∧ nodes.map (·.id) = f.arena.preorder f.root ∧
    (nodes.map (·.id)).Perm (List.range f.size) ∧ lines.map Row.ofLine = nodes.map Row.ofNode
  first   : ∃ r ∈ (lines.map Row.ofLine).head?, r.indent = 0 ∧ r.parent? = none
  later   : ∀ before r after, lines.map Row.ofLine = before ++ r :: after → before ≠ [] →
    ∃ x p y, before = x ++ p :: y ∧ p.indent + 2 = r.indent ∧ (∀ q ∈ y, q.indent + 2 ≠ r.indent) ∧
      r.parent? = some p.id
  rebuilt : Outline.read ((lines.map Row.ofLine).map fun r => (r.indent, r.id)) = [f.arena.outline number f.root]
  agrees  : ∀ o ∈ Outline.read ((lines.map Row.ofLine).map fun r => (r.indent, r.id)), ∀ p c,
    o.Links p c ↔ ∃ r ∈ lines.map Row.ofLine, r.id = c ∧ r.parent? = some p

theorem exists_of_map_eq_append_cons {β γ : Type} {g : β → γ} {bs : List β} {x y : List γ} {z : γ}
    (h : bs.map g = x ++ z :: y) :
    ∃ x' z' y', bs = x' ++ z' :: y' ∧ x'.map g = x ∧ g z' = z ∧ y'.map g = y := by
  obtain ⟨x', w, rfl, hx, hw⟩ := List.map_eq_append_iff.mp h
  obtain ⟨z', y', rfl, hz, hy⟩ := List.map_eq_cons_iff.mp hw
  exact ⟨x', z', y', rfl, hx, hz, hy⟩

-- What is told of the nodes, in the terms of the arena.
section

variable (hf : f.arena.Forest) (hr : f.arena.parent? f.root = none) (hn : f.arena.Numbered f.root)

include hn in
theorem map_id_nodes_eq : f.nodes.map (·.id) = f.arena.preorder f.root := by
  rw [f.map_id_nodes, f.descendants_eq]
  intro i hi
  rw [f.descendants_eq] at hi
  exact hn.mem_preorder_iff.mp hi

include hn in
theorem map_rows_nodes :
    (f.nodes.map Row.ofNode).map (fun r => (r.indent, r.id)) = (f.arena.preorder f.root).map (f.arena.row number) := by
  rw [← map_id_nodes_eq hn, List.map_map, List.map_map]
  refine List.map_congr_left fun r hr => ?_
  cases Filter.filter_of_mem_nodes hr
  rfl

include hr hn in
theorem exists_root : ∃ r rs, f.nodes = r :: rs ∧ r.parent? = none := by
  have hid := map_id_nodes_eq hn
  rw [Arena.preorder_eq] at hid
  obtain ⟨r, rs, hs, hroot, _⟩ := List.map_eq_cons_iff.mp hid
  refine ⟨r, rs, hs, ?_⟩
  cases Filter.filter_of_mem_nodes (hs ▸ List.mem_cons_self : r ∈ f.nodes)
  rw [NodeRef.parent?, hroot, hr]

include hf hn in
theorem exists_nearest {before after : List Row} {r : Row}
    (h : f.nodes.map Row.ofNode = before ++ r :: after) (hb : before ≠ []) :
    ∃ x p y, before = x ++ p :: y ∧ p.indent + 2 = r.indent ∧ (∀ q ∈ y, q.indent + 2 ≠ r.indent) ∧
      r.parent? = some p.id := by
  obtain ⟨before, c, after, hs, rfl, rfl, rfl⟩ := exists_of_map_eq_append_cons h
  have hfilter : ∀ r ∈ before ++ c :: after, r.filter = f := fun r hr => Filter.filter_of_mem_nodes (hs ▸ hr)
  have hid := map_id_nodes_eq hn
  rw [hs, List.map_append, List.map_cons] at hid
  have ⟨x, p, y, hxy, hp, hy⟩ := Arena.exists_parent_before hf hid.symm
    fun he => hb (congrArg _ (List.map_eq_nil_iff.mp he))
  obtain ⟨x, p, y, rfl, rfl, rfl, rfl⟩ := exists_of_map_eq_append_cons hxy
  have hc : c.filter = f := hfilter c (by simp)
  have hpf : p.filter = f := hfilter p (by simp)
  have hindent {r : NodeRef} (h : r.filter = f) : (Row.ofNode r).indent = 2 * f.arena.depth r.id := by
    cases h
    rfl
  refine ⟨x.map Row.ofNode, Row.ofNode p, y.map Row.ofNode, by simp, ?_, ?_, ?_⟩
  case refine_1 =>
    rw [hindent hc, hindent hpf, Arena.depth_of_parent? hp]
    rfl
  case refine_2 =>
    intro q hq
    have ⟨d, hd, he⟩ := List.mem_map.mp hq
    have hle := hy d.id (List.mem_map_of_mem hd)
    rw [← he, hindent hc, hindent (hfilter d (by simp [hd]))]
    omega
  case refine_3 =>
    cases hc
    exact congrArg (Option.map number) hp

include hf hn in
theorem links_outline_root_iff {p c : Text} : (f.arena.outline number f.root).Links p c ↔
    ∃ r ∈ f.nodes.map Row.ofNode, r.id = c ∧ r.parent? = some p := by
  rw [Arena.links_outline_iff]
  constructor
  case mp =>
    rintro ⟨p, hp, c, hc, rfl, rfl⟩
    have hm := Arena.mem_preorder_of_child hc hp
    rw [← map_id_nodes_eq hn] at hm
    have ⟨r, hr, hrc⟩ := List.mem_map.mp hm
    refine ⟨Row.ofNode r, List.mem_map_of_mem hr, congrArg number hrc, ?_⟩
    cases Filter.filter_of_mem_nodes hr
    exact congrArg (Option.map number) ((hf.linked r.id p).mpr (hrc ▸ hc))
  case mpr =>
    rintro ⟨_, hm, rfl, hq⟩
    obtain ⟨r, hr, rfl⟩ := List.mem_map.mp hm
    obtain ⟨p, hp, rfl⟩ := Option.map_eq_some_iff.mp hq
    cases Filter.filter_of_mem_nodes hr
    have hlt := (Arena.bounds_of_parent? hp).right
    exact ⟨p, hn.mem_preorder_iff.mpr hlt, r.id, (hf.linked r.id p).mp hp, rfl, rfl⟩

include hf hr hn in
theorem tellsTree_nodeLines (hp : ∀ r ∈ f.nodes, r.tree.text.IsPrinted) :
    TellsTree ((nodeLines f).splitOn '\n') f := by
  have ⟨r, rs, hs, hroot⟩ := exists_root hr hn
  have hne : f.nodes ≠ [] := hs ▸ List.cons_ne_nil r rs
  have hid := map_id_nodes_eq hn
  have hrows := rows_nodeLines hne hp
  have hread : Outline.read ((f.nodes.map Row.ofNode).map fun r => (r.indent, r.id)) =
      [f.arena.outline number f.root] := by
    rw [map_rows_nodes hn, Arena.read_preorder hf]
  have hperm : (f.arena.preorder f.root).Perm (List.range f.size) :=
    (f.arena.postorder_perm_preorder f.root).symm.trans (.of_eq hn)
  constructor
  case count   =>
    rw [splitOn_nodeLines hne hp, List.length_map, ← List.length_map (·.id), hid]
    exact hn.length_preorder
  case each    => exact ⟨f.nodes, fun _ => Filter.filter_of_mem_nodes, hid, hid ▸ hperm, hrows⟩
  case first   => exact ⟨Row.ofNode r, by rw [hrows, hs]; rfl, ofNode_of_parent?_eq_none hroot⟩
  case later   => exact fun _ _ _ h => exists_nearest hf hn (hrows ▸ h)
  case rebuilt => rw [hrows, hread]
  case agrees  =>
    rw [hrows, hread]
    intro o ho p c
    rw [List.mem_singleton.mp ho]
    exact links_outline_root_iff hf hn

end

-- Every node of a parsed filter has a text that stands on a line.
theorem isPrinted_text_of_parse (h : parse l t = .ok (some f)) (hr : r.filter = f) : r.tree.text.IsPrinted := by
  subst hr
  have ⟨_, hc⟩ := exists_cursor_of_parse h
  have hn := Cursor.numbered_of_parse hc
  have hs : r.filter.arena.Shows r.filter.root r.filter.tree := Arena.shows_treeAt r.filter.root_lt
  have hm := Arena.mem_postorder_iff.mpr (hn.mem_preorder_iff.mpr r.id_lt)
  have ⟨u, hu, hsu⟩ := Arena.exists_of_forall₂ hs.postorder hm
  have ha : r.filter.tree.All Tree.IsLegible := (accepted_of_parse h).left.imp Tree.IsAccepted.isLegible
  have ⟨_, he⟩ := Arena.shows_iff.mp hsu
  rw [NodeRef.tree, he]
  exact Tree.isPrinted_text (ha.of_mem_nodes (fun _ _ _ _ h => h.left) hu)

-- What is printed of the nodes of a parsed filter tells the tree of it, as it is and in more than one way.
theorem tellsTree_of_parse (h : parse l t = .ok (some f)) : TellsTree ((nodeLines f).splitOn '\n') f := by
  have ⟨hf, hr⟩ := forest_of_parse h
  have ⟨_, hc⟩ := exists_cursor_of_parse h
  exact tellsTree_nodeLines hf hr (Cursor.numbered_of_parse hc) fun r hm =>
    isPrinted_text_of_parse h (Filter.filter_of_mem_nodes hm)

def siblingText : Text :=
  "a pr and not (b eq 1)".toList

def siblingLines : List Text :=
  ["Conjunction #5 (parent none): a pr and not (b eq 1)".toList, "  Comparison #1 (parent #5): a pr".toList,
   "    AttributePath #0 (parent #1): a".toList, "  Negation #4 (parent #5): not (b eq 1)".toList,
   "    Comparison #3 (parent #4): b eq 1".toList, "      AttributePath #2 (parent #3): b".toList]

theorem tellsTree_of_parse_siblingText :
    ∃ f, parse {} siblingText = .ok (some f) ∧ (nodeLines f).splitOn '\n' = siblingLines ∧
      TellsTree siblingLines f := by
  have ⟨f, hf, hl⟩ : ∃ f, parse {} siblingText = .ok (some f) ∧ (nodeLines f).splitOn '\n' = siblingLines :=
    exists_of_map_ok (by decide +kernel)
  exact ⟨f, hf, hl, hl ▸ tellsTree_of_parse hf⟩

end Command
end AttributeFilter
