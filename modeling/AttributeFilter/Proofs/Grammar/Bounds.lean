import AttributeFilter.Proofs.Filter.Standing
import AttributeFilter.Proofs.Grammar.Arrangement
import AttributeFilter.Proofs.Grammar.Readmission
import AttributeFilter.Proofs.Token.Makes
import Mathlib.Data.List.Perm.Subperm

/-!
How large a filter can get. Each of its nodes has a token of its own, so there are no more nodes than tokens.
And no more than four nodes are above one another for each level that is open, so the limit on levels bounds
the depth of the filter, however long it is.
-/

namespace AttributeFilter

open List (Forall₂ Subperm)

-- The token that makes a node: the first word of a path, an operator, or one of the words that negate and join.
def Tree.OwnedBy : Tree → Token → Prop
  | path p _, w           => w.kind ∈ [.identifier, .not] ∧ w.text = p.first
  | comparison _ _ o _, w => w.kind = .operator ∧ Operator.ofWord? w.text = some o
  | negation _, w         => w.kind = .not
  | conjunction _, w      => w.kind = .and
  | disjunction _, w      => w.kind = .or

namespace Grammar

variable {ts ts' : List Token} {us us' : List Tree} {u : Tree} {w : Token} {s : Symbol}

theorem Test.exists_operator (d : Test) :
    ∃ w ∈ d.tokens, w.kind = .operator ∧ Operator.ofWord? w.text = some d.meaning.1 := by
  cases d
  case present w hw        => exact ⟨w.token, List.mem_cons_self, List.mem_singleton.mp w.kind_mem, hw⟩
  case relation w o hw _ _ => exact ⟨w.token, List.mem_cons_self, List.mem_singleton.mp w.kind_mem, hw⟩

-- Each of some nodes has a token of its own.
def Owned (ts : List Token) (us : List Tree) : Prop :=
  ∃ ws, Subperm ws ts ∧ Forall₂ Tree.OwnedBy us ws

namespace Owned

theorem nil (ts : List Token) : Owned ts [] :=
  ⟨[], List.nil_subperm, .nil⟩

theorem length_le (h : Owned ts us) : us.length ≤ ts.length :=
  have ⟨_, hws, hu⟩ := h
  Nat.le_trans (Nat.le_of_eq hu.length_eq) hws.length_le

theorem mono (h : Owned ts us) (hs : Subperm ts ts') : Owned ts' us :=
  have ⟨ws, hws, hu⟩ := h
  ⟨ws, hws.trans hs, hu⟩

theorem append (h : Owned ts us) (h' : Owned ts' us') : Owned (ts ++ ts') (us ++ us') :=
  have ⟨ws, hws, hu⟩ := h
  have ⟨ws', hws', hu'⟩ := h'
  ⟨ws ++ ws', hws.append hws', List.rel_append hu hu'⟩

theorem add (h : Owned ts us) (hu : u.OwnedBy w) : Owned (w :: ts) (us ++ [u]) :=
  have hw : Owned [w] [u] := ⟨[w], .refl _, .cons hu .nil⟩
  (h.append hw).mono (List.perm_append_singleton w ts).subperm

theorem negation {m : Option Tree} (h : Owned ts (Tree.filterNodes m)) (hw : w.kind = .not) :
    Owned (w :: ts) (Tree.filterNodes (m.map .negation)) := by
  cases m
  case none   => exact .nil _
  case some t => exact h.add hw

-- A comparison has one node more than its path.
theorem comparison {p : Path} {f? : Option Tree} (h : Owned ts (Tree.nodes (.path p f?))) (d : Test) :
    Owned (ts ++ d.tokens) (Tree.nodes (.comparison p f? d.meaning.1 d.meaning.2)) := by
  have ⟨w, hw, ho⟩ := d.exists_operator
  have ho : Tree.OwnedBy (.comparison p f? d.meaning.1 d.meaning.2) w := ho
  have hn : Tree.nodes (.comparison p f? d.meaning.1 d.meaning.2) =
      Tree.nodes (.path p f?) ++ [.comparison p f? d.meaning.1 d.meaning.2] := by simp [Tree.nodes]
  have hs : Subperm (w :: ts) (ts ++ d.tokens) :=
    (List.perm_append_singleton w ts).symm.subperm.trans
      ((List.Sublist.refl ts).append (List.singleton_sublist.mpr hw)).subperm
  exact hn ▸ (h.add ho).mono hs

end Owned

-- Joining adds one node at most, and none to a single operand.
theorem filterNodes_combine {join : List Tree → Tree}
    (hj : ∀ ts, (join ts).nodes = Tree.operandNodes ts ++ [join ts]) (ms : List (Option Tree)) :
    Tree.filterNodes (combine join ms) = ms.flatMap Tree.filterNodes ∨
      2 ≤ ms.length ∧
        ∃ us, Tree.filterNodes (combine join ms) = ms.flatMap Tree.filterNodes ++ [join us] := by
  have ho : ms.flatMap Tree.filterNodes = Tree.operandNodes (ms.filterMap id) := by
    induction ms
    case nil          => rfl
    case cons m ms ih => cases m <;> simp [Tree.filterNodes, Tree.operandNodes, ih]
  rw [ho, combine]
  split
  case h_1 he => exact .inl (by rw [he]; rfl)
  case h_2 he => exact .inl (by rw [he, Tree.operandNodes_eq_flatMap, List.flatMap_singleton]; rfl)
  case h_3 hn h₁ =>
    have hl : (ms.filterMap id).length ≤ ms.length := List.length_filterMap_le id ms
    exact .inr ⟨Nat.le_trans (two_le_length hn h₁) hl, ms.filterMap id, hj _⟩

-- Operands have their tokens, besides a word of some kind in front of them.
def OwnedBehind (kind : Token.Kind) (ts : List Token) (ms : List (Option Tree)) : Prop :=
  ms = [] ∨ ∃ w rest, ts = w :: rest ∧ w.kind = kind ∧ Owned rest (ms.flatMap Tree.filterNodes)

theorem OwnedBehind.owned {kind : Token.Kind} {ms : List (Option Tree)} (h : OwnedBehind kind ts ms) :
    Owned ts (ms.flatMap Tree.filterNodes) := by
  rcases h with rfl | ⟨w, rest, rfl, _, h⟩
  · exact .nil ts
  · exact h.mono (List.sublist_cons_self w rest).subperm

theorem OwnedBehind.cons {m : Option Tree} {ms : List (Option Tree)} (h : Owned ts (Tree.filterNodes m))
    (hm : OwnedBehind kind ts' ms) (hw : w.kind = kind) : OwnedBehind kind (w :: (ts ++ ts')) (m :: ms) :=
  .inr ⟨w, ts ++ ts', rfl, hw, h.append hm.owned⟩

-- The node that joins operands has one of the words between them.
theorem Owned.combine {join : List Tree → Tree} {kind : Token.Kind} {m : Option Tree}
    {ms : List (Option Tree)} (hj : ∀ ts, (join ts).nodes = Tree.operandNodes ts ++ [join ts])
    (hk : ∀ ts w, w.kind = kind → (join ts).OwnedBy w) (h : Owned ts (Tree.filterNodes m))
    (hm : OwnedBehind kind ts' ms) : Owned (ts ++ ts') (Tree.filterNodes (combine join (m :: ms))) := by
  rcases filterNodes_combine hj (m :: ms) with he | ⟨hl, us, he⟩
  · rw [he]
    exact h.append hm.owned
  · rcases hm with rfl | ⟨w, rest, rfl, hw, hm⟩
    · exact absurd hl (Nat.not_succ_le_self 1)
    · rw [he]
      exact ((h.append hm).add (hk us w hw)).mono List.perm_middle.symm.subperm

-- The nodes that a symbol means have tokens of their own.
def Meaning.Owned (ts : List Token) : (s : Symbol) → Meaning s → Prop
  | .filter, t? | .disjunction, t? | .conjunction, t? | .factor, t? =>
    Grammar.Owned ts (Tree.filterNodes t?)
  | .alternatives, ms => OwnedBehind .or ts ms
  | .conjuncts, ms    => OwnedBehind .and ts ms
  | .path, (p, f?)    => Grammar.Owned ts (Tree.nodes (.path p f?))

theorem Name.exists_first (n : Name) (sub? : Option Member) :
    ∃ w ∈ n.tokens, ∀ f?, (Tree.path (n.path sub?) f?).OwnedBy w := by
  cases n
  case plain first more =>
    have hk : first.token.kind = .identifier := List.mem_singleton.mp first.kind_mem
    exact ⟨first.token, List.mem_cons_self, fun _ => ⟨by simp [hk], rfl⟩⟩
  case qualified uri colon first more =>
    exact ⟨first.token, by simp [Name.tokens], fun _ => ⟨first.kind_mem, rfl⟩⟩

theorem Derivation.owned (d : Derivation s) : Meaning.Owned d.tokens s d.meaning := by
  induction d
  case nothing                       => exact .nil _
  case lastAlternative | lastConjunct => exact .inl rfl
  case whole ih | reference ih       => exact ih
  case disjunction ih₁ ih₂ => exact .combine (fun _ => rfl) (fun _ _ => id) ih₁ ih₂
  case conjunction ih₁ ih₂ => exact .combine (fun _ => rfl) (fun _ _ => id) ih₁ ih₂
  case alternative w _ _ ih₁ ih₂ | conjunct w _ _ ih₁ ih₂ =>
    exact .cons ih₁ ih₂ (List.mem_singleton.mp w.kind_mem)
  case negation w inner ih => exact Owned.negation ih (List.mem_singleton.mp w.kind_mem)
  case group left inner right ih =>
    exact ih.mono ((List.sublist_append_left _ _).trans (List.sublist_cons_self _ _)).subperm
  case comparison test ih => exact Owned.comparison ih test
  case namedNot w test =>
    have hw : w.token.kind ∈ [.identifier, .not] := List.mem_cons_of_mem _ w.kind_mem
    have hp : Owned [w.token] (Tree.nodes (.path (Name.notPath w) none)) := .add (.nil []) ⟨hw, rfl⟩
    exact hp.comparison test
  case bare n =>
    have ⟨w, hw, hn⟩ := n.exists_first none
    exact (Owned.add (.nil []) (hn none)).mono (List.singleton_sublist.mpr hw).subperm
  case filtered n left inner right sub? ih =>
    have ⟨w, hw, hn⟩ := n.exists_first sub?
    have hs : (w :: inner.tokens).Sublist (filtered n left inner right sub?).tokens :=
      (List.singleton_sublist.mpr hw).append
        ((List.sublist_append_left _ _).trans (List.sublist_cons_self _ _))
    exact (ih.add (hn _)).mono hs.subperm

-- How many nodes may be one above the other in what a symbol means, besides four for each level.
def Symbol.rise : Symbol → Nat
  | filter | disjunction       => 4
  | conjunction | alternatives => 3
  | factor | conjuncts         => 2
  | path                       => 0

theorem Meaning.All.imp {P Q : Tree → Prop} {m : Meaning s} (h : Meaning.All P s m)
    (hPQ : ∀ t, P t → Q t) : Meaning.All Q s m := by
  cases s
  case alternatives | conjuncts => exact fun t? hm t ht => hPQ t (h t? hm t ht)
  all_goals exact fun t ht => hPQ t (h t ht)

theorem height_combine {join : List Tree → Tree} {ms : List (Option Tree)} {k : Nat}
    (hj : ∀ ts, (join ts).height = Tree.operandsHeight ts) (h : ∀ m ∈ ms, ∀ t ∈ m, t.height < k) :
    ∀ t ∈ combine join ms, t.height < k + 1 := by
  refine of_mem_combine_imp h (fun _ => Nat.lt_succ_of_lt) fun ts _ ht => ?_
  rw [hj, Nat.lt_succ_iff, Tree.operandsHeight_le_iff]
  exact ht

theorem filterHeight_le {f? : Option Tree} {k : Nat} (h : ∀ f ∈ f?, f.height < k) :
    Tree.filterHeight f? ≤ k := by
  cases f?
  case none   => exact Nat.zero_le k
  case some f => exact h f rfl

-- A level holds a disjunction, a conjunction below it, and below that a negation or a comparison with its
-- path.
theorem Derivation.height_lt (d : Derivation s) :
    Meaning.All (fun t => t.height < 4 * d.depth + s.rise) s d.meaning := by
  have hmax {s₁ s₂ : Symbol} {m₁ : Meaning s₁} {m₂ : Meaning s₂} {j k n : Nat}
      (h₁ : Meaning.All (fun t => t.height < 4 * j + n) s₁ m₁)
      (h₂ : Meaning.All (fun t => t.height < 4 * k + n) s₂ m₂) :
      Meaning.All (fun t => t.height < 4 * max j k + n) s₁ m₁ ∧
        Meaning.All (fun t => t.height < 4 * max j k + n) s₂ m₂ :=
    ⟨h₁.imp fun _ _ => by omega, h₂.imp fun _ _ => by omega⟩
  induction d
  case nothing | lastAlternative | lastConjunct | bare => nofun
  case whole ih                 => exact ih
  case disjunction ih₁ ih₂ =>
    exact height_combine (fun _ => rfl) (List.forall_mem_cons.mpr (hmax ih₁ ih₂))
  case conjunction ih₁ ih₂ =>
    exact height_combine (fun _ => rfl) (List.forall_mem_cons.mpr (hmax ih₁ ih₂))
  case alternative ih₁ ih₂ | conjunct ih₁ ih₂ => exact List.forall_mem_cons.mpr (hmax ih₁ ih₂)
  case negation inner ih =>
    intro t ht
    have ⟨c, hc, he⟩ := Option.map_eq_some_iff.mp ht
    have := ih c hc
    subst he
    simp only [Tree.height, depth, Symbol.rise] at *
    omega
  case group ih =>
    intro t ht
    have := ih t ht
    simp only [depth, Symbol.rise] at *
    omega
  case reference ih =>
    rintro t ⟨⟩
    exact Nat.lt_of_le_of_lt (filterHeight_le ih) (Nat.lt_add_of_pos_right (by decide))
  case comparison ih =>
    rintro t ⟨⟩
    exact Nat.succ_lt_succ (Nat.lt_succ_of_le (filterHeight_le ih))
  case namedNot =>
    rintro t ⟨⟩
    exact Nat.one_lt_two
  case filtered ih => exact ih

end Grammar
open Text Grammar

-- Every token takes at least one character.
theorem Scanner.length_tokens_scan_le (s : Scanner) : s.scan.tokens.length ≤ s.rest.length := by
  fun_induction scan s
  case case1 => exact Nat.zero_le _
  case case2 => exact Nat.zero_le _
  case case3 h _ ih => exact Nat.succ_le_of_lt (Nat.lt_of_le_of_lt ih (length_rest_lt_of_next? h))

theorem length_le_of_tokenize {t : Text} {ts : List Token} (h : tokenize t = .ok ts) :
    ts.length ≤ byteLength t := by
  have hs : (Scanner.ofText t).scan.tokens.length ≤ t.length := Scanner.length_tokens_scan_le _
  unfold tokenize Scan.result at h
  split at h
  case h_1 => cases h; exact Nat.le_trans hs t.length_le_byteLength
  case h_2 => cases h

variable {l : Limits} {input : Text} {f : Filter}

-- The tokens of two nodes stand at different places.
theorem exists_owner {ts : List Token} {us : List Tree}
    (hs : Forall₂ f.arena.Shows (List.range f.size) us) (h : Owned ts us) :
    ∃ owner : Fin f.size → Fin ts.length, Function.Injective owner ∧
      ∀ i : Fin f.size, (f.arena.treeAt i i.isLt).OwnedBy ts[owner i] := by
  have ⟨ws, hw, hu⟩ := h
  have ⟨hlu, hshow⟩ := List.forall₂_iff_get.mp hs
  have ⟨hlw, howned⟩ := List.forall₂_iff_get.mp hu
  have hl : f.size = ws.length := List.length_range.symm.trans (hlu.trans hlw)
  refine ⟨fun i => hw.idxInj (i.cast hl), fun i j hij => ?_, fun i => ?_⟩
  · have he : i.cast hl = j.cast hl := hw.idxInj_injective hij
    exact Fin.ext (congrArg Fin.val he :)
  · have hi : i < us.length := hlw ▸ hl ▸ i.isLt
    have ht : ts[hw.idxInj (i.cast hl)] = ws[i.cast hl] := hw.getElem_idxInj_eq_getElem
    have hsi : f.arena.Shows i us[i] := by simpa using hshow i (by simp) hi
    have ⟨_, he⟩ := Arena.shows_iff.mp hsi
    rw [ht, he]
    exact howned i hi (hl ▸ i.isLt)

-- A filter has no more nodes than its text has tokens, each of which is at least one byte long. No node is
-- farther down than the levels allow.
theorem parse_bounds (h : parse l input = .ok (some f)) :
    ∃ ts, tokenize input = .ok ts ∧
      f.size ≤ ts.length ∧ ts.length ≤ byteLength input ∧ byteLength input ≤ l.maxLength ∧
      (∃ owner : Fin f.size → Fin ts.length, Function.Injective owner ∧
        ∀ i : Fin f.size, (f.arena.treeAt i i.isLt).OwnedBy ts[owner i]) ∧
      f.tree.height ≤ 4 * l.maxDepth + 3 ∧
      ∀ i < f.size, (f.arena.ancestors i).length ≤ 4 * l.maxDepth + 3 := by
  have ⟨hl, d, hts, hm, hd⟩ := exists_derivation_of_parse h
  have ⟨_, hc⟩ := exists_cursor_of_parse h
  have ⟨hforest, hroot⟩ := Cursor.forest_of_parse hc
  have hn := Cursor.numbered_of_parse hc
  have hs : f.arena.Shows f.root f.tree := Arena.shows_iff.mpr ⟨f.root_lt, rfl⟩
  have hnodes := hs.postorder
  rw [hn] at hnodes
  have hsize : f.size = f.tree.nodes.length := List.length_range.symm.trans hnodes.length_eq
  have howned := d.owned
  have hheight := d.height_lt
  rw [hm] at howned hheight
  have hh : f.tree.height ≤ 4 * l.maxDepth + 3 := by
    have : f.tree.height < 4 * d.depth + 4 := hheight f.tree rfl
    omega
  refine ⟨d.tokens, hts, ?_, length_le_of_tokenize hts, hl, exists_owner hnodes howned, hh, fun i hi => ?_⟩
  case refine_1 => exact hsize ▸ howned.length_le
  case refine_2 =>
    have ⟨u, _, hu⟩ := hs.length_ancestors_add_height_le hforest hroot
      ((Arena.mem_preorder_iff hforest).mp (hn.mem_preorder_iff.mpr hi))
    omega

-- One level, and as many nodes above one another as it allows.
theorem parse_bounds_deepest :
    ∃ f, parse { maxDepth := 1 } "x or y and a[x or y and b pr] pr".toList = .ok (some f) ∧
      f.size = 12 ∧ f.tree.height = 7 ∧ ∀ i < f.size, (f.arena.ancestors i).length ≤ 7 := by
  have ⟨f, hf, hs⟩ : ∃ f, parse { maxDepth := 1 } "x or y and a[x or y and b pr] pr".toList = .ok (some f) ∧
      (f.size, f.tree.height) = (12, 7) := exists_of_map_ok (by decide +kernel)
  have ⟨hsize, hheight⟩ := Prod.mk.inj hs
  have ⟨_, _, _, _, _, _, _, hancestors⟩ := parse_bounds hf
  exact ⟨f, hf, hsize, hheight, hancestors⟩

end AttributeFilter
