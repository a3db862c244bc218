import AttributeFilter.Filter.Basic
import AttributeFilter.Proofs.Filter.Builder
import AttributeFilter.Proofs.Filter.OfTree

/-!
Laying a tree out and reading it back. Every tree whose combinations have operands, and whose
comparisons have a value where their operator takes one, is laid out, and the filter has that tree.
-/

namespace AttributeFilter

-- What a builder asks for before it makes a node.
def Tree.Makeable : Tree → Prop
  | comparison _ _ o v?            => o.takesValue = v?.isSome
  | conjunction cs | disjunction cs => cs ≠ []
  | _                              => True

theorem Operator.takesValue_iff {o : Operator} {v? : Option Value} :
    o.takesValue = v?.isSome ↔ (v? = none ↔ o = present) := by
  cases o <;> cases v? <;> simp [takesValue]

namespace Builder

variable {b b₁ b₂ : Builder} {hs hs' : List Handle} {ts ts' : List Tree} {h : Handle} {t : Tree}
  {n : Node}

-- A builder has made nodes for trees, and the handles name those at their tops.
structure Lays (b : Builder) (hs : List Handle) (ts : List Tree) (b' : Builder) : Prop where
  grows  : b.Grows b'
  owns   : ∀ h ∈ hs, b'.Owns h
  length : hs.length = ts.length
  shows  : ∀ (k : Nat) (h : Handle) (t : Tree), hs[k]? = some h → ts[k]? = some t →
    b'.arena.Shows h.node t

namespace Lays

theorem nil (b : Builder) : b.Lays [] [] b where
  grows  := .refl b
  owns   := nofun
  length := rfl
  shows  := nofun

theorem cons (hl : b.Lays [h] [t] b₁) (hl' : b₁.Lays hs ts b₂) : b.Lays (h :: hs) (t :: ts) b₂ where
  grows  := hl.grows.trans hl'.grows
  owns   := List.forall_mem_cons.mpr ⟨hl'.grows.owns (hl.owns h List.mem_cons_self), hl'.owns⟩
  length := by simp [hl'.length]
  shows  := by
    intro k g u hg hu
    cases k
    case zero =>
      cases hg
      cases hu
      exact (hl.shows 0 h t rfl rfl).within hl'.grows.within
    case succ k => exact hl'.shows k g u hg hu

-- A node is made above the nodes of trees, and stands for what it makes of them.
theorem add (hl : b.Lays hs ts b₁) (hc : n.children = hs.map (·.node))
    (ho : ∀ c, n.operand? = some c → ((b₁.arena.node? c).bind Node.path?).isSome)
    (ht : ∀ {a : Arena} {i : Nat}, a.node? i = some n → n.children.length = ts.length →
      (∀ (k c : Nat) (t : Tree), n.children[k]? = some c → ts[k]? = some t → a.Shows c t) →
      a.Shows i t) : ∃ h b₂, b₁.Adds n h b₂ ∧ b.Lays [h] [t] b₂ := by
  have ⟨h, b₂, ha⟩ := exists_adds (n := n) (b := b₁) {
    children_lt  := by
      intro c hm
      have ⟨g, hg, he⟩ := List.mem_map.mp (hc ▸ hm)
      exact he ▸ (hl.owns g hg).2
    operand_path := ho }
  refine ⟨h, b₂, ha, ?_⟩
  constructor
  case grows  => exact hl.grows.trans ha.grows
  case owns   => exact List.forall_mem_singleton.mpr ha.owns
  case length => rfl
  case shows =>
    have hs : b₂.arena.Shows h.node t := by
      apply ht ha.node? (by simp [hc, hl.length])
      intro k c u hk hu
      have ⟨g, hg, he⟩ := Option.map_eq_some_iff.mp (List.getElem?_map ▸ hc ▸ hk)
      exact he ▸ (hl.shows k g u hg hu).within ha.within
    intro k g u hg hu
    match k with
    | 0 => cases hg; cases hu; exact hs

end Lays

-- What makes the nodes of a tree: whatever there is already, the tree is added and handed out.
def Makes (make : Builder → Except Error (Option Handle × Builder)) (t : Tree) : Prop :=
  ∀ b, ∃ h b', make b = .ok (some h, b') ∧ b.Lays [h] [t] b'

end Builder

namespace Tree

open Builder

variable {b b₁ : Builder} {hs : List Handle} {t : Tree} {f? : Option Tree} {ts : List Tree}
  {o : Operator} {v? : Option Value}

theorem exists_buildFilter (hf : ∀ f ∈ f?, Makes f.build f) (b : Builder) :
    ∃ h? b', buildFilter f? b = .ok (h?, b') ∧ b.Lays h?.toList f?.toList b' := by
  cases f?
  case none => exact ⟨none, b, rfl, .nil b⟩
  case some f =>
    have ⟨h, b', hb, hl⟩ := hf f rfl b
    exact ⟨some h, b', hb, hl⟩

theorem exists_path {h? : Option Handle} (p : Path) (hl : b.Lays h?.toList f?.toList b₁) :
    ∃ made b₂, b₁.path { path := p } h? = .ok (made, b₂) ∧
      b.Lays [made.handle] [path p f?] b₂ := by
  have hc : (Node.path p (h?.map (·.node))).children = h?.toList.map (·.node) := by
    cases h? <;> rfl
  have ⟨h, b₂, ha, hl'⟩ := hl.add (t := path p f?) hc nofun fun hn hlen hs => by
    cases f? <;> cases h? <;> simp [Node.children] at hlen
    case none.none     => exact .path hn
    case some.some f h => exact .filtered hn (hs 0 h.node f rfl rfl)
  exact ⟨⟨h⟩, b₂, path_eq_ok_iff.mpr ⟨fun f hf => hl.owns f (by simpa using hf), ha⟩, hl'⟩

theorem makes_path (hf : ∀ f ∈ f?, Makes f.build f) (p : Path) :
    Makes (path p f?).build (path p f?) := by
  intro b
  have ⟨h?, b₁, hb₁, hl₁⟩ := exists_buildFilter hf b
  have ⟨made, b₂, hb₂, hl₂⟩ := exists_path p hl₁
  exact ⟨made.handle, b₂, by simp [build, hb₁, hb₂, bind, Except.bind, pure, Except.pure], hl₂⟩

theorem makes_comparison (hf : ∀ f ∈ f?, Makes f.build f) (p : Path)
    (hv : o.takesValue = v?.isSome) :
    Makes (comparison p f? o v?).build (comparison p f? o v?) := by
  intro b
  have ⟨h?, b₁, hb₁, hl₁⟩ := exists_buildFilter hf b
  have ⟨left, b₂, hb₂, hl₂⟩ := exists_path p hl₁
  have ⟨f?', hp⟩ := (hl₂.shows 0 left.handle _ rfl rfl).node?_path
  have hi : ((b₂.arena.node? left.handle.node).bind Node.path?).isSome := by rw [hp]; rfl
  have ⟨h, b₃, ha, hl₃⟩ := hl₂.add (n := .comparison left.handle.node o v?)
    (t := comparison p f? o v?) rfl (by rintro _ ⟨⟩; exact hi)
    fun hn _ hs => (hs 0 _ _ rfl rfl).compare hn
  have hb₃ := comparison_eq_ok_iff.mpr ⟨⟨hl₂.owns _ List.mem_cons_self, hi⟩, hv, ha⟩
  exact ⟨h, b₃, by simp [build, hb₁, hb₂, hb₃, bind, Except.bind, pure, Except.pure], hl₃⟩

theorem makes_negation (hc : Makes t.build t) : Makes (negation t).build (negation t) := by
  intro b
  have ⟨h, b₁, hb₁, hl₁⟩ := hc b
  have ⟨h', b₂, ha, hl₂⟩ := hl₁.add (n := .negation h.node) (t := negation t) rfl nofun
    fun hn _ hs => .negation hn (hs 0 _ _ rfl rfl)
  have hb₂ := negation_eq_ok_iff.mpr ⟨hl₁.owns h List.mem_cons_self, ha⟩
  exact ⟨h', b₂, by simp [build, buildNegation, hb₁, hb₂, bind, Except.bind, pure, Except.pure], hl₂⟩

theorem exists_buildAll (hts : ∀ t ∈ ts, Makes t.build t) (b : Builder) :
    ∃ hs b', buildAll ts b = .ok (hs, b') ∧ b.Lays hs ts b' := by
  induction ts generalizing b
  case nil => exact ⟨[], b, rfl, .nil b⟩
  case cons t ts ih =>
    have ⟨h, b₁, hb₁, hl₁⟩ := hts t List.mem_cons_self b
    have ⟨hs, b₂, hb₂, hl₂⟩ := ih (fun t ht => hts t (List.mem_cons_of_mem _ ht)) b₁
    exact ⟨h :: hs, b₂, by simp [buildAll, hb₁, hb₂, bind, Except.bind, pure, Except.pure], hl₁.cons hl₂⟩

theorem handles_ne_nil (hn : ts ≠ []) (hl : b.Lays hs ts b₁) : hs ≠ [] :=
  fun he => hn (List.eq_nil_of_length_eq_zero (by simp [← hl.length, he]))

theorem makes_conjunction (hn : ts ≠ []) (hts : ∀ t ∈ ts, Makes t.build t) :
    Makes (conjunction ts).build (conjunction ts) := by
  intro b
  have ⟨hs, b₁, hb₁, hl₁⟩ := exists_buildAll hts b
  have ⟨h, b₂, ha, hl₂⟩ := hl₁.add (n := .conjunction (hs.map (·.node))) (t := conjunction ts)
    rfl nofun fun hn hlen hs => .conjunction hn hlen hs
  have hb₂ := conjunction_eq_ok_iff.mpr (.inr ⟨handles_ne_nil hn hl₁, hl₁.owns, h, rfl, ha⟩)
  exact ⟨h, b₂, by simp [build, hb₁, hb₂, bind, Except.bind], hl₂⟩

theorem makes_disjunction (hn : ts ≠ []) (hts : ∀ t ∈ ts, Makes t.build t) :
    Makes (disjunction ts).build (disjunction ts) := by
  intro b
  have ⟨hs, b₁, hb₁, hl₁⟩ := exists_buildAll hts b
  have ⟨h, b₂, ha, hl₂⟩ := hl₁.add (n := .disjunction (hs.map (·.node))) (t := disjunction ts)
    rfl nofun fun hn hlen hs => .disjunction hn hlen hs
  have hb₂ := disjunction_eq_ok_iff.mpr (.inr ⟨handles_ne_nil hn hl₁, hl₁.owns, h, rfl, ha⟩)
  exact ⟨h, b₂, by simp [build, hb₁, hb₂, bind, Except.bind], hl₂⟩

theorem makes_build (hm : All Makeable t) : Makes t.build t := by
  induction hm
  case intro t hm _ ih =>
    cases t
    case path         => exact makes_path (by simpa [parts] using ih) _
    case comparison   => exact makes_comparison (by simpa [parts] using ih) _ hm
    case negation     => exact makes_negation (ih _ List.mem_cons_self)
    case conjunction  => exact makes_conjunction hm ih
    case disjunction  => exact makes_disjunction hm ih

end Tree

-- A tree is laid out in a filter that has it.
theorem Filter.ofTree_tree {t : Tree} (hm : Tree.All Tree.Makeable t) :
    ∃ f, Filter.ofTree t = .ok (some f) ∧ f.tree = t := by
  have ⟨h, b, hb, hl⟩ := Tree.makes_build hm (.ofSerial 0)
  have ho := hl.owns h List.mem_cons_self
  have ⟨_, ht⟩ := Arena.shows_iff.mp (hl.shows 0 h t rfl rfl)
  let f : Filter := ⟨b.arena, h.node, ho.2⟩
  have hf : b.finish h = .ok f := Builder.finish_eq_ok_iff.mpr ⟨ho, rfl, rfl⟩
  exact ⟨f, by simp [ofTree, hb, hf, bind, Except.bind, pure, Except.pure], ht⟩

end AttributeFilter
