import AttributeFilter.Filter.NodeRef
import AttributeFilter.Proofs.Filter.Pending
import AttributeFilter.Proofs.Grammar.Acceptance

/-!
How a filter that was parsed is arranged, whatever the tokens. Every production, from any builder on, arranges
the nodes that it makes below the handles that it leaves pending, and drops none of them. So the slots of a filter
are the nodes of its tree in the order in which a walk leaves them, and the slots and the tree tell the same.
-/

namespace AttributeFilter

open Grammar AttributeFilter.Parser

namespace Grammar

variable {ts us : List Token} {t : Token} {v? : Option Value}

theorem isFinite_of_literalValue {x : Binary64} (h : literalValue t = .ok (.number x)) :
    x.isFinite = true := by
  unfold literalValue at h
  split at h
  case h_1 => split at h <;> cases h
  case h_2 =>
    split at h
    case h_1 hx => cases h; exact (Option.filter_eq_some_iff.mp hx).right
    case h_2    => cases h
  all_goals cases h

theorem isFinite_of_test {o : Operator} {x : Binary64} (h : test.Yields ts (o, v?) us)
    (hv : v? = some (.number x)) : x.isFinite = true := by
  have ⟨_, _, h⟩ := yields_test_iff.mp h
  rcases h with ⟨_, rfl, _⟩ | ⟨_, v, hl, rfl⟩
  · cases hv
  · have ⟨_, _, _, hl⟩ := yields_literal_iff.mp hl
    cases hv
    exact isFinite_of_literalValue hl

end Grammar

namespace Production

variable {α β γ : Type} {b b' b₁ : Builder} {ts us vs : List Token} {t : Token} {limit levels : Nat}
  {hs : List Handle} {h? : Option Handle} {production : Production α} {pending : α → List Handle}

theorem yields_bind_iff {g : α → Production β} {made : β × Builder} :
    ((production >>= g) b).Yields ts made vs ↔
      ∃ a b' us, (production b).Yields ts (a, b') us ∧ (g a b').Yields us made vs := by
  have hd : (production >>= g) b = production b >>= fun made => g made.1 made.2 := rfl
  rw [hd, Parser.yields_bind_iff, Prod.exists]

theorem yields_lift_bind_iff {rule : Rule γ} {g : γ → Production β} {made : β × Builder} :
    ((liftM rule >>= g) b).Yields ts made vs ↔ ∃ a us, rule.Yields ts a us ∧ (g a b).Yields us made vs := by
  rw [lift_bind_eq, Parser.yields_bind_iff]

theorem yields_map_iff {f : α → β} {a : β} :
    ((f <$> production) b).Yields ts (a, b') us ↔ ∃ c, (production b).Yields ts (c, b') us ∧ f c = a := by
  have hd : (f <$> production) b = production b >>= fun made => pure (f made.1, made.2) := rfl
  rw [hd, Parser.yields_bind_iff]
  constructor
  case mp =>
    rintro ⟨⟨c, b'⟩, us, h, hp⟩
    obtain ⟨he, rfl⟩ := yields_pure_iff.mp hp
    cases he
    exact ⟨c, h, rfl⟩
  case mpr =>
    rintro ⟨c, h, rfl⟩
    exact ⟨_, us, h, yields_pure_iff.mpr ⟨rfl, rfl⟩⟩

theorem not_yields_fail {e : Error} {made : α × Builder} : ¬((fail e : Production α) b).Yields ts made us := by
  intro h
  have hd : (fail e : Production α) b = (Parser.fail e >>= fun a => pure (a, b)) := rfl
  rw [hd] at h
  have ⟨_, _, hf, _⟩ := Parser.yields_bind_iff.mp h
  exact Parser.not_yields_fail hf

theorem yields_call_iff {make : Builder → Except Error (α × Builder)} {made : α × Builder} :
    (call make b).Yields ts made us ↔ make b = .ok made ∧ ts = us :=
  yields_ofExcept_iff

-- From any builder on, what a production makes is arranged below the handles that it leaves pending.
def Arranges (production : Production α) (pending : α → List Handle) : Prop :=
  ∀ ⦃b ts a b' us⦄, (production b).Yields ts (a, b') us → b.Arranges (pending a) b'

variable {inner? factor? filter? : Option (Production (Option Handle))} {factor : Production (Option Handle)}

theorem arranges_nested (hi : ∀ inner ∈ inner?, Arranges inner Option.toList) :
    Arranges (nested limit inner? t) Option.toList := by
  cases inner?
  case none       => exact fun _ _ _ _ _ h => absurd h not_yields_fail
  case some inner => exact hi inner rfl

-- The sub-attribute is read after the value filter, and makes no node.
theorem arranges_valueFilter (hf : ∀ filter ∈ filter?, Arranges filter Option.toList) :
    Arranges (valueFilter limit filter?) fun v => v.1.toList := by
  intro b ts v b' us h
  obtain ⟨_, _, _, h⟩ := yields_lift_bind_iff.mp h
  obtain ⟨h?, b₁, _, hn, h⟩ := yields_bind_iff.mp h
  obtain ⟨_, _, _, h⟩ := yields_lift_bind_iff.mp h
  obtain ⟨_, _, _, h⟩ := yields_lift_bind_iff.mp h
  cases (yields_pure_iff.mp h).left
  exact arranges_nested hf hn

theorem arranges_path (hf : ∀ filter ∈ filter?, Arranges filter Option.toList) :
    Arranges (path limit filter?) fun left => [left.handle] := by
  intro b ts left b' us h
  obtain ⟨p, _, _, h⟩ := yields_lift_bind_iff.mp h
  obtain ⟨ws, _, _, h⟩ := yields_lift_bind_iff.mp h
  split at h
  case isTrue =>
    obtain ⟨⟨h?, sub?⟩, b₁, _, hv, h⟩ := yields_bind_iff.mp h
    have ha := (Builder.path_eq_ok_iff.mp (yields_call_iff.mp h).left).right
    exact (arranges_valueFilter hf hv).add ha (by cases h? <;> rfl) trivial trivial
  case isFalse =>
    have ha := (Builder.path_eq_ok_iff.mp (yields_call_iff.mp h).left).right
    exact (Builder.Arranges.nil b).add ha rfl trivial trivial

theorem arranges_comparison (hf : ∀ filter ∈ filter?, Arranges filter Option.toList) :
    Arranges (comparison limit filter?) fun h => [h] := by
  intro b ts made b' us h
  obtain ⟨left, b₁, _, hp, h⟩ := yields_bind_iff.mp h
  obtain ⟨test?, _, ht, h⟩ := yields_lift_bind_iff.mp h
  have hl := arranges_path hf hp
  cases test?
  case none =>
    cases (yields_pure_iff.mp h).left
    exact hl
  case some test =>
    obtain ⟨_, _, ht, he⟩ := (yields_optional_iff.mp ht).resolve_right nofun
    cases he
    have ⟨_, hv, ha⟩ := Builder.comparison_eq_ok_iff.mp (yields_call_iff.mp h).left
    exact hl.add ha rfl (Operator.takesValue_iff.mp hv) fun _ hx => isFinite_of_test ht hx

theorem arranges_some_comparison (hf : ∀ filter ∈ filter?, Arranges filter Option.toList) :
    Arranges (some <$> comparison limit filter?) Option.toList := by
  intro b ts made? b' us h
  obtain ⟨made, hm, rfl⟩ := yields_map_iff.mp h
  exact arranges_comparison hf hm

theorem arranges_group (hf : ∀ filter ∈ filter?, Arranges filter Option.toList) :
    Arranges (group limit filter?) Option.toList := by
  intro b ts h? b' us h
  obtain ⟨_, _, _, h⟩ := yields_lift_bind_iff.mp h
  obtain ⟨h?, b₁, _, hn, h⟩ := yields_bind_iff.mp h
  obtain ⟨_, _, _, h⟩ := yields_lift_bind_iff.mp h
  cases (yields_pure_iff.mp h).left
  exact arranges_nested hf hn

-- Where the word that opens a negation is given back, no node has been made yet.
theorem arranges_negation (hf : ∀ filter ∈ filter?, Arranges filter Option.toList)
    (hi : ∀ factor ∈ factor?, Arranges factor Option.toList) :
    Arranges (negation limit filter? factor?) Option.toList := by
  intro b ts h? b' us h
  obtain ⟨opening?, _, _, h⟩ := yields_lift_bind_iff.mp h
  cases opening?
  case none => exact arranges_some_comparison hf h
  case some opening =>
    obtain ⟨child?, b₁, _, hn, h⟩ := yields_bind_iff.mp h
    have hb := arranges_nested hi hn
    cases child?
    case none =>
      cases (yields_pure_iff.mp h).left
      exact hb
    case some child =>
      obtain ⟨made, hm, rfl⟩ := yields_map_iff.mp h
      have ha := (Builder.negation_eq_ok_iff.mp (yields_call_iff.mp hm).left).right
      exact hb.add ha rfl trivial trivial

-- The operands that are pending grow from turn to turn.
theorem arranges_operands {kind : Token.Kind} (hf : Arranges factor Option.toList) :
    Arranges (operands kind factor) id := by
  intro b ts hs b' us h
  obtain ⟨first?, b₁, _, h₁, h⟩ := yields_bind_iff.mp h
  refine iterate_induction (motive := fun m => b.Arranges m.1 m.2) h (hf h₁) ?_
  rintro ⟨hs, b₂⟩ ts ⟨hs', b₃⟩ us h hb
  obtain ⟨h?, b₄, _, h₂, h⟩ := yields_bind_iff.mp h
  cases (yields_pure_iff.mp h).left
  exact hb.append (hf h₂)

-- One operand is handed on, and no operand makes no node.
theorem arranges_combine {make : List Nat → Node} {hc : ∀ cs, (make cs).children = cs}
    {ho : ∀ cs, (make cs).operand? = none} (ha : ∀ cs, (make cs).HasArity)
    (hr : ∀ cs, 2 ≤ cs.length → (make cs).IsRegular) (hb : b.Arranges hs b₁)
    (h : (combine (·.combination make hc ho) hs b₁).Yields ts (h?, b') us) : b.Arranges h?.toList b' := by
  unfold combine at h
  split at h
  case isTrue hl =>
    cases (yields_pure_iff.mp h).left
    cases hs
    case nil => exact hb
    case cons h hs =>
      cases List.eq_nil_of_length_eq_zero (Nat.lt_one_iff.mp (Nat.lt_of_succ_lt_succ hl))
      exact hb
  case isFalse hl =>
    rcases Builder.combination_eq_ok_iff.mp (yields_call_iff.mp h).left with ⟨rfl, _⟩ | ⟨_, _, made, rfl, hadd⟩
    · exact absurd (Nat.zero_lt_two) hl
    · exact hb.add hadd (hc _) (ha _) (hr _ (by rw [List.length_map]; omega))

theorem arranges_join {kind : Token.Kind} {make : List Nat → Node} (hc : ∀ cs, (make cs).children = cs)
    (ho : ∀ cs, (make cs).operand? = none) (ha : ∀ cs, (make cs).HasArity)
    (hr : ∀ cs, 2 ≤ cs.length → (make cs).IsRegular) (hf : Arranges factor Option.toList) :
    Arranges (operands kind factor >>= combine (·.combination make hc ho)) Option.toList := by
  intro b ts h? b' us h
  obtain ⟨hs, b₁, _, hs', h⟩ := yields_bind_iff.mp h
  exact arranges_combine ha hr (arranges_operands hf hs') h

theorem arranges_conjunction (hf : Arranges factor Option.toList) : Arranges (conjunction factor) Option.toList :=
  arranges_join (fun _ => rfl) (fun _ => rfl) (fun _ => trivial) (fun _ => id) hf

theorem arranges_disjunction (hf : Arranges factor Option.toList) : Arranges (disjunction factor) Option.toList :=
  arranges_join (fun _ => rfl) (fun _ => rfl) (fun _ => trivial) (fun _ => id) (arranges_conjunction hf)

theorem arranges_filter (hf : Arranges factor Option.toList) : Arranges (filter factor) Option.toList := by
  intro b ts h? b' us h
  obtain ⟨_, _, _, h⟩ := yields_lift_bind_iff.mp h
  split at h
  case isTrue =>
    cases (yields_pure_iff.mp h).left
    exact .nil b
  case isFalse => exact arranges_disjunction hf h

theorem arranges_factorAbove (hi : ∀ factor ∈ factor?, Arranges factor Option.toList) :
    Arranges (factorAbove limit factor?) Option.toList := by
  have hf : ∀ inner ∈ factor?.map filter, Arranges inner Option.toList := by
    intro _ hr
    have ⟨inner, hin, he⟩ := Option.map_eq_some_iff.mp hr
    exact he ▸ arranges_filter (hi inner hin)
  intro b ts h? b' us h
  obtain ⟨_, _, _, h⟩ := yields_lift_bind_iff.mp h
  split at h
  case h_1 => exact absurd h not_yields_fail
  case h_2 t _ _ =>
    cases hk : t.kind <;> rw [hk] at h
    case not                    => exact arranges_negation hf hi h
    case leftParen              => exact arranges_group hf h
    case identifier | schemaUri => exact arranges_some_comparison hf h
    all_goals exact absurd h not_yields_fail

theorem arranges_factor : Arranges (Production.factor limit levels) Option.toList := by
  induction levels
  case zero      => exact arranges_factorAbove nofun
  case succ n ih => exact arranges_factorAbove (by rintro _ ⟨⟩; exact ih)

theorem arranges_expression : Arranges (expression limit) Option.toList :=
  arranges_filter arranges_factor

end Production

variable {c : Cursor} {l : Limits} {f g : Filter}

-- The filter of a cursor is what one builder has arranged below the handle that is pending at last.
theorem Cursor.exists_arranges_of_parse (h : (c.parse l).1 = .ok (some f)) :
    ∃ root b, Builder.Arranges (.ofSerial 0) [root] b ∧ f.arena = b.arena ∧ f.root = root.node := by
  have ⟨⟨h?, b⟩, ho, h⟩ := bind_eq_ok_iff.mp h
  have hb : Builder.Arranges (.ofSerial 0) h?.toList b := Production.arranges_expression ⟨ho, rfl⟩
  cases h?
  case none => cases h
  case some root =>
    have ⟨g, hg, h⟩ := bind_eq_ok_iff.mp h
    cases h
    exact ⟨root, b, hb, (Builder.finish_eq_ok_iff.mp hg).right⟩

-- The slots of a filter are the nodes of its tree, numbered as a walk leaves them.
structure Filter.IsArranged (f : Filter) : Prop where
  order     : f.arena.postorder f.root = List.range f.size
  last      : f.root + 1 = f.size
  reachable : f.descendants.length = f.size ∧ ∀ i, i ∈ f.descendants ↔ i < f.size
  root      : ∀ r : NodeRef, r.filter = f → (r.isRoot = true ↔ r.id = f.root)
  rising    : ∀ i, (f.arena.children i).Pairwise (· < ·)
  block     : ∀ i < f.size, ∃ first ≤ i, ∀ d, d ∈ f.arena.preorder i ↔ first ≤ d ∧ d ≤ i
  regular   : ∀ i n, f.arena.node? i = some n → n.IsRegular

theorem Cursor.numbered_of_parse (h : (c.parse l).1 = .ok (some f)) : f.arena.Numbered f.root := by
  have ⟨root, b, hb, ha, hr⟩ := exists_arranges_of_parse h
  have hn := hb.numbers.order
  rw [Arena.Numbered, ha, hr]
  simpa [Builder.size, Builder.ofSerial, Arena.size, Arena.empty] using hn

theorem Cursor.forest_of_parse (h : (c.parse l).1 = .ok (some f)) :
    f.arena.Forest ∧ f.arena.parent? f.root = none := by
  have ⟨root, b, hb, ha, hr⟩ := exists_arranges_of_parse h
  have hp := hb.plants Arena.forest_empty
  rw [ha, hr]
  exact ⟨hp.forest, hp.parent root List.mem_cons_self⟩

theorem forest_of_parse {t : Text} (h : parse l t = .ok (some f)) :
    f.arena.Forest ∧ f.arena.parent? f.root = none := by
  have ⟨_, hc⟩ := exists_cursor_of_parse h
  exact Cursor.forest_of_parse hc

theorem Cursor.isRegular_of_parse (h : (c.parse l).1 = .ok (some f)) : f.arena.IsRegular := by
  have ⟨root, b, hb, ha, _⟩ := exists_arranges_of_parse h
  exact ha ▸ hb.regular fun _ _ hn => by simp [Builder.ofSerial, Arena.node?, Arena.empty] at hn

theorem Cursor.isArranged_of_parse (h : (c.parse l).1 = .ok (some f)) : f.IsArranged := by
  have hn := numbered_of_parse h
  have ⟨hforest, hroot⟩ := forest_of_parse h
  constructor
  case order     => exact hn
  case last      => exact hn.succ_eq_size
  case reachable =>
    rw [f.descendants_eq]
    exact ⟨hn.length_preorder, fun _ => hn.mem_preorder_iff⟩
  case root =>
    intro r hr
    subst hr
    rw [NodeRef.isRoot, Option.isNone_iff_eq_none]
    exact hn.parent?_eq_none_iff hforest hroot r.id_lt
  case rising  => exact hn.children_pairwise
  case block   => exact fun _ => hn.exists_block
  case regular => exact isRegular_of_parse h

-- The slots hold the tree, and the tree tells the slots, for it is laid out in one way.
theorem Cursor.tree_eq_iff_of_parse {c' : Cursor} {l' : Limits} (h : (c.parse l).1 = .ok (some f))
    (h' : (c'.parse l').1 = .ok (some g)) : f.tree = g.tree ↔ f.arena.slots = g.arena.slots := by
  constructor
  case mp =>
    intro he
    have ⟨t, ht, hm⟩ := exists_ofTree_of_parse h
    have ⟨u, hu, hmu⟩ := exists_ofTree_of_parse h'
    have ⟨_, hf, hft⟩ := Filter.ofTree_tree hm
    have ⟨_, hg, hgt⟩ := Filter.ofTree_tree hmu
    cases ht.symm.trans hf
    cases hu.symm.trans hg
    have htu : t = u := hft.symm.trans (he.trans hgt)
    subst htu
    cases hf.symm.trans hg
    rfl
  case mpr =>
    intro he
    have ha := Arena.eq_of_slots_eq he
    have hr : f.root = g.root := by
      have h₁ := (numbered_of_parse h).succ_eq_size
      have h₂ := (numbered_of_parse h').succ_eq_size
      rw [ha] at h₁
      omega
    have hfg : f = g := by
      cases f
      cases g
      cases ha
      cases hr
      rfl
    rw [hfg]

-- A filter that was parsed is arranged, and two of them have the same tree if and only if they have the same
-- slots.
theorem Cursor.parse_arranged (h : (c.parse l).1 = .ok (some f)) :
    f.IsArranged ∧ ∀ (c' : Cursor) (l' : Limits) (g : Filter), (c'.parse l').1 = .ok (some g) →
      (f.tree = g.tree ↔ f.arena.slots = g.arena.slots) :=
  ⟨isArranged_of_parse h, fun _ _ _ h' => tree_eq_iff_of_parse h h'⟩

-- A group that is nothing, and a token that is left.
def gapCursor : Cursor :=
  .ofTokens [.ofText .leftParen "(".toList, .ofText .rightParen ")".toList, .ofText .or "or".toList,
    .ofText .identifier "a".toList, .ofText .and "and".toList, .ofText .identifier "b".toList,
    .ofText .operator "eq".toList, .ofText .number "1".toList, .ofText .rightParen ")".toList]

def groupCursor : Cursor :=
  .ofTokens [.ofText .identifier "a".toList, .ofText .and "and".toList, .ofText .leftParen "(".toList,
    .ofText .identifier "b".toList, .ofText .operator "eq".toList, .ofText .number "1.0".toList,
    .ofText .rightParen ")".toList]

theorem Cursor.parse_arranged_gapCursor :
    ∃ f g, (gapCursor.parse {}).1 = .ok (some f) ∧ (groupCursor.parse {}).1 = .ok (some g) ∧
      f.IsArranged ∧ f.tree = g.tree := by
  have ⟨f, hf, hs⟩ : ∃ f, (gapCursor.parse {}).1 = .ok (some f) ∧
      some f.arena.slots = ((groupCursor.parse {}).1.toOption.bind id).map (·.arena.slots) :=
    exists_of_map_ok (by decide +kernel)
  have ⟨g, hg, hgs⟩ := exists_of_map_ok hs.symm
  have ⟨ha, hi⟩ := Cursor.parse_arranged hf
  exact ⟨f, g, hf, hg, ha, (hi _ _ g hg).mpr hgs.symm⟩

end AttributeFilter
