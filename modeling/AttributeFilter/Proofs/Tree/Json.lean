import AttributeFilter.Proofs.Number.Written
import AttributeFilter.Proofs.Text.Json
import AttributeFilter.Proofs.Tree.Canonical

/-!
Reading a tree off its JSON form. Members that are left out are told apart by the names of those that are there,
and a literal by the kind of value that it is written as. Only numbers that are not finite are written like
another literal.
-/

namespace AttributeFilter

open Text

theorem Operator.word_inj {o o' : Operator} (h : o.word = o'.word) : o = o' := by
  have hw := congrArg ofWord? h
  rw [ofWord?_word, ofWord?_word] at hw
  exact Option.some.inj hw

namespace Value

-- A literal that is not a number too large, or none at all.
def IsFinite (v : Value) : Prop :=
  ∀ x, v = number x → x.isFinite = true

variable {v w : Value}

theorem isProper_json (h : v.IsFinite) : v.json.IsProper := by
  cases v
  case string  => exact .string
  case boolean => exact .boolean
  case null    => exact .null
  case number x =>
    have ⟨t, hj, ht, _⟩ := exists_numberJson (h x rfl)
    have hj : (number x).json = .number t := hj
    exact hj ▸ .number ht

theorem kind_number {x : Binary64} (h : x.isFinite = true) : (number x).json.kind = .number := by
  have ⟨_, hj, _⟩ := exists_numberJson h
  exact congrArg Json.kind hj

-- Zero and its negative are written apart, since each is read back as it was.
theorem number_inj {x y : Binary64} (hx : x.isFinite = true) (hy : y.isFinite = true)
    (h : (number x).json = (number y).json) : x = y := by
  have ⟨t, ht, _, hrx⟩ := exists_numberJson hx
  have ⟨u, hu, _, hry⟩ := exists_numberJson hy
  have htu := Json.number.inj (ht.symm.trans (h.trans hu))
  exact Option.some.inj (hrx.symm.trans (htu ▸ hry))

theorem json_inj (hv : v.IsFinite) (hw : w.IsFinite) (h : v.json = w.json) : v = w := by
  have hk := congrArg Json.kind h
  cases v <;> cases w
  case number.number x y => rw [number_inj (hv x rfl) (hw y rfl) h]
  all_goals first
    | rw [kind_number (hv _ rfl)] at hk; cases hk
    | rw [kind_number (hw _ rfl)] at hk; cases hk
    | cases h <;> rfl

end Value

namespace Path

variable {p q : Path} {f? g? : Option Json}

theorem isProper_of_mem_json (h : ∀ f ∈ f?, f.IsProper) : ∀ m ∈ p.json f?, m.2.IsProper := by
  intro m hm
  simp only [json, List.mem_append, List.mem_cons, List.not_mem_nil, or_false] at hm
  rcases hm with ((rfl | rfl) | hm) | hm
  · cases p.schema? <;> constructor
  · refine .array fun j hj => ?_
    have ⟨_, _, he⟩ := List.mem_map.mp hj
    exact he ▸ .string
  · cases hs : p.sub? <;> rw [hs] at hm
    case none   => cases hm
    case some s => exact List.mem_singleton.mp hm ▸ .string
  · cases f?
    case none   => cases hm
    case some f => exact List.mem_singleton.mp hm ▸ h f rfl

theorem schema_inj {s? u? : Option Text} (h : s?.elim .null Json.string = u?.elim .null Json.string) :
    s? = u? := by
  cases s? <;> cases u? <;> cases h <;> rfl

-- A sub-attribute is not taken for a value filter, since their members have different names.
theorem tail_inj {s? u? : Option Text}
    (h : (s?.elim [] fun s => [("subAttribute".toList, Json.string s)])
        ++ (f?.elim [] fun f => [("filter".toList, f)])
      = (u?.elim [] fun s => [("subAttribute".toList, Json.string s)])
        ++ g?.elim [] fun f => [("filter".toList, f)]) : s? = u? ∧ f? = g? := by
  cases s? <;> cases u? <;> cases f? <;> cases g? <;> simp_all

theorem json_inj (h : p.json f? = q.json g?) : p = q ∧ f? = g? := by
  have h : _ :: _ :: _ = _ :: _ :: _ := h
  have ⟨hs, h⟩ := List.cons.inj h
  have ⟨hg, h⟩ := List.cons.inj h
  have ⟨hu, hf⟩ := tail_inj h
  have hg := (List.map_inj_right fun _ _ => Json.string.inj).mp (Json.array.inj (Prod.mk.inj hg).right)
  exact ⟨eq_of (schema_inj (Prod.mk.inj hs).right) hg hu, hf⟩

end Path

namespace Tree

-- No number is infinite, and none is undefined.
def IsFinite : Tree → Prop
  | comparison _ _ _ v? => ∀ v ∈ v?, v.IsFinite
  | _                   => True

variable {c t u : Tree} {f? g? : Option Tree} {ts us : List Tree} {k l : Text}
  {ms ns : List (Text × Json)}

theorem isFinite_comparison {p : Path} {o : Operator} {v? : Option Value}
    (h : ∀ x, v? = some (.number x) → x.isFinite = true) : (comparison p f? o v?).IsFinite :=
  fun _ hv x hx => h x (hx ▸ hv)

theorem isProper_typed (h : ∀ m ∈ ms, m.2.IsProper) : (typed k ms).IsProper :=
  .object (List.forall_mem_cons.mpr ⟨.string, h⟩)

theorem typed_inj (h : typed k ms = typed l ns) : k = l ∧ ms = ns := by
  have ⟨hk, hm⟩ := List.cons.inj (Json.object.inj h)
  exact ⟨Json.string.inj (Prod.mk.inj hk).right, hm⟩

theorem filterJson?_eq_map (f? : Option Tree) : filterJson? f? = f?.map json := by
  cases f? <;> rfl

theorem isProper_pathJson {p : Path} (h : ∀ f ∈ f?.toList, f.json.IsProper) :
    (pathJson p (filterJson? f?)).IsProper := by
  refine isProper_typed (Path.isProper_of_mem_json fun j hj => ?_)
  rw [filterJson?_eq_map] at hj
  have ⟨f, hf, he⟩ := Option.map_eq_some_iff.mp hj
  exact he ▸ h f (Option.mem_toList.mpr hf)

theorem isProper_jsons (h : ∀ t ∈ ts, t.json.IsProper) :
    ∀ m ∈ [(k, Json.array (jsons ts))], m.2.IsProper := by
  refine List.forall_mem_singleton.mpr (.array fun j hj => ?_)
  rw [jsons_eq_map] at hj
  have ⟨t, ht, he⟩ := List.mem_map.mp hj
  exact he ▸ h t ht

theorem isProper_json (h : t.All IsFinite) : t.json.IsProper := by
  induction h
  case intro t hf hs ih =>
    cases t
    case path => exact isProper_pathJson ih
    case comparison v? =>
      refine isProper_typed (List.forall_mem_cons.mpr ⟨isProper_pathJson ih,
        List.forall_mem_cons.mpr ⟨.string, ?_⟩⟩)
      cases v?
      case none   => nofun
      case some v => exact List.forall_mem_singleton.mpr (Value.isProper_json (hf v rfl))
    case negation c =>
      exact isProper_typed (List.forall_mem_singleton.mpr (ih c (List.mem_singleton_self c)))
    case conjunction => exact isProper_typed (isProper_jsons ih)
    case disjunction => exact isProper_typed (isProper_jsons ih)

theorem filterJson?_inj (ih : ∀ c ∈ f?.toList, ∀ d ∈ g?.toList, c.json = d.json → c = d)
    (h : filterJson? f? = filterJson? g?) : f? = g? := by
  cases f? with
  | none => cases g? with
    | none   => rfl
    | some g => cases h
  | some f => cases g? with
    | none   => cases h
    | some g =>
      rw [ih f (List.mem_singleton_self f) g (List.mem_singleton_self g) (Option.some.inj h)]

theorem jsons_inj (ih : ∀ c ∈ ts, ∀ d ∈ us, c.json = d.json → c = d) (h : jsons ts = jsons us) : ts = us := by
  induction ts generalizing us
  case nil =>
    cases us
    case nil  => rfl
    case cons => cases h
  case cons t ts iht =>
    cases us
    case nil       => cases h
    case cons u us =>
      have ⟨ht, hts⟩ := List.cons.inj h
      have ih' := fun c hc d hd => ih c (List.mem_cons_of_mem _ hc) d (List.mem_cons_of_mem _ hd)
      rw [ih t List.mem_cons_self u List.mem_cons_self ht, iht ih' hts]

theorem pathJson_inj {p q : Path} {j? k? : Option Json} (h : pathJson p j? = pathJson q k?) :
    p = q ∧ j? = k? :=
  Path.json_inj (typed_inj h).right

theorem children_inj (ih : ∀ c ∈ ts, ∀ d ∈ us, c.json = d.json → c = d)
    (h : typed k [("children".toList, .array (jsons ts))] =
      typed l [("children".toList, .array (jsons us))]) : ts = us := by
  have ⟨hc, _⟩ := List.cons.inj (typed_inj h).right
  exact jsons_inj ih (Json.array.inj (Prod.mk.inj hc).right)

theorem value_inj {v? w? : Option Value} (hv : ∀ v ∈ v?, v.IsFinite) (hw : ∀ w ∈ w?, w.IsFinite)
    (h : (v?.elim [] fun v => [("value".toList, v.json)]) = w?.elim [] fun w => [("value".toList, w.json)]) :
    v? = w? := by
  cases v? with
  | none => cases w? with
    | none   => rfl
    | some w => cases h
  | some v => cases w? with
    | none   => cases h
    | some w =>
      have ⟨h, _⟩ := List.cons.inj h
      rw [Value.json_inj (hv v rfl) (hw w rfl) (Prod.mk.inj h).right]

-- What a tree is made of can be told from its form, if that is so with the parts of it.
theorem eq_of_json_eq (ht : t.IsFinite) (hu : u.IsFinite)
    (ih : ∀ c ∈ t.parts, ∀ d ∈ u.parts, c.json = d.json → c = d) (h : t.json = u.json) : t = u := by
  cases t
  case path p f? =>
    cases u
    case path q g? =>
      have ⟨hp, hf⟩ := pathJson_inj h
      rw [hp, filterJson?_inj ih hf]
    all_goals exact absurd (typed_inj h).left (by decide)
  case comparison p f? o v? =>
    cases u
    case comparison q g? o' w? =>
      have ⟨hp, h⟩ := List.cons.inj (typed_inj h).right
      have ⟨ho, hv⟩ := List.cons.inj h
      have ⟨hp, hf⟩ := pathJson_inj (Prod.mk.inj hp).right
      have ho := Operator.word_inj (Json.string.inj (Prod.mk.inj ho).right)
      rw [hp, filterJson?_inj ih hf, ho, value_inj ht hu hv]
    all_goals exact absurd (typed_inj h).left (by decide)
  case negation c =>
    cases u
    case negation d =>
      have ⟨hc, _⟩ := List.cons.inj (typed_inj h).right
      rw [ih c (List.mem_singleton_self c) d (List.mem_singleton_self d) (Prod.mk.inj hc).right]
    all_goals exact absurd (typed_inj h).left (by decide)
  case conjunction ts =>
    cases u
    case conjunction us => exact congrArg conjunction (children_inj ih h)
    all_goals exact absurd (typed_inj h).left (by decide)
  case disjunction ts =>
    cases u
    case disjunction us => exact congrArg disjunction (children_inj ih h)
    all_goals exact absurd (typed_inj h).left (by decide)

theorem json_inj (ht : t.All IsFinite) (hu : u.All IsFinite) (h : t.json = u.json) : t = u := by
  induction ht generalizing u
  case intro t ht _ ih => exact eq_of_json_eq ht hu.here (fun c hc d hd => ih c hc (hu.part hd)) h

theorem json_compact_eq_iff (ht : t.All IsFinite) (hu : u.All IsFinite) :
    t.json.compact = u.json.compact ↔ t = u := by
  constructor
  case mp  => exact fun h => json_inj ht hu (Json.compact_inj (isProper_json ht) (isProper_json hu) h)
  case mpr => exact fun h => h ▸ rfl

end Tree
end AttributeFilter
