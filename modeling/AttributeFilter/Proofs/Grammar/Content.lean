import AttributeFilter.Proofs.Grammar.Acceptance
import AttributeFilter.Proofs.Grammar.Agreement
import AttributeFilter.Proofs.Token.Places
import AttributeFilter.Proofs.Tree.Content

/-!
Nothing is lost on the way from tokens to a filter. The names of a filter are the names among the tokens that
have been taken, and its comparisons are the operators among them, all in the order of the tokens. There is
no filter only where the tokens mention no attribute.
-/

namespace AttributeFilter

open Grammar AttributeFilter.Parser

namespace Place

-- Whether a token is a part of the name of an attribute.
def isName (p : Place) : Bool :=
  p.token.kind ∈ [.schemaUri, .identifier] || p.isNamedNot

def isTest (p : Place) : Bool :=
  p.token.kind = .operator

-- The operator that a token names and, if it takes one, the value of the literal right behind it.
def test? (p : Place) : Option (Operator × Option Value) := do
  let o ← Operator.ofWord? p.token.text
  if o.takesValue then
    let v ← (literalValue (← p.behind?)).toOption
    return (o, some v)
  else return (o, none)

end Place

-- The kinds of tokens that mention an attribute.
def Token.Kind.mentions : List Token.Kind :=
  [.identifier, .schemaUri, .operator]

namespace Grammar

variable {b : Option Token} {c d us ts : List Token} {t : Token} {ns ns' : List Text}
  {vs vs' : List (Operator × Option Value)} {t? : Option Tree}

-- The names and the tests that some tokens tell at their places.
structure Tells (b : Option Token) (c us : List Token) (ns : List Text)
    (vs : List (Operator × Option Value)) : Prop where
  names : ((places b c us).filter Place.isName).map (·.token.text) = ns
  tests : ((places b c us).filter Place.isTest).map Place.test? = vs.map some

namespace Tells

theorem nil : Tells b [] us [] [] :=
  ⟨rfl, rfl⟩

theorem append (h : Tells b c (d ++ us) ns vs) (h' : Tells (lastOf b c) d us ns' vs') :
    Tells b (c ++ d) us (ns ++ ns') (vs ++ vs') where
  names := by rw [places_append, List.filter_append, List.map_append, h.names, h'.names]
  tests := by rw [places_append, List.filter_append, List.map_append, h.tests, h'.tests, List.map_append]

theorem cons (h : Tells b [t] (d ++ us) ns vs) (h' : Tells (some t) d us ns' vs') :
    Tells b (t :: d) us (ns ++ ns') (vs ++ vs') :=
  .append (c := [t]) h h'

-- A token that stands for nothing by itself.
theorem mark (h : t.kind ∉ .not :: Token.Kind.mentions) : Tells b [t] us [] [] := by
  simp only [Token.Kind.mentions, List.mem_cons, List.not_mem_nil, or_false, not_or] at h
  constructor <;> simp [places, Place.isName, Place.isTest, Place.isNamedNot, h]

theorem name (h : t.kind ∈ [.schemaUri, .identifier]) : Tells b [t] us [t.text] [] := by
  have h : t.kind = .schemaUri ∨ t.kind = .identifier := by simpa using h
  rcases h with h | h <;> constructor <;> simp [places, Place.isName, Place.isTest, h]

theorem namedNot (hk : t.kind = .not) (h : isColon b = true ∨ isNext [.operator] us = true) :
    Tells b [t] us [t.text] [] := by
  have hn : (isColon b || us.head?.any fun t => t.kind = .operator) = true := by
    cases us <;> simp_all
  constructor <;> simp [places, Place.isName, Place.isTest, Place.isNamedNot, hk, hn]

theorem negation (hk : t.kind = .not) (hb : isColon b = false) (hn : isNext [.operator] us = false) :
    Tells b [t] us [] [] := by
  have hn : (isColon b || us.head?.any fun t => t.kind = .operator) = false := by
    cases us <;> simp_all
  constructor <;> simp [places, Place.isName, Place.isTest, Place.isNamedNot, hk, hn]

theorem operator {v : Operator × Option Value} (hk : t.kind = .operator)
    (hv : ({ before? := b, token := t, behind? := us.head? } : Place).test? = some v) :
    Tells b [t] us [] [v] := by
  constructor <;> simp [places, Place.isName, Place.isTest, Place.isNamedNot, hk, hv]

end Tells

-- Names, and a dot before each of them.
theorem tells_members {names : List Text}
    (h : (behindEach .dot (segment [.identifier])).Yields ts names us) (hb : isColon b = false) :
    ∃ c, ts = c ++ us ∧ Tells b c us names [] ∧ isColon (lastOf b c) = false := by
  refine behindEach_induction (motive := fun ts names => ∀ {b}, isColon b = false →
    ∃ c, ts = c ++ us ∧ Tells b c us names [] ∧ isColon (lastOf b c) = false) h ?stop ?step hb
  case stop => exact fun _ _ hb => ⟨[], rfl, .nil, hb⟩
  case step =>
    intro d ts a vs as hk h₁ _ ih b _
    have ⟨t, ht, hkt, ha⟩ := yields_segment_iff.mp h₁
    have hkt := List.mem_singleton.mp hkt
    have ⟨c, hc, htells, hl⟩ := ih (b := some t) (by simp [isColon, hkt])
    subst ht ha hc
    refine ⟨d :: t :: c, rfl, ?_, hl⟩
    exact .cons (.mark (by simp [hk, Token.Kind.mentions])) (.cons (.name (by simp [hkt])) htells)

theorem names_ofSegments {segments : List Text} {p : Path} (h : Path.ofSegments segments = .ok p) :
    p.segments = segments ∧ p.sub? = none := by
  unfold Path.ofSegments at h
  split at h
  · cases h; exact ⟨rfl, rfl⟩
  · cases h

-- The first segment may be the word `not` where it is a name.
theorem tells_segments {first : Text} {more : List Text} {vs : List Token}
    (h : (segment [.identifier, .not]).Yields ts first vs)
    (hm : (behindEach .dot (segment [.identifier])).Yields vs more us)
    (hn : ∀ t, ts = t :: vs → t.kind = .not → isColon b = true ∨ isNext [.operator] vs = true) :
    ∃ c, ts = c ++ us ∧ Tells b c us (first :: more) [] ∧ isColon (lastOf b c) = false := by
  have ⟨t, ht, hk, hft⟩ := yields_segment_iff.mp h
  have hk : t.kind = .identifier ∨ t.kind = .not := by simpa using hk
  have hl : isColon (some t) = false := by rcases hk with hk | hk <;> simp [isColon, hk]
  have ⟨c, hc, htells, hl⟩ := tells_members hm hl
  have hfirst : Tells b [t] (c ++ us) [t.text] [] := by
    rcases hk with hk | hk
    · exact .name (by simp [hk])
    · exact .namedNot hk (hc ▸ hn t ht hk)
  exact ⟨t :: c, by rw [ht, hc, List.cons_append], hft ▸ hfirst.cons htells, hl⟩

-- A word `not` that begins a name stands before an operator, if no schema stands before it.
theorem tells_name {p : Path} (h : name.Yields ts p us)
    (hnot : ∀ t vs, ts = t :: vs → t.kind = .not → isNext [.operator] vs = true) :
    p.sub? = none ∧ ∃ c, ts = c ++ us ∧ Tells b c us (p.schema?.toList ++ p.segments) [] ∧
      isColon (lastOf b c) = false := by
  have ⟨schema?, vs, first, ws, more, p', hs, hf, hm, hp, he⟩ := yields_name_iff.mp h
  have ⟨hsegments, hsub⟩ := names_ofSegments hp
  refine ⟨he ▸ hsub, ?_⟩
  rw [← he, show (p'.withSchema schema?).segments = first :: more from hsegments]
  rcases yields_optional_iff.mp hs with ⟨_, s, hs', rfl⟩ | ⟨_, rfl, rfl⟩
  · have ⟨u, k, hu, hku, hkk, hsu⟩ := yields_schema_iff.mp hs'
    have hk : isColon (some k) = true := by simp [isColon, hkk]
    have ⟨c, hc, htells, hl⟩ := tells_segments hf hm fun _ _ _ => .inl hk
    subst hu hsu hc
    have hmark : Tells (some u) [k] (c ++ us) [] [] := .mark (by simp [hkk, Token.Kind.mentions])
    exact ⟨u :: k :: c, rfl, .cons (.name (by simp [hku])) (hmark.cons htells), hl⟩
  · exact tells_segments hf hm fun t ht hk => .inr (hnot t ws ht hk)

theorem tells_subAttribute {sub? : Option Text} (h : (optional .dot subAttribute).Yields ts sub? us)
    (hb : isColon b = false) :
    ∃ c, ts = c ++ us ∧ Tells b c us sub?.toList [] ∧ isColon (lastOf b c) = false := by
  rcases yields_optional_iff.mp h with ⟨_, s, hs, rfl⟩ | ⟨_, rfl, rfl⟩
  · have ⟨d, t, hts, hd, ht, hst⟩ := yields_subAttribute_iff.mp hs
    subst hts hst
    refine ⟨[d, t], rfl, ?_, by simp [isColon, lastOf, ht]⟩
    exact .cons (.mark (by simp [hd, Token.Kind.mentions])) (.name (by simp [ht]))
  · exact ⟨[], rfl, .nil, hb⟩

-- An operator tells its test with the literal that stands behind it.
theorem tells_test {o : Operator} {v? : Option Value} (h : test.Yields ts (o, v?) us) :
    ∃ c, ts = c ++ us ∧ Tells b c us [] [(o, v?)] ∧ isColon (lastOf b c) = false ∧
      o.takesValue = v?.isSome ∧ ∃ t ∈ c, t.kind = .operator := by
  have ⟨vs, ho, h⟩ := yields_test_iff.mp h
  have ⟨t, ht, hk, hword⟩ := yields_operator_iff.mp ho
  rcases h with ⟨rfl, rfl, rfl⟩ | ⟨hp, v, hv, rfl⟩
  · refine ⟨[t], ht, .operator hk ?_, by simp [isColon, lastOf, hk], rfl, t, List.mem_cons_self, hk⟩
    simp [Place.test?, hword, Operator.takesValue]
  · obtain ⟨u, hu, hku, hvalue⟩ := yields_literal_iff.mp hv
    have htakes : o.takesValue = true := by cases o <;> first | rfl | exact absurd rfl hp
    subst ht hu
    simp only [Token.Kind.literals, List.mem_cons, List.not_mem_nil, or_false] at hku
    have hmark : Tells (some t) [u] us [] [] :=
      .mark (by rcases hku with hk | hk | hk | hk | hk <;> simp [hk, Token.Kind.mentions])
    have hl : isColon (some u) = false := by
      rcases hku with hk | hk | hk | hk | hk <;> simp [isColon, hk]
    refine ⟨[t, u], rfl, .cons (.operator hk ?_) hmark, hl, htakes, t, List.mem_cons_self, hk⟩
    simp [Place.test?, hword, htakes, hvalue, Except.toOption]

-- What some tokens tell is what is in a tree that can be laid out. There is none only if the tokens
-- mention no attribute.
structure Conveys (b : Option Token) (c us : List Token) (t? : Option Tree) : Prop where
  tells    : Tells b c us (Tree.filterNames t?) (Tree.filterTests t?)
  last     : isColon (lastOf b c) = false
  makeable : ∀ t ∈ t?, Tree.All Tree.Makeable t
  nothing  : t? = none ↔ ∀ t ∈ c, t.kind ∉ Token.Kind.mentions

-- A rule loses nothing.
def Keeps (p : Rule (Option Tree)) : Prop :=
  ∀ ⦃b ts t? us⦄, p.Yields ts t? us → isColon b = false → ∃ c, ts = c ++ us ∧ Conveys b c us t?

variable {limit : Nat} {inner : Rule (Option Tree)} {inner? : Option (Rule (Option Tree))}

-- A marked token before and another one behind add nothing.
theorem Conveys.between {l r : Token} (hl : l.kind ∈ [.leftParen, .leftBracket])
    (hr : r.kind ∈ [.rightParen, .rightBracket]) (h : Conveys (some l) c (r :: us) t?) :
    Conveys b (l :: (c ++ [r])) us t? := by
  have hl : l.kind = .leftParen ∨ l.kind = .leftBracket := by simpa using hl
  have hr : r.kind = .rightParen ∨ r.kind = .rightBracket := by simpa using hr
  have hml : l.kind ∉ .not :: Token.Kind.mentions := by
    rcases hl with hl | hl <;> simp [hl, Token.Kind.mentions]
  have hmr : r.kind ∉ .not :: Token.Kind.mentions := by
    rcases hr with hr | hr <;> simp [hr, Token.Kind.mentions]
  have hlast : isColon (some r) = false := by rcases hr with hr | hr <;> simp [isColon, hr]
  constructor
  case tells =>
    have hin : Tells (some l) (c ++ [r]) us (Tree.filterNames t? ++ []) (Tree.filterTests t? ++ []) :=
      h.tells.append (.mark hmr)
    rw [List.append_nil, List.append_nil] at hin
    exact .cons (.mark hml) hin
  case last => rw [← List.cons_append, lastOf_append]; exact hlast
  case makeable => exact h.makeable
  case nothing =>
    rw [h.nothing, List.forall_mem_cons, List.forall_mem_append, List.forall_mem_singleton]
    grind

theorem keeps_group (hi : ∀ inner ∈ inner?, Keeps inner) : Keeps (group limit inner?) := by
  intro b ts t? us h hb
  have ⟨l, vs, r, inner, hts, hl, hin, hy, hr⟩ := yields_group_iff.mp h
  have ⟨c, hc, hcv⟩ := hi inner hin hy (b := some l) (by simp [isColon, hl])
  subst hts hc
  exact ⟨l :: (c ++ [r]), by simp, hcv.between (by simp [hl]) (by simp [hr])⟩

-- The word `not` is no name where no operator is next.
theorem keeps_negation (hi : ∀ inner ∈ inner?, Keeps inner) (h : (negation limit inner?).Yields ts t? us)
    (hb : isColon b = false) (hn : ∀ t vs, ts = t :: vs → isNext [.operator] vs = false) :
    ∃ c, ts = c ++ us ∧ Conveys b c us t? := by
  have ⟨n, vs, inner, child?, hts, hk, hin, hy, he⟩ := yields_negation_iff.mp h
  have ⟨c, hc, hcv⟩ := hi inner hin hy (b := some n) (by simp [isColon, hk])
  subst hts hc he
  refine ⟨n :: c, rfl, ?_, hcv.last, ?_, ?_⟩
  case refine_1 =>
    have ht := (Tells.negation hk hb (hn _ _ rfl)).cons hcv.tells
    cases child? <;> exact ht
  case refine_2 =>
    intro t ht
    have ⟨u, hu, he⟩ := Option.map_eq_some_iff.mp ht
    exact he ▸ .intro trivial (by simpa [Tree.parts] using hcv.makeable u hu)
  case refine_3 =>
    rw [Option.map_eq_none_iff, hcv.nothing, List.forall_mem_cons]
    simp [hk, Token.Kind.mentions]

theorem tells_valueFilter (hi : ∀ inner ∈ inner?, Keeps inner) {sub? : Option Text}
    (h : (valueFilter limit inner?).Yields ts (t?, sub?) us) :
    ∃ c, ts = c ++ us ∧ Tells b c us (Tree.filterNames t? ++ sub?.toList) (Tree.filterTests t?) ∧
      isColon (lastOf b c) = false ∧ ∀ t ∈ t?, Tree.All Tree.Makeable t := by
  have ⟨l, vs, r, ws, inner, hts, hl, hin, hy, hr, hsub⟩ := yields_valueFilter_iff.mp h
  have ⟨c, hc, hcv⟩ := hi inner hin hy (b := some l) (by simp [isColon, hl])
  have hcv : Conveys b (l :: (c ++ [r])) ws t? := hcv.between (by simp [hl]) (by simp [hr])
  have ⟨d, hd, ht, hlast⟩ := tells_subAttribute hsub hcv.last
  subst hts hc hd
  refine ⟨(l :: (c ++ [r])) ++ d, by simp, ?_, by rw [lastOf_append]; exact hlast, hcv.makeable⟩
  have htells := hcv.tells.append ht
  rwa [List.append_nil] at htells

theorem tells_path (hi : ∀ inner ∈ inner?, Keeps inner) {p : Path}
    (h : (path limit inner?).Yields ts (p, t?) us)
    (hnot : ∀ t vs, ts = t :: vs → t.kind = .not → isNext [.operator] vs = true) :
    ∃ c, ts = c ++ us ∧ Tells b c us (p.names (Tree.filterNames t?)) (Tree.filterTests t?) ∧
      isColon (lastOf b c) = false ∧ ∀ t ∈ t?, Tree.All Tree.Makeable t := by
  have ⟨p', vs, hp, h⟩ := yields_path_iff.mp h
  have ⟨hsub, c, hc, ht, hl⟩ := tells_name (b := b) hp hnot
  rcases h with ⟨_, rfl, rfl, rfl⟩ | ⟨sub?, hf, rfl⟩
  · exact ⟨c, hc, by simpa [Path.names, hsub, Tree.filterNames, Tree.filterTests] using ht, hl, nofun⟩
  · obtain ⟨d, rfl, htf, hl, hm⟩ := tells_valueFilter hi hf (b := lastOf b c)
    refine ⟨c ++ d, by rw [hc, List.append_assoc], ?_, by rw [lastOf_append]; exact hl, hm⟩
    simpa [Path.names, Path.withSub] using ht.append htf

theorem tells_comparison (hi : ∀ inner ∈ inner?, Keeps inner) {tree : Tree}
    (h : (comparison limit inner?).Yields ts tree us)
    (hnot : ∀ t vs, ts = t :: vs → t.kind = .not → isNext [.operator] vs = true) :
    ∃ c, ts = c ++ us ∧ Tells b c us tree.names tree.tests ∧ isColon (lastOf b c) = false ∧
      Tree.All Tree.Makeable tree ∧
      (isNext [.operator] us = false ∨ ∃ t ∈ c, t.kind = .operator) := by
  have ⟨p, f?, vs, hp, h⟩ := yields_comparison_iff.mp h
  have ⟨c, hc, ht, hl, hm⟩ := tells_path (b := b) hi hp hnot
  have hm : ∀ t ∈ f?.toList, Tree.All Tree.Makeable t := fun t ht => hm t (Option.mem_toList.mp ht)
  rcases h with ⟨hn, rfl, rfl⟩ | ⟨o, v?, htest, rfl⟩
  · exact ⟨c, hc, ht, hl, .intro trivial hm, .inl hn⟩
  · have ⟨d, hd, ht', hl, htakes, hop⟩ := tells_test (b := lastOf b c) htest
    subst hd
    refine ⟨c ++ d, by rw [hc, List.append_assoc], ?_, by rw [lastOf_append]; exact hl,
      .intro htakes hm, .inr ?_⟩
    · have := ht.append ht'
      rwa [List.append_nil] at this
    · have ⟨t, hd, hk⟩ := hop
      exact ⟨t, List.mem_append_right c hd, hk⟩

-- Several operands.
structure ConveysAll (b : Option Token) (c us : List Token) (operands : List (Option Tree)) : Prop where
  tells    : Tells b c us (operands.flatMap Tree.filterNames) (operands.flatMap Tree.filterTests)
  last     : isColon (lastOf b c) = false
  makeable : ∀ t? ∈ operands, ∀ t ∈ t?, Tree.All Tree.Makeable t
  nothing  : (∀ t? ∈ operands, t? = none) ↔ ∀ t ∈ c, t.kind ∉ Token.Kind.mentions

theorem Conveys.cons {operands : List (Option Tree)} (h : Conveys b c (d ++ us) t?)
    (h' : ConveysAll (lastOf b c) d us operands) : ConveysAll b (c ++ d) us (t? :: operands) where
  tells    := h.tells.append h'.tells
  last     := lastOf_append ▸ h'.last
  makeable := List.forall_mem_cons.mpr ⟨h.makeable, h'.makeable⟩
  nothing  := by rw [List.forall_mem_cons, List.forall_mem_append, h.nothing, h'.nothing]

theorem keeps_behindEach {kind : Token.Kind} (hk : kind ∈ [.and, .or]) (hp : Keeps inner)
    {operands : List (Option Tree)} (h : (behindEach kind inner).Yields ts operands us)
    (hb : isColon b = false) : ∃ c, ts = c ++ us ∧ ConveysAll b c us operands := by
  refine behindEach_induction (motive := fun ts operands => ∀ {b}, isColon b = false →
    ∃ c, ts = c ++ us ∧ ConveysAll b c us operands) h ?stop ?step hb
  case stop => exact fun _ _ hb => ⟨[], rfl, .nil, hb, nofun, by simp⟩
  case step =>
    intro s ts t? vs operands hs hy _ ih b _
    have hs : s.kind = .and ∨ s.kind = .or := by simpa [hs] using hk
    have hl : isColon (some s) = false := by rcases hs with hs | hs <;> simp [isColon, hs]
    have hms : s.kind ∉ .not :: Token.Kind.mentions := by
      rcases hs with hs | hs <;> simp [hs, Token.Kind.mentions]
    have ⟨c, hc, hcv⟩ := hp hy hl
    have ⟨d, hd, hcvs⟩ := ih hcv.last
    subst hc hd
    have hall := hcv.cons hcvs
    have ht : Tells b (s :: (c ++ d)) us ([] ++ (t? :: operands).flatMap Tree.filterNames)
        ([] ++ (t? :: operands).flatMap Tree.filterTests) := .cons (.mark hms) hall.tells
    refine ⟨s :: (c ++ d), by simp, ht, hall.last, hall.makeable, ?_⟩
    rw [hall.nothing, List.forall_mem_cons]
    simp_all

-- What is in operands that are joined is what is in each of them.
theorem elim_combine {α : Type} {g : Tree → List α} {join : List Tree → Tree}
    (hj : ∀ ts, g (join ts) = ts.flatMap g) (operands : List (Option Tree)) :
    (combine join operands).elim [] g = operands.flatMap (·.elim [] g) := by
  have ho : operands.flatMap (·.elim [] g) = (operands.filterMap id).flatMap g := by
    induction operands
    case nil => rfl
    case cons t? operands ih => cases t? <;> simp [ih]
  rw [ho, combine]
  split
  case h_1 he => rw [he]; rfl
  case h_2 he => rw [he]; simp
  case h_3    => exact hj _

theorem combine_eq_none_iff {join : List Tree → Tree} {operands : List (Option Tree)} :
    combine join operands = none ↔ ∀ t? ∈ operands, t? = none := by
  have ho : operands.filterMap id = [] ↔ ∀ t? ∈ operands, t? = none := List.filterMap_eq_nil_iff
  rw [← ho, combine]
  split
  case h_1 he => exact ⟨fun _ => he, fun _ => rfl⟩
  case h_2 he => exact ⟨nofun, fun h => nomatch he.symm.trans h⟩
  case h_3 hn _ => exact ⟨nofun, fun h => absurd h hn⟩

theorem ConveysAll.combine {join : List Tree → Tree} {operands : List (Option Tree)}
    (hnames : ∀ ts, (join ts).names = Tree.operandNames ts)
    (htests : ∀ ts, (join ts).tests = Tree.operandTests ts) (hparts : ∀ ts, (join ts).parts = ts)
    (hm : ∀ ts, ts ≠ [] → (join ts).Makeable) (h : ConveysAll b c us operands) :
    Conveys b c us (combine join operands) where
  tells := by
    have hn := elim_combine (fun ts => (hnames ts).trans (Tree.operandNames_eq_flatMap ts)) operands
    have ht := elim_combine (fun ts => (htests ts).trans (Tree.operandTests_eq_flatMap ts)) operands
    have htells := h.tells
    rw [Tree.filterNames_eq_elim, Tree.filterTests_eq_elim] at htells ⊢
    dsimp only
    rwa [hn, ht]
  last := h.last
  makeable := of_mem_combine h.makeable fun ts hl hts =>
    .intro (hm ts (by rintro rfl; cases hl)) (by rw [hparts]; exact hts)
  nothing := combine_eq_none_iff.trans h.nothing

theorem keeps_conjunction (hf : Keeps inner) : Keeps (conjunction inner) := by
  intro b ts t? us h hb
  have ⟨first?, vs, more, h₁, h₂, he⟩ := yields_conjunction_iff.mp h
  have ⟨c, hc, hcv⟩ := hf h₁ hb
  have ⟨d, hd, hcvs⟩ := keeps_behindEach (by simp) hf h₂ hcv.last
  subst hc hd he
  exact ⟨c ++ d, by simp, (hcv.cons hcvs).combine (fun _ => rfl) (fun _ => rfl) (fun _ => rfl) fun _ => id⟩

theorem keeps_disjunction (hf : Keeps inner) : Keeps (disjunction inner) := by
  intro b ts t? us h hb
  have ⟨first?, vs, more, h₁, h₂, he⟩ := yields_disjunction_iff.mp h
  have ⟨c, hc, hcv⟩ := keeps_conjunction hf h₁ hb
  have ⟨d, hd, hcvs⟩ := keeps_behindEach (by simp) (keeps_conjunction hf) h₂ hcv.last
  subst hc hd he
  exact ⟨c ++ d, by simp, (hcv.cons hcvs).combine (fun _ => rfl) (fun _ => rfl) (fun _ => rfl) fun _ => id⟩

theorem keeps_filter (hf : Keeps inner) : Keeps (filter inner) := by
  intro b ts t? us h hb
  rcases yields_filter_iff.mp h with ⟨_, rfl, rfl⟩ | ⟨_, h⟩
  · exact ⟨[], rfl, .nil, hb, nofun, by simp⟩
  · exact keeps_disjunction hf h hb

-- The first token of a comparison mentions the attribute, or it is the word `not` with an operator behind it.
theorem exists_mention {ws : List Token} (hts : t :: ws = c ++ us) (hl : us.length < (t :: ws).length)
    (hk : t.kind = .identifier ∨ t.kind = .schemaUri ∨ t.kind = .not ∧ isNext [.operator] ws = true)
    (hop : isNext [.operator] us = false ∨ ∃ o ∈ c, o.kind = .operator) :
    ∃ u ∈ c, u.kind ∈ Token.Kind.mentions := by
  cases c
  case nil => exact absurd hl (by rw [hts]; exact Nat.lt_irrefl _)
  case cons u c =>
    cases hts
    rcases hk with hk | hk | ⟨hk, hn⟩
    · exact ⟨t, List.mem_cons_self, by simp [hk, Token.Kind.mentions]⟩
    · exact ⟨t, List.mem_cons_self, by simp [hk, Token.Kind.mentions]⟩
    · rcases hop with hop | ⟨o, ho, hko⟩
      · cases c
        case nil => exact absurd (hn.symm.trans hop) nofun
        case cons o c =>
          have hko : o.kind = .operator := by simpa using hn
          exact ⟨o, by simp, by simp [hko, Token.Kind.mentions]⟩
      · exact ⟨o, ho, by simp [hko, Token.Kind.mentions]⟩

theorem keeps_factorAbove (hi : ∀ inner ∈ inner?, Keeps inner) : Keeps (factorAbove limit inner?) := by
  have hf : ∀ rule ∈ inner?.map filter, Keeps rule := by
    intro rule hr
    have ⟨inner, hin, he⟩ := Option.map_eq_some_iff.mp hr
    exact he ▸ keeps_filter (hi inner hin)
  intro b ts t? us h hb
  have ⟨t, vs, hts, hv⟩ := yields_factorAbove_iff.mp h
  subst hts
  rcases hv with ⟨_, hn, hv⟩ | ⟨_, hv⟩ | ⟨hk, tree, hv, he⟩
  · exact keeps_negation hi hv hb (by rintro _ _ ⟨⟩; exact hn)
  · exact keeps_group hf hv hb
  · have ⟨c, hc, ht, hl, hm, hop⟩ := tells_comparison (b := b) hf hv (by rintro _ _ ⟨⟩ hk'; simp_all)
    subst he
    have ⟨u, hu, hku⟩ := exists_mention hc (length_lt_of_factorAbove h) hk hop
    exact ⟨c, hc, ht, hl, by rintro _ ⟨⟩; exact hm, nofun, fun hall => absurd hku (hall u hu)⟩

theorem keeps_factor {levels : Nat} : Keeps (factor limit levels) := by
  induction levels
  case zero      => exact keeps_factorAbove nofun
  case succ n ih => exact keeps_factorAbove (by rintro _ ⟨⟩; exact ih)

theorem keeps_expression : Keeps (expression limit) :=
  keeps_filter keeps_factor

end Grammar

variable {c : Cursor} {l : Limits} {r : Option Filter}

theorem layOut_content {t? : Option Tree} (hm : ∀ t ∈ t?, Tree.All Tree.Makeable t)
    (h : layOut t? = .ok r) :
    r.elim [] (·.arena.comparisons) = Tree.filterTests t? ∧
      r.elim [] (·.tree.names) = Tree.filterNames t? ∧ (r = none ↔ t? = none) := by
  cases t?
  case none => cases h; exact ⟨rfl, rfl, by simp⟩
  case some t =>
    have ⟨f, hf, ht⟩ := Filter.ofTree_tree (hm t rfl)
    cases h.symm.trans hf
    exact ⟨Filter.comparisons_of_ofTree hf, congrArg Tree.names ht, by simp⟩

-- The comparisons of the filter are the operators that the run has passed, its names are the names, both in
-- their order, and there is no filter only if nothing passed mentions an attribute.
theorem parse_content (h : (c.parse l).1 = .ok r) :
    let passed := c.passed (c.parse l).2
    (passed.filter Place.isTest).map Place.test? = (r.elim [] (·.arena.comparisons)).map some ∧
    (passed.filter Place.isName).map (·.token.text) = r.elim [] (·.tree.names) ∧
    (r = none ↔ ∀ p ∈ passed, p.token.kind ∉ Token.Kind.mentions) := by
  have ⟨t?, us, hy, hl, hc⟩ := parse_eq_ok_of_layOut h
  have ⟨d, hd, hv⟩ := keeps_expression (b := none) hy rfl
  have ⟨htests, hnames, hnone⟩ := layOut_content hv.makeable hl
  rw [hc, Cursor.passed_moveTo hd, htests, hnames, hnone, hv.nothing]
  exact ⟨hv.tells.tests, hv.tells.names, forall_mem_places_iff.symm⟩

-- A qualified name, which is the word `not`, with a value filter and a sub-attribute.
def namedCursor : Cursor :=
  .ofTokens [.ofText .schemaUri "urn:x".toList, .ofText .colon ":".toList, .ofText .not "not".toList,
    .ofText .leftBracket "[".toList, .ofText .identifier "a".toList, .ofText .operator "eq".toList,
    .ofText .true "true".toList, .ofText .rightBracket "]".toList, .ofText .dot ".".toList,
    .ofText .identifier "b".toList, .ofText .operator "pr".toList]

theorem parse_namedCursor :
    ∃ f, (namedCursor.parse {}).1 = .ok (some f) ∧
      f.arena.comparisons = [(.equal, some (.boolean true)), (.present, none)] ∧
      f.tree.names = ["urn:x".toList, "not".toList, "a".toList, "b".toList] := by
  have ho : (namedCursor.parse {}).1.isOk = true := by decide +kernel
  cases h : (namedCursor.parse {}).1
  case error => rw [h] at ho; cases ho
  case ok r =>
    have ⟨htests, hnames, hnone⟩ := parse_content h
    cases r
    case none => exact absurd rfl (mt hnone.mp (by decide +kernel))
    case some f =>
      refine ⟨f, rfl, ?_, hnames.symm.trans (by decide +kernel)⟩
      apply (List.map_inj_right fun _ _ => Option.some.inj).mp
      exact htests.symm.trans (by decide +kernel)

end AttributeFilter
