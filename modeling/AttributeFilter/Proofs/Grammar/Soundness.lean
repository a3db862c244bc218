import AttributeFilter.Proofs.Grammar.Completeness

/-!
What the rules accept, the grammar derives: from the tokens that a rule takes there is a derivation,
with the meaning that the rule gives, and it opens no more levels than were left.
-/

namespace AttributeFilter.Grammar

open AttributeFilter.Parser Text

variable {limit levels : Nat} {ts us : List Token} {s : Symbol}

-- A rule for a symbol, with some levels left, is sound.
def Sound (levels : Nat) (rule : Rule (Meaning s)) : Prop :=
  ∀ {ts m us}, rule.Yields ts m us → (∀ t ∈ ts, t.IsLexeme) →
    ∃ d : Derivation s, d.tokens ++ us = ts ∧ d.meaning = m ∧ d.depth ≤ levels

theorem conjuncts_sound {factor : Rule (Option Tree)} (hf : Sound (s := .factor) levels factor) :
    Sound (s := .conjuncts) levels (behindEach .and factor) := by
  intro ts m us h hl
  refine behindEach_induction (motive := fun ts m => (∀ t ∈ ts, t.IsLexeme) →
    ∃ d : Derivation .conjuncts, d.tokens ++ us = ts ∧ d.meaning = m ∧ d.depth ≤ levels)
    h ?stop ?step hl
  case stop => exact fun _ _ => ⟨.lastConjunct, rfl, rfl, Nat.zero_le _⟩
  case step =>
    intro t ts a vs as hk h₁ h₂ ih hl
    have ⟨ht, hl⟩ := List.forall_mem_cons.mp hl
    have ⟨d₁, hd₁, hm₁, hn₁⟩ := hf h₁ hl
    have ⟨d₂, hd₂, hm₂, hn₂⟩ := ih fun t ht => hl t (h₁.mem ht)
    let word : Terminal [.and] := ⟨t, List.mem_singleton.mpr hk, ht⟩
    refine ⟨.conjunct word d₁ d₂, ?_, ?_, Nat.max_le.mpr ⟨hn₁, hn₂⟩⟩
    · simp [Derivation.tokens, word, hd₂, hd₁]
    · simp [Derivation.meaning, hm₁, hm₂]

theorem conjunction_sound {factor : Rule (Option Tree)} (hf : Sound (s := .factor) levels factor) :
    Sound (s := .conjunction) levels (conjunction factor) := by
  intro ts m us h hl
  have ⟨m₁, vs, m₂, h₁, h₂, hm⟩ := yields_conjunction_iff.mp h
  have ⟨d₁, hd₁, hm₁, hn₁⟩ := hf h₁ hl
  have ⟨d₂, hd₂, hm₂, hn₂⟩ := conjuncts_sound hf h₂ fun t ht => hl t (h₁.mem ht)
  refine ⟨.conjunction d₁ d₂, ?_, ?_, Nat.max_le.mpr ⟨hn₁, hn₂⟩⟩
  · simp [Derivation.tokens, hd₂, hd₁]
  · simp [Derivation.meaning, hm₁, hm₂, hm]

theorem alternatives_sound {factor : Rule (Option Tree)}
    (hf : Sound (s := .factor) levels factor) :
    Sound (s := .alternatives) levels (behindEach .or (conjunction factor)) := by
  intro ts m us h hl
  refine behindEach_induction (motive := fun ts m => (∀ t ∈ ts, t.IsLexeme) →
    ∃ d : Derivation .alternatives, d.tokens ++ us = ts ∧ d.meaning = m ∧ d.depth ≤ levels)
    h ?stop ?step hl
  case stop => exact fun _ _ => ⟨.lastAlternative, rfl, rfl, Nat.zero_le _⟩
  case step =>
    intro t ts a vs as hk h₁ h₂ ih hl
    have ⟨ht, hl⟩ := List.forall_mem_cons.mp hl
    have ⟨d₁, hd₁, hm₁, hn₁⟩ := conjunction_sound hf h₁ hl
    have ⟨d₂, hd₂, hm₂, hn₂⟩ := ih fun t ht => hl t (h₁.mem ht)
    let word : Terminal [.or] := ⟨t, List.mem_singleton.mpr hk, ht⟩
    refine ⟨.alternative word d₁ d₂, ?_, ?_, Nat.max_le.mpr ⟨hn₁, hn₂⟩⟩
    · simp [Derivation.tokens, word, hd₂, hd₁]
    · simp [Derivation.meaning, hm₁, hm₂]

theorem disjunction_sound {factor : Rule (Option Tree)}
    (hf : Sound (s := .factor) levels factor) :
    Sound (s := .disjunction) levels (disjunction factor) := by
  intro ts m us h hl
  have ⟨m₁, vs, m₂, h₁, h₂, hm⟩ := yields_disjunction_iff.mp h
  have ⟨d₁, hd₁, hm₁, hn₁⟩ := conjunction_sound hf h₁ hl
  have ⟨d₂, hd₂, hm₂, hn₂⟩ := alternatives_sound hf h₂ fun t ht => hl t (h₁.mem ht)
  refine ⟨.disjunction d₁ d₂, ?_, ?_, Nat.max_le.mpr ⟨hn₁, hn₂⟩⟩
  · simp [Derivation.tokens, hd₂, hd₁]
  · simp [Derivation.meaning, hm₁, hm₂, hm]

theorem filter_sound {factor : Rule (Option Tree)} (hf : Sound (s := .factor) levels factor) :
    Sound (s := .filter) levels (filter factor) := by
  intro ts m us h hl
  rcases yields_filter_iff.mp h with ⟨_, rfl, rfl⟩ | ⟨_, h⟩
  · exact ⟨.nothing, rfl, rfl, Nat.zero_le _⟩
  · have ⟨d, hd, hm, hn⟩ := disjunction_sound hf h hl
    exact ⟨.whole d, hd, hm, hn⟩

theorem literal_sound {v : Value} (h : literal.Yields ts v us) (hl : ∀ t ∈ ts, t.IsLexeme) :
    ∃ l : Literal, l.word.token :: us = ts ∧ l.value = v := by
  have ⟨t, ht, hk, hv⟩ := yields_literal_iff.mp h
  have hlt := hl t (ht ▸ List.mem_cons_self)
  exact ⟨⟨⟨t, hk, hlt⟩, v, (literalValue_eq_ok_iff hlt).mp hv⟩, ht.symm, rfl⟩

theorem test_sound {o : Operator} {v? : Option Value} (h : test.Yields ts (o, v?) us)
    (hl : ∀ t ∈ ts, t.IsLexeme) : ∃ d : Test, d.tokens ++ us = ts ∧ d.meaning = (o, v?) := by
  have ⟨vs, ho, h⟩ := yields_test_iff.mp h
  have ⟨t, ht, hk, ho⟩ := yields_operator_iff.mp ho
  have ⟨hlt, hl⟩ := List.forall_mem_cons.mp (ht ▸ hl)
  let word : Terminal [.operator] := ⟨t, List.mem_singleton.mpr hk, hlt⟩
  rcases h with ⟨rfl, rfl, rfl⟩ | ⟨hp, v, hv, rfl⟩
  · exact ⟨.present word ho, ht.symm, rfl⟩
  · have ⟨l, hd, hm⟩ := literal_sound hv hl
    refine ⟨.relation word o ho hp l, ?_, ?_⟩
    · simp [Test.tokens, word, hd, ht]
    · simp [Test.meaning, hm]

theorem members_sound {names : List Text}
    (h : (behindEach .dot (segment [.identifier])).Yields ts names us)
    (hl : ∀ t ∈ ts, t.IsLexeme) :
    ∃ ms : List Member, ms.flatMap Member.tokens ++ us = ts ∧ ms.map Member.text = names := by
  refine behindEach_induction (motive := fun ts names => (∀ t ∈ ts, t.IsLexeme) →
    ∃ ms : List Member, ms.flatMap Member.tokens ++ us = ts ∧ ms.map Member.text = names)
    h ?stop ?step hl
  case stop => exact fun _ _ => ⟨[], rfl, rfl⟩
  case step =>
    intro t ts a vs as hk h₁ h₂ ih hl
    have ⟨ht, hl⟩ := List.forall_mem_cons.mp hl
    have ⟨n, hn, hkn, ha⟩ := yields_segment_iff.mp h₁
    have ⟨ms, hms, ha'⟩ := ih fun t ht => hl t (h₁.mem ht)
    let m : Member := ⟨⟨t, List.mem_singleton.mpr hk, ht⟩, ⟨n, hkn, hl n (hn ▸ List.mem_cons_self)⟩⟩
    refine ⟨m :: ms, ?_, ?_⟩
    · simp [Member.tokens, m, hms, hn]
    · simp [Member.text, m, ha, ha']

theorem Name.path_eq (n : Name) {p : Path} (h : Path.ofSegments n.segments = .ok p) :
    n.path none = p.withSchema n.schema? := by
  rw [ofSegments_eq_ok n.segments_ne_nil fun _ => ne_nil_of_mem_segments] at h
  injection h with h
  exact h ▸ rfl

-- The first token tells a name that is a path from the word `not`, which is one only before an
-- operator.
theorem name_sound {p : Path} (h : name.Yields ts p us) (hl : ∀ t ∈ ts, t.IsLexeme)
    (ho : Opens .path ts) : ∃ n : Name, n.tokens ++ us = ts ∧ n.path none = p := by
  have ⟨schema?, vs, first, ws, more, p', hq, hf, hm, hp, he⟩ := yields_name_iff.mp h
  have ⟨t, ht, hk, hfirst⟩ := yields_segment_iff.mp hf
  have ⟨ms, hms, hmore⟩ := members_sound hm fun t ht => hl t (hq.mem (hf.mem ht))
  have hlt := hl t (hq.mem (ht ▸ List.mem_cons_self))
  subst ht hfirst hmore
  rcases yields_optional_iff.mp hq with ⟨_, s, hs, rfl⟩ | ⟨hn, rfl, rfl⟩
  · have ⟨u, c, hu, hku, hkc, hsu⟩ := yields_schema_iff.mp hs
    subst hu hsu
    have ⟨hlu, hl⟩ := List.forall_mem_cons.mp hl
    have ⟨hlc, _⟩ := List.forall_mem_cons.mp hl
    let n : Name := .qualified ⟨u, List.mem_singleton.mpr hku, hlu⟩
      ⟨c, List.mem_singleton.mpr hkc, hlc⟩ ⟨t, hk, hlt⟩ ms
    refine ⟨n, ?_, ?_⟩
    · simp [n, Name.tokens, hms]
    · exact he ▸ n.path_eq hp
  · have hk : t.kind = .identifier := by
      simp only [isNext_cons, Opens] at hn ho
      grind
    let n : Name := .plain ⟨t, List.mem_singleton.mpr hk, hlt⟩ ms
    refine ⟨n, ?_, ?_⟩
    · simp [n, Name.tokens, hms]
    · exact he ▸ n.path_eq hp

theorem sub_sound {sub? : Option Text} (h : (optional .dot subAttribute).Yields ts sub? us)
    (hl : ∀ t ∈ ts, t.IsLexeme) :
    ∃ m? : Option Member, m?.elim [] Member.tokens ++ us = ts ∧ m?.map Member.text = sub? := by
  rcases yields_optional_iff.mp h with ⟨_, s, hs, rfl⟩ | ⟨_, rfl, rfl⟩
  · have ⟨d, t, hd, hkd, hkt, ht⟩ := yields_subAttribute_iff.mp hs
    subst hd ht
    have ⟨hld, hl⟩ := List.forall_mem_cons.mp hl
    have ⟨hlt, _⟩ := List.forall_mem_cons.mp hl
    let m : Member :=
      ⟨⟨d, List.mem_singleton.mpr hkd, hld⟩, ⟨t, List.mem_singleton.mpr hkt, hlt⟩⟩
    exact ⟨some m, rfl, rfl⟩
  · exact ⟨none, rfl, rfl⟩

theorem below_eq_some {inner : Rule (Option Tree)} (h : below limit levels = some inner) :
    ∃ n, levels = n + 1 ∧ inner = factor limit n := by
  cases levels
  case zero   => cases h
  case succ n => cases h; exact ⟨n, rfl, rfl⟩

section

-- The rule of factors is sound with fewer levels.
variable (hf : ∀ n, levels = n + 1 → Sound (s := .factor) n (factor limit n))
include hf

theorem below_filter_sound {inner : Rule (Option Tree)}
    (hi : (below limit levels).map filter = some inner) :
    ∃ n, levels = n + 1 ∧ Sound (s := .filter) n inner := by
  have ⟨rule, hr, hi⟩ := Option.map_eq_some_iff.mp hi
  have ⟨n, hn, hr⟩ := below_eq_some hr
  exact ⟨n, hn, hi ▸ hr ▸ filter_sound (hf n hn)⟩

theorem path_sound {p : Path} {f? : Option Tree}
    (h : (path limit ((below limit levels).map filter)).Yields ts (p, f?) us)
    (hl : ∀ t ∈ ts, t.IsLexeme) (ho : Opens .path ts) :
    ∃ d : Derivation .path, d.tokens ++ us = ts ∧ d.meaning = (p, f?) ∧ d.depth ≤ levels := by
  have ⟨p', vs, hp, hv⟩ := yields_path_iff.mp h
  have ⟨n, hn, hm⟩ := name_sound hp hl ho
  subst hn hm
  rcases hv with ⟨_, rfl, rfl, rfl⟩ | ⟨sub?, hv, rfl⟩
  · exact ⟨.bare n, rfl, rfl, Nat.zero_le _⟩
  · have ⟨l, ws, r, xs, inner, hw, hkl, hi, hr, hkr, hs⟩ := yields_valueFilter_iff.mp hv
    subst hw
    have hl : ∀ t ∈ l :: ws, t.IsLexeme := fun t ht => hl t (hp.mem ht)
    have ⟨hll, hl⟩ := List.forall_mem_cons.mp hl
    have hlr : ∀ t ∈ r :: xs, t.IsLexeme := fun t ht => hl t (hr.mem ht)
    have ⟨hlr, hlx⟩ := List.forall_mem_cons.mp hlr
    have ⟨k, hk, hi⟩ := below_filter_sound hf hi
    have ⟨d, hd, hm, hn⟩ := hi hr hl
    have ⟨m?, hms, he⟩ := sub_sound hs hlx
    let left : Terminal [.leftBracket] := ⟨l, List.mem_singleton.mpr hkl, hll⟩
    let right : Terminal [.rightBracket] := ⟨r, List.mem_singleton.mpr hkr, hlr⟩
    refine ⟨.filtered n left d right m?, ?_, ?_, ?_⟩
    · simp [Derivation.tokens, left, right, hms, hd]
    · simp [Derivation.meaning, hm, ← he, Path.withSub, Name.path]
    · simp [Derivation.depth]; omega

theorem comparison_sound {tree : Tree}
    (h : (comparison limit ((below limit levels).map filter)).Yields ts tree us)
    (hl : ∀ t ∈ ts, t.IsLexeme) (ho : Opens .path ts) :
    ∃ d : Derivation .factor, d.tokens ++ us = ts ∧ d.meaning = some tree ∧ d.depth ≤ levels := by
  have ⟨p, f?, vs, hp, h⟩ := yields_comparison_iff.mp h
  have ⟨d, hd, hm, hn⟩ := path_sound hf hp hl ho
  rcases h with ⟨_, rfl, rfl⟩ | ⟨o, v?, ht, rfl⟩
  · exact ⟨.reference d, hd, by simp [Derivation.meaning, hm], hn⟩
  · obtain ⟨d', hd', hm'⟩ := test_sound ht fun t ht => hl t (hp.mem ht)
    exact ⟨.comparison d d', by simp [Derivation.tokens, hd', hd],
      by simp [Derivation.meaning, hm, hm'], hn⟩

theorem negation_sound {m : Option Tree} (word : Terminal [.not])
    (h : (negation limit (below limit levels)).Yields (word.token :: ts) m us)
    (hl : ∀ t ∈ ts, t.IsLexeme) :
    ∃ d : Derivation .factor, d.tokens ++ us = word.token :: ts ∧ d.meaning = m ∧
      d.depth ≤ levels := by
  have ⟨n, ws, inner, child?, hw, _, hi, hc, hm⟩ := yields_negation_iff.mp h
  have ⟨k, hk, hi⟩ := below_eq_some hi
  have hw := (List.cons.inj hw).right
  subst hw hi
  have ⟨d, hd, hmd, hn⟩ := hf k hk hc hl
  refine ⟨.negation word d, ?_, ?_, ?_⟩
  · simp [Derivation.tokens, hd]
  · simp [Derivation.meaning, hmd, hm]
  · simp [Derivation.depth]; omega

theorem group_sound {m : Option Tree} (left : Terminal [.leftParen])
    (h : (group limit ((below limit levels).map filter)).Yields (left.token :: ts) m us)
    (hl : ∀ t ∈ ts, t.IsLexeme) :
    ∃ d : Derivation .factor, d.tokens ++ us = left.token :: ts ∧ d.meaning = m ∧
      d.depth ≤ levels := by
  have ⟨l, ws, r, inner, hw, _, hi, hr, hk⟩ := yields_group_iff.mp h
  have ⟨k, hk', hi⟩ := below_filter_sound hf hi
  have hw := (List.cons.inj hw).right
  subst hw
  have ⟨d, hd, hm, hn⟩ := hi hr hl
  let right : Terminal [.rightParen] :=
    ⟨r, List.mem_singleton.mpr hk, hl r (hr.mem List.mem_cons_self)⟩
  refine ⟨.group left d right, ?_, hm, ?_⟩
  · simp [Derivation.tokens, right, hd]
  · simp [Derivation.depth]; omega

end

theorem notPath_sound {tree : Tree} (word : Terminal [.not]) {filter? : Option (Rule (Option Tree))}
    (h : (comparison limit filter?).Yields (word.token :: ts) tree us)
    (hl : ∀ t ∈ ts, t.IsLexeme) (hn : isNext [.operator] ts = true) :
    ∃ d : Derivation .factor, d.tokens ++ us = word.token :: ts ∧ d.meaning = some tree ∧
      d.depth ≤ levels := by
  have hp : (path limit filter?).Yields _ _ _ := yields_path_notPath word hn
  have ⟨p, f?, vs, hp', hv⟩ := yields_comparison_iff.mp h
  have ⟨hp₁, hp₂⟩ := Prod.mk.inj (hp'.value_unique hp)
  have hvs : vs = ts := hp'.rest.symm.trans hp.rest
  subst hp₁ hp₂ hvs
  rcases hv with ⟨hn', _⟩ | ⟨o, v?, ht, rfl⟩
  · simp [hn] at hn'
  · have ⟨d, hd, hm⟩ := test_sound ht hl
    exact ⟨.namedNot word d, by simp [Derivation.tokens, hd], by simp [Derivation.meaning, hm],
      Nat.zero_le _⟩

theorem factor_sound : Sound (s := .factor) levels (factor limit levels) := by
  induction levels using Nat.strongRecOn
  case ind levels ih =>
    intro ts m us h hl
    have hf : ∀ n, levels = n + 1 → Sound (s := .factor) n (factor limit n) :=
      fun n hn => ih n (hn ▸ Nat.lt_succ_self n)
    have ⟨t, vs, ht, hv⟩ := yields_factorAbove_iff.mp (factor_eq limit levels ▸ h)
    subst ht
    have ⟨hlt, hlv⟩ := List.forall_mem_cons.mp hl
    cases hv
    case inl hv =>
      exact negation_sound hf ⟨t, List.mem_singleton.mpr hv.left, hlt⟩ hv.right.right hlv
    case inr hv =>
      cases hv
      case inl hv => exact group_sound hf ⟨t, List.mem_singleton.mpr hv.left, hlt⟩ hv.right hlv
      case inr hv =>
        have ⟨hk, tree, hc, hm⟩ := hv
        subst hm
        rcases hk with hk | hk | ⟨hk, hn⟩
        · exact comparison_sound hf hc hl (by simp [Opens, hk])
        · exact comparison_sound hf hc hl (by simp [Opens, hk])
        · exact notPath_sound ⟨t, List.mem_singleton.mpr hk, hlt⟩ hc hlv hn

end AttributeFilter.Grammar
