import AttributeFilter.Proofs.Grammar.Completeness
import AttributeFilter.Proofs.Token.Lexing

/-!
What the rules look at. A rule that succeeds has looked at the tokens that it takes and at the kind of the
next one, and at neither place nor raw text nor the case of keywords. So it does the same on tokens that
are alike, and it does not matter how many more levels there are.
-/

namespace AttributeFilter

open Text

-- The kinds of tokens whose text is the same in any case.
def Token.Kind.caseless : List Token.Kind :=
  [.operator, .and, .or, .true, .false, .null]

-- What a rule sees of a token.
def Token.sense (t : Token) : Token.Kind × Text :=
  (t.kind, if t.kind ∈ Token.Kind.caseless then lower t.text else t.text)

-- The grammar sees no more of a token than its lexeme.
theorem map_sense_eq {ts us : List Token} (h : us.map Token.lexeme = ts.map Token.lexeme) :
    us.map Token.sense = ts.map Token.sense := by
  let sense (x : Token.Kind × Text) : Token.Kind × Text :=
    (x.1, if x.1 ∈ Token.Kind.caseless then lower x.2 else x.2)
  have hs : Token.sense = sense ∘ Token.lexeme := rfl
  rw [hs, ← List.map_map, ← List.map_map, h]

namespace Grammar

open AttributeFilter.Parser

variable {α β : Type} {c c' us us' : List Token} {t t' : Token} {kinds : List Token.Kind}

theorem kind_eq_of_sense_eq (h : t.sense = t'.sense) : t.kind = t'.kind :=
  congrArg Prod.fst h

theorem text_eq_of_sense_eq (h : t.sense = t'.sense) (hk : t.kind ∉ Token.Kind.caseless) :
    t.text = t'.text := by
  have ht := congrArg Prod.snd h
  simp only [Token.sense, kind_eq_of_sense_eq h ▸ hk, hk, if_false] at ht
  exact ht

theorem lower_text_eq_of_sense_eq (h : t.sense = t'.sense) : lower t.text = lower t'.text := by
  by_cases hk : t.kind ∈ Token.Kind.caseless
  case neg => rw [text_eq_of_sense_eq h hk]
  case pos =>
    have ht := congrArg Prod.snd h
    simp only [Token.sense, kind_eq_of_sense_eq h ▸ hk, hk, if_true] at ht
    exact ht

-- Tokens that are taken, and what stands behind them, are alike.
structure Alike (c us c' us' : List Token) : Prop where
  taken : c.map Token.sense = c'.map Token.sense
  next  : us.head?.map Token.sense = us'.head?.map Token.sense

namespace Alike

theorem of_next (h : us.head?.map Token.sense = us'.head?.map Token.sense) : Alike c us c us' where
  taken := rfl
  next  := h

theorem head (h : Alike c us c' us') :
    (c ++ us).head?.map Token.sense = (c' ++ us').head?.map Token.sense := by
  have hc := h.taken
  cases c <;> cases c'
  case nil.nil   => exact h.next
  case nil.cons  => cases hc
  case cons.nil  => cases hc
  case cons.cons => exact congrArg some (List.cons.inj hc).left

theorem isNext (h : Alike c us c' us') (kinds : List Token.Kind) :
    isNext kinds (c ++ us) = isNext kinds (c' ++ us') := by
  have hs (ts : List Token) :
      Grammar.isNext kinds ts = (ts.head?.map Token.sense).any fun s => s.1 ∈ kinds := by
    cases ts <;> rfl
  rw [hs, hs, h.head]

theorem eq_nil_iff (h : Alike c us c' us') : c ++ us = [] ↔ c' ++ us' = [] := by
  rw [← List.head?_eq_none_iff, ← List.head?_eq_none_iff, ← Option.map_eq_none_iff, h.head,
    Option.map_eq_none_iff]

-- If nothing is taken, nothing is.
theorem append_eq (h : Alike c us c' us') (hc : c ++ us = us) : c' ++ us' = us' := by
  have hc := h.taken.symm.trans (congrArg _ (List.append_left_eq_self.mp hc))
  rw [List.map_eq_nil_iff.mp hc, List.nil_append]

theorem cons (h : Alike (t :: c) us c' us') :
    ∃ t' d, c' = t' :: d ∧ t.sense = t'.sense ∧ Alike c us d us' := by
  have ⟨t', d, hc, ht, hd⟩ := List.map_eq_cons_iff.mp h.taken.symm
  exact ⟨t', d, hc, ht.symm, hd.symm, h.next⟩

theorem append {c₁ c₂ : List Token} (h : Alike (c₁ ++ c₂) us c' us') :
    ∃ d₁ d₂, c' = d₁ ++ d₂ ∧ Alike c₁ (c₂ ++ us) d₁ (d₂ ++ us') ∧ Alike c₂ us d₂ us' := by
  have ht := h.taken
  rw [List.map_append] at ht
  have ⟨d₁, d₂, hc, h₁, h₂⟩ := List.map_eq_append_iff.mp ht.symm
  have ha : Alike c₂ us d₂ us' := ⟨h₂.symm, h.next⟩
  exact ⟨d₁, d₂, hc, ⟨h₁.symm, ha.head⟩, ha⟩

end Alike

-- What is left at last is left before.
theorem exists_append {vs : List Token} (h : vs <:+ c ++ us) (hs : us <:+ vs) :
    ∃ c₁ c₂, c = c₁ ++ c₂ ∧ vs = c₂ ++ us := by
  have ⟨c₁, hc₁⟩ := h
  have ⟨c₂, hc₂⟩ := hs
  subst hc₂
  rw [← List.append_assoc] at hc₁
  exact ⟨c₁, c₂, (List.append_cancel_right hc₁).symm, rfl⟩

theorem length_lt_of_name {ts : List Token} {p : Path} (h : name.Yields ts p us) :
    us.length < ts.length := by
  have ⟨_, _, _, _, _, _, hs, hf, hm, _⟩ := yields_name_iff.mp h
  have ⟨_, hv, _⟩ := yields_segment_iff.mp hf
  have hl := hs.suffix.length_le
  rw [hv, List.length_cons] at hl
  exact Nat.lt_of_le_of_lt hm.suffix.length_le hl

theorem length_lt_of_factorAbove {ts : List Token} {tree? : Option Tree} {limit : Nat}
    {inner? : Option (Rule (Option Tree))}
    (h : (factorAbove limit inner?).Yields ts tree? us) : us.length < ts.length := by
  have ⟨t, vs, ht, hv⟩ := yields_factorAbove_iff.mp h
  rcases hv with ⟨_, _, hv⟩ | ⟨_, hv⟩ | ⟨_, tree, hv, _⟩
  · have ⟨_, _, _, _, hts, _, _, hi, _⟩ := yields_negation_iff.mp hv
    rw [hts, List.length_cons]
    exact Nat.lt_succ_of_le hi.suffix.length_le
  · have ⟨_, _, _, _, hts, _, _, hi, _⟩ := yields_group_iff.mp hv
    rw [hts, List.length_cons]
    exact Nat.lt_succ_of_lt hi.suffix.length_le
  · have ⟨_, _, hp, hc⟩ := yields_bind_iff.mp hv
    have ⟨_, _, hn, hf⟩ := yields_bind_iff.mp hp
    have hl := length_lt_of_name hn
    have := hc.suffix.length_le
    have := hf.suffix.length_le
    omega

-- Where the first rule succeeds, the second one does the same on tokens that are alike.
def Agrees (p p' : Rule α) : Prop :=
  ∀ ⦃c us a c' us'⦄, p.Yields (c ++ us) a us → Alike c us c' us' → p'.Yields (c' ++ us') a us'

namespace Agrees

variable {p p' : Rule α} {f f' : α → Rule β}

theorem pure (a : α) : Agrees (pure a) (pure a) := by
  intro c us b c' us' h ha
  have ⟨hb, hc⟩ := yields_pure_iff.mp h
  exact yields_pure_iff.mpr ⟨hb, ha.append_eq hc⟩

theorem ofExcept {x x' : Except Error α} (hx : ∀ a, x = .ok a → x' = .ok a) :
    Agrees (ofExcept x) (ofExcept x') := by
  intro c us b c' us' h ha
  have ⟨hb, hc⟩ := yields_ofExcept_iff.mp h
  exact yields_ofExcept_iff.mpr ⟨hx b hb, ha.append_eq hc⟩

theorem fail (e : Error) (p : Rule α) : Agrees (fail e) p :=
  fun _ _ _ _ _ h => absurd h not_yields_fail

theorem bind (hp : Agrees p p') (hf : ∀ a, Agrees (f a) (f' a)) : Agrees (p >>= f) (p' >>= f') := by
  intro c us b c' us' h ha
  have ⟨a, vs, h₁, h₂⟩ := yields_bind_iff.mp h
  have ⟨c₁, c₂, hc, hv⟩ := exists_append h₁.suffix h₂.suffix
  subst hc hv
  have ⟨d₁, d₂, hd, ha₁, ha₂⟩ := ha.append
  subst hd
  rw [List.append_assoc] at h₁ ⊢
  exact yields_bind_iff.mpr ⟨a, d₂ ++ us', hp h₁ ha₁, hf a h₂ ha₂⟩

-- A token that is expected may be another one, if it is alike.
theorem expect_bind {f f' : Token → Rule α}
    (hf : ∀ t t' : Token, t.sense = t'.sense → t.kind ∈ kinds → Agrees (f t) (f' t')) :
    Agrees (expect kinds >>= f) (expect kinds >>= f') := by
  intro c us b c' us' h ha
  have ⟨t, vs, h₁, h₂⟩ := yields_bind_iff.mp h
  have ⟨hc, hk⟩ := yields_expect_iff.mp h₁
  have ⟨c₂, hc₂⟩ := h₂.suffix
  subst hc₂
  have hc : c = t :: c₂ := List.append_cancel_right hc
  subst hc
  have ⟨t', d, hd, hs, hd'⟩ := ha.cons
  subst hd
  have he : (expect kinds).Yields (t' :: (d ++ us')) t' (d ++ us') :=
    yields_expect_iff.mpr ⟨rfl, kind_eq_of_sense_eq hs ▸ hk⟩
  exact yields_bind_iff.mpr ⟨t', _, he, hf t t' hs hk h₂ hd'⟩

theorem optional {kind : Token.Kind} (hp : Agrees p p') :
    Agrees (optional kind p) (optional kind p') := by
  intro c us a? c' us' h ha
  have hn := ha.isNext [kind]
  refine yields_optional_iff.mpr ?_
  cases yields_optional_iff.mp h
  case inl h =>
    have ⟨hk, a, hy, he⟩ := h
    exact .inl ⟨hn ▸ hk, a, hp hy ha, he⟩
  case inr h =>
    have ⟨hk, he, hc⟩ := h
    exact .inr ⟨hn ▸ hk, he, ha.append_eq hc⟩

theorem behindEach {kind : Token.Kind} (hp : Agrees p p') :
    Agrees (behindEach kind p) (behindEach kind p') := by
  intro c us as c' us' h ha
  refine behindEach_induction (motive := fun ts as => ∀ {c c'}, ts = c ++ us → Alike c us c' us' →
    (Grammar.behindEach kind p').Yields (c' ++ us') as us') h ?stop ?step rfl ha
  case stop =>
    intro hn c c' hc ha
    have hn : isNext [kind] (c' ++ us') = false := by rw [← ha.isNext, ← hc, hn]
    exact (yields_behindEach_stop_iff hn).mpr ⟨rfl, (ha.append_eq hc.symm).symm⟩
  case step =>
    intro t ts a vs as hk h₁ h₂ ih c c' hc ha
    have ⟨c₀, hc₀⟩ := h₂.suffix.trans h₁.suffix
    subst hc₀
    have hc : t :: c₀ = c := List.append_cancel_right hc
    subst hc
    have ⟨c₁, c₂, hc, hv⟩ := exists_append h₁.suffix h₂.suffix
    subst hc hv
    have ⟨t', d, hd, hs, hd'⟩ := ha.cons
    have ⟨d₁, d₂, he, h₁', h₂'⟩ := hd'.append
    subst hd he
    rw [List.append_assoc] at h₁
    have hy : p'.Yields (d₁ ++ (d₂ ++ us')) a (d₂ ++ us') := hp h₁ h₁'
    rw [List.cons_append, List.append_assoc]
    exact (yields_behindEach_cons_iff (kind_eq_of_sense_eq hs ▸ hk)).mpr
      ⟨a, _, as, hy, ih rfl h₂', rfl⟩

theorem literalValue_eq_ok {v : Value} (h : t.sense = t'.sense) (hv : literalValue t = .ok v) :
    literalValue t' = .ok v := by
  have hk := kind_eq_of_sense_eq h
  have ht := text_eq_of_sense_eq h
  unfold literalValue at hv ⊢
  rw [← hk]
  split at hv
  case h_1 hs =>
    rw [hs] at ht
    simp only [← ht (by decide)]
    split at hv
    case h_1 => exact hv
    case h_2 => cases hv
  case h_2 hs =>
    rw [hs] at ht
    simp only [← ht (by decide)]
    split at hv
    case h_1 => exact hv
    case h_2 => cases hv
  case h_6 => cases hv
  all_goals simp only [*]

theorem literal : Agrees literal literal :=
  expect_bind fun _ _ hs _ => ofExcept fun _ => literalValue_eq_ok hs

theorem operator : Agrees operator operator := by
  refine expect_bind fun t t' hs _ => ?_
  have ho : Operator.ofWord? t.text = Operator.ofWord? t'.text := by
    simp only [Operator.ofWord?, sameWord, lower_text_eq_of_sense_eq hs]
  rw [← ho]
  cases Operator.ofWord? t.text
  case none   => exact fail _ _
  case some o => exact pure o

theorem segment (hk : ∀ k ∈ kinds, k ∉ Token.Kind.caseless) :
    Agrees (segment kinds) (segment kinds) :=
  expect_bind fun _ _ hs hm => text_eq_of_sense_eq hs (hk _ hm) ▸ pure _

theorem schema : Agrees schema schema :=
  expect_bind fun t t' hs hm => expect_bind fun _ _ _ _ => by
    have hk := List.mem_singleton.mp hm
    exact text_eq_of_sense_eq hs (by rw [hk]; decide) ▸ pure _

theorem subAttribute : Agrees subAttribute subAttribute :=
  expect_bind fun _ _ _ _ => segment (by decide)

theorem name : Agrees name name :=
  (optional schema).bind fun _ => (segment (by decide)).bind fun _ =>
    (behindEach (segment (by decide))).bind fun _ => (ofExcept fun _ => id).bind fun _ => pure _

theorem test : Agrees test test := by
  refine operator.bind fun o => ?_
  cases o.takesValue
  case false => exact pure _
  case true  => exact literal.bind fun _ => pure _

variable {limit limit' : Nat} {inner inner' : Rule (Option Tree)}
  {inner? inner?' : Option (Rule (Option Tree))}

-- The rule one level deeper agrees, if there is one.
def Below (inner? inner?' : Option (Rule (Option Tree))) : Prop :=
  ∀ inner ∈ inner?, ∃ inner' ∈ inner?', Agrees inner inner'

theorem below (h : Agrees inner inner') : Below (some inner) (some inner') := by
  rintro _ ⟨⟩
  exact ⟨inner', rfl, h⟩

theorem nested (h : Below inner? inner?') :
    Agrees (nested limit inner? t) (nested limit' inner?' t') := by
  cases inner?
  case none => exact fail _ _
  case some inner =>
    have ⟨inner', hi, ha⟩ := h inner rfl
    rw [hi]
    exact ha

theorem valueFilter (h : Below inner? inner?') :
    Agrees (valueFilter limit inner?) (valueFilter limit' inner?') :=
  expect_bind fun _ _ _ _ => (nested h).bind fun _ => expect_bind fun _ _ _ _ =>
    (optional subAttribute).bind fun _ => pure _

theorem path (h : Below inner? inner?') : Agrees (path limit inner?) (path limit' inner?') := by
  refine name.bind fun _ => (optional (valueFilter h)).bind fun f? => ?_
  cases f?
  case none => exact pure _
  case some => exact pure _

theorem comparison (h : Below inner? inner?') :
    Agrees (comparison limit inner?) (comparison limit' inner?') := by
  refine (path h).bind fun _ => (optional test).bind fun t? => ?_
  cases t?
  case none => exact pure _
  case some => exact pure _

theorem group (h : Below inner? inner?') : Agrees (group limit inner?) (group limit' inner?') :=
  expect_bind fun _ _ _ _ => (nested h).bind fun _ => expect_bind fun _ _ _ _ => pure _

theorem negation (h : Below inner? inner?') :
    Agrees (negation limit inner?) (negation limit' inner?') :=
  expect_bind fun _ _ _ _ => (nested h).bind fun _ => pure _

theorem conjunction (h : Agrees inner inner') : Agrees (conjunction inner) (conjunction inner') :=
  h.bind fun _ => (behindEach h).bind fun _ => pure _

theorem disjunction (h : Agrees inner inner') : Agrees (disjunction inner) (disjunction inner') :=
  (conjunction h).bind fun _ => (behindEach (conjunction h)).bind fun _ => pure _

theorem filter (h : Agrees inner inner') : Agrees (filter inner) (filter inner') := by
  intro c us tree? c' us' hy ha
  have he : (c ++ us = [] ∨ isNext [.rightParen, .rightBracket] (c ++ us) = true) ↔
      (c' ++ us' = [] ∨ isNext [.rightParen, .rightBracket] (c' ++ us') = true) := by
    rw [ha.eq_nil_iff, ha.isNext]
  refine yields_filter_iff.mpr ?_
  cases yields_filter_iff.mp hy
  case inl hy => exact .inl ⟨he.mp hy.left, hy.right.left, ha.append_eq hy.right.right⟩
  case inr hy => exact .inr ⟨mt he.mpr hy.left, disjunction h hy.right ha⟩

theorem Below.filter (h : Below inner? inner?') :
    Below (inner?.map Grammar.filter) (inner?'.map Grammar.filter) := by
  intro rule hr
  have ⟨inner, hi, he⟩ := Option.map_eq_some_iff.mp hr
  have ⟨inner', hi', ha⟩ := h inner hi
  exact ⟨Grammar.filter inner', Option.map_eq_some_iff.mpr ⟨inner', hi', rfl⟩, he ▸ ha.filter⟩

-- The second token is looked at behind the word `not`, which is always taken.
theorem factorAbove (h : Below inner? inner?') :
    Agrees (factorAbove limit inner?) (factorAbove limit' inner?') := by
  intro c us tree? c' us' hy ha
  have ⟨t, vs, hc, hv⟩ := yields_factorAbove_iff.mp hy
  cases c
  case nil => exact absurd (length_lt_of_factorAbove hy) (Nat.lt_irrefl _)
  case cons u c =>
    cases hc
    have ⟨t', d, hd, hs, hd'⟩ := ha.cons
    subst hd
    have hk := kind_eq_of_sense_eq hs
    have hn := hd'.isNext [.operator]
    refine yields_factorAbove_iff.mpr ⟨t', d ++ us', rfl, ?_⟩
    rw [← hk, ← hn]
    rcases hv with ⟨hkn, hno, hv⟩ | ⟨hkp, hv⟩ | ⟨hkc, tree, hv, he⟩
    · exact .inl ⟨hkn, hno, negation h hv ha⟩
    · exact .inr (.inl ⟨hkp, group h.filter hv ha⟩)
    · exact .inr (.inr ⟨hkc, tree, comparison h.filter hv ha, he⟩)

theorem factor {levels levels' : Nat} (h : levels ≤ levels') :
    Agrees (factor limit levels) (factor limit' levels') := by
  induction levels generalizing levels'
  case zero => cases levels' <;> exact factorAbove nofun
  case succ n ih =>
    cases levels'
    case zero => cases h
    case succ => exact factorAbove (ih (Nat.le_of_succ_le_succ h)).below

theorem expression (h : limit ≤ limit') : Agrees (expression limit) (expression limit') :=
  filter (factor h)

end Agrees
end Grammar
end AttributeFilter
