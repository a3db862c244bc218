import AttributeFilter.Proofs.Grammar.Acceptance
import AttributeFilter.Proofs.Grammar.Agreement
import AttributeFilter.Proofs.Token.Places

/-!
Parsing within a longer list of tokens. A rule stops where no token goes on with what it has taken. What the
token is at which it stops, and what stands behind, does not matter.
-/

namespace AttributeFilter

open Grammar AttributeFilter.Parser

-- The kinds of tokens that go on with an expression that could end before them.
def Token.Kind.continuing : List Token.Kind :=
  [.dot, .leftBracket, .operator, .and, .or]

-- The kinds of tokens that do not: all others.
def Token.Kind.stopping : List Token.Kind :=
  [.rightParen, .rightBracket, .colon, .identifier, .schemaUri, .not, .leftParen] ++ literals

namespace Grammar

variable {α β : Type} {c us us' ts : List Token} {kinds : List Token.Kind} {limit : Nat}

theorem isNext_of_disjoint {kinds' : List Token.Kind} (hd : ∀ k ∈ kinds, k ∉ kinds')
    (h : us = [] ∨ isNext kinds us = true) : isNext kinds' us = false := by
  rcases h with rfl | h
  · rfl
  · cases us
    case nil  => rfl
    case cons => exact decide_eq_false (hd _ (of_decide_eq_true h))

-- Tokens may be replaced behind a rule by others that begin in the same way, and by others that do not go on.
def Replaceable (us us' : List Token) : Prop :=
  us'.head? = us.head? ∨ isNext Token.Kind.continuing us' = false

namespace Replaceable

-- What stands before them stays.
theorem append (h : Replaceable us us') (c : List Token) : Replaceable (c ++ us) (c ++ us') := by
  cases c
  case nil  => exact h
  case cons => exact .inl rfl

theorem isNext {kind : Token.Kind} (h : Replaceable us us') (hk : kind ∈ Token.Kind.continuing)
    (hn : isNext [kind] us = false) : Grammar.isNext [kind] us' = false := by
  rcases h with h | h
  · rw [isNext_congr h, hn]
  · exact isNext_mono (fun k hk' => List.mem_singleton.mp hk' ▸ hk) h

end Replaceable

-- Where a rule succeeds, it does the same if the tokens behind those that it takes are replaced.
def Local (p : Rule α) : Prop :=
  ∀ ⦃c us a us'⦄, p.Yields (c ++ us) a us → Replaceable us us' → p.Yields (c ++ us') a us'

-- A rule takes a token whenever it succeeds.
def Takes (p : Rule α) : Prop :=
  ∀ ⦃ts a us⦄, p.Yields ts a us → us.length < ts.length

namespace Takes

theorem expect : Takes (expect kinds) := by
  intro ts t us h
  rw [(yields_expect_iff.mp h).left]
  exact Nat.lt_succ_self _

theorem bind {p : Rule α} {f : α → Rule β} (hp : Takes p) : Takes (p >>= f) := by
  intro ts b us h
  have ⟨_, _, h₁, h₂⟩ := yields_bind_iff.mp h
  exact Nat.lt_of_le_of_lt h₂.suffix.length_le (hp h₁)

theorem name : Takes name :=
  fun _ _ _ => length_lt_of_name

theorem factor {levels : Nat} : Takes (factor limit levels) := by
  intro ts t? us h
  cases levels <;> exact length_lt_of_factorAbove h

theorem head? {p : Rule α} {a : α} (hp : Takes p) (h : p.Yields (c ++ us) a us) (us' : List Token) :
    (c ++ us').head? = (c ++ us).head? := by
  cases c
  case nil  => exact absurd (hp h) (Nat.lt_irrefl _)
  case cons => rfl

end Takes

namespace Local

variable {p : Rule α} {f : α → Rule β} {kind : Token.Kind}

theorem ofExcept (x : Except Error α) : Local (ofExcept x) := by
  intro c us a us' h _
  have ⟨hx, hc⟩ := yields_ofExcept_iff.mp h
  rw [List.append_left_eq_self.mp hc]
  exact yields_ofExcept_iff.mpr ⟨hx, rfl⟩

theorem pure (a : α) : Local (pure a) :=
  ofExcept (.ok a)

theorem fail (e : Error) : Local (fail e : Rule α) :=
  ofExcept (.error e)

theorem expect : Local (expect kinds) := by
  intro c us t us' h _
  have ⟨hc, hk⟩ := yields_expect_iff.mp h
  have hc : c = [t] := List.append_cancel_right (hc : c ++ us = [t] ++ us)
  exact yields_expect_iff.mpr ⟨by rw [hc]; rfl, hk⟩

-- For the first rule, what the second one takes stays.
theorem bind (hp : Local p) (hf : ∀ a, Local (f a)) : Local (p >>= f) := by
  intro c us b us' h hr
  have ⟨a, vs, h₁, h₂⟩ := yields_bind_iff.mp h
  have ⟨c₁, c₂, hc, hv⟩ := exists_append h₁.suffix h₂.suffix
  subst hc hv
  rw [List.append_assoc] at h₁ ⊢
  exact yields_bind_iff.mpr ⟨a, c₂ ++ us', hp h₁ (hr.append c₂), hf a h₂ hr⟩

-- If the second rule takes a token, the first one does not see what is replaced.
theorem bind_of_takes (hp : Agrees p p) (hf : ∀ a, Local (f a)) (ht : ∀ a, Takes (f a)) :
    Local (p >>= f) := by
  intro c us b us' h hr
  have ⟨a, vs, h₁, h₂⟩ := yields_bind_iff.mp h
  have ⟨c₁, c₂, hc, hv⟩ := exists_append h₁.suffix h₂.suffix
  subst hc hv
  rw [List.append_assoc] at h₁ ⊢
  have hn := congrArg (·.map Token.sense) ((ht a).head? h₂ us').symm
  exact yields_bind_iff.mpr ⟨a, c₂ ++ us', hp h₁ (.of_next hn), hf a h₂ hr⟩

theorem optional (hk : kind ∈ Token.Kind.continuing) (hp : Local p) (ht : Takes p) :
    Local (optional kind p) := by
  intro c us a? us' h hr
  refine yields_optional_iff.mpr ?_
  rcases yields_optional_iff.mp h with ⟨hn, a, hy, he⟩ | ⟨hn, he, hc⟩
  · exact .inl ⟨isNext_congr (ht.head? hy us') ▸ hn, a, hp hy hr, he⟩
  · rw [List.append_left_eq_self.mp hc] at hn ⊢
    exact .inr ⟨hr.isNext hk hn, he, rfl⟩

theorem behindEach (hk : kind ∈ Token.Kind.continuing) (hp : Local p) : Local (behindEach kind p) := by
  intro c us as us' h hr
  refine behindEach_induction (motive := fun ts as => ∀ {c}, ts = c ++ us →
    (Grammar.behindEach kind p).Yields (c ++ us') as us') h ?stop ?step rfl
  case stop =>
    intro hn c hc
    rw [List.append_left_eq_self.mp hc.symm]
    exact (yields_behindEach_stop_iff (hr.isNext hk hn)).mpr ⟨rfl, rfl⟩
  case step =>
    intro t ts a vs as hkt h₁ h₂ ih c hc
    have ⟨c₀, hc₀⟩ := h₂.suffix.trans h₁.suffix
    subst hc₀
    have hc : t :: c₀ = c := List.append_cancel_right hc
    subst hc
    have ⟨c₁, c₂, hc, hv⟩ := exists_append h₁.suffix h₂.suffix
    subst hc hv
    rw [List.append_assoc] at h₁
    rw [List.cons_append, List.append_assoc]
    exact (yields_behindEach_cons_iff hkt).mpr ⟨a, c₂ ++ us', as, hp h₁ (hr.append c₂), ih rfl, rfl⟩

theorem literal : Local literal :=
  expect.bind fun _ => ofExcept _

theorem operator : Local operator := by
  refine expect.bind fun t => ?_
  cases Operator.ofWord? t.text
  case none   => exact fail _
  case some o => exact pure o

theorem segment : Local (segment kinds) :=
  expect.bind fun _ => pure _

theorem subAttribute : Local subAttribute :=
  expect.bind fun _ => segment

theorem name : Local name :=
  bind_of_takes (.optional .schema)
    (fun _ => segment.bind fun _ => (behindEach (by decide) segment).bind fun _ =>
      (ofExcept _).bind fun _ => pure _)
    fun _ => .bind (.bind .expect)

theorem test : Local test := by
  refine operator.bind fun o => ?_
  cases o.takesValue
  case false => exact pure _
  case true  => exact literal.bind fun _ => pure _

variable {inner : Rule (Option Tree)} {inner? : Option (Rule (Option Tree))}

theorem nested {t : Token} (h : ∀ inner ∈ inner?, Local inner) : Local (nested limit inner? t) := by
  cases inner?
  case none       => exact fail _
  case some inner => exact h inner rfl

-- Between brackets a rule does not see what is replaced.
theorem valueFilter (h : Agrees.Below inner? inner?) : Local (valueFilter limit inner?) :=
  expect.bind fun _ => bind_of_takes (.nested h)
    (fun _ => expect.bind fun _ => (optional (by decide) subAttribute (.bind .expect)).bind fun _ => pure _)
    fun _ => .bind .expect

theorem group (h : Agrees.Below inner? inner?) : Local (group limit inner?) :=
  expect.bind fun _ => bind_of_takes (.nested h) (fun _ => expect.bind fun _ => pure _)
    fun _ => .bind .expect

theorem path (h : Agrees.Below inner? inner?) : Local (path limit inner?) := by
  refine name.bind fun _ => (optional (by decide) (valueFilter h) (.bind .expect)).bind fun f? => ?_
  cases f?
  case none => exact pure _
  case some => exact pure _

theorem comparison (h : Agrees.Below inner? inner?) : Local (comparison limit inner?) := by
  refine (path h).bind fun _ => (optional (by decide) test (.bind (.bind .expect))).bind fun t? => ?_
  cases t?
  case none => exact pure _
  case some => exact pure _

theorem negation (h : ∀ inner ∈ inner?, Local inner) : Local (negation limit inner?) :=
  expect.bind fun _ => (nested h).bind fun _ => pure _

theorem conjunction (h : Local inner) : Local (conjunction inner) :=
  h.bind fun _ => (behindEach (by decide) h).bind fun _ => pure _

theorem disjunction (h : Local inner) : Local (disjunction inner) :=
  (conjunction h).bind fun _ => (behindEach (by decide) (conjunction h)).bind fun _ => pure _

-- Without the literal, and even without the operator, a comparison is a path, so no operator is left.
theorem isNext_operator_of_comparison {t : Token} {tree : Tree}
    (h : (Grammar.comparison limit inner?).Yields (t :: us) tree us) : isNext [.operator] us = false := by
  have ⟨p, f?, vs, hp, h⟩ := yields_comparison_iff.mp h
  rcases h with ⟨hn, _, rfl⟩ | ⟨o, v?, ht, _⟩
  case inl => exact hn
  case inr =>
    have hp : vs.length < (t :: us).length := Takes.name.bind hp
    have ht : us.length < vs.length := Takes.bind (.bind .expect) ht
    rw [List.length_cons] at hp
    omega

-- The second token is looked at behind the word `not`. It is taken, or it is the first one not taken.
theorem factorAbove (hb : Agrees.Below inner? inner?) (hl : ∀ inner ∈ inner?, Local inner) :
    Local (factorAbove limit inner?) := by
  intro c us tree? us' hy hr
  have ⟨t, vs, hc, hv⟩ := yields_factorAbove_iff.mp hy
  cases c
  case nil => exact absurd (length_lt_of_factorAbove hy) (Nat.lt_irrefl _)
  case cons u c =>
    cases hc
    refine yields_factorAbove_iff.mpr ⟨t, c ++ us', rfl, ?_⟩
    rcases hv with ⟨hk, hn, hv⟩ | ⟨hk, hv⟩ | ⟨hk, tree, hv, he⟩
    · exact .inl ⟨hk, (hr.append c).isNext (by decide) hn, negation hl hv hr⟩
    · exact .inr (.inl ⟨hk, group hb.filter hv hr⟩)
    · refine .inr (.inr ⟨?_, tree, comparison hb.filter hv hr, he⟩)
      refine hk.imp_right (.imp_right fun ⟨hk, hn⟩ => ⟨hk, ?_⟩)
      cases c
      case nil  => exact absurd (hn.symm.trans (isNext_operator_of_comparison hv)) nofun
      case cons => exact hn

theorem factor {levels : Nat} : Local (factor limit levels) := by
  induction levels
  case zero      => exact factorAbove nofun nofun
  case succ n ih => exact factorAbove (Agrees.factor (Nat.le_refl n)).below (by rintro _ ⟨⟩; exact ih)

end Local

-- What can stand behind a filter that has taken some tokens. A filter that has taken none ends at a bracket.
structure Closes (c us : List Token) : Prop where
  next    : us = [] ∨ isNext Token.Kind.stopping us = true
  nothing : c = [] → us = [] ∨ isNext [.rightParen, .rightBracket] us = true

theorem Closes.replaceable (h : Closes c us') : Replaceable us us' :=
  .inr (isNext_of_disjoint (by decide) h.next)

variable {inner : Rule (Option Tree)} {t? : Option Tree}

theorem ends_congr (h : us'.head? = us.head?) :
    us' = [] ∨ isNext kinds us' = true ↔ us = [] ∨ isNext kinds us = true := by
  rw [← List.head?_eq_none_iff, h, List.head?_eq_none_iff, isNext_congr h]

theorem yields_filter_of_closes (hl : Local inner) (ht : Takes inner)
    (h : (filter inner).Yields (c ++ us) t? us)
    (hc : us'.head? = us.head? ∨ Closes c us') : (filter inner).Yields (c ++ us') t? us' := by
  refine yields_filter_iff.mpr ?_
  rcases yields_filter_iff.mp h with ⟨hn, hnone, he⟩ | ⟨hn, hd⟩
  case inl =>
    have he := List.append_left_eq_self.mp he
    subst he
    rcases hc with hc | hc
    · exact .inl ⟨(ends_congr hc).mpr hn, hnone, rfl⟩
    · exact .inl ⟨hc.nothing rfl, hnone, rfl⟩
  case inr =>
    have htd : Takes (disjunction inner) := .bind (.bind ht)
    have hn := mt (ends_congr (htd.head? hd us')).mp hn
    exact .inr ⟨hn, Local.disjunction hl hd (hc.elim .inl Closes.replaceable)⟩

-- What a rule leaves behind each separator, it leaves at last.
theorem of_behindEach {kind : Token.Kind} {p : Rule α} {as : List α} {P : List Token → Prop}
    (h : (behindEach kind p).Yields ts as us) (hp : ∀ ⦃ts a us⦄, p.Yields ts a us → P us) (ht : P ts) :
    isNext [kind] us = false ∧ P us := by
  refine behindEach_induction (motive := fun ts _ => P ts → isNext [kind] us = false ∧ P us) h ?stop ?step ht
  case stop => exact fun hn ht => ⟨hn, ht⟩
  case step => exact fun _ hy _ ih _ => ih (hp hy)

-- A filter stops before no word that joins.
theorem isNext_of_filter (h : (filter inner).Yields ts t? us) : isNext [.and, .or] us = false := by
  have hconj {ts us : List Token} {t? : Option Tree} (h : (conjunction inner).Yields ts t? us) :
      isNext [.and] us = false := by
    have ⟨_, _, _, _, h, _⟩ := yields_conjunction_iff.mp h
    exact (of_behindEach (P := fun _ => True) h (fun _ _ _ _ => trivial) trivial).left
  rcases yields_filter_iff.mp h with ⟨hn, _, rfl⟩ | ⟨_, h⟩
  case inl => exact isNext_of_disjoint (by decide) hn
  case inr =>
    have ⟨_, _, _, h₁, h₂, _⟩ := yields_disjunction_iff.mp h
    have ⟨hor, hand⟩ := of_behindEach h₂ (fun _ _ _ => hconj) (hconj h₁)
    cases us
    case nil  => rfl
    case cons => simp_all

end Grammar

variable {c : Cursor} {l : Limits} {r : Option Filter}

theorem Cursor.isNext_eq (c : Cursor) (kinds : List Token.Kind) :
    c.isNext kinds = Grammar.isNext kinds c.remaining := by
  rw [Cursor.isNext, Grammar.isNext, peekKind?, peek?, remaining, List.head?_drop, Option.any_map]

theorem parse_of_yields {t? : Option Tree} {us : List Token}
    (hy : (expression l.maxDepth).Yields c.remaining t? us) (hl : layOut t? = .ok r) :
    (c.parse l).1 = .ok r ∧ (c.parse l).2 = c.moveTo (c.tokens.length - us.length) := by
  rw [Cursor.parse_eq_of_runs hy.runs]
  exact ⟨hl, rfl⟩

-- The result of a run, and where it stops, depend on the tokens between, and on no more than the next one
-- behind them. Any other one that can stand there would do.
theorem Cursor.parse_embedded (h : (c.parse l).1 = .ok r) :
    let stop := (c.parse l).2
    let taken := stop.consumed.drop c.place
    c.place ≤ stop.place ∧ stop.tokens = c.tokens ∧ stop.isNext [.and, .or] = false ∧
    ∀ (c' : Cursor) (us' : List Token), c'.remaining = taken ++ us' →
      us'.head? = stop.remaining.head? ∨ Closes taken us' →
      (c'.parse l).1 = .ok r ∧ (c'.parse l).2.remaining = us' := by
  have ⟨t?, us, hy, hl, hstop⟩ := parse_eq_ok_of_layOut h
  have ⟨d, hd⟩ := hy.suffix
  have ⟨hconsumed, hremaining⟩ := Cursor.moveTo_of_remaining hd.symm
  dsimp only
  rw [hstop, Cursor.isNext_eq, Cursor.drop_consumed hconsumed, hremaining]
  refine ⟨?_, rfl, isNext_of_filter hy, fun c' us' hc' hu => ?_⟩
  case refine_1 =>
    rw [← Cursor.length_consumed, ← Cursor.length_consumed, hconsumed, List.length_append]
    exact Nat.le_add_right _ _
  case refine_2 =>
    rw [← hd] at hy
    have hy' := yields_filter_of_closes .factor .factor hy hu
    have ⟨hr, hs⟩ := parse_of_yields (hc' ▸ hy') hl
    exact ⟨hr, by rw [hs, (Cursor.moveTo_of_remaining hc').right]⟩

-- A filter between other tokens, and the same one in parentheses that have been opened before.
def hostCursor : Cursor where
  tokens   := [.ofText .or "or".toList, .ofText .identifier "a".toList, .ofText .dot ".".toList,
    .ofText .identifier "b".toList, .ofText .operator "eq".toList, .ofText .number "1".toList,
    .ofText .colon ":".toList, .ofText .identifier "c".toList]
  place    := 1
  place_le := by decide

def guestCursor : Cursor :=
  .ofTokens [.ofText .identifier "a".toList, .ofText .dot ".".toList, .ofText .identifier "b".toList,
    .ofText .operator "eq".toList, .ofText .number "1".toList, .ofText .rightParen ")".toList,
    .ofText .and "and".toList]

theorem Cursor.parse_embedded_hostCursor :
    ∃ f, (hostCursor.parse {}).1 = .ok (some f) ∧ (guestCursor.parse {}).1 = .ok (some f) ∧
      (guestCursor.parse {}).2.remaining = [.ofText .rightParen ")".toList, .ofText .and "and".toList] := by
  have ⟨f, hf, _⟩ : ∃ f, (hostCursor.parse {}).1 = .ok (some f) ∧ f.size = 2 :=
    exists_of_map_ok (by decide +kernel)
  have ⟨_, _, _, hr⟩ := Cursor.parse_embedded hf
  have ⟨hg, hs⟩ := hr guestCursor [.ofText .rightParen ")".toList, .ofText .and "and".toList]
    (by decide +kernel) (.inr ⟨.inr (by decide), fun hn => absurd hn (by decide +kernel)⟩)
  exact ⟨f, hf, hg, hs⟩

end AttributeFilter
