import AttributeFilter.Proofs.Grammar.Completeness

/-!
The grammar is unambiguous: tokens have one derivation at most. Since the rules accept what the
grammar derives, and stop where a derivation ends, the tokens of two derivations can only be divided in
one way.
-/

namespace AttributeFilter.Grammar

open AttributeFilter.Parser Text

variable {us us' : List Token} {s : Symbol}

theorem Denotes.unique {t : Token} {v v' : Value} (hl : t.IsLexeme) (h : Denotes t v)
    (h' : Denotes t v') : v = v' := by
  have h  := (literalValue_eq_ok_iff hl).mpr h
  have h' := (literalValue_eq_ok_iff hl).mpr h'
  rw [h] at h'
  injection h'

theorem Terminal.cons_inj {kinds : List Token.Kind} {t t' : Terminal kinds}
    (h : t.token :: us = t'.token :: us') : t = t' ∧ us = us' :=
  ⟨Terminal.ext (List.cons.inj h).left, (List.cons.inj h).right⟩

theorem Terminal.token_ne {kind kind' : Token.Kind} (t : Terminal [kind]) (t' : Terminal [kind'])
    (hk : kind ≠ kind') : t.token ≠ t'.token :=
  fun h => hk (t.kind_eq ▸ t'.kind_eq ▸ congrArg Token.kind h)

theorem Terminal.isNext_eq_false {kind : Token.Kind} {kinds : List Token.Kind} (t : Terminal [kind])
    (hk : kind ∉ kinds) : isNext kinds (t.token :: us) = false := by
  simpa [t.kind_eq] using hk

theorem Terminal.ends_filter {kind : Token.Kind} (t : Terminal [kind])
    (hk : kind ∈ [.rightParen, .rightBracket] := by decide) : Ends .filter (t.token :: us) :=
  .inr (by simpa [t.kind_eq] using hk)

theorem Literal.eq_of_token_eq {l l' : Literal} (h : l.word.token = l'.word.token) : l = l' := by
  have hw := Terminal.ext h
  exact Literal.ext hw (l.denotes.unique l.word.lexeme (h ▸ l'.denotes))

theorem Test.tokens_injective {d d' : Test} (h : d.tokens = d'.tokens) : d = d' := by
  cases d <;> cases d'
  all_goals simp only [tokens, List.cons.injEq, and_true, reduceCtorEq, and_false] at h
  case present.present => cases Terminal.ext h; rfl
  case relation.relation word o ho _ l word' o' ho' _ l' =>
    cases Terminal.ext h.left
    cases Literal.eq_of_token_eq h.right
    obtain rfl : o = o' := by simpa [ho] using ho'
    rfl

theorem Test.tokens_ne_nil (d : Test) : d.tokens ≠ [] := by
  cases d <;> exact List.cons_ne_nil _ _

theorem Member.tokens_injective {ms ms' : List Member}
    (h : ms.flatMap tokens = ms'.flatMap tokens) : ms = ms' := by
  induction ms generalizing ms' <;> cases ms' <;> simp [tokens] at h
  case nil.nil => rfl
  case cons.cons m ms ih m' ms' =>
    have hm : m = m' := by
      cases m
      cases m'
      cases Terminal.ext h.left
      cases Terminal.ext h.right.left
      rfl
    rw [hm, ih h.right.right]

theorem Member.option_tokens_injective {m? m?' : Option Member}
    (h : m?.elim [] tokens = m?'.elim [] tokens) : m? = m?' := by
  have hl (m? : Option Member) : m?.elim [] tokens = m?.toList.flatMap tokens := by
    cases m? <;> simp
  rw [hl, hl] at h
  have := Member.tokens_injective h
  cases m? <;> cases m?' <;> simp_all

theorem Name.tokens_injective {n n' : Name} (h : n.tokens = n'.tokens) : n = n' := by
  cases n <;> cases n' <;> simp only [tokens, List.cons.injEq] at h
  case plain.plain first more first' more' =>
    cases Terminal.ext h.left
    rw [Member.tokens_injective h.right]
  case plain.qualified first _ uri _ _ _ =>
    simpa [h.left, uri.kind_eq] using first.kind_eq
  case qualified.plain uri _ _ _ first _ =>
    simpa [← h.left, uri.kind_eq] using first.kind_eq
  case qualified.qualified =>
    cases Terminal.ext h.left
    cases Terminal.ext h.right.left
    cases Terminal.ext h.right.right.left
    rw [Member.tokens_injective h.right.right.right]

theorem Name.split_unique {n n' : Name} (hu : isNext [.dot] us = false)
    (hu' : isNext [.dot] us' = false) (h : n.tokens ++ us = n'.tokens ++ us') :
    n = n' ∧ us = us' := by
  have hr := (n.yields hu).rest.symm.trans (h ▸ (n'.yields hu').rest)
  exact ⟨tokens_injective (List.append_cancel_right (hr ▸ h)), hr⟩

namespace Derivation

theorem split_unique {d d' : Derivation s} (hu : Ends s us) (hu' : Ends s us')
    (h : d.tokens ++ us = d'.tokens ++ us') : d.tokens = d'.tokens ∧ us = us' := by
  let levels := max d.depth d'.depth
  have hy : (ruleOf 0 levels s).Yields (d.tokens ++ us) d.meaning us :=
    yields_of_derivation d (Nat.le_max_left _ _) hu
  have hy' : (ruleOf 0 levels s).Yields (d'.tokens ++ us') d'.meaning us' :=
    yields_of_derivation d' (Nat.le_max_right _ _) hu'
  have hr := hy.rest.symm.trans (h ▸ hy'.rest)
  exact ⟨List.append_cancel_right (hr ▸ h), hr⟩

theorem conjunction_split {first first' : Derivation .conjunction}
    {more more' : Derivation .alternatives}
    (h : first.tokens ++ more.tokens = first'.tokens ++ more'.tokens) :
    first.tokens = first'.tokens ∧ more.tokens = more'.tokens := by
  have he : Ends .alternatives [] := rfl
  have hu  := by simpa using he.alternatives more
  have hu' := by simpa using he.alternatives more'
  exact split_unique hu hu' h

theorem factor_split {first first' : Derivation .factor} {more more' : Derivation .conjuncts}
    (h : first.tokens ++ more.tokens = first'.tokens ++ more'.tokens) :
    first.tokens = first'.tokens ∧ more.tokens = more'.tokens := by
  have he : Ends .conjuncts [] := rfl
  have hu  := by simpa using he.conjuncts more
  have hu' := by simpa using he.conjuncts more'
  exact split_unique hu hu' h

-- No other factor starts like a path.
theorem append_ne_cons (p : Derivation .path) {kind : Token.Kind} (word : Terminal [kind])
    (hk : kind ∉ [.identifier, .schemaUri]) : p.tokens ++ us ≠ word.token :: us' := by
  intro he
  have ho := p.opens us
  simp_all [Opens, word.kind_eq]

theorem tokens_ne_cons (p : Derivation .path) {kind : Token.Kind} (word : Terminal [kind])
    (hk : kind ∉ [.identifier, .schemaUri]) : p.tokens ≠ word.token :: us :=
  List.append_nil p.tokens ▸ p.append_ne_cons word hk

-- No factor starts with an operator. So an operator tells a name `not` from a negation.
theorem tokens_ne_test (d : Derivation .factor) (test : Test) : d.tokens ≠ test.tokens := by
  intro he
  have ho : isNext [.operator] (d.tokens ++ []) = false :=
    isNext_of_openers (by decide) (d.opens [])
  rw [he, test.isNext_tokens] at ho
  cases ho

theorem ends_path_nil : Ends .path [] :=
  rfl

theorem tokens_injective {d d' : Derivation s} (h : d.tokens = d'.tokens) : d = d' := by
  induction d
  case nothing =>
    cases d'
    case nothing  => rfl
    case whole d' => simpa [Opens, ← show [] = d'.tokens from h] using d'.opens []
  case whole d ih =>
    cases d'
    case nothing  => simpa [Opens, show d.tokens = [] from h] using d.opens []
    case whole d' => rw [ih h]
  case disjunction first more ih₁ ih₂ =>
    cases d'
    case disjunction first' more' =>
      have h := conjunction_split h
      rw [ih₁ h.left, ih₂ h.right]
  case lastAlternative =>
    cases d'
    case lastAlternative => rfl
    case alternative     => cases h
  case alternative word next more ih₁ ih₂ =>
    cases d'
    case lastAlternative => cases h
    case alternative word' next' more' =>
      have h := Terminal.cons_inj h
      have hs := conjunction_split h.right
      rw [h.left, ih₁ hs.left, ih₂ hs.right]
  case conjunction first more ih₁ ih₂ =>
    cases d'
    case conjunction first' more' =>
      have h := factor_split h
      rw [ih₁ h.left, ih₂ h.right]
  case lastConjunct =>
    cases d'
    case lastConjunct => rfl
    case conjunct     => cases h
  case conjunct word next more ih₁ ih₂ =>
    cases d'
    case lastConjunct => cases h
    case conjunct word' next' more' =>
      have h := Terminal.cons_inj h
      have hs := factor_split h.right
      rw [h.left, ih₁ hs.left, ih₂ hs.right]
  case negation word inner ih =>
    cases d'
    case negation word' inner' =>
      have h := Terminal.cons_inj h
      rw [h.left, ih h.right]
    case group left _ _ =>
      exact absurd (List.cons.inj h).left (word.token_ne left (by decide))
    case reference p       => exact absurd h.symm (p.tokens_ne_cons word (by decide))
    case comparison p test => exact absurd h.symm (p.append_ne_cons word (by decide))
    case namedNot _ test   => exact absurd (List.cons.inj h).right (inner.tokens_ne_test test)
  case group left inner right ih =>
    cases d'
    case negation word _ =>
      exact absurd (List.cons.inj h).left (left.token_ne word (by decide))
    case group left' inner' right' =>
      have h := Terminal.cons_inj h
      have hi := split_unique right.ends_filter right'.ends_filter h.right
      rw [h.left, ih hi.left, (Terminal.cons_inj hi.right).left]
    case reference p       => exact absurd h.symm (p.tokens_ne_cons left (by decide))
    case comparison p test => exact absurd h.symm (p.append_ne_cons left (by decide))
    case namedNot word _   => exact absurd (List.cons.inj h).left (left.token_ne word (by decide))
  case reference p ih =>
    cases d'
    case negation word _   => exact absurd h (p.tokens_ne_cons word (by decide))
    case group left _ _    => exact absurd h (p.tokens_ne_cons left (by decide))
    case reference p'      => rw [ih h]
    case comparison p' test =>
      have he : p.tokens ++ [] = p'.tokens ++ (test.tokens ++ []) := by simpa [tokens] using h
      have hs := (split_unique ends_path_nil (test.ends_path []) he).right
      exact absurd hs.symm (by simpa using test.tokens_ne_nil)
    case namedNot word _   => exact absurd h (p.tokens_ne_cons word (by decide))
  case comparison p test ih =>
    cases d'
    case negation word _   => exact absurd h (p.append_ne_cons word (by decide))
    case group left _ _    => exact absurd h (p.append_ne_cons left (by decide))
    case reference p'      =>
      have he : p.tokens ++ (test.tokens ++ []) = p'.tokens ++ [] := by simpa [tokens] using h
      have hs := (split_unique (test.ends_path []) ends_path_nil he).right
      exact absurd hs (by simpa using test.tokens_ne_nil)
    case comparison p' test' =>
      have he : p.tokens ++ (test.tokens ++ []) = p'.tokens ++ (test'.tokens ++ []) := by
        simpa [tokens] using h
      have hs := split_unique (test.ends_path []) (test'.ends_path []) he
      rw [List.append_nil, List.append_nil] at hs
      rw [ih hs.left, Test.tokens_injective hs.right]
    case namedNot word _   => exact absurd h (p.append_ne_cons word (by decide))
  case namedNot word test =>
    cases d'
    case negation _ inner  => exact absurd (List.cons.inj h).right.symm (inner.tokens_ne_test test)
    case group left _ _    => exact absurd (List.cons.inj h).left (word.token_ne left (by decide))
    case reference p       => exact absurd h.symm (p.tokens_ne_cons word (by decide))
    case comparison p test => exact absurd h.symm (p.append_ne_cons word (by decide))
    case namedNot word' test' =>
      have h := Terminal.cons_inj h
      rw [h.left, Test.tokens_injective h.right]
  case bare n =>
    cases d'
    case bare n' => rw [Name.tokens_injective h]
    case filtered n' left inner right sub? =>
      have he : n.tokens ++ [] = (filtered n' left inner right sub?).tokens := by
        simpa [tokens] using h
      cases (Name.split_unique rfl (left.isNext_eq_false (by decide)) he).right
  case filtered n left inner right sub? ih =>
    cases d'
    case bare n' =>
      have he : (filtered n left inner right sub?).tokens = n'.tokens ++ [] := by
        simpa [tokens] using h
      cases (Name.split_unique (left.isNext_eq_false (by decide)) rfl he).right
    case filtered n' left' inner' right' sub?' =>
      have hn := Name.split_unique (left.isNext_eq_false (by decide))
        (left'.isNext_eq_false (by decide)) h
      have hl := Terminal.cons_inj hn.right
      have hi := split_unique right.ends_filter right'.ends_filter hl.right
      have hr := Terminal.cons_inj hi.right
      rw [hn.left, hl.left, ih hi.left, hr.left, Member.option_tokens_injective hr.right]

end Derivation

end AttributeFilter.Grammar
