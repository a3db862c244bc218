import AttributeFilter.Proofs.Filter.Qualified
import AttributeFilter.Proofs.Grammar.Completeness

/-!
Derivations that begin with a name. A schema may be put before the name, which changes no more of what is
meant than the schema of a path.
-/

namespace AttributeFilter

namespace Grammar

variable {s : Symbol} {ts us : List Token} {kinds : List Token.Kind}

theorem isNext_append (h : ts ≠ []) : isNext kinds (ts ++ us) = isNext kinds ts := by
  cases ts
  case nil  => exact absurd rfl h
  case cons => rfl

theorem isNext_append_eq_false (ht : isNext kinds ts = false) (hu : isNext kinds us = false) :
    isNext kinds (ts ++ us) = false := by
  cases ts
  case nil  => exact hu
  case cons => exact ht

-- Tokens begin with a name that has no schema, and what is behind it does not belong to it.
def BeginsWithName (ts : List Token) : Prop :=
  ∃ (first : Terminal [.identifier]) (more : List Member) (rest : List Token),
    ts = first.token :: (more.flatMap Member.tokens ++ rest) ∧ isNext [.dot, .colon] rest = false

theorem BeginsWithName.append (h : BeginsWithName ts) (hu : isNext [.dot, .colon] us = false) :
    BeginsWithName (ts ++ us) := by
  obtain ⟨first, more, rest, rfl, hr⟩ := h
  exact ⟨first, more, rest ++ us, by simp, isNext_append_eq_false hr hu⟩

namespace Derivation

-- What has to open with something is not empty.
theorem tokens_ne_nil (d : Derivation s) (ho : ¬ Opens s []) : d.tokens ≠ [] := by
  intro h
  have hd := d.opens []
  rw [h] at hd
  exact ho hd

-- What opens with an identifier begins with a name.
theorem beginsWithName (d : Derivation s) (h : isNext [.identifier] d.tokens = true) :
    BeginsWithName d.tokens := by
  induction d
  case nothing | lastAlternative | lastConjunct => cases h
  case whole ih | reference ih => exact ih h
  case alternative word _ _ _ _ | conjunct word _ _ _ _ | negation word _ _ =>
    simp [tokens, word.kind_eq] at h
  case group left _ _ _ => simp [tokens, left.kind_eq] at h
  case namedNot word _ => simp [tokens, word.kind_eq] at h
  case disjunction first more ih _ =>
    rw [tokens, isNext_append (first.tokens_ne_nil Bool.false_ne_true)] at h
    apply (ih h).append
    cases more
    case lastAlternative      => rfl
    case alternative word _ _ _ => simp [tokens, word.kind_eq]
  case conjunction first more ih _ =>
    rw [tokens, isNext_append (first.tokens_ne_nil Bool.false_ne_true)] at h
    apply (ih h).append
    cases more
    case lastConjunct      => rfl
    case conjunct word _ _ _ => simp [tokens, word.kind_eq]
  case comparison p test ih =>
    rw [tokens, isNext_append (p.tokens_ne_nil Bool.false_ne_true)] at h
    apply (ih h).append
    cases test
    case present word _        => simp [Test.tokens, word.kind_eq]
    case relation word _ _ _ _ => simp [Test.tokens, word.kind_eq]
  case bare name =>
    cases name
    case plain first more   => exact ⟨first, more, [], by simp [tokens, Name.tokens], rfl⟩
    case qualified uri _ _ _ => simp [tokens, Name.tokens, uri.kind_eq] at h
  case filtered name left inner right sub? _ =>
    cases name
    case plain first more    =>
      exact ⟨first, more, _, by rw [tokens, Name.tokens, List.cons_append], by simp [left.kind_eq]⟩
    case qualified uri _ _ _ => simp [tokens, Name.tokens, uri.kind_eq] at h

/-! ### A schema before the name -/

variable {uri : Terminal [.schemaUri]} {colon : Terminal [.colon]} {m : Option Tree}

-- A derivation is that of another one with a schema and its colon in front.
structure Follows (uri : Terminal [.schemaUri]) (colon : Terminal [.colon]) (d e : Derivation s) :
    Prop where
  tokens : e.tokens = uri.token :: colon.token :: d.tokens
  depth  : e.depth = d.depth

theorem exists_name_qualified (uri : Terminal [.schemaUri]) (colon : Terminal [.colon]) {n : Name}
    (h : isNext [.identifier] n.tokens = true) :
    ∃ n' : Name, n'.tokens = uri.token :: colon.token :: n.tokens ∧
      ∀ sub?, n'.path sub? = (n.path sub?).withSchema (some uri.token.text) := by
  cases n
  case plain first more =>
    have hk : first.token.kind ∈ [Token.Kind.identifier, .not] := by simp [first.kind_eq]
    exact ⟨.qualified uri colon ⟨first.token, hk, first.lexeme⟩ more, rfl, fun _ => rfl⟩
  case qualified uri _ _ _ => simp [Name.tokens, uri.kind_eq] at h

theorem exists_path_qualified (uri : Terminal [.schemaUri]) (colon : Terminal [.colon])
    {d : Derivation .path} (h : isNext [.identifier] d.tokens = true) :
    ∃ e : Derivation .path, Follows uri colon d e ∧
      e.meaning = (d.meaning.1.withSchema (some uri.token.text), d.meaning.2) := by
  cases d
  case bare n =>
    obtain ⟨n', ht, hp⟩ := exists_name_qualified uri colon h
    exact ⟨.bare n', ⟨ht, rfl⟩, congrArg (·, none) (hp none)⟩
  case filtered n left inner right sub? =>
    have hn : n.tokens ≠ [] := by cases n <;> exact List.cons_ne_nil _ _
    obtain ⟨n', ht, hp⟩ := exists_name_qualified uri colon ((isNext_append hn).symm.trans h)
    refine ⟨.filtered n' left inner right sub?, ⟨?_, rfl⟩, congrArg (·, inner.meaning) (hp sub?)⟩
    simp [tokens, ht]

-- What is a single comparison or path gets the schema.
def Meaning.Qualifies (uri : Text) (m m' : Option Tree) : Prop :=
  ∃ t, m = some t ∧ (t.IsSingle → m' = some (t.qualified uri))

theorem exists_factor_qualified (uri : Terminal [.schemaUri]) (colon : Terminal [.colon])
    {d : Derivation .factor} (h : isNext [.identifier] d.tokens = true) :
    ∃ e : Derivation .factor, Follows uri colon d e ∧
      Meaning.Qualifies uri.token.text d.meaning e.meaning := by
  cases d
  case negation word _   => simp [tokens, word.kind_eq] at h
  case group left _ _    => simp [tokens, left.kind_eq] at h
  case namedNot word _   => simp [tokens, word.kind_eq] at h
  case reference p =>
    obtain ⟨e, he, hm⟩ := exists_path_qualified uri colon h
    refine ⟨.reference e, ⟨he.tokens, he.depth⟩, _, rfl, fun _ => ?_⟩
    rw [meaning, hm]
    rfl
  case comparison p test =>
    have hn := p.tokens_ne_nil Bool.false_ne_true
    obtain ⟨e, he, hm⟩ := exists_path_qualified uri colon ((isNext_append hn).symm.trans h)
    refine ⟨.comparison e test, ⟨?_, he.depth⟩, _, rfl, fun _ => ?_⟩
    · rw [tokens, he.tokens]; rfl
    · rw [meaning, hm]; rfl

theorem combine_some_cons (join : List Tree → Tree) (t : Tree) (more : List (Option Tree)) :
    combine join (some t :: more) =
      if more.filterMap id = [] then some t else some (join (t :: more.filterMap id)) := by
  have h : (some t :: more).filterMap id = t :: more.filterMap id := rfl
  rw [combine, h]
  cases more.filterMap id <;> rfl

-- An operand that is alone stands for the whole, and so does any other in its place.
theorem qualifies_combine {join : List Tree → Tree} (hj : ∀ ts, ¬ (join ts).IsSingle) {uri : Text}
    {m m' : Option Tree} (h : Meaning.Qualifies uri m m') (more : List (Option Tree)) :
    Meaning.Qualifies uri (combine join (m :: more)) (combine join (m' :: more)) := by
  obtain ⟨t, rfl, ht⟩ := h
  rw [combine_some_cons]
  split
  case isTrue hn =>
    refine ⟨t, rfl, fun hs => ?_⟩
    rw [ht hs, combine_some_cons, if_pos hn]
  case isFalse => exact ⟨_, rfl, fun hs => absurd hs (hj _)⟩

theorem exists_conjunction_qualified (uri : Terminal [.schemaUri]) (colon : Terminal [.colon])
    {d : Derivation .conjunction} (h : isNext [.identifier] d.tokens = true) :
    ∃ e : Derivation .conjunction, Follows uri colon d e ∧
      Meaning.Qualifies uri.token.text d.meaning e.meaning := by
  cases d
  case conjunction first more =>
    have hj (ts : List Tree) : ¬ (Tree.conjunction ts).IsSingle := nofun
    have hn := first.tokens_ne_nil Bool.false_ne_true
    obtain ⟨e, he, hm⟩ := exists_factor_qualified uri colon ((isNext_append hn).symm.trans h)
    refine ⟨.conjunction e more, ⟨?_, ?_⟩, qualifies_combine hj hm more.meaning⟩
    · rw [tokens, he.tokens]; rfl
    · rw [depth, depth, he.depth]

theorem exists_disjunction_qualified (uri : Terminal [.schemaUri]) (colon : Terminal [.colon])
    {d : Derivation .disjunction} (h : isNext [.identifier] d.tokens = true) :
    ∃ e : Derivation .disjunction, Follows uri colon d e ∧
      Meaning.Qualifies uri.token.text d.meaning e.meaning := by
  cases d
  case disjunction first more =>
    have hj (ts : List Tree) : ¬ (Tree.disjunction ts).IsSingle := nofun
    have hn := first.tokens_ne_nil Bool.false_ne_true
    obtain ⟨e, he, hm⟩ := exists_conjunction_qualified uri colon ((isNext_append hn).symm.trans h)
    refine ⟨.disjunction e more, ⟨?_, ?_⟩, qualifies_combine hj hm more.meaning⟩
    · rw [tokens, he.tokens]; rfl
    · rw [depth, depth, he.depth]

-- A schema may be put before what begins with a name.
theorem exists_filter_qualified (uri : Terminal [.schemaUri]) (colon : Terminal [.colon])
    {d : Derivation .filter} (h : isNext [.identifier] d.tokens = true) :
    ∃ e : Derivation .filter, Follows uri colon d e ∧
      Meaning.Qualifies uri.token.text d.meaning e.meaning := by
  cases d
  case nothing => cases h
  case whole d =>
    obtain ⟨e, he, hm⟩ := exists_disjunction_qualified uri colon h
    exact ⟨.whole e, ⟨he.tokens, he.depth⟩, hm⟩

end Derivation
end Grammar
end AttributeFilter
