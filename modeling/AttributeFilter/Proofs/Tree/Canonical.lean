import AttributeFilter.Proofs.Token.Admits
import AttributeFilter.Proofs.Tree.Parts

/-!
Canonical trees: the trees that the grammar has a text for. What they ask for is asked of each node on its
own.
-/

namespace AttributeFilter

open Text Lexeme

namespace Text

-- A word with no meaning of its own.
def IsName (t : Text) : Prop :=
  Token.Kind.identifier.Admits t

instance : DecidablePred IsName :=
  fun t => inferInstanceAs (Decidable (Token.Kind.identifier.Admits t))

-- What may stand first behind a schema. A `$` would end the schema URI too early.
def IsQualifiedName (t : Text) : Prop :=
  (t.IsName ∧ ∃ c ∈ t.head?, isLetter c = true) ∨ Token.Kind.not.Admits t

end Text

namespace Path

def first (p : Path) : Text :=
  p.segments.head p.segments_ne_nil

structure IsNamed (p : Path) : Prop where
  schema    : ∀ u ∈ p.schema?, IsSchemaUri u
  qualified : p.schema? ≠ none → p.first.IsQualifiedName
  plain     : p.schema? = none → p.first.IsName
  more      : ∀ s ∈ p.segments.tail, s.IsName
  sub       : ∀ s ∈ p.sub?, s.IsName

-- The word `not` as a path.
structure IsNot (p : Path) : Prop where
  schema : p.schema? = none
  word   : Token.Kind.not.Admits p.first
  more   : p.segments.tail = []
  sub    : p.sub? = none

theorem segments_eq (p : Path) : p.segments = p.first :: p.segments.tail :=
  (List.cons_head_tail _).symm

theorem eq_of {p q : Path} (h₁ : p.schema? = q.schema?) (h₂ : p.segments = q.segments)
    (h₃ : p.sub? = q.sub?) : p = q := by
  cases p
  cases q
  cases h₁
  cases h₂
  cases h₃
  rfl

end Path

namespace Tree

-- A sub-attribute is named behind a value filter only.
def IsReference (p : Path) (f? : Option Tree) : Prop :=
  p.IsNamed ∧ (f? = none → p.sub? = none)

def IsCanonical : Tree → Prop
  | path p f? => IsReference p f?
  | comparison p f? _ v? =>
    (IsReference p f? ∨ (p.IsNot ∧ f? = none)) ∧ ∀ x, v? = some (.number x) → x.isFinite = true
  | negation _ => True
  | conjunction cs | disjunction cs => 2 ≤ cs.length

-- A comparison has no value if and only if its operator is `pr`.
def HasArity : Tree → Prop
  | comparison _ _ o v? => v? = none ↔ o = .present
  | _                   => True

end Tree
end AttributeFilter
