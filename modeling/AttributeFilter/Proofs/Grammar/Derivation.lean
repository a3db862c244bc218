import AttributeFilter.Proofs.Grammar.Reading
import AttributeFilter.Proofs.Token.Admits

/-!
Derivations of the filter grammar. A derivation holds the tokens that it derives as its leaves, and says
what they mean. Neither the parser nor the scanner occurs in it.
-/

namespace AttributeFilter.Grammar

open Text

-- A leaf: a token of one of some kinds, whose text is a lexeme of its kind.
@[ext]
structure Terminal (kinds : List Token.Kind) where
  token    : Token
  kind_mem : token.kind ∈ kinds
  lexeme   : token.IsLexeme

theorem Terminal.text_ne_nil {kinds : List Token.Kind} (t : Terminal kinds) : t.token.text ≠ [] :=
  Token.Kind.Admits.ne_nil t.lexeme

-- What a literal stands for. No number stands for a value that is not finite.
inductive Denotes (t : Token) : Value → Prop
  | string : t.kind = .string → Quoted.decode? t.text = some s → Denotes t (.string s)
  | number : t.kind = .number → Binary64.ofText? t.text = some x → x.isFinite → Denotes t (.number x)
  | true   : t.kind = .true → Denotes t (.boolean .true)
  | false  : t.kind = .false → Denotes t (.boolean .false)
  | null   : t.kind = .null → Denotes t .null

@[ext]
structure Literal where
  word    : Terminal Token.Kind.literals
  value   : Value
  denotes : Denotes word.token value

-- What stands behind a compared path. Only `pr` stands alone.
inductive Test
  | present (word : Terminal [.operator]) (names : Operator.ofWord? word.token.text = some .present)
  | relation (word : Terminal [.operator]) (operator : Operator)
    (names : Operator.ofWord? word.token.text = some operator) (ne_present : operator ≠ .present)
    (literal : Literal)

structure Member where
  dot  : Terminal [.dot]
  name : Terminal [.identifier]

-- The dotted name of an attribute. The word `not` is a name behind a schema.
inductive Name
  | plain (first : Terminal [.identifier]) (more : List Member)
  | qualified (uri : Terminal [.schemaUri]) (colon : Terminal [.colon])
    (first : Terminal [.identifier, .not]) (more : List Member)

inductive Symbol
  | filter
  | disjunction
  | alternatives
  | conjunction
  | conjuncts
  | factor
  | path

inductive Derivation : Symbol → Type
  | nothing : Derivation .filter
  | whole (d : Derivation .disjunction) : Derivation .filter
  | disjunction (first : Derivation .conjunction) (more : Derivation .alternatives) :
    Derivation .disjunction
  | lastAlternative : Derivation .alternatives
  | alternative (word : Terminal [.or]) (next : Derivation .conjunction)
    (more : Derivation .alternatives) : Derivation .alternatives
  | conjunction (first : Derivation .factor) (more : Derivation .conjuncts) : Derivation .conjunction
  | lastConjunct : Derivation .conjuncts
  | conjunct (word : Terminal [.and]) (next : Derivation .factor) (more : Derivation .conjuncts) :
    Derivation .conjuncts
  | negation (word : Terminal [.not]) (inner : Derivation .factor) : Derivation .factor
  | group (left : Terminal [.leftParen]) (inner : Derivation .filter)
    (right : Terminal [.rightParen]) : Derivation .factor
  | reference (p : Derivation .path) : Derivation .factor
  | comparison (p : Derivation .path) (test : Test) : Derivation .factor
  -- The word `not` on its own is a name directly before an operator.
  | namedNot (word : Terminal [.not]) (test : Test) : Derivation .factor
  | bare (name : Name) : Derivation .path
  | filtered (name : Name) (left : Terminal [.leftBracket]) (inner : Derivation .filter)
    (right : Terminal [.rightBracket]) (sub? : Option Member) : Derivation .path

namespace Test

def tokens : Test → List Token
  | present word _            => [word.token]
  | relation word _ _ _ value => [word.token, value.word.token]

theorem isLexeme (d : Test) : ∀ t ∈ d.tokens, t.IsLexeme := by
  cases d
  case present word _ => exact List.forall_mem_singleton.mpr word.lexeme
  case relation word _ _ _ value =>
    exact List.forall_mem_cons.mpr ⟨word.lexeme, List.forall_mem_singleton.mpr value.word.lexeme⟩

def meaning : Test → Operator × Option Value
  | present ..                 => (.present, none)
  | relation _ operator _ _ value => (operator, some value.value)

end Test

namespace Member

def tokens (m : Member) : List Token :=
  [m.dot.token, m.name.token]

theorem isLexeme (m : Member) : ∀ t ∈ m.tokens, t.IsLexeme :=
  List.forall_mem_cons.mpr ⟨m.dot.lexeme, List.forall_mem_singleton.mpr m.name.lexeme⟩

def text (m : Member) : Text :=
  m.name.token.text

end Member

namespace Name

def tokens : Name → List Token
  | plain first more => first.token :: more.flatMap Member.tokens
  | qualified uri colon first more =>
    uri.token :: colon.token :: first.token :: more.flatMap Member.tokens

theorem isLexeme (n : Name) : ∀ t ∈ n.tokens, t.IsLexeme := by
  have hm (more : List Member) : ∀ t ∈ more.flatMap Member.tokens, t.IsLexeme := by
    intro t ht
    have ⟨m, _, ht⟩ := List.mem_flatMap.mp ht
    exact m.isLexeme t ht
  cases n
  case plain first more => exact List.forall_mem_cons.mpr ⟨first.lexeme, hm more⟩
  case qualified uri colon first more =>
    exact List.forall_mem_cons.mpr ⟨uri.lexeme, List.forall_mem_cons.mpr ⟨colon.lexeme,
      List.forall_mem_cons.mpr ⟨first.lexeme, hm more⟩⟩⟩

def segments : Name → List Text
  | plain first more | qualified _ _ first more => first.token.text :: more.map Member.text

def schema? : Name → Option Text
  | plain ..            => none
  | qualified uri _ _ _ => some uri.token.text

theorem segments_ne_nil : (n : Name) → n.segments ≠ []
  | plain .. | qualified .. => List.cons_ne_nil _ _

theorem ne_nil_of_mem_segments {n : Name} {s : Text} (h : s ∈ n.segments) : s ≠ [] := by
  have hm (first : Text) (more : List Member) (hf : first ≠ [])
      (hs : s ∈ first :: more.map Member.text) : s ≠ [] := by
    rcases List.mem_cons.mp hs with rfl | hs
    · exact hf
    · have ⟨m, _, he⟩ := List.mem_map.mp hs
      exact he ▸ m.name.text_ne_nil
  cases n
  case plain first more         => exact hm _ more first.text_ne_nil h
  case qualified _ _ first more => exact hm _ more first.text_ne_nil h

def path (n : Name) (sub? : Option Member) : Path where
  schema?         := n.schema?
  segments        := n.segments
  sub?            := sub?.map Member.text
  segments_ne_nil := n.segments_ne_nil
  ne_nil_of_mem   := fun _ h => ne_nil_of_mem_segments h

-- The name that the word `not` is on its own.
def notPath (word : Terminal [.not]) : Path where
  schema?         := none
  segments        := [word.token.text]
  sub?            := none
  segments_ne_nil := List.cons_ne_nil _ _
  ne_nil_of_mem   := fun _ h => List.mem_singleton.mp h ▸ word.text_ne_nil

end Name

-- What the derivations of a symbol mean: a tree or nothing, a list of operands, or a path with its
-- value filter.
abbrev Meaning : Symbol → Type
  | .filter | .disjunction | .conjunction | .factor => Option Tree
  | .alternatives | .conjuncts => List (Option Tree)
  | .path => Path × Option Tree

namespace Derivation

def tokens : {s : Symbol} → Derivation s → List Token
  | _, nothing                    => []
  | _, whole d                    => d.tokens
  | _, disjunction first more     => first.tokens ++ more.tokens
  | _, lastAlternative            => []
  | _, alternative word next more => word.token :: (next.tokens ++ more.tokens)
  | _, conjunction first more     => first.tokens ++ more.tokens
  | _, lastConjunct               => []
  | _, conjunct word next more    => word.token :: (next.tokens ++ more.tokens)
  | _, negation word inner        => word.token :: inner.tokens
  | _, group left inner right     => left.token :: (inner.tokens ++ [right.token])
  | _, reference p                => p.tokens
  | _, comparison p test          => p.tokens ++ test.tokens
  | _, namedNot word test         => word.token :: test.tokens
  | _, bare name                  => name.tokens
  | _, filtered name left inner right sub? =>
    name.tokens ++ left.token :: (inner.tokens ++ right.token :: sub?.elim [] Member.tokens)

theorem isLexeme {s : Symbol} (d : Derivation s) : ∀ t ∈ d.tokens, t.IsLexeme := by
  induction d
  case nothing | lastAlternative | lastConjunct => nofun
  case whole ih | reference ih => exact ih
  case disjunction ih₁ ih₂ | conjunction ih₁ ih₂ => exact List.forall_mem_append.mpr ⟨ih₁, ih₂⟩
  case alternative word _ _ ih₁ ih₂ | conjunct word _ _ ih₁ ih₂ =>
    exact List.forall_mem_cons.mpr ⟨word.lexeme, List.forall_mem_append.mpr ⟨ih₁, ih₂⟩⟩
  case negation word _ ih => exact List.forall_mem_cons.mpr ⟨word.lexeme, ih⟩
  case group left _ right ih =>
    exact List.forall_mem_cons.mpr ⟨left.lexeme,
      List.forall_mem_append.mpr ⟨ih, List.forall_mem_singleton.mpr right.lexeme⟩⟩
  case comparison test ih => exact List.forall_mem_append.mpr ⟨ih, test.isLexeme⟩
  case namedNot word test => exact List.forall_mem_cons.mpr ⟨word.lexeme, test.isLexeme⟩
  case bare name => exact name.isLexeme
  case filtered name left _ right sub? ih =>
    have hs : ∀ t ∈ sub?.elim [] Member.tokens, t.IsLexeme := by
      cases sub?
      case none   => nofun
      case some m => exact m.isLexeme
    exact List.forall_mem_append.mpr ⟨name.isLexeme, List.forall_mem_cons.mpr ⟨left.lexeme,
      List.forall_mem_append.mpr ⟨ih, List.forall_mem_cons.mpr ⟨right.lexeme, hs⟩⟩⟩⟩

-- Groups make no node, and operands that are nothing vanish.
def meaning : {s : Symbol} → Derivation s → Meaning s
  | _, nothing                    => none
  | _, whole d                    => d.meaning
  | _, disjunction first more     => combine .disjunction (first.meaning :: more.meaning)
  | _, lastAlternative            => []
  | _, alternative _ next more    => next.meaning :: more.meaning
  | _, conjunction first more     => combine .conjunction (first.meaning :: more.meaning)
  | _, lastConjunct               => []
  | _, conjunct _ next more       => next.meaning :: more.meaning
  | _, negation _ inner           => inner.meaning.map .negation
  | _, group _ inner _            => inner.meaning
  | _, reference p                => some (.path p.meaning.1 p.meaning.2)
  | _, comparison p test          =>
    some (.comparison p.meaning.1 p.meaning.2 test.meaning.1 test.meaning.2)
  | _, namedNot word test         =>
    some (.comparison (Name.notPath word) none test.meaning.1 test.meaning.2)
  | _, bare name                  => (name.path none, none)
  | _, filtered name _ inner _ sub? => (name.path sub?, inner.meaning)

-- How many levels are open at a time.
def depth : {s : Symbol} → Derivation s → Nat
  | _, nothing | _, lastAlternative | _, lastConjunct | _, namedNot .. | _, bare _ => 0
  | _, whole d | _, reference d | _, comparison d _ => d.depth
  | _, disjunction first more | _, alternative _ first more => max first.depth more.depth
  | _, conjunction first more | _, conjunct _ first more => max first.depth more.depth
  | _, negation _ inner | _, group _ inner _ | _, filtered _ _ inner _ _ => inner.depth + 1

-- Every level is opened by a token.
theorem depth_le_length {s : Symbol} (d : Derivation s) : d.depth ≤ d.tokens.length := by
  induction d <;> simp [depth, tokens] <;> omega

theorem combine_singleton (join : List Tree → Tree) (m : Option Tree) : combine join [m] = m := by
  cases m <;> rfl

-- A single operand needs no joining.
theorem exists_conjunction (d : Derivation .factor) :
    ∃ e : Derivation .conjunction, e.tokens = d.tokens ∧ e.meaning = d.meaning ∧ e.depth = d.depth := by
  refine ⟨conjunction d lastConjunct, List.append_nil _, ?_, Nat.max_zero _⟩
  rw [meaning, meaning, combine_singleton]

theorem exists_disjunction (d : Derivation .conjunction) :
    ∃ e : Derivation .disjunction, e.tokens = d.tokens ∧ e.meaning = d.meaning ∧ e.depth = d.depth := by
  refine ⟨disjunction d lastAlternative, List.append_nil _, ?_, Nat.max_zero _⟩
  rw [meaning, meaning, combine_singleton]

end Derivation
end AttributeFilter.Grammar
