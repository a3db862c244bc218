import AttributeFilter.Tree.Json
import AttributeFilter.Tree.Text

/-!
The parts of a tree, and properties that a tree has with all that is below it.
-/

namespace AttributeFilter.Tree

-- The trees directly below a tree, from left to right.
def parts : Tree → List Tree
  | path _ f?                      => f?.toList
  | comparison _ f? _ _            => f?.toList
  | negation c                     => [c]
  | conjunction cs | disjunction cs => cs

theorem sizeOf_lt_of_mem_parts {c t : Tree} (h : c ∈ t.parts) : sizeOf c < sizeOf t := by
  cases t <;> simp [parts] at h
  case path            => subst h; simp; omega
  case comparison      => subst h; simp; omega
  case negation        => subst h; simp
  case conjunction cs  => have := List.sizeOf_lt_of_mem h; simp; omega
  case disjunction cs  => have := List.sizeOf_lt_of_mem h; simp; omega

theorem byParts {motive : Tree → Prop} (step : ∀ t, (∀ c ∈ t.parts, motive c) → motive t)
    (t : Tree) : motive t :=
  step t fun c _ => byParts step c
termination_by t
decreasing_by exact sizeOf_lt_of_mem_parts ‹_›

-- The text of an operand.
def operandText (outer : Nat) (t : Tree) : Text :=
  if t.precedence ≤ outer then inParens t.text else t.text

theorem operandTexts_eq_map (outer : Nat) (ts : List Tree) :
    operandTexts outer ts = ts.map (operandText outer) := by
  induction ts
  case nil          => rfl
  case cons t ts ih => rw [operandTexts, ih]; rfl

theorem jsons_eq_map (ts : List Tree) : jsons ts = ts.map json := by
  induction ts
  case nil          => rfl
  case cons t ts ih => rw [jsons, ih]; rfl

-- A property of a tree and of all that is below it.
inductive All (P : Tree → Prop) : Tree → Prop
  | intro : P t → (∀ c ∈ t.parts, All P c) → All P t

namespace All

variable {P Q : Tree → Prop} {t : Tree}

theorem here (h : All P t) : P t := by
  cases h; assumption

theorem part {c : Tree} (h : All P t) (hc : c ∈ t.parts) : All P c := by
  cases h with | intro _ hs => exact hs c hc

theorem imp (hPQ : ∀ t, P t → Q t) (h : All P t) : All Q t := by
  induction h with | intro h _ ih => exact .intro (hPQ _ h) ih

end All
end AttributeFilter.Tree
