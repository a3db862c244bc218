import AttributeFilter.Text.Letter

namespace AttributeFilter

inductive Operator where
  | equal
  | notEqual
  | contains
  | startsWith
  | endsWith
  | greater
  | greaterOrEqual
  | less
  | lessOrEqual
  | present
deriving DecidableEq

namespace Operator

def all : List Operator :=
  [equal, notEqual, contains, startsWith, endsWith, greater, greaterOrEqual, less, lessOrEqual,
   present]

theorem mem_all (o : Operator) : o ∈ all := by
  cases o <;> decide

def word : Operator → Text
  | equal          => "eq".toList
  | notEqual       => "ne".toList
  | contains       => "co".toList
  | startsWith     => "sw".toList
  | endsWith       => "ew".toList
  | greater        => "gt".toList
  | greaterOrEqual => "ge".toList
  | less           => "lt".toList
  | lessOrEqual    => "le".toList
  | present        => "pr".toList

def ofWord? (w : Text) : Option Operator :=
  all.find? fun o => Text.sameWord o.word w

@[simp]
theorem ofWord?_word (o : Operator) : ofWord? o.word = some o := by
  cases o <;> decide

-- Whether a literal follows the operator. It follows all but `pr`.
def takesValue : Operator → Bool
  | present => false
  | _ => true

end Operator
end AttributeFilter
