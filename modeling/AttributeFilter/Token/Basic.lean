import AttributeFilter.Operator
import AttributeFilter.Position

namespace AttributeFilter

namespace Token

inductive Kind where
  | schemaUri
  | identifier
  | string
  | number
  | true
  | false
  | null
  | operator
  | and
  | or
  | not
  | leftParen
  | rightParen
  | leftBracket
  | rightBracket
  | dot
  | colon
deriving DecidableEq

namespace Kind

def name : Kind → Text
  | schemaUri    => "SchemaUri".toList
  | identifier   => "Identifier".toList
  | string       => "String".toList
  | number       => "Number".toList
  | true         => "True".toList
  | false        => "False".toList
  | null         => "Null".toList
  | operator     => "Operator".toList
  | and          => "And".toList
  | or           => "Or".toList
  | not          => "Not".toList
  | leftParen    => "LeftParen".toList
  | rightParen   => "RightParen".toList
  | leftBracket  => "LeftBracket".toList
  | rightBracket => "RightBracket".toList
  | dot          => "Dot".toList
  | colon        => "Colon".toList

def literals : List Kind :=
  [string, number, true, false, null]

def reservedWords : List (Text × Kind) :=
  [("and".toList, and), ("or".toList, or), ("not".toList, not), ("true".toList, true),
   ("false".toList, false), ("null".toList, null)]

-- The words that are operators, in small letters. Which operator a word names is not asked here.
def operatorWords : List Text :=
  ["eq".toList, "ne".toList, "co".toList, "sw".toList, "ew".toList, "gt".toList, "ge".toList, "lt".toList,
   "le".toList, "pr".toList]

def ofReserved? (w : Text) : Option Kind :=
  if Text.lower w ∈ operatorWords then some operator else reservedWords.lookup (Text.lower w)

def ofWord (w : Text) : Kind :=
  (ofReserved? w).getD identifier

def ofMark? (c : Char) : Option Kind :=
  match c with
  | '(' => some leftParen
  | ')' => some rightParen
  | '[' => some leftBracket
  | ']' => some rightBracket
  | '.' => some dot
  | ':' => some colon
  | _ => none

end Kind
end Token

-- A token: its text as written, the same text with the white space directly before and after it,
-- and the place of its first character.
structure Token where
  kind : Token.Kind
  text : Text
  raw : Text
  position : Position
deriving DecidableEq

namespace Token

-- A token made by hand has no white space around it.
def ofText (kind : Kind) (text : Text) (position : Position := {}) : Token where
  kind := kind
  text := text
  raw := text
  position := position

end Token
end AttributeFilter
