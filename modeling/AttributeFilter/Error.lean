import AttributeFilter.Operator
import AttributeFilter.Position

namespace AttributeFilter

inductive Error where
  -- The text holds something that is no token, or a literal that denotes nothing.
  | unrecognized (text : Text) (position : Position)
  | unexpected (text : Text) (position : Position)
  | endOfText
  -- No expression starts with this token; the text is the token's raw one.
  | expectedExpression (found : Text) (position : Position)
  | tooLong (length max : Nat)
  | tooDeep (max : Nat) (position : Position)
  | arity (operator : Operator)
  | emptyPath
  | foreignNode
deriving DecidableEq

namespace Error

def position? : Error → Option Position
  | unrecognized _ p | unexpected _ p | expectedExpression _ p | tooDeep _ p => some p
  | endOfText | tooLong .. | arity _ | emptyPath | foreignNode => none

-- Whether the error says that the text was refused before the grammar saw it.
def isLexical : Error → Bool
  | unrecognized .. | tooLong .. => true
  | _ => false

def message : Error → Text
  | unrecognized text p =>
    "Unrecognized \"".toList ++ text ++ "\" on ".toList ++ p.text ++ ".".toList
  | unexpected text p =>
    "Unexpected \"".toList ++ text ++ "\" on ".toList ++ p.text ++ ".".toList
  | endOfText =>
    "Unexpected end of string.".toList
  | expectedExpression found _ =>
    "Expected an attribute/value path, opening parenthesis or a negation, got '".toList ++ found
      ++ "'.".toList
  | tooLong length max =>
    "Filter exceeds maximum length (".toList ++ Text.ofNat length ++ " bytes, max ".toList
      ++ Text.ofNat max ++ ")".toList
  | tooDeep max p =>
    "Filter exceeds maximum nesting depth (".toList ++ Text.ofNat max ++ ") on ".toList ++ p.text
      ++ ".".toList
  | arity o =>
    "Operator '".toList ++ o.word ++ "' ".toList
      ++ (if o.takesValue then "requires a value".toList else "takes no value".toList)
  | emptyPath =>
    "Attribute path must have at least one non-empty segment.".toList
  | foreignNode =>
    "Node belongs to a different filter builder.".toList

end Error
end AttributeFilter
