import AttributeFilter.Number.Layout
import AttributeFilter.Text.Json

namespace AttributeFilter

open Text

inductive Value where
  | string (t : Text)
  | number (x : Binary64)
  | boolean (b : Bool)
  | null
deriving DecidableEq

namespace Value

def equals : Value → Value → Bool
  | string t, string u => t == u
  | number x, number y => x.equals y
  | boolean a, boolean b => a == b
  | null, null => true
  | _, _ => false

-- In a filter text all places of a number are written, and a whole number has no point.
def textLayout : Layout where
  positional := fun _ => true
  wholeEnd   := []
  tie        := .up

-- In JSON all places of a number are written if its leading digit counts at least `10 ^ -5` and at
-- most `10 ^ 15`, and a whole number has a zero behind its point.
def jsonLayout : Layout where
  positional := fun leading => -5 ≤ leading && leading ≤ 15
  wholeEnd   := ".0".toList
  tie        := .toEven

def numberText : Binary64 → Text
  | .nan => "NaN".toList
  | .infinite negative => if negative then "-inf".toList else "inf".toList
  | .finite negative x => textLayout.finite negative x

-- The number in JSON, which has no name for values that are not finite.
def numberJson : Binary64 → Json
  | .finite negative x => .number (jsonLayout.finite negative x)
  | _ => .null

def booleanText (b : Bool) : Text :=
  if b then "true".toList else "false".toList

def text : Value → Text
  | string t => Quoted.encode t
  | number x => numberText x
  | boolean b => booleanText b
  | null => "null".toList

def json : Value → Json
  | string t => .string t
  | number x => numberJson x
  | boolean b => .boolean b
  | null => .null

end Value
end AttributeFilter
