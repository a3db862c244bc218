import AttributeFilter.Text.Quoted

namespace AttributeFilter

open Text

-- A JSON value. A number is held as its text, and an object keeps the order of its members.
inductive Json where
  | null
  | boolean (b : Bool)
  | number (t : Text)
  | string (t : Text)
  | array (elements : List Json)
  | object (members : List (Text × Json))

namespace Json

def scalar : Json → Text
  | boolean b => if b then "true".toList else "false".toList
  | number t => t
  | string t => Quoted.encode t
  | _ => "null".toList

mutual

def compact : Json → Text
  | array elements => '[' :: joined [','] (compactElements elements) ++ [']']
  | object members => '\x7b' :: joined [','] (compactMembers members) ++ ['\x7d']
  | null => scalar null
  | boolean b => scalar (boolean b)
  | number t => scalar (number t)
  | string t => scalar (string t)

def compactElements : List Json → List Text
  | [] => []
  | j :: js => compact j :: compactElements js

def compactMembers : List (Text × Json) → List Text
  | [] => []
  | (name, j) :: ms => (Quoted.encode name ++ ':' :: compact j) :: compactMembers ms

end

def newline (depth : Nat) : Text :=
  '\n' :: List.replicate (2 * depth) ' '

def block (depth : Nat) (opening closing : Char) (items : List Text) : Text :=
  if items.isEmpty then [opening, closing]
  else
    opening :: newline (depth + 1) ++ joined (',' :: newline (depth + 1)) items ++ newline depth
      ++ [closing]

mutual

def indented (depth : Nat) : Json → Text
  | array elements => block depth '[' ']' (indentedElements (depth + 1) elements)
  | object members => block depth '\x7b' '\x7d' (indentedMembers (depth + 1) members)
  | null => scalar null
  | boolean b => scalar (boolean b)
  | number t => scalar (number t)
  | string t => scalar (string t)

def indentedElements (depth : Nat) : List Json → List Text
  | [] => []
  | j :: js => indented depth j :: indentedElements depth js

def indentedMembers (depth : Nat) : List (Text × Json) → List Text
  | [] => []
  | (name, j) :: ms =>
    (Quoted.encode name ++ ':' :: ' ' :: indented depth j) :: indentedMembers depth ms

end

def pretty (j : Json) : Text :=
  indented 0 j

end Json
end AttributeFilter
