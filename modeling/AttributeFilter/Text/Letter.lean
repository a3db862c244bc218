import AttributeFilter.Text.Basic

namespace AttributeFilter.Text

def isDigit (c : Char) : Bool :=
  '0' ≤ c && c ≤ '9'

def isLetter (c : Char) : Bool :=
  ('a' ≤ c && c ≤ 'z') || ('A' ≤ c && c ≤ 'Z')

def digitValue? (base : Nat) (c : Char) : Option Nat :=
  let value? :=
    if isDigit c then some (c.toNat - '0'.toNat)
    else if 'a' ≤ c && c ≤ 'f' then some (c.toNat - 'a'.toNat + 10)
    else if 'A' ≤ c && c ≤ 'F' then some (c.toNat - 'A'.toNat + 10)
    else none
  value?.filter (· < base)

def ofDigits (base : Nat) (digits : List Nat) : Nat :=
  digits.foldl (fun n d => base * n + d) 0

-- The number that a text of digits to a base writes. The empty text writes none.
def numeral? (base : Nat) (t : Text) : Option Nat :=
  if t.isEmpty then none else (t.mapM (digitValue? base)).map (ofDigits base)

def unsigned? : Text → Option Nat
  | '+' :: t => numeral? 10 t
  | t        => numeral? 10 t

-- ASCII capitals become small letters, every other character stays.
def lower (t : Text) : Text :=
  t.map Char.toLower

def sameWord (t u : Text) : Bool :=
  lower t == lower u

end AttributeFilter.Text
