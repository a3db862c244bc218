import AttributeFilter.Text.Letter

namespace AttributeFilter

open Text

-- The number `significand * 10 ^ exponent`, with a sign.
structure Decimal where
  negative : Bool
  significand : Nat
  exponent : Int
deriving DecidableEq

namespace Decimal

def signed : Text → Bool × Text
  | '-' :: r => (true, r)
  | '+' :: r => (false, r)
  | t => (false, t)

-- Above this an exponent takes in no further digits: the value is far out of every range.
def exponentCap : Nat :=
  0x10000

def exponentOfDigits (digits : Text) : Nat :=
  digits.foldl
    (fun n c => if n < exponentCap then 10 * n + (c.toNat - '0'.toNat) else n) 0

def exponent? : Text → Option Int
  | [] => some 0
  | e :: r =>
    let (negative, digits) := signed r
    if (e = 'e' || e = 'E') && !digits.isEmpty && digits.all isDigit then
      some (if negative then - Int.ofNat (exponentOfDigits digits) else exponentOfDigits digits)
    else none

def fraction : Text → Text × Text
  | '.' :: r => (r.takeWhile isDigit, r.dropWhile isDigit)
  | t => ([], t)

def ofText? (t : Text) : Option Decimal :=
  let (negative, u)    := signed t
  let whole            := u.takeWhile isDigit
  let (broken, behind) := fraction (u.dropWhile isDigit)
  let digits           := whole ++ broken
  do
    let significand ← numeral? 10 digits
    let exponent ← exponent? behind
    return { negative, significand, exponent := exponent - broken.length }

def strip (negative : Bool) (significand : Nat) (exponent : Int) : Decimal :=
  if h : significand ≠ 0 ∧ significand % 10 = 0 then
    strip negative (significand / 10) (exponent + 1)
  else { negative, significand, exponent }
termination_by significand
decreasing_by omega

end Decimal
end AttributeFilter
