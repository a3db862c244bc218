import AttributeFilter.Number.Shortest

namespace AttributeFilter

structure Layout where
  -- The powers of ten of the leading digit at which a number is written without an exponent.
  positional : Int → Bool
  wholeEnd : Text
  -- Which of two equally near shortest numbers is written.
  tie : Tie

namespace Layout

def zeros (n : Nat) : Text :=
  List.replicate n '0'

def inPlace (wholeEnd digits : Text) (leading : Int) : Text :=
  if leading < 0 then "0.".toList ++ zeros ((-leading).toNat - 1) ++ digits
  else
    let whole := leading.toNat + 1
    if digits.length ≤ whole then digits ++ zeros (whole - digits.length) ++ wholeEnd
    else digits.take whole ++ '.' :: digits.drop whole

def withExponent (digits : Text) (leading : Int) : Text :=
  let mantissa :=
    match digits with
    | first :: d :: rest => first :: '.' :: d :: rest
    | short => short
  let sign := if leading < 0 then '-' else '+'
  mantissa ++ 'e' :: sign :: Text.ofNat leading.natAbs

def magnitude (l : Layout) (x : Magnitude) : Text :=
  let d := x.shortest l.tie
  let digits := Text.ofNat d.significand
  let leading := digits.length - 1 + d.exponent
  if l.positional leading then inPlace l.wholeEnd digits leading else withExponent digits leading

-- The text of a finite value. A negative zero keeps its sign.
def finite (l : Layout) (negative : Bool) (x : Magnitude) : Text :=
  if negative then '-' :: l.magnitude x else l.magnitude x

end Layout
end AttributeFilter
