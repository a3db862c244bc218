import AttributeFilter.Number.Binary64

namespace AttributeFilter

inductive Tie where
  | up
  | toEven
deriving DecidableEq

namespace Magnitude

-- Whether the neighbour below is nearer than the one above, which it is at powers of two.
def narrowBelow (x : Magnitude) : Bool :=
  x.significand = Nat.pow 2 52 && x.shift ≠ 0

def lowerEnd (x : Magnitude) : Nat :=
  4 * x.units - (if x.narrowBelow then 1 else 2) * Nat.pow 2 x.shift

def upperEnd (x : Magnitude) : Nat :=
  4 * x.units + 2 * Nat.pow 2 x.shift

def readsBack (x : Magnitude) (c : Nat) (k : Int) : Bool :=
  let candidate := 4 * scale * c * Nat.pow 10 k.toNat
  let lower := x.lowerEnd * Nat.pow 10 (-k).toNat
  let upper := x.upperEnd * Nat.pow 10 (-k).toNat
  if x.significand % 2 = 0 then lower ≤ candidate && candidate ≤ upper
  else lower < candidate && candidate < upper

def leadingReach : Nat :=
  340

def leadingExponent (x : Magnitude) : Int :=
  (Nat.toDigits 10 (x.units * Nat.pow 10 leadingReach / scale)).length - 1 - (leadingReach : Int)

-- The number on the grid of the multiples of `10 ^ k` that reads back as a magnitude: of the two
-- neighbours the nearer one, if both do.
def onGrid? (tie : Tie) (x : Magnitude) (k : Int) : Option (Nat × Int) :=
  let num := x.units * Nat.pow 10 (-k).toNat
  let den := scale * Nat.pow 10 k.toNat
  let below := num / den
  let distance := 2 * (num % den)
  -- The upper neighbour is taken if it is nearer, or as the tie says.
  let upper := den < distance || (distance = den && (tie = .up || below % 2 = 1))
  match x.readsBack below k, x.readsBack (below + 1) k with
  | true, true => some (if upper then below + 1 else below, k)
  | true, false => some (below, k)
  | false, true => some (below + 1, k)
  | false, false => none

-- How many digits are certain to tell every magnitude from its neighbours.
def digitsNeeded : Nat :=
  17

-- The shortest decimal number that reads back as a magnitude. Should no grid give one, it is the
-- magnitude itself, all its digits written out.
def shortest (tie : Tie) (x : Magnitude) : Decimal :=
  if x.isZero then { negative := false, significand := 0, exponent := 0 }
  else
    let leading := x.leadingExponent
    match (List.range digitsNeeded).findSome? fun (n : Nat) => x.onGrid? tie (leading - n) with
    | some (c, k) => Decimal.strip false c k
    | none => Decimal.strip false (x.units * Nat.pow 5 1074) (-1074)

end Magnitude
end AttributeFilter
