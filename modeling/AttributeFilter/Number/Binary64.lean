import AttributeFilter.Number.Decimal

namespace AttributeFilter

open Text

-- A magnitude in its one form: the significand has 53 bits, or the shift is zero.
structure Magnitude where
  significand : Nat
  shift : Nat
  significand_lt : significand < Nat.pow 2 53
  shift_le : shift ≤ 2045
  normal : shift = 0 ∨ Nat.pow 2 52 ≤ significand
deriving DecidableEq

namespace Magnitude

-- How many units make one: the least positive value is `1 / scale`.
def scale : Nat :=
  Nat.pow 2 1074

def units (x : Magnitude) : Nat :=
  x.significand * Nat.pow 2 x.shift

def zero : Magnitude where
  significand    := 0
  shift          := 0
  significand_lt := by decide
  shift_le       := by decide
  normal         := .inl rfl

def isZero (x : Magnitude) : Bool :=
  x.significand = 0

def roundHalfEven (num den : Nat) : Nat :=
  let quotient  := num / den
  let remainder := num % den
  if 2 * remainder < den || (2 * remainder = den && quotient % 2 = 0) then quotient
  else quotient + 1

def shiftOf (units : Nat) : Nat :=
  if units = 0 then 0 else units.log2 - 52

def nearest? (num den : Nat) : Option Magnitude :=
  let shift := shiftOf (num / den)
  let significand := roundHalfEven num (den * Nat.pow 2 shift)
  -- Rounding up may carry into one more bit.
  let (significand, shift) :=
    if significand = Nat.pow 2 53 then (Nat.pow 2 52, shift + 1) else (significand, shift)
  if h : significand < Nat.pow 2 53 ∧ shift ≤ 2045 ∧ (shift = 0 ∨ Nat.pow 2 52 ≤ significand) then
    some { significand, shift, significand_lt := h.1, shift_le := h.2.1, normal := h.2.2 }
  else none

-- The decimal exponents of leading digits between which a magnitude may lie. Above them a number is
-- out of range, below them it is nearest to zero.
def decimalRange : Int × Int :=
  (-330, 310)

def ofDecimal? (significand : Nat) (exponent : Int) : Option Magnitude :=
  let leading := (Nat.toDigits 10 significand).length + exponent
  if significand = 0 ∨ leading < decimalRange.1 then some zero
  else if decimalRange.2 < leading then none
  else nearest? (significand * scale * Nat.pow 10 exponent.toNat) (Nat.pow 10 (-exponent).toNat)

end Magnitude

inductive Binary64 where
  | nan
  | infinite (negative : Bool)
  | finite (negative : Bool) (magnitude : Magnitude)
deriving DecidableEq

namespace Binary64

def isFinite : Binary64 → Bool
  | finite .. => true
  | _ => false

-- Equality as arithmetic has it: the two zeros are equal, and nan equals nothing.
def equals : Binary64 → Binary64 → Bool
  | nan, _ | _, nan => false
  | finite s x, finite t y => x == y && (s == t || x.isZero)
  | infinite s, infinite t => s == t
  | _, _ => false

def ofDecimal (d : Decimal) : Binary64 :=
  match Magnitude.ofDecimal? d.significand d.exponent with
  | some x => finite d.negative x
  | none => infinite d.negative

def ofName? (negative : Bool) (t : Text) : Option Binary64 :=
  if sameWord t "nan".toList then some nan
  else if sameWord t "inf".toList || sameWord t "infinity".toList then some (infinite negative)
  else none

def ofText? (t : Text) : Option Binary64 :=
  match Decimal.ofText? t with
  | some d => some (ofDecimal d)
  | none =>
    let (negative, name) := Decimal.signed t
    ofName? negative name

end Binary64
end AttributeFilter
