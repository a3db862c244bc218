import AttributeFilter.Config.Toml.Basic
import AttributeFilter.Text.Letter

namespace AttributeFilter.Config.Toml

open Text

def isSeparated (base : Nat) (t : Text) : Bool :=
  let isDigitOf (c : Char) : Bool := (digitValue? base c).isSome
  let groups := t.splitOn '_'
  groups.tail.all (fun g => g.head?.any isDigitOf)
    && groups.dropLast.all fun g => g.getLast?.any isDigitOf

def grouped? (base : Nat) (t : Text) : Option Nat :=
  numeral? base (t.filter (· ≠ '_'))

def signOf : Text → Bool × Text
  | '-' :: t => (true, t)
  | '+' :: t => (false, t)
  | t => (false, t)

-- Whether a text starts with a zero and goes on, as no decimal number does before its point.
def hasLeadingZero (t : Text) : Bool :=
  t.head? = some '0' && t.length ≠ 1

-- An integer to another base, from what follows the mark of the base: digits and underscores, or
-- nothing.
def basedInteger? (base : Nat) (t : Text) : Option Toml :=
  if isSeparated base t && t.all fun c => c = '_' || (digitValue? base c).isSome then
    some (.integer ((grouped? base t).map Int.ofNat))
  else none

-- A decimal integer: digits with a sign or none, and from the first underscore on any characters but
-- those of a point or an exponent. Around the underscores hexadecimal digits will do.
def decimalInteger? (t : Text) : Option Toml :=
  let (negative, u) := signOf t
  let rest := u.dropWhile isDigit
  if u ≠ [] && !hasLeadingZero u && isSeparated 16 t
      && (rest = [] || rest.head? = some '_') && rest.all (· ∉ ['.', 'e', 'E']) then
    some (.integer ((grouped? 10 u).map fun n => if negative then -Int.ofNat n else n))
  else none

def integer? (t : Text) : Option Toml :=
  match t with
  | '0' :: 'x' :: r => basedInteger? 16 r
  | '0' :: 'o' :: r => basedInteger? 8 r
  | '0' :: 'b' :: r => basedInteger? 2 r
  | _ => decimalInteger? t

def splitFirst? (p : Char → Bool) (t : Text) : Text × Option Text :=
  match t.dropWhile fun c => !p c with
  | []     => (t, none)
  | _ :: r => (t.takeWhile fun c => !p c, some r)

def isDigits (t : Text) : Bool :=
  t.any isDigit && t.all fun c => isDigit c || c = '_'

def isFloat (t : Text) : Bool :=
  let (_, u) := signOf t
  let (mantissa, exponent?) := splitFirst? (fun c => c = 'e' || c = 'E') u
  let (whole, fraction?) := splitFirst? (· = '.') mantissa
  let isExponent (e : Text) : Bool := isDigits (signOf e).2
  u = "inf".toList || u = "nan".toList ||
    ((exponent?.isSome || fraction?.isSome) && isDigits whole && !hasLeadingZero whole
      && exponent?.all isExponent && fraction?.all isDigits && isSeparated 10 t)

-- The number that a text of exactly so many digits writes, if it lies between two bounds.
def field? (width low high : Nat) (t : Text) : Option Nat :=
  if t.length = width && t.all isDigit then
    (numeral? 10 t).filter fun n => low ≤ n && n ≤ high
  else none

def isLeapYear (year : Nat) : Bool :=
  year % 4 = 0 && (year % 100 ≠ 0 || year % 400 = 0)

def daysInMonth (year month : Nat) : Nat :=
  if month = 2 then if isLeapYear year then 29 else 28
  else if month = 4 || month = 6 || month = 9 || month = 11 then 30
  else 31

def isDate (t : Text) : Bool :=
  match t.splitOn '-' with
  | [y, m, d] =>
    match field? 4 0 9999 y, field? 2 1 12 m with
    | some year, some month => (field? 2 1 (daysInMonth year month) d).isSome
    | _, _ => false
  | _ => false

-- Whether a text is a time of day. Seconds may be left out, and may have a fraction.
def isTimeOfDay (t : Text) : Bool :=
  let isSeconds (s : Text) : Bool :=
    let (whole, fraction?) := splitFirst? (· = '.') s
    (field? 2 0 60 whole).isSome && fraction?.all fun f => !f.isEmpty && f.all isDigit
  match t.splitOn ':' with
  | [h, m]    => (field? 2 0 23 h).isSome && (field? 2 0 59 m).isSome
  | [h, m, s] => (field? 2 0 23 h).isSome && (field? 2 0 59 m).isSome && isSeconds s
  | _         => false

def isOffset (t : Text) : Bool :=
  match t with
  | ['Z'] | ['z'] => true
  | s :: r =>
    (s = '+' || s = '-') &&
      match r.splitOn ':' with
      | [h, m] => (field? 2 0 23 h).isSome && (field? 2 0 59 m).isSome
      | _ => false
  | [] => false

def isTimeMark (c : Char) : Bool :=
  c = 'T' || c = 't' || c = ' '

def isTime (t : Text) : Bool :=
  let isOffsetMark (c : Char) : Bool := c = 'Z' || c = 'z' || c = '+' || c = '-'
  match splitFirst? isTimeMark t with
  | (whole, none) => isDate whole || isTimeOfDay whole
  | (date, some clock) =>
    isDate date && isTimeOfDay (clock.takeWhile fun c => !isOffsetMark c)
      && match clock.dropWhile fun c => !isOffsetMark c with
         | []     => true
         | offset => isOffset offset

def scalar? (t : Text) : Option Toml :=
  if t = "true".toList then some (.boolean true)
  else if t = "false".toList then some (.boolean false)
  else
    match integer? t with
    | some v => some v
    | none =>
      if isFloat t then some (.float t)
      else if isTime t then some (.time t)
      else none

end AttributeFilter.Config.Toml
