import AttributeFilter.Config.Toml.Scalar
import AttributeFilter.Parser

namespace AttributeFilter.Config.Toml

namespace Document

open AttributeFilter.Parser Text

abbrev Rule (α : Type) : Type :=
  Parser Char Unit α

def refuse {α : Type} : Rule α :=
  fail ()

def require (condition : Bool) : Rule Unit :=
  if condition then pure () else refuse

def ofOption {α : Type} : Option α → Rule α
  | some a => pure a
  | none   => refuse

def expect (t : Text) : Rule Unit := do
  require (← accept t)

def isNext (t : Text) : Rule Bool := do
  return t.isPrefixOf (← ahead)

def isSpace (c : Char) : Bool :=
  c = ' ' || c = '\t'

def spaces : Rule Unit := do
  let _ ← takeWhile isSpace

def lineEnd : Rule Bool := do
  if ← accept ['\n'] then return true else accept ['\r', '\n']

def isPlain (c : Char) : Bool :=
  c = '\t' || (0x20 ≤ c.toNat && c.toNat ≠ 0x7F)

def comment : Rule Unit := do
  if ← accept ['#'] then
    let _ ← takeWhile isPlain

def restOfLine : Rule Unit := do
  spaces
  comment
  require ((← ahead).isEmpty || (← lineEnd))

def spacesAndLines : Rule Unit := do
  let _ ← untilNone do
    spaces
    comment
    if ← lineEnd then return some () else return none

def numbered (width : Nat) : Rule Text := do
  let digits := (← ahead).take width
  expect digits
  let n ← ofOption (numeral? 16 digits)
  require (digits.length = width && n.isValidChar)
  return [Char.ofNat n]

def escape : Rule Text := do
  match ← next? with
  | some 'b'  => return ['\x08']
  | some 't'  => return ['\t']
  | some 'n'  => return ['\n']
  | some 'f'  => return ['\x0c']
  | some 'r'  => return ['\r']
  | some 'e'  => return ['\x1b']
  | some '"'  => return ['"']
  | some '\\' => return ['\\']
  | some 'x'  => numbered 2
  | some 'u'  => numbered 4
  | some 'U'  => numbered 8
  | _         => refuse

-- Takes what follows the backslash in a string of several lines: an escape, or all white space from
-- the end of the line on.
def escapeOrLines : Rule Text := do
  let behind := (← ahead).dropWhile isSpace
  if ['\n'].isPrefixOf behind || ['\r', '\n'].isPrefixOf behind then
    let _ ← untilNone do
      spaces
      if ← lineEnd then return some () else return none
    return []
  else escape

def lineString (quote : Char) (escapes : Bool) : Rule Text := do
  let pieces ← untilNone do
    match ← next? with
    | none => refuse
    | some c =>
      if c = quote then return none
      else if c = '\\' && escapes then return some (← escape)
      else if isPlain c then return some [c]
      else refuse
  return pieces.flatten

-- The inside of a string of several lines, and its three closing quotes. Up to two quotes may stand
-- before them. A line end right behind the opening quotes does not count.
def blockString (quote : Char) (escapes : Bool) : Rule Text := do
  let _ ← lineEnd
  let pieces ← untilNone do
    let quotes := (← ahead).takeWhile (· = quote)
    require (quotes.length ≤ 5)
    -- With more than three quotes ahead the first one is part of the string.
    if quotes.length = 3 then
      expect quotes
      return none
    else if ← accept ['\r', '\n'] then return some ['\r', '\n']
    else
      match ← next? with
      | none => refuse
      | some c =>
        if c = '\\' && escapes then return some (← escapeOrLines)
        else if c = '\n' || isPlain c then return some [c]
        else refuse
  return pieces.flatten

def isKeyChar (c : Char) : Bool :=
  isLetter c || isDigit c || c = '_' || c = '-'

def key : Rule Text := do
  if ← accept ['"'] then lineString '"' true
  else if ← accept ['\''] then lineString '\'' false
  else
    let k ← takeWhile isKeyChar
    require (!k.isEmpty)
    return k

-- How deep values may be nested. A dotted key has fewer keys than this before its last one.
def nestingLimit : Nat :=
  80

def dottedKey : Rule (List Text × Text) := do
  let first ← key
  spaces
  let more ← many (· = '.') do
    spaces
    let k ← key
    spaces
    return k
  require (more.length < nestingLimit)
  return ((first :: more).dropLast, (first :: more).getLast (by simp))

def isScalarChar (c : Char) : Bool :=
  c ∉ ['=', ',', '[', ']', '\x7b', '\x7d', '#', ' ', '\t', '\r', '\n']

-- A value without quotes and brackets. A space may stand between a date and a time.
def scalar : Rule Toml := do
  let run ← takeWhile isScalarChar
  match isDate run, ← ahead with
  | true, ' ' :: c :: _ =>
    -- A digit behind the space is the beginning of a time, for nothing else could stand there.
    if isDigit c then
      expect [' ']
      ofOption (scalar? (run ++ ' ' :: (← takeWhile isScalarChar)))
    else ofOption (scalar? run)
  | _, _ => ofOption (scalar? run)

-- What stands behind an item between brackets: a comma, or the closing bracket, which is not taken.
def itemEnd (closing : Char) : Rule Unit := do
  spacesAndLines
  require ((← accept [',']) || (← isNext [closing]))

def array (element : Rule Toml) : Rule Toml := do
  let elements ← untilNone do
    spacesAndLines
    if ← accept [']'] then return none
    let v ← element
    itemEnd ']'
    return some v
  return .array elements

def pair (gap : Rule Unit) (element : Rule Toml) : Rule ((List Text × Text) × Toml) := do
  let k ← dottedKey
  gap
  expect ['=']
  gap
  return (k, ← element)

-- The pairs of a table between braces, and the closing brace. Lines may end beside the equals sign of
-- a pair.
def inlineTable (element : Rule Toml) : Rule Toml := do
  let pairs ← untilNone do
    spacesAndLines
    if ← accept ['\x7d'] then return none
    let p ← pair spacesAndLines element
    itemEnd '\x7d'
    return some p
  let es ← ofOption (pairs.foldlM (fun es ((path, k), v) => Entries.assign path k v es) [])
  return ofDraft (.table .header es)

def valueAbove (inner? : Option (Rule Toml)) : Rule Toml := do
  if ← accept ['"', '"', '"'] then return .string (← blockString '"' true)
  else if ← accept ['\'', '\'', '\''] then return .string (← blockString '\'' false)
  else if ← accept ['"'] then return .string (← lineString '"' true)
  else if ← accept ['\''] then return .string (← lineString '\'' false)
  else if ← accept ['['] then array (← ofOption inner?)
  else if ← accept ['\x7b'] then inlineTable (← ofOption inner?)
  else scalar

def value : Nat → Rule Toml
  | 0 => valueAbove none
  | depth + 1 => valueAbove (some (value depth))

inductive Line where
  | assign (path : List Text) (key : Text) (v : Toml)
  | table (path : List Text) (key : Text)
  | element (path : List Text) (key : Text)

def line? : Rule (Option Line) := do
  spacesAndLines
  if (← ahead).isEmpty then return none
  else if ← accept ['[', '['] then
    spaces
    let (path, k) ← dottedKey
    expect [']', ']']
    restOfLine
    return some (.element path k)
  else if ← accept ['['] then
    spaces
    let (path, k) ← dottedKey
    expect [']']
    restOfLine
    return some (.table path k)
  else
    let ((path, k), v) ← pair spaces (value nestingLimit)
    restOfLine
    return some (.assign path k v)

-- A document on its way: its entries, and the path of the table that lines without brackets add to.
structure Progress where
  entries : Entries := []
  current : List Text := []

namespace Progress

def perform (d : Progress) : Line → Option Progress
  | .assign path k v => do
    let change (_ : Origin) (es : Entries) : Option Entries := Entries.assign path k v es
    return { d with entries := ← Entries.within false change d.current .header d.entries }
  | .table path k => do
    return {
      entries := ← Entries.within false (Entries.beginTable k) path .header d.entries
      current := path ++ [k] }
  | .element path k => do
    return {
      entries := ← Entries.within false (Entries.beginElement k) path .header d.entries
      current := path ++ [k] }

end Progress

-- The mark that may stand before a document and is no part of it.
def byteOrderMark : Char :=
  '\ufeff'

def lines : Rule (List Line) := do
  let _ ← accept [byteOrderMark]
  untilNone line?

end Document

def ofText? (t : Text) : Option Toml := do
  let lines ← (Document.lines t).outcome.toOption
  let d ← lines.foldlM Document.Progress.perform {}
  return ofDraft (.table .header d.entries)

end AttributeFilter.Config.Toml
