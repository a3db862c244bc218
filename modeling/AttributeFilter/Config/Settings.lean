import AttributeFilter.Config.Expansion
import AttributeFilter.Config.Toml.Document
import AttributeFilter.Log.Format

namespace AttributeFilter.Config

structure Logging where
  level : Log.Level := .warn
  format : Log.Format := .compact
  -- Whether a record starts with its time, which is the writer's to add.
  timestamps : Bool := true
  fileLine : Bool := false
  filter? : Option Text := none
deriving DecidableEq

structure Settings where
  limits : Limits := {}
  logging : Logging := {}
deriving DecidableEq

inductive Fault where
  | missing (path : Text)
  | unset (name : Text)
  | malformed
  | zeroLength
  | zeroDepth
deriving DecidableEq

-- What is wrong with a malformed text is not told.
def Fault.message : Fault → Text
  | missing path =>
    "Failed to read config file ".toList ++ path ++ ": No such file or directory (os error 2)".toList
  | unset name => "Environment variable not found: ".toList ++ name
  | malformed  => "Failed to parse config: ".toList
  | zeroLength => unsound "parser.max_length".toList
  | zeroDepth  => unsound "parser.max_depth".toList
where
  unsound (limit : Text) : Text :=
    "Configuration validation error: ".toList ++ limit ++ " must be greater than zero".toList

-- Above all numbers that a limit can be: they have 64 bits.
def countBound : Nat :=
  Nat.pow 2 64

namespace Toml

def count? : Toml → Option Nat
  | integer (some n) => if 0 ≤ n ∧ n < countBound then some n.toNat else none
  | _ => none

def flag? : Toml → Option Bool
  | boolean b => some b
  | _         => none

def text? : Toml → Option Text
  | string t => some t
  | _        => none

-- The word that a value names: a string, or a table with nothing in it but an empty entry of that
-- name.
def word? : Toml → Option Text
  | string t                => some t
  | table [(t, table [])]   => some t
  | table [(t, array [])]   => some t
  | _                       => none

end Toml

abbrev Fields (α : Type) : Type :=
  List (Text × (α → Toml → Option α))

-- Fills fields in: from a table, which may have the keys of fields only, or from an array with their
-- values in order, of which surplus ones do not count. A field that is not there stays as it is.
def Fields.fill? {α : Type} (fields : Fields α) (a : α) : Toml → Option α
  | .table entries => entries.foldlM (fun a (key, v) => do (← fields.lookup key) a v) a
  | .array elements => (fields.zip elements).foldlM (fun a ((_, set), v) => set a v) a
  | _ => none

def limitFields : Fields Limits :=
  [("max_length".toList, fun l v => do return { l with maxLength := ← v.count? }),
   ("max_depth".toList, fun l v => do return { l with maxDepth := ← v.count? })]

def loggingFields : Fields Logging :=
  [("level".toList, fun l v => do
      let word ← v.word?
      return { l with level := ← Log.Level.all.find? (·.name = word) }),
   ("format".toList, fun l v => do
      let word ← v.word?
      return { l with format := ← Log.Format.all.find? (·.name = word) }),
   ("timestamps".toList, fun l v => do return { l with timestamps := ← v.flag? }),
   ("file_line".toList, fun l v => do return { l with fileLine := ← v.flag? }),
   ("filter".toList, fun l v => do return { l with filter? := some (← v.text?) })]

namespace Settings

def fields : Fields Settings :=
  [("parser".toList, fun s v => do return { s with limits := ← limitFields.fill? {} v }),
   ("logging".toList, fun s v => do return { s with logging := ← loggingFields.fill? {} v })]

def ofToml? (v : Toml) : Option Settings :=
  fields.fill? {} v

def decode (env : Environment) (t : Text) : Except Fault Settings :=
  match expand env t with
  | .error name => .error (.unset name)
  | .ok expanded =>
    match (Toml.ofText? expanded).bind ofToml? with
    | none   => .error .malformed
    | some s => .ok s

def checked (s : Settings) : Except Fault Settings :=
  if s.limits.maxLength = 0 then .error .zeroLength
  else if s.limits.maxDepth = 0 then .error .zeroDepth
  else .ok s

def ofText (env : Environment) (t : Text) : Except Fault Settings := do
  (← decode env t).checked

end Settings

structure Overrides where
  maxLength? : Option Nat := none
  maxDepth? : Option Nat := none
deriving DecidableEq

namespace Settings

def override (s : Settings) (o : Overrides) : Settings where
  limits := {
    maxLength := o.maxLength?.getD s.limits.maxLength
    maxDepth  := o.maxDepth?.getD s.limits.maxDepth }
  logging := s.logging

def load (env : Environment) (text? : Option Text) (o : Overrides) : Except Fault Settings := do
  -- A text with a limit of zero fails even if the command line gives another limit.
  let s ←
    match text? with
    | none   => pure {}
    | some t => ofText env t
  (s.override o).checked

end Settings

def directivesVariable : Text :=
  "RUST_LOG".toList

-- The directives for log output: those of the environment, or else the level and the directives that
-- are added to it. The level stands alone in the place of malformed directives.
def Logging.directives (l : Logging) (env : Environment) : List Log.Directive :=
  let written :=
    match env.find? directivesVariable, l.filter? with
    | some t, _    => t
    | none, some t => l.level.name ++ ',' :: t
    | none, none   => l.level.name
  (Log.Directive.listOfText? written).getD [{ beginning := [], threshold := l.level.rank }]

end AttributeFilter.Config
