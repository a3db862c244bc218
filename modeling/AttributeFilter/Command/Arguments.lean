import AttributeFilter.Config.Settings
import AttributeFilter.Text.Letter

namespace AttributeFilter.Command

open Text

inductive View where
  | text
  | json
  | nodes
deriving DecidableEq

namespace View

def all : List View :=
  [text, json, nodes]

def name : View → Text
  | text  => "text".toList
  | json  => "json".toList
  | nodes => "debug".toList

end View

inductive Key where
  | config
  | maxLength
  | maxDepth
  | format
deriving DecidableEq

namespace Key

def all : List Key :=
  [config, maxLength, maxDepth, format]

def long : Key → Text
  | config    => "config".toList
  | maxLength => "max-length".toList
  | maxDepth  => "max-depth".toList
  | format    => "format".toList

def short? : Key → Option Char
  | config => some 'c'
  | format => some 'f'
  | maxLength | maxDepth => none

end Key

inductive Word where
  | option (key : Key) (value? : Option Text)
  | separator
  | operand (t : Text)
  | unknown

-- Reads an argument. A value is attached by an equals sign, which may be left out behind a letter. A
-- hyphen alone is an operand.
def Word.ofText (t : Text) : Word :=
  match t with
  | ['-', '-'] => .separator
  | '-' :: '-' :: r =>
    match Key.all.find? (·.long = r.takeWhile (· ≠ '=')), r.dropWhile (· ≠ '=') with
    | none, _            => .unknown
    | some key, []       => .option key none
    | some key, _ :: v   => .option key (some v)
  | '-' :: c :: r =>
    match Key.all.find? (·.short? = some c), r with
    | none, _            => .unknown
    | some key, []       => .option key none
    | some key, '=' :: v => .option key (some v)
    | some key, v        => .option key (some v)
  | _ => .operand t

inductive Item where
  | setting (key : Key) (value : Text)
  | separator
  | operand (t : Text)
deriving DecidableEq

namespace Item

def isSetting : Item → Bool
  | setting .. => true
  | _ => false

def operand? : Item → Option Text
  | operand t => some t
  | _ => none

end Item

-- The items of a command line; none if there is something that is no option, or an option without
-- value. A value that is not attached is the next argument, which has to be one that could be an operand.
def items? : List Text → Option (List Item)
  | [] => some []
  | t :: ts =>
    match Word.ofText t, ts with
    | .operand t, ts => (items? ts).map (.operand t :: ·)
    -- Behind the separator everything is an operand, a second separator too.
    | .separator, ts => some (.separator :: ts.map .operand)
    | .option key (some v), ts => (items? ts).map (.setting key v :: ·)
    | .option _ none, [] => none
    | .option key none, v :: ts =>
      match Word.ofText v with
      | .operand v => (items? ts).map (.setting key v :: ·)
      | _ => none
    | .unknown, _ => none

structure Options where
  config? : Option Text := none
  maxLength? : Option Nat := none
  maxDepth? : Option Nat := none
  view? : Option View := none

def count? (t : Text) : Option Nat :=
  (unsigned? t).filter (· < Config.countBound)

namespace Options

-- Gives a value to an option that has none yet. A path is not empty.
def set? (o : Options) : Key → Text → Option Options
  | .config, v =>
    if o.config?.isNone && v ≠ [] then some { o with config? := some v } else none
  | .maxLength, v => do
    if o.maxLength?.isNone then return { o with maxLength? := some (← count? v) } else none
  | .maxDepth, v => do
    if o.maxDepth?.isNone then return { o with maxDepth? := some (← count? v) } else none
  | .format, v => do
    if o.view?.isNone then return { o with view? := some (← View.all.find? (·.name = v)) } else none

def ofItems? (items : List Item) : Option Options :=
  items.foldlM step {}
where
  step (o : Options) : Item → Option Options
    | .setting key v => o.set? key v
    | _ => some o

end Options

inductive Verb where
  | parse (view : View)
  | tokens
deriving DecidableEq

structure Arguments where
  verb : Verb
  filter : Text
  config? : Option Text
  overrides : Config.Overrides
deriving DecidableEq

namespace Arguments

def verb? (name : Text) (view? : Option View) : Option Verb :=
  if name = "parse".toList then some (.parse (view?.getD .text))
  else if name = "tokens".toList ∧ view? = none then some .tokens
  else none

-- Reads items. What is set behind the name of the command wins over what is set before it, where
-- views cannot be asked for.
def ofItems? (items : List Item) : Option Arguments :=
  match items.dropWhile Item.isSetting with
  | .operand name :: after => do
    let early ← Options.ofItems? (items.takeWhile Item.isSetting)
    let late ← Options.ofItems? after
    match early.view?, after.filterMap Item.operand? with
    | none, [filter] => return {
        verb := ← verb? name late.view?
        filter
        config? := late.config? <|> early.config?
        overrides := {
          maxLength? := late.maxLength? <|> early.maxLength?
          maxDepth? := late.maxDepth? <|> early.maxDepth? } }
    | _, _ => none
  -- There is no command, or the options are ended before it.
  | _ => none

def ofList? (arguments : List Text) : Option Arguments := do
  ofItems? (← items? arguments)

end Arguments
end AttributeFilter.Command
