import AttributeFilter.Text.Basic

namespace AttributeFilter.Config

-- A TOML value. Numbers with a point and times are of no use here, and only their text is kept. An
-- integer may have characters in it that are no digits, or no digits at all. It then has no number,
-- which is a fault only where the number is asked for.
inductive Toml where
  | string (t : Text)
  | integer (n? : Option Int)
  | float (t : Text)
  | boolean (b : Bool)
  | time (t : Text)
  | array (elements : List Toml)
  | table (entries : List (Text × Toml))

namespace Toml

inductive Origin where
  | implied
  | header
  | dotted
deriving DecidableEq

-- What a key stands for while a document is read: a finished value, a table that may grow, or the
-- tables that headers in double brackets have begun, the last one first.
inductive Draft where
  | value (v : Toml)
  | table (origin : Origin) (entries : List (Text × Draft))
  | tables (elements : List (List (Text × Draft)))

abbrev Entries :=
  List (Text × Draft)

namespace Entries

def find? (es : Entries) (key : Text) : Option Draft :=
  es.lookup key

def set (es : Entries) (key : Text) (d : Draft) : Entries :=
  (key, d) :: es.filter fun (other, _) => other ≠ key

-- Changes the table that a path leads to, and begins the tables on the way that are not there. A
-- dotted key does not lead through a table that has a header of its own, and nothing leads through a
-- value. Of the tables of headers in double brackets the last one is meant.
def within (byKey : Bool) (change : Origin → Entries → Option Entries) :
    List Text → Origin → Entries → Option Entries
  | [], origin, es => change origin es
  | key :: path, _, es =>
    match es.find? key with
    | none => do
      let origin := if byKey then .dotted else .implied
      return es.set key (.table origin (← within byKey change path origin []))
    | some (.table origin inner) =>
      if byKey && origin = .header then none
      else do return es.set key (.table origin (← within byKey change path origin inner))
    -- The tables are kept with the last one first.
    | some (.tables (last :: others)) => do
      return es.set key (.tables ((← within byKey change path .header last) :: others))
    | some (.tables []) => none
    | some (.value _) => none

-- Sets a key that is not there yet. Behind a dotted key it goes into a table that dotted keys have
-- begun.
def assign (path : List Text) (key : Text) (v : Toml) (es : Entries) : Option Entries :=
  within true (change path key v) path .header es
where
  change (path : List Text) (key : Text) (v : Toml) (origin : Origin) (es : Entries) :
      Option Entries :=
    if (origin = .dotted) = (path = []) ∨ (es.find? key).isSome then none
    else some (es.set key (.value v))

-- Begins the table of a header. Only a table that the headers of inner tables imply may be there.
def beginTable (key : Text) (_ : Origin) (es : Entries) : Option Entries :=
  match es.find? key with
  | none => some (es.set key (.table .header []))
  | some (.table .implied inner) => some (es.set key (.table .header inner))
  | some _ => none

def beginElement (key : Text) (_ : Origin) (es : Entries) : Option Entries :=
  match es.find? key with
  | none => some (es.set key (.tables [[]]))
  | some (.tables elements) => some (es.set key (.tables ([] :: elements)))
  | some _ => none

end Entries

mutual

def ofDraft : Draft → Toml
  | .value v => v
  | .table _ es => .table (ofEntries es)
  | .tables elements => .array (ofTables elements).reverse

def ofEntries : List (Text × Draft) → List (Text × Toml)
  | [] => []
  | (key, d) :: es => (key, ofDraft d) :: ofEntries es

def ofTables : List (List (Text × Draft)) → List Toml
  | [] => []
  | es :: more => .table (ofEntries es) :: ofTables more

end

end Toml
end AttributeFilter.Config
