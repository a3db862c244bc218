import AttributeFilter.Error
import AttributeFilter.Text.Json

namespace AttributeFilter

open Text

-- An attribute path has at least one segment, and no segment is empty.
structure Path where
  schema? : Option Text
  segments : List Text
  sub? : Option Text
  segments_ne_nil : segments ≠ []
  ne_nil_of_mem : ∀ s ∈ segments, s ≠ []
deriving DecidableEq

namespace Path

def ofSegments (segments : List Text) : Except Error Path :=
  if h : segments ≠ [] ∧ ∀ s ∈ segments, s ≠ [] then
    .ok { schema? := none, segments, sub? := none, segments_ne_nil := h.1, ne_nil_of_mem := h.2 }
  else .error .emptyPath

def withSchema (p : Path) (schema? : Option Text) : Path :=
  { p with schema? }

def withSub (p : Path) (sub? : Option Text) : Path :=
  { p with sub? }

-- The text of the path, given the text of its value filter in brackets, or nothing.
def text (p : Path) (filter : Text) : Text :=
  (p.schema?.elim [] fun s => s ++ [':']) ++ joined ['.'] p.segments ++ filter
    ++ p.sub?.elim [] fun s => '.' :: s

def json (p : Path) (filter? : Option Json) : List (Text × Json) :=
  [("schema".toList, p.schema?.elim .null .string),
   ("segments".toList, .array (p.segments.map .string))]
  ++ (p.sub?.elim [] fun s => [("subAttribute".toList, .string s)])
  ++ filter?.elim [] fun f => [("filter".toList, f)]

end Path
end AttributeFilter
