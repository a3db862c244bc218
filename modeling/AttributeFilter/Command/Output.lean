import AttributeFilter.Command.Arguments
import AttributeFilter.Filter.NodeRef
import AttributeFilter.Text.Blank

namespace AttributeFilter.Command

open Text

-- The line of a node: two spaces for each node above it, its kind, its number, the number of its
-- parent, and its text.
def nodeLine (r : NodeRef) : Text :=
  let parent : Text := r.parent?.elim "none".toList fun p => '#' :: ofNat p
  List.replicate (2 * r.ancestors.length) ' ' ++ r.kind.name ++ " #".toList ++ ofNat r.id
    ++ " (parent ".toList ++ parent ++ "): ".toList ++ r.tree.text

def nodeLines (f : Filter) : Text :=
  dropBlankEnd (joined ['\n'] ((f.descendants.filterMap (NodeRef.ofId? [] f)).map nodeLine))

def tokenLine (t : Token) : Text :=
  ofNat t.position.line ++ ':' :: ofNat t.position.column ++ '\t' :: t.kind.name ++ '\t' :: t.text

def tokenLines (ts : List Token) : Text :=
  dropBlankEnd (joined ['\n'] (ts.map tokenLine))

-- Shows a filter. An empty filter is null in JSON and nothing otherwise.
def View.render : View → Option Filter → Text
  | .json, none    => Json.null.pretty
  | .json, some f  => f.json.pretty
  | _, none        => []
  | .text, some f  => f.text
  | .nodes, some f => nodeLines f

end AttributeFilter.Command
