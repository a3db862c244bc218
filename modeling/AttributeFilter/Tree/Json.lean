import AttributeFilter.Tree.Basic

namespace AttributeFilter.Tree

open Text

def typed (kind : Text) (members : List (Text × Json)) : Json :=
  .object (("type".toList, .string kind) :: members)

def pathJson (p : Path) (filter? : Option Json) : Json :=
  typed "AttributePath".toList (p.json filter?)

mutual

def json : Tree → Json
  | path p f? => pathJson p (filterJson? f?)
  | comparison p f? o v? =>
    typed "Comparison".toList <|
      [("path".toList, pathJson p (filterJson? f?)), ("operator".toList, .string o.word)]
      ++ v?.elim [] fun v => [("value".toList, v.json)]
  | negation c => typed "Negation".toList [("child".toList, json c)]
  | conjunction cs => typed "Conjunction".toList [("children".toList, .array (jsons cs))]
  | disjunction cs => typed "Disjunction".toList [("children".toList, .array (jsons cs))]

def filterJson? : Option Tree → Option Json
  | none => none
  | some t => some (json t)

def jsons : List Tree → List Json
  | [] => []
  | t :: ts => json t :: jsons ts

end

end AttributeFilter.Tree
