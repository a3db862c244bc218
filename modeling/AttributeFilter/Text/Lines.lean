import AttributeFilter.Text.Basic

namespace AttributeFilter.Text

-- The lines of a text without their ends. Nothing behind the last line end is no line.
def lines : Text → List Text
  | [] => []
  | '\n' :: t => [] :: lines t
  | '\r' :: '\n' :: t => [] :: lines t
  | c :: t =>
    match lines t with
    | []      => [[c]]
    | l :: ls => (c :: l) :: ls

end AttributeFilter.Text
