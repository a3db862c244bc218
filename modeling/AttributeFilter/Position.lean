import AttributeFilter.Text.Basic

namespace AttributeFilter

structure Position where
  line : Nat := 1
  column : Nat := 1
deriving DecidableEq

namespace Position

-- The place right of a character that stands at this place.
def step (p : Position) (c : Char) : Position :=
  if c = '\n' then { line := p.line + 1, column := 1 } else { p with column := p.column + 1 }

def after (p : Position) (t : Text) : Position :=
  t.foldl step p

@[simp]
theorem after_nil (p : Position) : p.after [] = p :=
  rfl

@[simp]
theorem after_cons (p : Position) (c : Char) (t : Text) : p.after (c :: t) = (p.step c).after t :=
  rfl

theorem after_append (p : Position) (t u : Text) : p.after (t ++ u) = (p.after t).after u :=
  List.foldl_append

def text (p : Position) : Text :=
  "line ".toList ++ Text.ofNat p.line ++ ", column ".toList ++ Text.ofNat p.column

end Position
end AttributeFilter
