import AttributeFilter.Text.Basic

namespace AttributeFilter.Text

-- The ranges of the characters with the property `White_Space`, ends included.
def blankRanges : List (Nat × Nat) :=
  [(0x9, 0xD), (0x20, 0x20), (0x85, 0x85), (0xA0, 0xA0), (0x1680, 0x1680), (0x2000, 0x200A),
   (0x2028, 0x2029), (0x202F, 0x202F), (0x205F, 0x205F), (0x3000, 0x3000)]

def isBlank (c : Char) : Bool :=
  blankRanges.any fun r => r.1 ≤ c.toNat && c.toNat ≤ r.2

def leadingBlank (t : Text) : Text :=
  t.takeWhile isBlank

def dropBlank (t : Text) : Text :=
  t.dropWhile isBlank

def dropBlankEnd (t : Text) : Text :=
  (t.reverse.dropWhile isBlank).reverse

theorem leadingBlank_append_dropBlank (t : Text) : leadingBlank t ++ dropBlank t = t :=
  takeWhile_append_dropWhile isBlank t

theorem length_dropBlank_le (t : Text) : (dropBlank t).length ≤ t.length :=
  length_dropWhile_le isBlank t

end AttributeFilter.Text
