namespace AttributeFilter

abbrev Text := List Char

namespace Text

def byteLength (t : Text) : Nat :=
  t.foldl (fun n c => n + c.utf8Size) 0

def ofNat (n : Nat) : Text :=
  Nat.toDigits 10 n

def joined (separator : Text) : List Text → Text
  | [] => []
  | [t] => t
  | t :: u :: ts => t ++ separator ++ joined separator (u :: ts)

-- Puts a text on the left of as many copies of a filler as the width asks for.
def padLeft (width : Nat) (filler : Char) (t : Text) : Text :=
  List.replicate (width - t.length) filler ++ t

theorem takeWhile_append_dropWhile (p : Char → Bool) (t : Text) :
    t.takeWhile p ++ t.dropWhile p = t :=
  List.takeWhile_append_dropWhile

theorem length_dropWhile_le (p : Char → Bool) (t : Text) : (t.dropWhile p).length ≤ t.length :=
  (List.dropWhile_suffix p).length_le

end Text
end AttributeFilter
