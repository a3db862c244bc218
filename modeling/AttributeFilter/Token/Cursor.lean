import AttributeFilter.Error
import AttributeFilter.Token.Basic

namespace AttributeFilter

structure Cursor where
  tokens : List Token
  place : Nat
  place_le : place ≤ tokens.length

namespace Cursor

-- A saved place. It may be gone back to in any list of tokens.
structure Checkpoint where
  place : Nat
deriving DecidableEq

def ofTokens (ts : List Token) : Cursor where
  tokens   := ts
  place    := 0
  place_le := Nat.zero_le _

def consumed (c : Cursor) : List Token :=
  c.tokens.take c.place

def remaining (c : Cursor) : List Token :=
  c.tokens.drop c.place

def peek? (c : Cursor) : Option Token :=
  c.tokens[c.place]?

def peekKind? (c : Cursor) : Option Token.Kind :=
  c.peek?.map (·.kind)

def isNext (c : Cursor) (kinds : List Token.Kind) : Bool :=
  c.peekKind?.any (· ∈ kinds)

def isExhausted (c : Cursor) : Bool :=
  c.tokens.length ≤ c.place

-- The cursor at another place, or at the end if the place lies behind it.
def moveTo (c : Cursor) (place : Nat) : Cursor where
  tokens   := c.tokens
  place    := min place c.tokens.length
  place_le := Nat.min_le_right _ _

def matchNext (c : Cursor) (kinds : List Token.Kind) : Except Error Token × Cursor :=
  match c.peek? with
  | none => (.error .endOfText, c)
  | some t =>
    if t.kind ∈ kinds then (.ok t, c.moveTo (c.place + 1))
    else (.error (.unexpected t.text t.position), c)

def checkpoint (c : Cursor) : Checkpoint where
  place := c.place

def restore (c : Cursor) (saved : Checkpoint) : Cursor :=
  c.moveTo saved.place

def expectEnd (c : Cursor) : Except Error Unit :=
  match c.peek? with
  | none => .ok ()
  | some t => .error (.unexpected t.text t.position)

@[simp]
theorem consumed_append_remaining (c : Cursor) : c.consumed ++ c.remaining = c.tokens :=
  List.take_append_drop _ _

end Cursor
end AttributeFilter
