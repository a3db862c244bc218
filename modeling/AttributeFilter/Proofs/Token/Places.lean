import AttributeFilter.Token.Cursor

/-!
Places of tokens: a token between its neighbours. They tell what the word `not` is: a name behind a colon
or before an operator, and a negation anywhere else.
-/

namespace AttributeFilter

-- Whether a token is a colon, behind which any word is a name.
def isColon (t? : Option Token) : Bool :=
  t?.any fun t => t.kind = .colon

-- A token, and the tokens directly before and behind it.
structure Place where
  before? : Option Token
  token : Token
  behind? : Option Token

namespace Place

-- The token is the word `not`, and the name of an attribute.
def isNamedNot (p : Place) : Bool :=
  p.token.kind = .not && (isColon p.before? || p.behind?.any (·.kind = .operator))

-- The token is the word `not`, and negates what is behind it.
def isNegation (p : Place) : Bool :=
  p.token.kind = .not && !p.isNamedNot

end Place

-- The places of tokens, given the token before them and the tokens behind them.
def places (before? : Option Token) : (c us : List Token) → List Place
  | [], _ => []
  | t :: c, us =>
    { before?, token := t, behind? := (c ++ us).head? } :: places (some t) c us

-- The last of some tokens, or the one before them if there are none.
def lastOf (before? : Option Token) : List Token → Option Token
  | []     => before?
  | t :: c => lastOf (some t) c

variable {before? : Option Token} {c d us : List Token}

@[simp]
theorem places_nil : places before? [] us = [] :=
  rfl

@[simp]
theorem lastOf_nil : lastOf before? [] = before? :=
  rfl

theorem lastOf_append : lastOf before? (c ++ d) = lastOf (lastOf before? c) d := by
  induction c generalizing before?
  case nil          => rfl
  case cons t c ih => exact ih

theorem places_append :
    places before? (c ++ d) us = places before? c (d ++ us) ++ places (lastOf before? c) d us := by
  induction c generalizing before?
  case nil => rfl
  case cons t c ih =>
    rw [List.cons_append, places, ih, List.append_assoc]
    rfl

theorem map_token_places : (places before? c us).map Place.token = c := by
  induction c generalizing before?
  case nil          => rfl
  case cons t c ih => exact congrArg (t :: ·) ih

theorem forall_mem_places_iff {P : Token → Prop} :
    (∀ p ∈ places before? c us, P p.token) ↔ ∀ t ∈ c, P t := by
  have h := List.forall_mem_map (f := Place.token) (l := places before? c us) (P := P)
  rw [map_token_places] at h
  exact h.symm

namespace Cursor

-- The places of the tokens between a cursor and a later one.
def passed (c later : Cursor) : List Place :=
  places none (later.consumed.drop c.place) later.remaining

-- A cursor that leaves some of the remaining tokens has consumed the others.
theorem moveTo_of_remaining {cur : Cursor} (h : cur.remaining = c ++ us) :
    (cur.moveTo (cur.tokens.length - us.length)).consumed = cur.consumed ++ c ∧
      (cur.moveTo (cur.tokens.length - us.length)).remaining = us := by
  have ht : cur.tokens = (cur.consumed ++ c) ++ us := by
    rw [List.append_assoc, ← h, consumed_append_remaining]
  have hl : (cur.consumed ++ c).length = min (cur.tokens.length - us.length) cur.tokens.length := by
    simp only [ht, List.length_append]
    omega
  exact ⟨(congrArg _ ht).trans (List.take_left' hl), (congrArg _ ht).trans (List.drop_left' hl)⟩

theorem length_consumed (cur : Cursor) : cur.consumed.length = cur.place :=
  List.length_take_of_le cur.place_le

theorem drop_consumed {cur later : Cursor} (h : later.consumed = cur.consumed ++ c) :
    later.consumed.drop cur.place = c := by
  rw [h, ← length_consumed, List.drop_left]

theorem passed_moveTo {cur : Cursor} (h : cur.remaining = c ++ us) :
    cur.passed (cur.moveTo (cur.tokens.length - us.length)) = places none c us := by
  have ⟨hc, hr⟩ := moveTo_of_remaining h
  rw [passed, drop_consumed hc, hr]

end Cursor
end AttributeFilter
