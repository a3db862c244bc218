import AttributeFilter.Proofs.Token.Desk
import AttributeFilter.Proofs.Token.Places

/-!
A cursor as two lists: the tokens before its place, and those behind it. Going on moves the head of the second list
to the end of the first one, and going back cuts both lists, put together, at another place.
-/

namespace AttributeFilter

open TokenReader

structure Split where
  before : List Token
  behind : List Token
deriving DecidableEq

namespace Split

def matchNext (s : Split) (kinds : List Token.Kind) : Except Error Token × Split :=
  match s.behind with
  | []     => (.error .endOfText, s)
  | t :: r =>
    if t.kind ∈ kinds then (.ok t, { before := s.before ++ [t], behind := r })
    else (.error (.unexpected t.text t.position), s)

def peek? (s : Split) : Option Token :=
  s.behind.head?

def peekKind? (s : Split) : Option Token.Kind :=
  s.behind.head?.map (·.kind)

def isNext (s : Split) (kinds : List Token.Kind) : Bool :=
  match s.behind with
  | []     => false
  | t :: _ => t.kind ∈ kinds

def checkpoint (s : Split) : Cursor.Checkpoint where
  place := s.before.length

-- Cuts the tokens at a place, or at their end if the place lies behind it.
def restore (s : Split) (saved : Cursor.Checkpoint) : Split :=
  let tokens := s.before ++ s.behind
  let place  := min saved.place tokens.length
  { before := tokens.take place, behind := tokens.drop place }

def isExhausted (s : Split) : Bool :=
  s.behind.isEmpty

def remaining (s : Split) : List Token :=
  s.behind

-- Fails at the first token behind the place.
def expectEnd (s : Split) : Except Error Unit :=
  match s.behind with
  | []     => .ok ()
  | t :: _ => .error (.unexpected t.text t.position)

instance : TokenReader Split where
  matchNext   := matchNext
  peek?       := peek?
  peekKind?   := peekKind?
  isNext      := isNext
  checkpoint  := checkpoint
  restore     := restore
  isExhausted := isExhausted
  remaining   := remaining
  expectEnd   := expectEnd

end Split

namespace Cursor

variable {c : Cursor} {t : Token} {us : List Token}

def split (c : Cursor) : Split where
  before := c.consumed
  behind := c.remaining

theorem peek?_eq (c : Cursor) : c.peek? = c.remaining.head? := by
  rw [peek?, remaining, List.head?_drop]

theorem isExhausted_eq (c : Cursor) : c.isExhausted = c.remaining.isEmpty := by
  rw [isExhausted, remaining, Bool.eq_iff_iff, List.isEmpty_iff, List.drop_eq_nil_iff, decide_eq_true_iff]

-- A step behind the next token moves it over.
theorem split_moveTo_succ (h : c.remaining = t :: us) :
    (c.moveTo (c.place + 1)).split = ⟨c.consumed ++ [t], us⟩ := by
  have hl : c.place + 1 = c.tokens.length - us.length := by
    have := congrArg List.length (consumed_append_remaining c)
    rw [List.length_append, length_consumed, h, List.length_cons] at this
    omega
  have ⟨hcons, hrem⟩ := moveTo_of_remaining (c := [t]) h
  rw [hl, split, hcons, hrem]

theorem split_matchNext (c : Cursor) (kinds : List Token.Kind) :
    c.split.matchNext kinds = ((c.matchNext kinds).1, (c.matchNext kinds).2.split) := by
  have hs : c.split.behind = c.remaining := rfl
  rw [Split.matchNext, matchNext, peek?_eq, hs]
  cases h : c.remaining
  case nil       => rfl
  case cons t us =>
    simp only [List.head?_cons]
    by_cases hk : t.kind ∈ kinds
    case pos => rw [if_pos hk, if_pos hk, split_moveTo_succ h]; rfl
    case neg => rw [if_neg hk, if_neg hk]

theorem split_restore (c : Cursor) (saved : Checkpoint) :
    c.split.restore saved = (c.restore saved).split := by
  have ht : c.split.before ++ c.split.behind = c.tokens := consumed_append_remaining c
  rw [Split.restore, ht]
  rfl

theorem split_represents : Represents Cursor.split where
  matchNext   := split_matchNext
  peek? c     := (peek?_eq c).symm
  peekKind? c := congrArg (·.map (·.kind)) (peek?_eq c).symm
  isNext c kinds := by
    have h : c.isNext kinds = c.split.isNext kinds := by
      rw [isNext, peekKind?, peek?_eq, Split.isNext, split]
      cases c.remaining <;> rfl
    exact h.symm
  checkpoint c  := congrArg Checkpoint.mk (length_consumed c)
  restore       := split_restore
  isExhausted c := (isExhausted_eq c).symm
  remaining _   := rfl
  expectEnd c   := by
    have h : c.expectEnd = c.split.expectEnd := by
      rw [expectEnd, peek?_eq, Split.expectEnd, split]
      cases c.remaining <;> rfl
    exact h.symm

theorem tokens_matchNext (c : Cursor) (kinds : List Token.Kind) : (c.matchNext kinds).2.tokens = c.tokens := by
  unfold matchNext
  cases c.peek?
  case none   => rfl
  case some t =>
    dsimp only
    split <;> rfl

theorem keeps_tokens : Desk.Keeps Cursor.tokens where
  matchNext   := tokens_matchNext
  restore _ _ := rfl

-- In the same tokens, the place is all that a cursor has.
theorem restore_checkpoint {c' : Cursor} (h : c'.tokens = c.tokens) : c'.restore c.checkpoint = c := by
  obtain ⟨tokens, place, hp⟩ := c
  obtain ⟨tokens', place', hp'⟩ := c'
  cases h
  simp only [restore, moveTo, checkpoint, Nat.min_eq_left hp]

end Cursor
namespace Desk

variable {d : Desk Cursor} {c : Cursor} {i k : Nat}

-- What a reader has handed out takes it back to where it was, if it reads the same tokens.
theorem perform_restore {c' : Cursor} (hc : d.readers[i]? = some c') (ht : c'.tokens = c.tokens)
    (hs : d.saved[k]? = some c.checkpoint) : d.perform i (.restore k) = (.restored, d.put i c) := by
  have hr : TokenReader.restore c' c.checkpoint = c := Cursor.restore_checkpoint ht
  simp only [perform, hc, ask, hs, hr]

theorem saved_run_checkpoint (hc : d.readers[i]? = some c) (qs : List (Nat × Request)) :
    (d.run ((i, .checkpoint) :: qs)).2.saved[d.saved.length]? = some c.checkpoint := by
  have hp : (d.perform i .checkpoint).2.saved = d.saved ++ [c.checkpoint] := by
    rw [perform, hc]
    rfl
  obtain ⟨later, hl⟩ := saved_prefix_run (d := (d.perform i .checkpoint).2) qs
  have hl : (d.run ((i, .checkpoint) :: qs)).2.saved = d.saved ++ [c.checkpoint] ++ later := hp ▸ hl.symm
  rw [hl, List.append_assoc, List.getElem?_append_right (Nat.le_refl _), Nat.sub_self]
  rfl

theorem perform_restore_run (hc : d.readers[i]? = some c) (qs : List (Nat × Request)) :
    (d.run ((i, .checkpoint) :: qs)).2.perform i (.restore d.saved.length) =
      (.restored, (d.run ((i, .checkpoint) :: qs)).2.put i c) := by
  have ht := congrArg (·[i]?) (run_keeps (d := d) Cursor.keeps_tokens ((i, .checkpoint) :: qs))
  simp only [List.getElem?_map, hc, Option.map_some] at ht
  have ⟨c', hc', ht⟩ := Option.map_eq_some_iff.mp ht
  exact perform_restore hc' ht (saved_run_checkpoint hc qs)

-- Cursors answer as the two lists do, however their checkpoints are exchanged. Their tokens stay, and each cursor
-- comes back to where it was with a checkpoint of its own.
theorem run_split (d : Desk Cursor) (qs : List (Nat × Request)) :
    (d.map Cursor.split).run qs = ((d.run qs).1, (d.run qs).2.map Cursor.split) ∧
    (d.run qs).2.readers.map Cursor.tokens = d.readers.map Cursor.tokens ∧
    (∀ c ∈ (d.run qs).2.readers, c.place ≤ c.tokens.length) ∧
    ∀ i c, d.readers[i]? = some c →
      (d.run ((i, .checkpoint) :: qs)).2.perform i (.restore d.saved.length) =
        (.restored, (d.run ((i, .checkpoint) :: qs)).2.put i c) :=
  ⟨run_map Cursor.split_represents qs, run_keeps Cursor.keeps_tokens qs, fun c _ => c.place_le,
    fun _ _ hc => perform_restore_run hc qs⟩

-- A longer and a shorter list of tokens. The checkpoints are exchanged, and one lies behind the shorter list.
def exchangingDesk : Desk Cursor where
  readers := [(Cursor.ofTokens [.ofText .identifier ['a'], .ofText .dot ['.'], .ofText .identifier ['b']]).moveTo 2,
    .ofTokens [.ofText .not "not".toList]]

def exchange : List (Nat × Request) :=
  [(1, .restore 0), (1, .isExhausted), (1, .checkpoint), (0, .restore 1), (0, .matchNext [.identifier]),
   (0, .expectEnd)]

theorem run_split_exchangingDesk : ∃ c, exchangingDesk.readers[0]? = some c ∧
    (exchangingDesk.run ((0, .checkpoint) :: exchange)).2.perform 0 (.restore 0) =
      (.restored, (exchangingDesk.run ((0, .checkpoint) :: exchange)).2.put 0 c) :=
  ⟨_, rfl, (run_split exchangingDesk exchange).right.right.right 0 _ rfl⟩

end Desk
end AttributeFilter
