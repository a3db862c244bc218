import AttributeFilter.Token.Cursor

/-!
Desks: several readers of tokens, and the checkpoints that they have handed out. Each reader may go back to each of
them, whoever has handed it out. What is true of readers at a request is true of a desk after a run of requests.
-/

namespace AttributeFilter

-- What can be asked of a reader of tokens.
class TokenReader (σ : Type) where
  matchNext : σ → List Token.Kind → Except Error Token × σ
  peek? : σ → Option Token
  peekKind? : σ → Option Token.Kind
  isNext : σ → List Token.Kind → Bool
  checkpoint : σ → Cursor.Checkpoint
  restore : σ → Cursor.Checkpoint → σ
  isExhausted : σ → Bool
  remaining : σ → List Token
  expectEnd : σ → Except Error Unit

namespace TokenReader

instance : TokenReader Cursor where
  matchNext   := Cursor.matchNext
  peek?       := Cursor.peek?
  peekKind?   := Cursor.peekKind?
  isNext      := Cursor.isNext
  checkpoint  := Cursor.checkpoint
  restore     := Cursor.restore
  isExhausted := Cursor.isExhausted
  remaining   := Cursor.remaining
  expectEnd   := Cursor.expectEnd

-- A reader is read as another one: whatever is asked of both, the answers are the same, and it goes on so.
structure Represents {σ τ : Type} [TokenReader σ] [TokenReader τ] (f : σ → τ) : Prop where
  matchNext : ∀ r kinds, matchNext (f r) kinds = ((matchNext r kinds).1, f (matchNext r kinds).2)
  peek? : ∀ r, peek? (f r) = peek? r
  peekKind? : ∀ r, peekKind? (f r) = peekKind? r
  isNext : ∀ r kinds, isNext (f r) kinds = isNext r kinds
  checkpoint : ∀ r, checkpoint (f r) = checkpoint r
  restore : ∀ r saved, restore (f r) saved = f (restore r saved)
  isExhausted : ∀ r, isExhausted (f r) = isExhausted r
  remaining : ∀ r, remaining (f r) = remaining r
  expectEnd : ∀ r, expectEnd (f r) = expectEnd r

inductive Request where
  | matchNext (kinds : List Token.Kind)
  | peek
  | peekKind
  | isNext (kinds : List Token.Kind)
  | checkpoint
  -- Goes back to the checkpoint of an index, in the order in which they were handed out.
  | restore (index : Nat)
  | isExhausted
  | remaining
  | expectEnd

inductive Response where
  | matched (result : Except Error Token)
  | next (token? : Option Token)
  | nextKind (kind? : Option Token.Kind)
  | truth (value : Bool)
  | saved (checkpoint : Cursor.Checkpoint)
  | restored
  | unread (tokens : List Token)
  | ended (result : Except Error Unit)
  -- There is no such reader, or no such checkpoint.
  | refused

end TokenReader

open TokenReader

-- Readers, and the checkpoints that they have handed out.
structure Desk (σ : Type) where
  readers : List σ
  saved : List Cursor.Checkpoint := []

namespace Desk

variable {σ τ α : Type} {d : Desk σ} {r : σ} {i : Nat} {f : σ → τ} {g : σ → α}

def put (d : Desk σ) (i : Nat) (r : σ) : Desk σ :=
  { d with readers := d.readers.set i r }

def map (f : σ → τ) (d : Desk σ) : Desk τ where
  readers := d.readers.map f
  saved   := d.saved

theorem map_put : (d.put i r).map f = (d.map f).put i (f r) := by
  simp [put, map]

theorem map_readers_put (h : d.readers[i]? = some r) {r' : σ} (hg : g r' = g r) :
    (d.put i r').readers.map g = d.readers.map g := by
  rw [put, List.map_set, hg]
  refine List.ext_getElem? fun j => ?_
  by_cases hj : i = j
  case neg => rw [List.getElem?_set_ne hj]
  case pos =>
    subst hj
    rw [List.getElem?_set_self', List.getElem?_map, h]
    rfl

variable [TokenReader σ] [TokenReader τ]

-- Asks the reader of an index, which is `r`.
def ask (d : Desk σ) (i : Nat) (r : σ) : Request → Response × Desk σ
  | .matchNext kinds => (.matched (matchNext r kinds).1, d.put i (matchNext r kinds).2)
  | .peek            => (.next (peek? r), d)
  | .peekKind        => (.nextKind (peekKind? r), d)
  | .isNext kinds    => (.truth (isNext r kinds), d)
  | .checkpoint      => (.saved (checkpoint r), { d with saved := d.saved ++ [checkpoint r] })
  | .restore k       =>
    match d.saved[k]? with
    | none       => (.refused, d)
    | some saved => (.restored, d.put i (restore r saved))
  | .isExhausted     => (.truth (isExhausted r), d)
  | .remaining       => (.unread (remaining r), d)
  | .expectEnd       => (.ended (expectEnd r), d)

def perform (d : Desk σ) (i : Nat) (q : Request) : Response × Desk σ :=
  match d.readers[i]? with
  | none   => (.refused, d)
  | some r => d.ask i r q

-- Requests to readers, one after the other, with all responses.
def run (d : Desk σ) : List (Nat × Request) → List Response × Desk σ
  | []           => ([], d)
  | (i, q) :: qs =>
    let (response, d')  := d.perform i q
    let (responses, d') := d'.run qs
    (response :: responses, d')

theorem ask_map (hf : Represents f) (q : Request) :
    (d.map f).ask i (f r) q = ((d.ask i r q).1, (d.ask i r q).2.map f) := by
  cases q
  case matchNext kinds => simp only [ask, hf.matchNext, map_put]
  case peek            => simp only [ask, hf.peek?]
  case peekKind        => simp only [ask, hf.peekKind?]
  case isNext kinds    => simp only [ask, hf.isNext]
  case checkpoint      => simp only [ask, hf.checkpoint, map]
  case restore k       =>
    have hs : (d.map f).saved = d.saved := rfl
    simp only [ask, hs]
    cases d.saved[k]?
    case none       => rfl
    case some saved => simp only [hf.restore, map_put]
  case isExhausted     => simp only [ask, hf.isExhausted]
  case remaining       => simp only [ask, hf.remaining]
  case expectEnd       => simp only [ask, hf.expectEnd]

theorem perform_map (hf : Represents f) (i : Nat) (q : Request) :
    (d.map f).perform i q = ((d.perform i q).1, (d.perform i q).2.map f) := by
  have hr : (d.map f).readers[i]? = d.readers[i]?.map f := List.getElem?_map
  rw [perform, perform, hr]
  cases d.readers[i]?
  case none   => rfl
  case some r => exact ask_map hf q

-- Readers that are read as others answer the same in all runs.
theorem run_map (hf : Represents f) (qs : List (Nat × Request)) :
    (d.map f).run qs = ((d.run qs).1, (d.run qs).2.map f) := by
  induction qs generalizing d
  case nil => rfl
  case cons q qs ih => simp only [run, perform_map hf, ih]

-- What neither a match nor going back changes.
structure Keeps (g : σ → α) : Prop where
  matchNext : ∀ r kinds, g (matchNext r kinds).2 = g r
  restore : ∀ r saved, g (restore r saved) = g r

theorem perform_keeps (hg : Keeps g) (i : Nat) (q : Request) :
    (d.perform i q).2.readers.map g = d.readers.map g := by
  unfold perform
  cases h : d.readers[i]?
  case none   => rfl
  case some r =>
    cases q
    case matchNext kinds => exact map_readers_put h (hg.matchNext r kinds)
    case restore k       =>
      simp only [ask]
      cases d.saved[k]?
      case none       => rfl
      case some saved => exact map_readers_put h (hg.restore r saved)
    all_goals rfl

theorem run_keeps (hg : Keeps g) (qs : List (Nat × Request)) :
    (d.run qs).2.readers.map g = d.readers.map g := by
  induction qs generalizing d
  case nil => rfl
  case cons q qs ih => exact ih.trans (perform_keeps hg q.1 q.2)

-- Checkpoints are never taken back.
theorem saved_prefix_perform (i : Nat) (q : Request) : d.saved <+: (d.perform i q).2.saved := by
  unfold perform
  cases d.readers[i]?
  case none   => exact List.prefix_rfl
  case some r =>
    cases q
    case checkpoint => exact List.prefix_append _ _
    case restore k  =>
      simp only [ask]
      cases d.saved[k]? <;> exact List.prefix_rfl
    all_goals exact List.prefix_rfl

theorem saved_prefix_run (qs : List (Nat × Request)) : d.saved <+: (d.run qs).2.saved := by
  induction qs generalizing d
  case nil => exact List.prefix_rfl
  case cons q qs ih => exact (saved_prefix_perform q.1 q.2).trans ih

end Desk
end AttributeFilter
