namespace AttributeFilter

-- The answer of a parser to a list of symbols: what came of it, and the symbols not taken.
structure Reply (σ ε α : Type) (ts : List σ) where
  outcome : Except ε α
  rest : List σ
  suffix : rest <:+ ts

-- A parser: an answer to every list of symbols.
def Parser (σ ε α : Type) : Type :=
  (ts : List σ) → Reply σ ε α ts

variable {σ ε α β : Type}

namespace Reply

variable {ts us : List σ}

def weaken (h : ts <:+ us) (r : Reply σ ε α ts) : Reply σ ε α us where
  outcome := r.outcome
  rest    := r.rest
  suffix  := r.suffix.trans h

def map (f : α → β) (r : Reply σ ε α ts) : Reply σ ε β ts where
  outcome := r.outcome.map f
  rest    := r.rest
  suffix  := r.suffix

def andThen (r : Reply σ ε α ts) (f : α → Parser σ ε β) : Reply σ ε β ts :=
  match r with
  | { outcome := .ok a, rest, suffix }    => (f a rest).weaken suffix
  | { outcome := .error e, rest, suffix } => { outcome := .error e, rest, suffix }

end Reply

namespace Parser

def ofExcept (outcome : Except ε α) : Parser σ ε α :=
  fun ts => { outcome, rest := ts, suffix := List.suffix_rfl }

def fail (e : ε) : Parser σ ε α :=
  ofExcept (.error e)

instance : Monad (Parser σ ε) where
  pure a     := ofExcept (.ok a)
  bind p f   := fun ts => (p ts).andThen f
  map f p    := fun ts => (p ts).map f

def ahead : Parser σ ε (List σ) :=
  fun ts => ofExcept (.ok ts) ts

def next? : Parser σ ε (Option σ)
  | []      => ofExcept (.ok none) []
  | t :: ts => (ofExcept (.ok (some t)) ts).weaken (List.suffix_cons t ts)

def takeWhile (p : σ → Bool) : Parser σ ε (List σ) :=
  fun ts => (ofExcept (.ok (ts.takeWhile p)) (ts.dropWhile p)).weaken (List.dropWhile_suffix p)

def accept [BEq σ] (symbols : List σ) : Parser σ ε Bool := fun ts =>
  if symbols.isPrefixOf ts then
    (ofExcept (.ok true) (ts.drop symbols.length)).weaken (List.drop_suffix _ ts)
  else ofExcept (.ok false) ts

def many (announces : σ → Bool) (item : Parser σ ε α) : Parser σ ε (List α)
  | [] => ofExcept (.ok []) []
  | t :: ts =>
    if announces t then
      match item ts with
      | { outcome := .error e, rest, suffix } =>
        { outcome := .error e, rest, suffix := suffix.trans (List.suffix_cons t ts) }
      | { outcome := .ok a, rest, suffix } =>
        have := suffix.length_le
        ((many announces item rest).map (a :: ·)).weaken (suffix.trans (List.suffix_cons t ts))
    else ofExcept (.ok []) (t :: ts)
termination_by ts => ts.length

def iterate (announces : σ → Bool) (next : α → Parser σ ε α) (a : α) : Parser σ ε α
  | [] => ofExcept (.ok a) []
  | t :: ts =>
    if announces t then
      match next a ts with
      | { outcome := .error e, rest, suffix } =>
        { outcome := .error e, rest, suffix := suffix.trans (List.suffix_cons t ts) }
      | { outcome := .ok b, rest, suffix } =>
        have := suffix.length_le
        (iterate announces next b rest).weaken (suffix.trans (List.suffix_cons t ts))
    else ofExcept (.ok a) (t :: ts)
termination_by ts => ts.length

-- Goes by a parser, and back to where it started if that gives nothing.
def orBack (p : Parser σ ε (Option α)) : Parser σ ε (Option α) := fun ts =>
  match p ts with
  | { outcome := .ok none, .. } => ofExcept (.ok none) ts
  | r => r

-- Takes items until there is none. An item that takes no symbol is the last.
def untilNone (item : Parser σ ε (Option α)) : Parser σ ε (List α) := fun ts =>
  match item ts with
  | { outcome := .error e, rest, suffix }  => { outcome := .error e, rest, suffix }
  | { outcome := .ok none, rest, suffix }  => { outcome := .ok [], rest, suffix }
  | { outcome := .ok (some a), rest, suffix } =>
    if rest.length < ts.length then ((untilNone item rest).map (a :: ·)).weaken suffix
    else { outcome := .ok [a], rest, suffix }
termination_by ts => ts.length

end Parser
end AttributeFilter
