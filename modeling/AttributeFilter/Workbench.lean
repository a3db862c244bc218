import AttributeFilter.Parse

namespace AttributeFilter

abbrev Named (α : Type) :=
  List (Text × α)

namespace Named

variable {α : Type}

def find? (n : Named α) (name : Text) : Option α :=
  n.lookup name

def erase (n : Named α) (name : Text) : Named α :=
  n.filter fun (other, _) => other ≠ name

def insert (n : Named α) (name : Text) (a : α) : Named α :=
  (name, a) :: n.erase name

end Named

inductive Handed where
  | node (h : Handle)
  | path (h : PathHandle)

namespace Handed

def handle : Handed → Handle
  | node h => h
  | path h => h.handle

def path? : Handed → Option PathHandle
  | node _ => none
  | path h => some h

end Handed

structure Workbench where
  -- How many builders there have been. The serial number of the next one is this number, counted to
  -- the power `2 ^ 64`.
  issued : Nat := 0
  builders : Named Builder := []
  handles : Named Handed := []
  filters : Named (Option Filter) := []

namespace Workbench

-- A call, which refers to builders, handles and filters by their names.
inductive Call where
  | builder (b : Text)
  | path (b : Text) (segments : List Text) (schema? sub? filter? : Option Text) (as : Text)
  | copiedPath (b f : Text) (id : Nat) (schema? sub? filter? : Option Text) (as : Text)
  | comparison (b path operator : Text) (value? : Option Value) (as : Text)
  | negation (b child as : Text)
  | conjunction (b : Text) (children : List Text) (as : Text)
  | disjunction (b : Text) (children : List Text) (as : Text)
  | finish (b root as : Text)
  | parse (limits : Limits) (input as : Text)
  | clone (f as : Text)

inductive Refusal where
  | noBuilder
  | noOperator
  | noHandle
  | notPath
  | noFilter
  | error (e : Error)

inductive Answer where
  | done
  -- Whether a node was made, and how many the builder has now.
  | made (node : Bool) (size : Nat)
  | filter (f? : Option Filter)
  | refused (r : Refusal)

def handed? (w : Workbench) (names : List Text) : Option (List Handed) :=
  if names.Nodup then names.mapM w.handles.find? else none

def consume (w : Workbench) (names : List Text) : Workbench :=
  { w with handles := names.foldl Named.erase w.handles }

-- Gives the handles of some names to a builder. Its own refusal leaves it as it was.
def make (w : Workbench) (b as : Text) (names : List Text)
    (call : Builder → List Handed → Except Error (Option Handed × Builder)) : Answer × Workbench :=
  match w.builders.find? b with
  | none => (.refused .noBuilder, w)
  | some builder =>
    match w.handed? names with
    | none => (.refused .noHandle, w)
    | some given =>
      -- From here on the handles are used up, whatever comes of the call.
      let w := w.consume names
      match call builder given with
      | .error e => (.refused (.error e), w)
      | .ok (made?, builder) =>
        (.made made?.isSome builder.size,
          { w with
            builders := w.builders.insert b builder
            handles := made?.elim w.handles (w.handles.insert as) })

def handOut (r : Except Error (Handle × Builder)) : Except Error (Option Handed × Builder) :=
  r.map fun (h, b) => (some (.node h), b)

def makeAttribute (w : Workbench) (b as : Text) (a : Attribute) (filter? : Option Text) :
    Answer × Workbench :=
  w.make b as filter?.toList fun builder given =>
    (builder.path a (given.head?.map Handed.handle)).map fun (h, b) => (some (.path h), b)

def makePath (w : Workbench) (b as : Text) (segments : List Text)
    (schema? sub? filter? : Option Text) : Answer × Workbench :=
  match w.builders.find? b, Path.ofSegments segments with
  | none, _ => (.refused .noBuilder, w)
  -- A path that is no path is refused before its handle is taken.
  | some _, .error e => (.refused (.error e), w)
  | some _, .ok p =>
    w.makeAttribute b as { path := (p.withSchema schema?).withSub sub? } filter?

def filter? (w : Workbench) (name : Text) : Option Filter :=
  (w.filters.find? name).bind id

def copyPath (w : Workbench) (b as f : Text) (id : Nat) (schema? sub? filter? : Option Text) :
    Answer × Workbench :=
  match w.filter? f with
  | none => (.refused .noFilter, w)
  | some g =>
    match (g.arena.node? id).bind Node.attribute? with
    | none   => (.refused .notPath, w)
    | some a => w.makeAttribute b as ((a.qualified schema?).narrowed sub?) filter?

def makeComparison (w : Workbench) (b as path operator : Text) (value? : Option Value) :
    Answer × Workbench :=
  match w.builders.find? b, Operator.ofWord? operator, w.handles.find? path with
  | none, _, _ => (.refused .noBuilder, w)
  | some _, none, _ => (.refused .noOperator, w)
  | some _, some _, none => (.refused .noHandle, w)
  | some _, some o, some given =>
    match given.path? with
    | none => (.refused .notPath, w)
    | some p => w.make b as [path] fun builder _ => handOut (builder.comparison p o value?)

def makeNegation (w : Workbench) (b as child : Text) : Answer × Workbench :=
  w.make b as [child] fun builder given =>
    match given with
    | [c] => handOut (builder.negation c.handle)
    | _   => .error .foreignNode

def makeCombination (w : Workbench) (b as : Text) (children : List Text)
    (join : Builder → List Handle → Except Error (Option Handle × Builder)) : Answer × Workbench :=
  w.make b as children fun builder given =>
    (join builder (given.map Handed.handle)).map fun (made?, b) => (made?.map .node, b)

def finish (w : Workbench) (b as root : Text) : Answer × Workbench :=
  match w.builders.find? b, w.handles.find? root with
  | none, _ => (.refused .noBuilder, w)
  | some _, none => (.refused .noHandle, w)
  | some builder, some given =>
    let w := { w.consume [root] with builders := w.builders.erase b }
    match builder.finish given.handle with
    | .error e => (.refused (.error e), w)
    | .ok f => (.filter (some f), { w with filters := w.filters.insert as (some f) })

-- Parses a text and keeps the filter. A text that is not refused before its tokens are read takes a
-- builder.
def parse (w : Workbench) (limits : Limits) (input as : Text) : Answer × Workbench :=
  let grammarReached := Text.byteLength input ≤ limits.maxLength ∧ (tokenize input).isOk
  let w := { w with issued := if grammarReached then w.issued + 1 else w.issued }
  match AttributeFilter.parse limits input with
  | .error e => (.refused (.error e), w)
  | .ok f? => (.filter f?, { w with filters := w.filters.insert as f? })

def perform (w : Workbench) : Call → Answer × Workbench
  | .builder b =>
    (.done, { w with
      issued := w.issued + 1
      builders := w.builders.insert b (.ofSerial (.ofNat w.issued)) })
  | .path b segments schema? sub? filter? as => w.makePath b as segments schema? sub? filter?
  | .copiedPath b f id schema? sub? filter? as => w.copyPath b as f id schema? sub? filter?
  | .comparison b path operator value? as => w.makeComparison b as path operator value?
  | .negation b child as => w.makeNegation b as child
  | .conjunction b children as => w.makeCombination b as children Builder.conjunction
  | .disjunction b children as => w.makeCombination b as children Builder.disjunction
  | .finish b root as => w.finish b as root
  | .parse limits input as => w.parse limits input as
  | .clone f as =>
    match w.filter? f with
    | none => (.refused .noFilter, w)
    | some g => (.done, { w with filters := w.filters.insert as (some g) })

end Workbench
end AttributeFilter
