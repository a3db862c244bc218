import AttributeFilter.Log.Record
import AttributeFilter.Text.Alphanumeric

namespace AttributeFilter.Log

open Text

-- The greatest rank that is let through for targets with a given beginning.
structure Directive where
  beginning : Text
  threshold : Nat
deriving DecidableEq

namespace Directive

def thresholds : List (Text × Nat) :=
  ("off".toList, 0) :: Level.all.map fun l => (l.name, l.rank)

def threshold? (t : Text) : Option Nat :=
  match unsigned? t with
  | some n => if n ≤ Level.trace.rank then some n else none
  | none   => thresholds.lookup (lower t)

def isStart (c : Char) : Bool :=
  isAlphanumeric c || c = '-' || c = ':' || c = '_'

-- The directive that a text writes: a threshold, a beginning that lets everything through, or both
-- with an equals sign between them. White space is not cut off: a beginning with white space in it fits no
-- target, and none may stand before a beginning that is given a threshold.
def ofText? (t : Text) : Option Directive :=
  if !(dropBlank t).head?.any isStart || t.contains '[' then none
  else
    match t.takeWhile (· ≠ '='), t.dropWhile (· ≠ '=') with
    | word, [] =>
      -- A word that names no threshold is taken for the beginning of targets.
      match threshold? word with
      | some n => some { beginning := [], threshold := n }
      | none   => some { beginning := word, threshold := Level.trace.rank }
    | beginning, _ :: word =>
      -- White space may stand before a word alone, but not before a beginning with a threshold.
      if beginning.head?.any isBlank then none
      else if word = [] then some { beginning, threshold := Level.trace.rank }
      else (threshold? word).map fun n => { beginning, threshold := n }

-- The directives that a text writes with commas between them; none if one of them is malformed.
-- Nothing between commas is no directive. A text without directives lets errors through.
def listOfText? (t : Text) : Option (List Directive) :=
  let parts := (t.splitOn ',').filter (· ≠ [])
  if parts = [] then some [{ beginning := [], threshold := Level.error.rank }]
  else parts.mapM ofText?

def deciding? (ds : List Directive) (target : Text) : Option Directive :=
  (ds.filter fun d => d.beginning.isPrefixOf target).foldl
    (fun best? d =>
      match best? with
      | none => some d
      | some best => if best.beginning.length ≤ d.beginning.length then some d else some best)
    none

def allow (ds : List Directive) (level : Level) (target : Text) : Bool :=
  (deciding? ds target).any fun d => level.rank ≤ d.threshold

end Directive
end AttributeFilter.Log
