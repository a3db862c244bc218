import AttributeFilter.Text.Lines

namespace AttributeFilter.Config

open Text

abbrev Environment :=
  List (Text × Text)

-- The value of a variable. No variable has an equals sign in its name.
def Environment.find? (env : Environment) (name : Text) : Option Text :=
  if name.contains '=' then none else env.lookup name

-- Reads the reference at the front of a text: its name, and the text behind it. A name is not empty
-- and ends at the first closing brace.
def reference? : Text → Option (Text × Text)
  | '$' :: '\x7b' :: t =>
    match t.takeWhile (· ≠ '\x7d'), t.dropWhile (· ≠ '\x7d') with
    | [], _        => none
    | _, []        => none
    | name, _ :: r => some (name, r)
  | _ => none

theorem length_lt_of_reference? {t name r : Text} (h : reference? t = some (name, r)) :
    r.length < t.length := by
  unfold reference? at h
  split at h
  · next u =>
    split at h
    · simp at h
    · simp at h
    · next hd _ =>
      obtain ⟨rfl, rfl⟩ := by simpa using h
      have := length_dropWhile_le (· ≠ '\x7d') u
      rw [hd] at this
      simp at this ⊢
      omega
  · simp at h

-- Puts the values of the variables in the place of the references of a line, up to its first number
-- sign. Fails with the name of the first variable that has no value.
def expandLine (env : Environment) (t : Text) : Except Text Text :=
  match _h : reference? t with
  | some (name, r) =>
    match env.find? name with
    | none => .error name
    | some value =>
      -- A number sign inside the name is the first one of the line, and stands before all the rest.
      if name.contains '#' then .ok (value ++ r) else (expandLine env r).map (value ++ ·)
  | none =>
    match t with
    | [] => .ok []
    | c :: r => if c = '#' then .ok t else (expandLine env r).map (c :: ·)
termination_by t.length
decreasing_by
  · exact length_lt_of_reference? _h
  · simp

-- Expands every line of a text. Line ends become line feeds, and the last line keeps its own if it
-- has one.
def expand (env : Environment) (t : Text) : Except Text Text := do
  let expanded ← (lines t).mapM (expandLine env)
  return joined ['\n'] expanded ++ if t.getLast? = some '\n' then ['\n'] else []

def lineReferences (t : Text) : List Text :=
  match _h : reference? t with
  | some (name, r) => name :: lineReferences r
  | none =>
    match t with
    | [] => []
    | _ :: r => lineReferences r
termination_by t.length
decreasing_by
  · exact length_lt_of_reference? _h
  · simp

def references (t : Text) : List Text :=
  (lines t).flatMap lineReferences

end AttributeFilter.Config
