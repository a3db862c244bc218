import AttributeFilter.Error
import AttributeFilter.Text.Blank
import AttributeFilter.Token.Lexeme

namespace AttributeFilter

-- A scanner: the text it has not read yet, and the place where that text starts.
structure Scanner where
  position : Position
  rest : Text
deriving DecidableEq

structure Scan where
  tokens : List Token
  failure? : Option Error
deriving DecidableEq

namespace Scanner

def ofText (t : Text) : Scanner where
  position := {}
  rest     := t

def finished (s : Scanner) : Scanner :=
  { s with rest := [] }

def token (position : Position) (leading : Text) (l : Lexeme) : Token where
  kind     := l.kind
  text     := l.text
  raw      := leading ++ l.text ++ Text.leadingBlank l.rest
  position := position

-- One step: the next token, or the error that stands in its place, with the scanner behind it.
-- None at the end of the text.
def next? (s : Scanner) : Option (Except Error Token × Scanner) :=
  match Text.dropBlank s.rest with
  | [] => none
  | c :: r =>
    let leading := Text.leadingBlank s.rest
    let start   := s.position.after leading
    match Lexeme.first c r with
    | .error t => some (.error (.unrecognized t start), s.finished)
    | .ok l    => some (.ok (token start leading l), { position := start.after l.text, rest := l.rest })

-- A step that makes a token leaves less to read.
theorem length_rest_lt_of_next? {s s' : Scanner} {t : Token} (h : s.next? = some (.ok t, s')) :
    s'.rest.length < s.rest.length := by
  simp only [next?] at h
  split at h
  · simp at h
  · next c r hr =>
    split at h
    · simp at h
    · next l hl =>
      have hstart := Lexeme.first_starts hl
      have hlength := Text.length_dropBlank_le s.rest
      obtain ⟨_, rfl⟩ := by simpa using h
      rw [hr, ← hstart.append, List.length_append] at hlength
      have := List.length_pos_iff.2 hstart.nonempty
      simp
      omega

def scan (s : Scanner) : Scan :=
  match _h : s.next? with
  | none => { tokens := [], failure? := none }
  | some (.error e, _) => { tokens := [], failure? := some e }
  | some (.ok t, s') =>
    let later := s'.scan
    { later with tokens := t :: later.tokens }
termination_by s.rest.length
decreasing_by exact length_rest_lt_of_next? _h

end Scanner

namespace Scan

def result (s : Scan) : Except Error (List Token) :=
  match s.failure? with
  | none   => .ok s.tokens
  | some e => .error e

end Scan

def tokenize (t : Text) : Except Error (List Token) :=
  (Scanner.ofText t).scan.result

end AttributeFilter
