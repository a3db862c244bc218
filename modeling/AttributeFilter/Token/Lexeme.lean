import AttributeFilter.Text.Quoted
import AttributeFilter.Token.Basic

namespace AttributeFilter

open Text

-- A token without its place: the kind, the text, and what stands behind it.
structure Lexeme where
  kind : Token.Kind
  text : Text
  rest : Text
deriving DecidableEq

namespace Lexeme

structure Starts (l : Lexeme) (t : Text) : Prop where
  append   : l.text ++ l.rest = t
  nonempty : l.text ≠ []

def isWordChar (c : Char) : Bool :=
  isLetter c || isDigit c || c = '_' || c = '-'

def isUriChar (c : Char) : Bool :=
  isWordChar c || c = ':' || c = '.'

def word (c : Char) (r : Text) : Lexeme :=
  let text := c :: r.takeWhile isWordChar
  { kind := .ofWord text, text, rest := r.dropWhile isWordChar }

def uriScheme : Text :=
  "urn:".toList

def startsUri (t : Text) : Bool :=
  sameWord (t.take uriScheme.length) uriScheme

def splitLastColon? : Text → Option (Text × Text)
  | [] => none
  | c :: r =>
    match splitLastColon? r with
    | some (before, behind) => some (c :: before, behind)
    | none => if c = ':' then some ([], r) else none

-- A schema URI ends before the last colon of the longest run of its characters: behind that colon
-- stands the attribute name. The scheme alone is no schema URI.
def schemaUri (t : Text) : Except Text Lexeme :=
  let run := t.takeWhile isUriChar
  match splitLastColon? run with
  | none => .error run
  | some (uri, name) =>
    if uriScheme.length < uri.length ∧ name ≠ [] then
      .ok { kind := .schemaUri, text := uri, rest := t.drop uri.length }
    else .error run

def string (r : Text) : Except Text Lexeme :=
  match Quoted.throughQuote? r with
  | none => .error ('"' :: r)
  | some (body, rest) =>
    -- The closing quote is found first, whatever stands before it.
    if (Quoted.decode? ('"' :: body)).isSome then
      .ok { kind := .string, text := '"' :: body, rest }
    else .error ('"' :: body)

structure Part where
  text : Text
  complete : Bool
  rest : Text

namespace Part

def digitsAfter (start t : Text) : Part where
  text     := start ++ t.takeWhile isDigit
  complete := !(t.takeWhile isDigit).isEmpty
  rest     := t.dropWhile isDigit

def absent (t : Text) : Part where
  text     := []
  complete := true
  rest     := t

def integer : Text → Part
  | '-' :: r => digitsAfter ['-'] r
  | t => digitsAfter [] t

def fraction : Text → Part
  | '.' :: r => digitsAfter ['.'] r
  | t => absent t

def isExponentMark (c : Char) : Bool :=
  c = 'e' || c = 'E'

def isSign (c : Char) : Bool :=
  c = '+' || c = '-'

def exponent : Text → Part
  | [] => absent []
  | e :: r =>
    if isExponentMark e then
      match r with
      -- A mark at the end lacks its digits, and is an error as any other mark without digits.
      | [] => digitsAfter [e] []
      | s :: r' => if isSign s then digitsAfter [e, s] r' else digitsAfter [e] r
    else absent (e :: r)

end Part

-- A number: an integer part, then a fraction if a point follows, then an exponent if its mark
-- follows. Each part that is begun needs a digit.
def number (t : Text) : Except Text Lexeme :=
  let integer  := Part.integer t
  let fraction := Part.fraction integer.rest
  let exponent := Part.exponent fraction.rest
  let text     := integer.text ++ fraction.text ++ exponent.text
  if integer.complete && fraction.complete && exponent.complete then
    .ok { kind := .number, text, rest := exponent.rest }
  else .error text

-- The lexeme at the front of the text `c :: r`, whose first character is not white space; or the
-- beginning of the text that is no lexeme.
def first (c : Char) (r : Text) : Except Text Lexeme :=
  match Token.Kind.ofMark? c with
  | some kind => .ok { kind, text := [c], rest := r }
  | none =>
    if c = '"' then string r
    else if c = '-' || isDigit c then number (c :: r)
    else if isLetter c || c = '$' then
      if startsUri (c :: r) then schemaUri (c :: r) else .ok (word c r)
    else .error [c]

theorem word_starts (c : Char) (r : Text) : (word c r).Starts (c :: r) where
  append   := by simp [word, List.takeWhile_append_dropWhile]
  nonempty := by simp [word]

theorem append_of_splitLastColon? {t before behind : Text}
    (h : splitLastColon? t = some (before, behind)) : before ++ ':' :: behind = t := by
  fun_induction splitLastColon? t generalizing before with
  | case1 => simp at h
  | case2 c r b d hr ih =>
    obtain ⟨rfl, rfl⟩ := by simpa using h
    simp [ih hr]
  | case3 r hr ih =>
    obtain ⟨rfl, rfl⟩ := by simpa using h
    rfl
  | case4 => simp at h

theorem schemaUri_starts {t : Text} {l : Lexeme} (h : schemaUri t = .ok l) : l.Starts t := by
  simp only [schemaUri] at h
  split at h
  · simp at h
  · next uri name hs =>
    split at h
    · next hl =>
      obtain rfl := by simpa using h
      have hrun := append_of_splitLastColon? hs
      have ht : uri ++ (':' :: name ++ t.dropWhile isUriChar) = t := by
        rw [← List.append_assoc, hrun, List.takeWhile_append_dropWhile]
      constructor
      case append =>
        exact List.prefix_iff_eq_append.1 ⟨_, ht⟩
      case nonempty =>
        rintro rfl
        simp at hl
    · simp at h

theorem string_starts {r : Text} {l : Lexeme} (h : string r = .ok l) : l.Starts ('"' :: r) := by
  unfold string at h
  split at h
  · simp at h
  · next body rest hb =>
    split at h
    · obtain rfl := by simpa using h
      exact ⟨by simp [Quoted.append_of_throughQuote? hb], by simp⟩
    · simp at h

namespace Part

theorem digitsAfter_append (start t : Text) :
    (digitsAfter start t).text ++ (digitsAfter start t).rest = start ++ t := by
  simp [digitsAfter, List.takeWhile_append_dropWhile]

theorem integer_append (t : Text) : (integer t).text ++ (integer t).rest = t := by
  unfold integer
  split <;> simp [digitsAfter_append]

theorem fraction_append (t : Text) : (fraction t).text ++ (fraction t).rest = t := by
  unfold fraction
  split
  · simp [digitsAfter_append]
  · simp [absent]

theorem exponent_append (t : Text) : (exponent t).text ++ (exponent t).rest = t := by
  unfold exponent
  split
  · simp [absent]
  · split
    · split
      · simp [digitsAfter]
      · split <;> simp [digitsAfter_append]
    · simp [absent]

theorem integer_text_ne_nil {t : Text} (h : (integer t).complete) : (integer t).text ≠ [] := by
  unfold integer at h ⊢
  split at h <;> simp_all [digitsAfter]

end Part

theorem number_starts {t : Text} {l : Lexeme} (h : number t = .ok l) : l.Starts t := by
  simp only [number] at h
  split at h
  · next hc =>
    obtain rfl := by simpa using h
    simp only [Bool.and_eq_true] at hc
    constructor
    case append =>
      simp [Part.exponent_append, Part.fraction_append, Part.integer_append]
    case nonempty =>
      simp [Part.integer_text_ne_nil hc.1.1]
  · simp at h

theorem first_starts {c : Char} {r : Text} {l : Lexeme} (h : first c r = .ok l) :
    l.Starts (c :: r) := by
  unfold first at h
  split at h
  · obtain rfl := by simpa using h
    exact ⟨rfl, by simp⟩
  · split at h
    · next hc => exact hc ▸ string_starts h
    · split at h
      · exact number_starts h
      · split at h
        · split at h
          · exact schemaUri_starts h
          · obtain rfl := by simpa using h
            exact word_starts c r
        · simp at h

end Lexeme
end AttributeFilter
