import AttributeFilter.Text.Letter

namespace AttributeFilter.Text.Quoted

def shortEscape? (c : Char) : Option Char :=
  if c = '"' then some '"'
  else if c = '\\' then some '\\'
  else if c = '\x08' then some 'b'
  else if c = '\x0c' then some 'f'
  else if c = '\n' then some 'n'
  else if c = '\r' then some 'r'
  else if c = '\t' then some 't'
  else none

-- The written form of one character: a short escape, a numbered one for the other characters
-- below the blank, and else the character itself.
def encodeChar (c : Char) : Text :=
  match shortEscape? c with
  | some letter => ['\\', letter]
  | none =>
    if c.toNat < 0x20 then "\\u".toList ++ padLeft 4 '0' (Nat.toDigits 16 c.toNat) else [c]

def encode (t : Text) : Text :=
  '"' :: t.flatMap encodeChar ++ ['"']

def unescape? (letter : Char) : Option Char :=
  match letter with
  | '"' => some '"'
  | '\\' => some '\\'
  | '/' => some '/'
  | 'b' => some '\x08'
  | 'f' => some '\x0c'
  | 'n' => some '\n'
  | 'r' => some '\r'
  | 't' => some '\t'
  | _ => none

def hexQuad? : Text → Option (Nat × Text)
  | a :: b :: c :: d :: rest => (numeral? 16 [a, b, c, d]).map (·, rest)
  | _ => none

def isHighSurrogate (n : Nat) : Bool :=
  0xD800 ≤ n && n ≤ 0xDBFF

def isLowSurrogate (n : Nat) : Bool :=
  0xDC00 ≤ n && n ≤ 0xDFFF

def lowHalf? : Text → Option (Nat × Text)
  | '\\' :: 'u' :: r => (hexQuad? r).filter fun (n, _) => isLowSurrogate n
  | _ => none

-- The character that starts with a given number: a high surrogate asks for the escape of its low
-- half next, and a low one stands for nothing on its own.
def scalar? (n : Nat) (rest : Text) : Option (Char × Text) :=
  if isHighSurrogate n then
    (lowHalf? rest).map fun (m, rest) =>
      (Char.ofNat (0x10000 + (n - 0xD800) * 0x400 + (m - 0xDC00)), rest)
  else if isLowSurrogate n then none
  else some (Char.ofNat n, rest)

def escape? : Text → Option (Char × Text)
  | [] => none
  | letter :: r =>
    if letter = 'u' then (hexQuad? r).bind fun (n, rest) => scalar? n rest
    else (unescape? letter).map (·, r)

theorem length_lt_of_hexQuad? {t r : Text} {n : Nat} (h : hexQuad? t = some (n, r)) :
    r.length < t.length := by
  unfold hexQuad? at h
  split at h
  · obtain ⟨_, _, rfl, rfl⟩ := by simpa using h
    simp
    omega
  · simp at h

theorem length_lt_of_lowHalf? {t r : Text} {n : Nat} (h : lowHalf? t = some (n, r)) :
    r.length < t.length := by
  unfold lowHalf? at h
  split at h
  · have := length_lt_of_hexQuad? (Option.filter_eq_some_iff.1 h).1
    simp
    omega
  · simp at h

theorem length_le_of_scalar? {n : Nat} {t r : Text} {c : Char} (h : scalar? n t = some (c, r)) :
    r.length ≤ t.length := by
  unfold scalar? at h
  split at h
  · obtain ⟨⟨m, s⟩, hm, heq⟩ := Option.map_eq_some_iff.1 h
    obtain ⟨_, rfl⟩ := by simpa using heq
    exact Nat.le_of_lt (length_lt_of_lowHalf? hm)
  · split at h
    · simp at h
    · obtain ⟨_, rfl⟩ := by simpa using h
      exact Nat.le_refl _

theorem length_lt_of_escape? {t r : Text} {c : Char} (h : escape? t = some (c, r)) :
    r.length < t.length := by
  cases t with
  | nil => simp [escape?] at h
  | cons letter s =>
    simp only [escape?] at h
    split at h
    · obtain ⟨⟨n, u⟩, hu, hc⟩ := Option.bind_eq_some_iff.1 h
      have := length_lt_of_hexQuad? hu
      have : r.length ≤ u.length := length_le_of_scalar? hc
      simp
      omega
    · obtain ⟨_, _, heq⟩ := Option.map_eq_some_iff.1 h
      obtain ⟨_, rfl⟩ := by simpa using heq
      simp

def decodeBody? (t : Text) : Option Text :=
  match t with
  | [] => none
  -- Nothing may stand behind the closing quote.
  | '"' :: r => if r.isEmpty then some [] else none
  | '\\' :: r =>
    match _h : escape? r with
    | none => none
    | some (c, rest) => (decodeBody? rest).map (c :: ·)
  | c :: r => if c.toNat < 0x20 then none else (decodeBody? r).map (c :: ·)
termination_by t.length
decreasing_by
  · have := length_lt_of_escape? _h
    simp
    omega
  · simp

def decode? : Text → Option Text
  | '"' :: r => decodeBody? r
  | _ => none

def isPadding (c : Char) : Bool :=
  c = ' ' || c = '\t' || c = '\n' || c = '\r'

def decodePadded? (t : Text) : Option Text :=
  decode? ((t.dropWhile isPadding).reverse.dropWhile isPadding).reverse

-- Finds the first quote that no backslash escapes, in what follows an opening quote: the text
-- through that quote, and the rest.
def throughQuote? : Text → Option (Text × Text)
  | [] => none
  | c :: r =>
    if c = '"' then some ([c], r)
    else if c = '\\' then
      match r with
      | [] => none
      | d :: s => (throughQuote? s).map fun (t, rest) => (c :: d :: t, rest)
    else (throughQuote? r).map fun (t, rest) => (c :: t, rest)

theorem append_of_throughQuote? {s t rest : Text} (h : throughQuote? s = some (t, rest)) :
    t ++ rest = s := by
  fun_induction throughQuote? s generalizing t rest with
  | case1 => simp at h
  | case2 r =>
    obtain ⟨rfl, rfl⟩ := by simpa using h
    rfl
  | case3 => simp at h
  | case4 d s _ ih =>
    obtain ⟨⟨t', rest'⟩, h', heq⟩ := Option.map_eq_some_iff.1 h
    obtain ⟨rfl, rfl⟩ := by simpa using heq
    simp [ih h']
  | case5 c r _ _ ih =>
    obtain ⟨⟨t', rest'⟩, h', heq⟩ := Option.map_eq_some_iff.1 h
    obtain ⟨rfl, rfl⟩ := by simpa using heq
    simp [ih h']

end AttributeFilter.Text.Quoted
