import AttributeFilter.Proofs.Token.Division
import AttributeFilter.Proofs.Token.Makes

/-!
More text behind a text. It changes nothing of the lexemes that the text is cut into, unless it starts
with a character that can continue one.
-/

namespace AttributeFilter

open Text

namespace Lexeme

variable {c : Char} {t u r start : Text} {l : Lexeme}

-- The same lexeme with more text behind it.
def followed (l : Lexeme) (r : Text) : Lexeme :=
  { l with rest := l.rest ++ r }

namespace Part

def followed (p : Part) (r : Text) : Part :=
  { p with rest := p.rest ++ r }

theorem digitsAfter_followed (hr : r.Stops isDigit) :
    digitsAfter start (t ++ r) = (digitsAfter start t).followed r := by
  simp only [digitsAfter, followed, takeWhile_append_of_stops hr, dropWhile_append_of_stops hr]

theorem integer_followed (hr : r.Stops isDigit) :
    integer (c :: (t ++ r)) = (integer (c :: t)).followed r := by
  by_cases hc : c = '-'
  case pos => exact hc ▸ digitsAfter_followed hr
  case neg =>
    have hi (u : Text) : integer (c :: u) = digitsAfter [] (c :: u) := by
      unfold integer
      split
      case h_1 he => cases he; exact absurd rfl hc
      case h_2    => rfl
    rw [hi, hi, ← List.cons_append]
    exact digitsAfter_followed hr

theorem fraction_followed (hr : r.Stops continuesNumber) :
    fraction (t ++ r) = (fraction t).followed r := by
  have hd := stops_of_continuesNumber hr
  cases t
  case nil => exact fraction_eq .absent hd (by rintro hp; cases hr _ hp)
  case cons c t =>
    by_cases hc : c = '.'
    case pos => exact hc ▸ digitsAfter_followed hd
    case neg =>
      have hf (u : Text) : fraction (c :: u) = absent (c :: u) := by
        unfold fraction
        split
        case h_1 he => cases he; exact absurd rfl hc
        case h_2    => rfl
      exact (hf _).trans (congrArg (·.followed r) (hf t).symm)

theorem exponent_followed (h : (exponent t).complete = true) (hr : r.Stops continuesNumber) :
    exponent (t ++ r) = (exponent t).followed r := by
  have hd := stops_of_continuesNumber hr
  match t with
  | [] => exact exponent_eq .absent hr
  | [e] =>
    by_cases he : isExponentMark e
    case neg => simp [exponent, he, absent, followed]
    case pos => simp [exponent, he, digitsAfter] at h
  | e :: s :: u =>
    by_cases he : isExponentMark e
    case neg => simp [exponent, he, absent, followed]
    case pos =>
      have hu : digitsAfter [e] (s :: u ++ r) = (digitsAfter [e] (s :: u)).followed r :=
        digitsAfter_followed hd
      rw [List.cons_append] at hu
      by_cases hs : isSign s
      case pos => simp [exponent, he, hs, digitsAfter_followed hd]
      case neg => simp [exponent, he, hs, hu]

end Part

theorem number_followed (h : number (c :: t) = .ok l) (hr : r.Stops continuesNumber) :
    number (c :: (t ++ r)) = .ok (l.followed r) := by
  have hi := Part.integer_followed (c := c) (t := t) (Part.stops_of_continuesNumber hr)
  simp only [number] at h
  split at h
  case isFalse => cases h
  case isTrue hc =>
    cases h
    have he := (Bool.and_eq_true _ _).mp hc
    simp only [number, hi, Part.followed, Part.fraction_followed hr, Part.exponent_followed he.right hr,
      hc, if_true, followed]

theorem ne_of_stops {d : Char} {v : Text} (hr : r.Stops isUriChar)
    (hd : isLetter d = true ∨ d = ':') : r ≠ d :: v := by
  have hu : isUriChar d = true := by
    cases hd
    case inl hd => simp [isUriChar, isWordChar_of_isLetter hd]
    case inr hd => exact hd ▸ rfl
  rintro rfl
  cases hu.symm.trans (hr d rfl)

theorem uriScheme_length_le (h : startsUri t = true) : uriScheme.length ≤ t.length := by
  have ⟨a, b, c, u, he, _⟩ := of_startsUri h
  simp [uriScheme, he]

theorem uriScheme_length_le_of_append (h : startsUri (t ++ r) = true) (hr : r.Stops isUriChar) :
    uriScheme.length ≤ t.length := by
  have ⟨a, b, c, u, he, ha, hb, hc⟩ := of_startsUri h
  match t with
  | []        => exact absurd he (ne_of_stops hr (.inl ha))
  | [_]       => exact absurd (List.cons.inj he).right (ne_of_stops hr (.inl hb))
  | [_, _]    => exact absurd (List.cons.inj (List.cons.inj he).right).right (ne_of_stops hr (.inl hc))
  | [_, _, _] =>
    have he := (List.cons.inj (List.cons.inj (List.cons.inj he).right).right).right
    exact absurd he (ne_of_stops hr (.inr rfl))
  | _ :: _ :: _ :: _ :: _ => simp [uriScheme]

-- The scheme of schema URIs does not go beyond a character that is in none.
theorem startsUri_followed (hr : r.Stops isUriChar) : startsUri (t ++ r) = startsUri t := by
  rw [Bool.eq_iff_iff]
  constructor
  case mp  => exact fun h => startsUri_append (uriScheme_length_le_of_append h hr) ▸ h
  case mpr => exact fun h => (startsUri_append (uriScheme_length_le h)).trans h

theorem schemaUri_followed (h : schemaUri t = .ok l) (hr : r.Stops isUriChar) :
    schemaUri (t ++ r) = .ok (l.followed r) := by
  simp only [schemaUri] at h
  split at h
  case h_1 => cases h
  case h_2 uri name hn =>
    split at h
    case isFalse => cases h
    case isTrue hl =>
      cases h
      have hp : uri <+: t := by
        have hu : uri <+: uri ++ ':' :: name := List.prefix_append _ _
        rw [append_of_splitLastColon? hn] at hu
        exact hu.trans (List.takeWhile_prefix isUriChar)
      simp only [schemaUri, takeWhile_append_of_stops hr, hn, if_pos hl, followed,
        List.drop_append_of_le_length hp.length_le]

theorem word_followed (hr : r.Stops isWordChar) : word c (t ++ r) = (word c t).followed r := by
  simp only [word, followed, takeWhile_append_of_stops hr, dropWhile_append_of_stops hr]

theorem string_followed (h : string t = .ok l) : string (t ++ r) = .ok (l.followed r) := by
  have ⟨hk, hd⟩ := decode?_of_string h
  have ⟨c, u, he, hf⟩ := cuts_string hd (l.rest ++ r)
  rw [← List.append_assoc, (string_starts h).append] at he
  cases he
  have hf : string (t ++ r) = .ok ⟨.string, l.text, l.rest ++ r⟩ := hf
  rw [hf, ← hk]
  rfl

-- No character of the text behind can continue a lexeme.
theorem first_followed (h : first c t = .ok l) (hr : r.Stops isUriChar) :
    first c (t ++ r) = .ok (l.followed r) := by
  have hw := (stops_of_continuesWord (hr.mono fun _ => isUriChar_of_continuesWord)).left
  have hn := hr.mono fun _ => isUriChar_of_continuesNumber
  have hs := startsUri_followed (t := c :: t) hr
  rw [List.cons_append] at hs
  unfold first at h ⊢
  split at h
  case h_1 => cases h; rfl
  case h_2 =>
    split at h
    case isTrue hc => rw [if_pos hc]; exact string_followed h
    case isFalse hc =>
      rw [if_neg hc]
      split at h
      case isTrue hc => rw [if_pos hc]; exact number_followed h hn
      case isFalse hc =>
        rw [if_neg hc]
        split at h
        case isFalse => cases h
        case isTrue hc =>
          rw [if_pos hc, hs]
          split at h
          case isTrue hs => rw [if_pos hs]; exact schemaUri_followed h hr
          case isFalse hs => rw [if_neg hs, word_followed hw]; cases h; rfl

end Lexeme

namespace Scanner

variable {s s' s₁ : Scanner} {t : Token} {ts : List Token} {r w : Text}

theorem next?_followed (h : s.next? = some (.ok t, s')) (hr : r.Stops Lexeme.isUriChar)
    (hs : s₁.Before (s.rest ++ r)) :
    ∃ t₁ s₂, s₁.next? = some (.ok t₁, s₂) ∧ t₁.lexeme = t.lexeme ∧ s₂.rest = s'.rest ++ r := by
  have ⟨c, u, _, hf⟩ := exists_first_of_next? h
  have ⟨_, _, _, hd⟩ := token_of_next? h
  have ht : t.text ++ s'.rest = c :: u := (Lexeme.first_starts hf).append
  have hc : Lexeme.Cuts t.kind t.text (s'.rest ++ r) :=
    ⟨c, u ++ r, by rw [← List.append_assoc, ht]; rfl, Lexeme.first_followed hf hr⟩
  rw [hd, List.append_assoc, List.append_assoc] at hs
  have ⟨t₁, s₂, hk, hw, hn, hr⟩ := next?_of_cuts hc (hs.behind blank_leadingBlank)
  exact ⟨t₁, s₂, hn, Prod.ext hk hw, hr⟩

theorem Makes.followed (h : s.Makes ts s') (hr : r.Stops Lexeme.isUriChar)
    (hs : s₁.Before (s.rest ++ r)) :
    ∃ us s₂, us.map Token.lexeme = ts.map Token.lexeme ∧ s₁.Makes us s₂ ∧
      s₂.Before (s'.rest ++ r) := by
  induction h generalizing s₁
  case stay => exact ⟨[], s₁, rfl, .stay s₁, hs⟩
  case step hn _ ih =>
    have ⟨t₁, s₂, hn₁, ht, hs⟩ := next?_followed hn hr hs
    have ⟨us, s₃, hus, hm, hb⟩ := ih (.of_eq hs)
    exact ⟨t₁ :: us, s₃, by rw [List.map_cons, List.map_cons, ht, hus], .step hn₁ hm, hb⟩

-- A scan without an error makes its tokens, and leaves white space.
theorem makes_of_scan (h : s.scan.failure? = none) :
    ∃ s', s.Makes s.scan.tokens s' ∧ s'.rest.Blank := by
  fun_induction scan s
  case case1 s hn =>
    refine ⟨s, .stay s, ?_⟩
    rw [← leadingBlank_append_dropBlank s.rest, dropBlank_of_next?_none hn, List.append_nil]
    exact blank_leadingBlank
  case case2 => cases h
  case case3 hn _ ih =>
    exact (ih h).imp fun _ hs => ⟨.step hn hs.left, hs.right⟩

end Scanner

variable {w r : Text} {ts : List Token}

-- A text spells the tokens that are made from it.
theorem spells_of_tokenize (h : tokenize w = .ok ts) (hr : r.Stops Lexeme.isUriChar) :
    Spells (fun us : List Token => us) (fun us => us.map Token.lexeme = ts.map Token.lexeme) w r := by
  unfold tokenize Scan.result at h
  split at h
  case h_2 => cases h
  case h_1 hf =>
    cases h
    intro s hs
    have ⟨s', hm, hb⟩ := Scanner.makes_of_scan hf
    have ⟨us, s'', hus, hm, hs⟩ := hm.followed hr hs
    exact ⟨us, s'', hus, hm, hs.behind hb⟩

end AttributeFilter
