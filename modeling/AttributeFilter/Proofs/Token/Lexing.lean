import AttributeFilter.Proofs.Token.Admits
import AttributeFilter.Token.Scanner

/-!
Every token that the scanner makes is a lexeme of its kind.
-/

namespace AttributeFilter

open Text

-- A token without its place.
def Token.lexeme (t : Token) : Token.Kind × Text :=
  (t.kind, t.text)

theorem isLexeme_of_map_eq {ts us : List Token} (h : us.map Token.lexeme = ts.map Token.lexeme)
    (hl : ∀ t ∈ ts, t.IsLexeme) : ∀ t ∈ us, t.IsLexeme := by
  intro t ht
  have hm : t.lexeme ∈ ts.map Token.lexeme := h ▸ List.mem_map_of_mem ht
  have ⟨t', ht', he⟩ := List.mem_map.mp hm
  have hl : t'.lexeme.1.Admits t'.lexeme.2 := hl t' ht'
  rwa [he] at hl

namespace Token.Kind

variable {w : Text} {k : Kind} {c : Char}

theorem Reserves.admits (h : Reserves k w) : k.Admits w := by
  rcases h with ⟨o, ho⟩ | ⟨hm, hw⟩
  case operator => exact .operator o ho
  case word v =>
    have := Reserves.word hm hw
    revert hm
    simp only [reservedWords, List.mem_cons, Prod.mk.injEq, List.not_mem_nil, or_false]
    rintro (⟨-, rfl⟩ | ⟨-, rfl⟩ | ⟨-, rfl⟩ | ⟨-, rfl⟩ | ⟨-, rfl⟩ | ⟨-, rfl⟩) <;> exact this

theorem admits_ofWord (h : Lexeme.IsWord w) : (ofWord w).Admits w := by
  unfold ofWord
  cases hk : ofReserved? w
  case none   => exact ⟨h, ofReserved?_eq_none_iff.mp hk⟩
  case some k => exact (ofReserved?_eq_some_iff.mp hk).admits

theorem admits_ofMark? (h : ofMark? c = some k) : k.Admits [c] := by
  unfold ofMark? at h
  split at h
  case h_7 => cases h
  all_goals cases h; rfl

end Token.Kind

namespace Lexeme

variable {c : Char} {r t : Text} {l : Lexeme}

theorem isWord_cons_takeWhile (h : isLetter c = true ∨ c = '$') (r : Text) :
    IsWord (c :: r.takeWhile isWordChar) where
  head := ⟨c, rfl, h⟩
  tail := List.all_eq_true.mp List.all_takeWhile

theorem isDigits_takeWhile (h : (t.takeWhile isDigit).isEmpty = false) :
    IsDigits (t.takeWhile isDigit) where
  ne_nil := by simpa using h
  digits := List.all_eq_true.mp List.all_takeWhile

theorem isFraction_of_complete (h : (Part.fraction t).complete) :
    IsFraction (Part.fraction t).text := by
  unfold Part.fraction at h ⊢
  split at h
  case h_1 => exact .digits (isDigits_takeWhile (by simpa [Part.digitsAfter] using h))
  case h_2 => exact .absent

theorem isExponent_of_complete (h : (Part.exponent t).complete) :
    IsExponent (Part.exponent t).text := by
  unfold Part.exponent at h ⊢
  split at h
  case h_1 => exact .absent
  case h_2 e r =>
    by_cases he : Part.isExponentMark e
    case neg => simp [he, Part.absent, IsExponent.absent]
    case pos =>
      simp only [he, if_true] at h ⊢
      split at h
      case h_1 => simp [Part.digitsAfter] at h
      case h_2 s r =>
        by_cases hs : Part.isSign s
        case pos =>
          simp only [hs, if_true] at h ⊢
          exact .signed he hs (isDigits_takeWhile (by simpa [Part.digitsAfter] using h))
        case neg =>
          simp only [hs] at h ⊢
          exact .digits he (isDigits_takeWhile (by simpa [Part.digitsAfter] using h))

theorem isDigits_of_complete (h : (Part.integer t).complete) :
    ∃ ds, IsDigits ds ∧ ((Part.integer t).text = ds ∨ (Part.integer t).text = '-' :: ds) := by
  unfold Part.integer at h ⊢
  split at h
  case h_1 => exact ⟨_, isDigits_takeWhile (by simpa [Part.digitsAfter] using h), .inr rfl⟩
  case h_2 => exact ⟨_, isDigits_takeWhile (by simpa [Part.digitsAfter] using h), .inl rfl⟩

theorem isNumber_of_number (h : number t = .ok l) : l.kind = .number ∧ IsNumber l.text := by
  simp only [number] at h
  split at h
  case isFalse => cases h
  case isTrue hc =>
    cases h
    simp only [Bool.and_eq_true] at hc
    have hf := isFraction_of_complete hc.left.right
    have he := isExponent_of_complete hc.right
    cases isDigits_of_complete hc.left.left
    case intro ds hi =>
      cases hi.right
      case inl ht => exact ⟨rfl, ht ▸ .unsigned hi.left hf he⟩
      case inr ht => exact ⟨rfl, ht ▸ .negative hi.left hf he⟩

theorem startsUri_append (hl : uriScheme.length ≤ t.length) : startsUri (t ++ r) = startsUri t := by
  rw [startsUri, startsUri, List.take_append_of_le_length hl]

theorem isSchemaUri_of_schemaUri (hs : startsUri t = true) (h : schemaUri t = .ok l) :
    l.kind = .schemaUri ∧ IsSchemaUri l.text := by
  simp only [schemaUri] at h
  split at h
  case h_1 => cases h
  case h_2 uri name hn =>
    split at h
    case isFalse => cases h
    case isTrue hl =>
      cases h
      have hrun := append_of_splitLastColon? hn
      have hall := List.all_eq_true.mp (List.all_takeWhile (p := isUriChar) (l := t))
      have ht : uri ++ (':' :: name ++ t.dropWhile isUriChar) = t := by
        rw [← List.append_assoc, hrun, List.takeWhile_append_dropWhile]
      exact ⟨rfl, (startsUri_append (Nat.le_of_lt hl.left)).symm.trans (ht ▸ hs), hl.left,
        fun c hc => hall c (hrun ▸ List.mem_append_left _ hc)⟩

theorem decode?_of_string (h : string r = .ok l) :
    l.kind = .string ∧ (Quoted.decode? l.text).isSome := by
  unfold string at h
  split at h
  case h_1 => cases h
  case h_2 =>
    split at h
    case isTrue hd => cases h; exact ⟨rfl, hd⟩
    case isFalse => cases h

theorem first_admits (h : first c r = .ok l) : l.kind.Admits l.text := by
  unfold first at h
  split at h
  case h_1 hk => cases h; exact Token.Kind.admits_ofMark? hk
  case h_2 =>
    split at h
    case isTrue =>
      have ⟨hk, ht⟩ := decode?_of_string h
      exact hk ▸ ht
    case isFalse =>
      split at h
      case isTrue =>
        have ⟨hk, ht⟩ := isNumber_of_number h
        exact hk ▸ ht
      case isFalse =>
        split at h
        case isFalse => cases h
        case isTrue hc =>
          split at h
          case isTrue hs =>
            have ⟨hk, ht⟩ := isSchemaUri_of_schemaUri hs h
            exact hk ▸ ht
          case isFalse =>
            cases h
            exact Token.Kind.admits_ofWord (isWord_cons_takeWhile (by simpa using hc) r)

end Lexeme

namespace Scanner

variable {s s' : Scanner} {t : Token} {e : Error}

theorem scan_of_none (h : s.next? = none) : s.scan = ⟨[], none⟩ := by
  rw [scan]
  split
  case h_1    => rfl
  case h_2 hn => cases h.symm.trans hn
  case h_3 hn => cases h.symm.trans hn

theorem scan_of_error (h : s.next? = some (.error e, s')) : s.scan = ⟨[], some e⟩ := by
  rw [scan]
  split
  case h_1 hn => cases h.symm.trans hn
  case h_2 hn => cases h.symm.trans hn; rfl
  case h_3 hn => cases h.symm.trans hn

theorem scan_of_token (h : s.next? = some (.ok t, s')) :
    s.scan = ⟨t :: s'.scan.tokens, s'.scan.failure?⟩ := by
  rw [scan]
  split
  case h_1 hn => cases h.symm.trans hn
  case h_2 hn => cases h.symm.trans hn
  case h_3 hn => cases h.symm.trans hn; rfl

theorem isLexeme_of_next? (h : s.next? = some (.ok t, s')) : t.IsLexeme := by
  unfold next? at h
  split at h
  case h_1 => cases h
  case h_2 =>
    simp only at h
    split at h
    case h_1 => cases h
    case h_2 hl => cases h; exact Lexeme.first_admits hl

theorem isLexeme_of_mem_scan (s : Scanner) : ∀ t ∈ s.scan.tokens, t.IsLexeme := by
  fun_induction scan s
  case case1 => nofun
  case case2 => nofun
  case case3 h _ ih => exact List.forall_mem_cons.mpr ⟨isLexeme_of_next? h, ih⟩

end Scanner

theorem isLexeme_of_tokenize {t : Text} {ts : List Token} (h : tokenize t = .ok ts) :
    ∀ k ∈ ts, k.IsLexeme := by
  unfold tokenize Scan.result at h
  split at h
  case h_1 => cases h; exact Scanner.isLexeme_of_mem_scan _
  case h_2 => cases h

end AttributeFilter
