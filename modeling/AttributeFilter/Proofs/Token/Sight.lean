import AttributeFilter.Proofs.Token.Following

/-!
What a scanner sees of the text behind a lexeme: the characters of schema URIs at the front of it, and of
those not the case. A lexeme is cut off at the same place before all texts that look the same.
-/

namespace AttributeFilter

open Text

namespace Text

variable {p : Char → Bool} {c d : Char} {t u r r' : Text}

-- The condition does not see the case of a character.
def Caseless (p : Char → Bool) : Prop :=
  ∀ c, p c.toLower = p c

theorem caseless_isDigit : Caseless isDigit := by
  intro c
  by_cases h : 65 ≤ c.toNat ∧ c.toNat ≤ 90
  case neg => rw [toLower_eq_self h]
  case pos =>
    have hn (d : Char) (hd : 65 ≤ d.toNat) : isDigit d = false :=
      Bool.eq_false_iff.mpr fun hd' => by have := toNat_of_isDigit hd'; omega
    rw [hn c h.left, hn c.toLower (by rw [toNat_toLower h]; omega)]

-- A character that is no letter is alike only to itself.
theorem caseless_eq (hd : isLetter d = false) : Caseless (· = d) := by
  intro c
  rw [Bool.eq_iff_iff, decide_eq_true_iff, decide_eq_true_iff]
  constructor
  case mp  => exact fun h => eq_of_toLower_eq h hd
  case mpr =>
    rintro rfl
    apply toLower_eq_self
    intro h
    rw [isLetter_iff.mpr (.inr h)] at hd
    cases hd

theorem Caseless.or {q : Char → Bool} (hp : Caseless p) (hq : Caseless q) :
    Caseless fun c => p c || q c :=
  fun c => by
    dsimp only
    rw [hp, hq]

theorem takeWhile_lower (hp : Caseless p) (t : Text) : (lower t).takeWhile p = lower (t.takeWhile p) := by
  rw [lower, List.takeWhile_map, show p ∘ Char.toLower = p from funext hp]
  rfl

theorem all_iff_of_lower_eq (hp : Caseless p) (h : lower t = lower u) :
    (∀ c ∈ t, p c = true) ↔ ∀ c ∈ u, p c = true := by
  have hl (t : Text) : (∀ c ∈ t, p c = true) ↔ ∀ c ∈ lower t, p c = true := by
    simp [lower, hp _]
  rw [hl t, hl u, h]

theorem exists_cons_of_not_stops (h : ¬t.Stops p) : ∃ c u, t = c :: u ∧ p c = true := by
  cases t
  case nil => exact absurd nofun h
  case cons c u =>
    cases hc : p c
    case true  => exact ⟨c, u, rfl, hc⟩
    case false => exact absurd (.cons hc) h

end Text

namespace Lexeme

variable {p : Char → Bool} {c : Char} {r r' t u u' w w' : Text} {k : Token.Kind}

theorem caseless_isWordChar : Caseless isWordChar :=
  ((Caseless.or (fun _ => isLetter_toLower) caseless_isDigit).or (caseless_eq rfl)).or (caseless_eq rfl)

theorem caseless_isUriChar : Caseless isUriChar :=
  (caseless_isWordChar.or (caseless_eq rfl)).or (caseless_eq rfl)

theorem isExponentMark_iff : Part.isExponentMark c = true ↔ c.toLower = 'e' := by
  simp only [Part.isExponentMark, Bool.or_eq_true, decide_eq_true_eq]
  constructor
  case mp  => rintro (rfl | rfl) <;> rfl
  case mpr =>
    intro h
    by_cases hc : 65 ≤ c.toNat ∧ c.toNat ≤ 90
    case neg => exact .inl ((toLower_eq_self hc).symm.trans h)
    case pos =>
      have hn := toNat_toLower hc
      rw [h] at hn
      exact .inr (Char.toNat_inj.mp (Nat.add_right_cancel hn.symm))

theorem caseless_isExponentMark : Caseless Part.isExponentMark := by
  intro c
  rw [Bool.eq_iff_iff, isExponentMark_iff, isExponentMark_iff, toLower_toLower]

-- What a scanner sees of the text behind a lexeme.
def sight (r : Text) : Text :=
  (lower r).takeWhile isUriChar

theorem sight_append_congr (hu : lower u = lower u') (hr : sight r = sight r') :
    sight (u ++ r) = sight (u' ++ r') := by
  simp only [sight, lower, List.map_append] at hu hr ⊢
  rw [hu, List.takeWhile_append, List.takeWhile_append, hr]

theorem sight_of_stops (h : r.Stops isUriChar) : sight r = [] := by
  rw [sight, takeWhile_lower caseless_isUriChar, takeWhile_of_stops h]
  rfl

-- Texts that look alike end the same runs.
theorem stops_of_sight_eq (hp : Caseless p) (hu : ∀ c, p c = true → isUriChar c = true)
    (h : sight r' = sight r) (hr : r.Stops p) : r'.Stops p := by
  intro c hc
  apply Bool.eq_false_iff.mpr
  intro hpc
  have hs : c.toLower ∈ (sight r).head? := by
    rw [← h, sight, takeWhile_lower caseless_isUriChar]
    cases r'
    case nil    => cases hc
    case cons d => cases hc; simp [lower, hu c hpc]
  rw [sight, takeWhile_lower caseless_isUriChar] at hs
  cases r
  case nil => cases hs
  case cons d r =>
    have hpd := hr d rfl
    by_cases hd : isUriChar d
    case neg => simp [lower, hd] at hs
    case pos =>
      have hl : d.toLower = c.toLower := by simpa [lower, hd] using hs
      rw [← hp d, hl, hp c, hpc] at hpd
      cases hpd

theorem startsUri_iff : startsUri t = true ↔ uriScheme <+: sight t := by
  have ht : startsUri t = true ↔ uriScheme <+: lower t := by
    have hl : lower (t.take uriScheme.length) = (lower t).take uriScheme.length := List.map_take
    have hs : lower uriScheme = uriScheme := rfl
    rw [startsUri, sameWord_iff, hl, hs, List.prefix_iff_eq_take, eq_comm]
  rw [ht, sight]
  constructor
  case mpr => exact fun h => h.trans (List.takeWhile_prefix _)
  case mp =>
    rintro ⟨u, hu⟩
    have hc : ∀ c ∈ uriScheme, isUriChar c = true := by decide
    exact ⟨u.takeWhile isUriChar, by rw [← hu, List.takeWhile_append_of_pos hc]⟩

theorem startsUri_congr (h : sight t = sight u) : startsUri t = startsUri u := by
  rw [Bool.eq_iff_iff, startsUri_iff, startsUri_iff, h]

theorem splitLastColon?_lower (t : Text) :
    splitLastColon? (lower t) = (splitLastColon? t).map fun s => (lower s.1, lower s.2) := by
  induction t
  case nil => rfl
  case cons c t ih =>
    have hc : (c.toLower = ':') = (c = ':') := by
      have h := caseless_eq (d := ':') rfl c
      simpa using h
    have hl : lower (c :: t) = c.toLower :: lower t := rfl
    rw [hl, splitLastColon?, splitLastColon?, ih]
    cases splitLastColon? t
    case some => rfl
    case none =>
      by_cases h : c = ':'
      case pos => simp [h]; rfl
      case neg => simp [hc, h]

-- A schema URI is cut off where it was before.
theorem schemaUri_congr (h : schemaUri (w ++ r) = .ok ⟨.schemaUri, w, r⟩) (hr : sight r' = sight r) :
    schemaUri (w ++ r') = .ok ⟨.schemaUri, w, r'⟩ := by
  have hrun : lower ((w ++ r').takeWhile isUriChar) = lower ((w ++ r).takeWhile isUriChar) := by
    rw [← takeWhile_lower caseless_isUriChar, ← takeWhile_lower caseless_isUriChar]
    exact sight_append_congr rfl hr
  simp only [schemaUri] at h
  split at h
  case h_1 => cases h
  case h_2 uri name hn =>
    split at h
    case isFalse => cases h
    case isTrue hl =>
      injection h with h
      injection h with _ hw _
      subst hw
      have hs := splitLastColon?_lower ((uri ++ r').takeWhile isUriChar)
      rw [hrun, splitLastColon?_lower, hn] at hs
      obtain ⟨⟨uri', name'⟩, hn', he⟩ := Option.map_eq_some_iff.mp hs.symm
      obtain ⟨hu, hm⟩ := Prod.mk.inj he
      have huri : uri' = uri := by
        have hp : uri' ++ (':' :: name' ++ (uri ++ r').dropWhile isUriChar) = uri ++ r' := by
          rw [← List.append_assoc, append_of_splitLastColon? hn', List.takeWhile_append_dropWhile]
        have hlength := congrArg List.length hu
        exact List.append_inj_left hp (by simpa [lower] using hlength)
      have hname : name' ≠ [] := by
        rintro rfl
        exact hl.right (List.map_eq_nil_iff.mp hm.symm)
      subst huri
      simp only [schemaUri, hn', if_pos (And.intro hl.left hname), List.drop_left]

namespace Part

variable {start : Text}

-- Digits end where they ended before.
theorem digitsAfter_congr (h : (digitsAfter start (t ++ r)).rest = u ++ r) (hr : sight r' = sight r) :
    digitsAfter start (t ++ r') = { digitsAfter start (t ++ r) with rest := u ++ r' } := by
  have hrest : (t ++ r).dropWhile isDigit = u ++ r := h
  have hs : (u ++ r).Stops isDigit := hrest ▸ stops_dropWhile isDigit (t ++ r)
  have hs' : (u ++ r').Stops isDigit := by
    refine stops_of_sight_eq caseless_isDigit (fun c hc => ?_) (sight_append_congr rfl hr) hs
    simp [isUriChar, isWordChar_of_isDigit hc]
  have ht : (t ++ r).takeWhile isDigit ++ u = t := by
    have hd := takeWhile_append_dropWhile isDigit (t ++ r)
    rw [hrest, ← List.append_assoc] at hd
    exact List.append_cancel_right hd
  have hd : ∀ c ∈ (t ++ r).takeWhile isDigit, isDigit c = true := List.all_eq_true.mp List.all_takeWhile
  have ht' : t ++ r' = (t ++ r).takeWhile isDigit ++ (u ++ r') := by rw [← List.append_assoc, ht]
  simp only [digitsAfter, ht', takeWhile_append hd hs', dropWhile_append hd hs']

theorem congr_of_digitsAfter {P : Text → Part} (start : Text)
    (hP : ∀ v, P (t ++ v) = digitsAfter start (w ++ v)) (h : (P (t ++ r)).rest = u ++ r)
    (hr : sight r' = sight r) : P (t ++ r') = { P (t ++ r) with rest := u ++ r' } := by
  rw [hP] at h ⊢
  rw [hP]
  exact digitsAfter_congr h hr

-- A part that is absent is absent before all texts that look the same.
theorem congr_of_stops {P : Text → Part} (hp : Caseless p) (hu : ∀ c, p c = true → isUriChar c = true)
    (hP : ∀ v, v.Stops p → P v = absent v) (hs : (t ++ r).Stops p) (h : (P (t ++ r)).rest = u ++ r)
    (hr : sight r' = sight r) : P (t ++ r') = { P (t ++ r) with rest := u ++ r' } := by
  have hs' : (t ++ r').Stops p := stops_of_sight_eq hp hu (sight_append_congr rfl hr) hs
  rw [hP _ hs] at h ⊢
  rw [hP _ hs', show t = u from List.append_cancel_right h]
  rfl

-- The text of a part is what stands before its rest.
theorem text_append_of_rest {p : Part} (hp : p.text ++ p.rest = t ++ r) (h : p.rest = u ++ r) :
    p.text ++ u = t := by
  rw [h, ← List.append_assoc] at hp
  exact List.append_cancel_right hp

theorem integer_congr (h : (integer (c :: t ++ r)).rest = u ++ r) (hr : sight r' = sight r) :
    integer (c :: t ++ r') = { integer (c :: t ++ r) with rest := u ++ r' } := by
  by_cases hc : c = '-'
  case pos =>
    subst hc
    exact congr_of_digitsAfter (t := '-' :: t) (w := t) ['-'] (fun _ => rfl) h hr
  case neg =>
    refine congr_of_digitsAfter (t := c :: t) (w := c :: t) [] (fun v => ?_) h hr
    unfold integer
    split
    case h_1 he => cases he; exact absurd rfl hc
    case h_2    => rfl

theorem fraction_of_stops (h : t.Stops (· = '.')) : fraction t = absent t := by
  unfold fraction
  split
  case h_1 => cases h _ rfl
  case h_2 => rfl

theorem fraction_congr (h : (fraction (t ++ r)).rest = u ++ r) (hr : sight r' = sight r) :
    fraction (t ++ r') = { fraction (t ++ r) with rest := u ++ r' } := by
  by_cases hs : (t ++ r).Stops (· = '.')
  case pos =>
    have hu (c : Char) (hc : decide (c = '.') = true) : isUriChar c = true := of_decide_eq_true hc ▸ rfl
    exact congr_of_stops (caseless_eq rfl) hu (fun _ => fraction_of_stops) hs h hr
  case neg =>
    have ht := text_append_of_rest (fraction_append (t ++ r)) h
    have ⟨c, x, hx, hc⟩ := exists_cons_of_not_stops hs
    cases of_decide_eq_true hc
    cases t
    case nil =>
      rw [hx] at ht
      cases (List.append_eq_nil_iff.mp ht).left
    case cons c t =>
      cases hx
      exact congr_of_digitsAfter (t := '.' :: t) (w := t) ['.'] (fun _ => rfl) h hr

theorem exponent_of_stops (h : t.Stops isExponentMark) : exponent t = absent t := by
  cases t
  case nil => rfl
  case cons c t =>
    have hc : isExponentMark c = false := h c rfl
    unfold exponent
    simp [hc]

theorem exponent_text_ne_nil {e : Char} (he : isExponentMark e = true) (t : Text) :
    (exponent (e :: t)).text ≠ [] := by
  unfold exponent
  simp only [he, if_true]
  split
  case h_1 => exact List.cons_ne_nil _ _
  case h_2 => split <;> exact List.cons_ne_nil _ _

theorem exponent_congr (h : (exponent (t ++ r)).rest = u ++ r) (hc : (exponent (t ++ r)).complete = true)
    (hr : sight r' = sight r) :
    exponent (t ++ r') = { exponent (t ++ r) with rest := u ++ r' } := by
  by_cases hs : (t ++ r).Stops isExponentMark
  case pos =>
    have hu (c : Char) (hc : isExponentMark c = true) : isUriChar c = true :=
      isUriChar_of_continuesNumber (by simp [continuesNumber, hc])
    exact congr_of_stops caseless_isExponentMark hu (fun _ => exponent_of_stops) hs h hr
  case neg =>
    have ht := text_append_of_rest (exponent_append (t ++ r)) h
    obtain ⟨e, x, hx, hm⟩ := exists_cons_of_not_stops hs
    have hne : (exponent (t ++ r)).text ≠ [] := hx ▸ exponent_text_ne_nil hm x
    rcases t with _ | ⟨c, _ | ⟨s, t⟩⟩
    · exact absurd (List.append_eq_nil_iff.mp ht).left hne
    · -- A mark alone is no exponent.
      have he := isExponent_of_complete hc
      generalize (exponent ([c] ++ r)).text = text at ht he hne
      cases he
      case absent     => exact absurd rfl hne
      case digits hds => exact absurd (List.append_eq_nil_iff.mp (List.cons.inj ht).right).left hds.ne_nil
      case signed     => cases (List.cons.inj ht).right
    · have hc : c = e := (List.cons.inj hx).left
      subst hc
      by_cases hg : isSign s
      case pos => exact congr_of_digitsAfter (w := t) [c, s] (fun v => by simp [exponent, hm, hg]) h hr
      case neg => exact congr_of_digitsAfter (w := s :: t) [c] (fun v => by simp [exponent, hm, hg]) h hr

end Part

-- A number is cut off where it was before.
theorem number_congr (h : number (c :: t ++ r) = .ok ⟨.number, c :: t, r⟩) (hr : sight r' = sight r) :
    number (c :: t ++ r') = .ok ⟨.number, c :: t, r'⟩ := by
  simp only [number] at h
  split at h
  case isFalse => cases h
  case isTrue hc =>
    injection h with h
    injection h with _ ht hrest
    have hf := Part.fraction_append (Part.integer (c :: t ++ r)).rest
    have he := Part.exponent_append (Part.fraction (Part.integer (c :: t ++ r)).rest).rest
    generalize hi : Part.integer (c :: t ++ r) = i at hc ht hrest hf he
    generalize hfr : Part.fraction i.rest = f at hc ht hrest hf he
    generalize hex : Part.exponent f.rest = e at hc ht hrest he
    rw [hrest] at he
    rw [← he, ← List.append_assoc] at hf
    have hi' := Part.integer_congr (u := f.text ++ e.text) (by rw [hi, hf]) hr
    have hf' := Part.fraction_congr (t := f.text ++ e.text) (u := e.text) (by rw [hf, hfr, he]) hr
    have he' := Part.exponent_congr (t := e.text) (u := []) (by rw [he, hex, hrest]; rfl)
      (by rw [he, hex]; simp_all) hr
    rw [hi] at hi'
    rw [hf, hfr] at hf'
    rw [he, hex] at he'
    simp only [number, hi', hf', he', hc, if_true, ht, List.nil_append]

theorem word_congr (h : word c (w ++ r) = ⟨k, c :: w, r⟩) (hr : sight r' = sight r) :
    word c (w ++ r') = ⟨k, c :: w, r'⟩ := by
  injection h with hk hw hrest
  have hw : (w ++ r).takeWhile isWordChar = w := (List.cons.inj hw).right
  have hall : ∀ c ∈ w, isWordChar c = true := hw ▸ List.all_eq_true.mp List.all_takeWhile
  have hs : r.Stops isWordChar := hrest ▸ stops_dropWhile isWordChar (w ++ r)
  have hs := stops_of_sight_eq caseless_isWordChar (fun c hc => by simp [isUriChar, hc]) hr hs
  rw [hw] at hk
  simp only [word, takeWhile_append hall hs, dropWhile_append hall hs, hk]

theorem string_congr (h : string (w ++ r) = .ok ⟨k, '"' :: w, r⟩) :
    string (w ++ r') = .ok ⟨k, '"' :: w, r'⟩ := by
  have ⟨hk, hd⟩ := decode?_of_string h
  have ⟨c, u, he, hf⟩ := cuts_string hd r'
  cases he
  subst hk
  exact hf

-- A lexeme is cut off where it was before, if what stands behind looks the same.
theorem Cuts.congr (h : Cuts k w r) (hr : sight r' = sight r) : Cuts k w r' := by
  have ⟨c, u, he, hf⟩ := h
  have hne := (first_starts hf).nonempty
  cases w
  case nil => exact absurd rfl hne
  case cons d w =>
    rw [List.cons_append] at he
    cases he
    have hs : startsUri (c :: (w ++ r')) = startsUri (c :: (w ++ r)) :=
      startsUri_congr (sight_append_congr (u := c :: w) rfl hr)
    refine ⟨c, w ++ r', rfl, ?_⟩
    unfold first at hf ⊢
    split at hf
    case h_1 => cases hf; rfl
    case h_2 =>
      split at hf
      case isTrue hc =>
        subst hc
        exact string_congr hf
      case isFalse hc =>
        rw [if_neg hc]
        split at hf
        case isTrue hn =>
          rw [if_pos hn]
          cases (isNumber_of_number hf).left
          exact number_congr hf hr
        case isFalse hn =>
          rw [if_neg hn]
          split at hf
          case isFalse => cases hf
          case isTrue hl =>
            rw [if_pos hl, hs]
            split at hf
            case isTrue hu =>
              rw [if_pos hu]
              cases (isSchemaUri_of_schemaUri hu hf).left
              exact schemaUri_congr (w := c :: w) hf hr
            case isFalse hu =>
              rw [if_neg hu]
              exact congrArg Except.ok (word_congr (Except.ok.inj hf) hr)

end Lexeme
end AttributeFilter
