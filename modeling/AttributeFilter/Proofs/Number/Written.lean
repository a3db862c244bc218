import AttributeFilter.Proofs.Number.Shortest
import AttributeFilter.Proofs.Token.Cuts
import AttributeFilter.Value

/-!
The text of a finite number is a number lexeme, and is read as the same number, whatever the layout.
-/

namespace AttributeFilter

open Text Lexeme

-- Digits behind a point, with the point; nothing if there are none.
def Text.pointed (broken : Text) : Text :=
  if broken.isEmpty then [] else '.' :: broken

-- Digits around a point, and an exponent behind them, write a number `c * 10 ^ k`.
inductive Decimal.Written : Text → Nat → Int → Prop
  | mk : IsDigits whole → (∀ c ∈ broken, isDigit c = true) → IsExponent behind →
    exponent? behind = some e →
    Written (whole ++ (pointed broken ++ behind)) (Nat.ofDigitChars 10 (whole ++ broken) 0) (e - broken.length)

variable {t u whole broken behind digits : Text} {c : Char} {x : Magnitude}

theorem Text.isDigit_eq (c : Char) : isDigit c = c.isDigit := by
  have h₁ : ('0' ≤ c) = (c.val ≥ 48) := rfl
  have h₂ : (c ≤ '9') = (c.val ≤ 57) := rfl
  simp [isDigit, Char.isDigit, h₁, h₂]

theorem Lexeme.isDigits_toDigits (n : Nat) : IsDigits (Nat.toDigits 10 n) where
  ne_nil := Nat.toDigits_ne_nil
  digits := fun c hc => isDigit_eq c ▸ Nat.isDigit_of_mem_toDigits (by decide) (by decide) hc

theorem Text.digitValue?_of_isDigit (h : isDigit c = true) :
    digitValue? 10 c = some (c.toNat - '0'.toNat) := by
  have hc := toNat_of_isDigit h
  have h₀ : '0'.toNat = 48 := rfl
  have hl : c.toNat - '0'.toNat < 10 := by omega
  simp only [digitValue?, h, if_true, Option.filter_some, hl, decide_true]

theorem Text.numeral?_of_isDigits (h : IsDigits t) :
    numeral? 10 t = some (Nat.ofDigitChars 10 t 0) := by
  have hm : t.mapM (digitValue? 10) = some (t.map fun c => c.toNat - '0'.toNat) := by
    have hd := h.digits
    clear h
    induction t
    case nil => rfl
    case cons ih =>
      have ⟨hc, hr⟩ := List.forall_mem_cons.mp hd
      simp [digitValue?_of_isDigit hc, ih hr]
  have he : t.isEmpty = false := by simpa using h.ne_nil
  simp only [numeral?, he, hm, Option.map_some, ofDigits, List.foldl_map]
  rfl

theorem Lexeme.isFraction_pointed (h : ∀ c ∈ broken, isDigit c = true) :
    IsFraction (pointed broken) := by
  unfold pointed
  split
  case isTrue     => exact .absent
  case isFalse hn => exact .digits ⟨by simpa using hn, h⟩

theorem Lexeme.IsFraction.exists_pointed (h : IsFraction t) :
    ∃ broken, t = pointed broken ∧ ∀ c ∈ broken, isDigit c = true := by
  cases h
  case absent          => exact ⟨[], rfl, nofun⟩
  case digits broken h => exact ⟨broken, by simp [pointed, h.ne_nil], h.digits⟩

namespace Decimal

theorem signed_of_isDigits (h : IsDigits t) : signed (t ++ u) = (false, t ++ u) := by
  cases t
  case nil => exact absurd rfl h.ne_nil
  case cons c r =>
    have hc := h.digits c List.mem_cons_self
    unfold signed
    split
    case h_1 he => cases he; exact absurd hc (by decide)
    case h_2 he => cases he; exact absurd hc (by decide)
    case h_3    => rfl

theorem fraction_pointed (hb : ∀ c ∈ broken, isDigit c = true) (hs : behind.Stops isDigit)
    (hp : '.' ∉ behind.head?) : fraction (pointed broken ++ behind) = (broken, behind) := by
  unfold pointed
  split
  case isTrue hn =>
    rw [List.isEmpty_iff.mp hn, List.nil_append]
    unfold fraction
    split
    case h_1 => exact absurd rfl hp
    case h_2 => rfl
  case isFalse => simp only [List.cons_append, fraction, takeWhile_append hb hs, dropWhile_append hb hs]

namespace Written

variable {c : Nat} {k : Int}

theorem of_eq {c' : Nat} {k' : Int} (h : Written t c k) (hc : c = c') (hk : k = k') : Written t c' k' :=
  hc ▸ hk ▸ h

theorem isNumber (h : Written t c k) : IsNumber t ∧ IsNumber ('-' :: t) := by
  cases h with | mk hw hb hx _ =>
  rw [← List.append_assoc]
  exact ⟨.unsigned hw (isFraction_pointed hb) hx, .negative hw (isFraction_pointed hb) hx⟩

theorem ofText?_of_signed {negative : Bool} (h : Written t c k) (hs : signed u = (negative, t)) :
    ofText? u = some ⟨negative, c, k⟩ := by
  cases h with | mk hw hb hx he =>
  have ⟨hd, hp⟩ := Part.stops_exponent (r := []) hx nofun
  rw [List.append_nil] at hd hp
  have hf := Part.stops_fraction (isFraction_pointed hb) hd
  have h₁ := takeWhile_append hw.digits hf
  have h₂ := dropWhile_append hw.digits hf
  have hn : IsDigits (_ ++ _) :=
    ⟨List.append_ne_nil_of_left_ne_nil hw.ne_nil _, List.forall_mem_append.mpr ⟨hw.digits, hb⟩⟩
  simp only [ofText?, hs, h₁, h₂, fraction_pointed hb hd hp, numeral?_of_isDigits hn]
  simp [he]

theorem signed_eq (h : Written t c k) : signed t = (false, t) := by
  cases h with | mk hw => exact signed_of_isDigits hw

end Written

-- No digit of an exponent is dropped, if it is not far too large.
theorem exponentOfDigits_eq (h : Nat.ofDigitChars 10 t 0 < exponentCap) :
    exponentOfDigits t = Nat.ofDigitChars 10 t 0 := by
  have hle (n : Nat) (t : Text) : n ≤ Nat.ofDigitChars 10 t n := by
    induction t generalizing n
    case nil => exact Nat.le_refl n
    case cons c t ih =>
      rw [Nat.ofDigitChars_cons]
      exact Nat.le_trans (by omega) (ih _)
  have hfold (n : Nat) (t : Text) (h : Nat.ofDigitChars 10 t n < exponentCap) :
      t.foldl (fun n c => if n < exponentCap then 10 * n + (c.toNat - '0'.toNat) else n) n =
        Nat.ofDigitChars 10 t n := by
    induction t generalizing n
    case nil => rfl
    case cons c t ih =>
      rw [List.foldl_cons, if_pos (Nat.lt_of_le_of_lt (hle n _) h), Nat.ofDigitChars_cons]
      exact ih _ h
  exact hfold 0 t h

theorem exponent?_signed {leading : Int} (h : leading.natAbs < exponentCap) :
    exponent? ('e' :: (if leading < 0 then '-' else '+') :: Text.ofNat leading.natAbs) = some leading := by
  have hd := isDigits_toDigits leading.natAbs
  have ha : (Nat.toDigits 10 leading.natAbs).all isDigit = true := List.all_eq_true.mpr hd.digits
  have hn : exponentOfDigits (Nat.toDigits 10 leading.natAbs) = leading.natAbs := by
    rw [exponentOfDigits_eq, Nat.ofDigitChars_ten_toDigits]
    rwa [Nat.ofDigitChars_ten_toDigits]
  split
  case isTrue hl =>
    simp [exponent?, signed, Text.ofNat, hd.ne_nil, ha, hn, -Nat.cast_natAbs]
    omega
  case isFalse hl =>
    simp [exponent?, signed, Text.ofNat, hd.ne_nil, ha, hn, -Nat.cast_natAbs]
    omega

-- Every exponent of a lexeme is read, whatever its size.
theorem exists_exponent? (h : IsExponent t) : ∃ e, exponent? t = some e := by
  cases h
  case absent => exact ⟨0, rfl⟩
  case digits mark digits hm hd =>
    have hs : signed digits = (false, digits) := by simpa using signed_of_isDigits (u := []) hd
    have ha : digits.all isDigit = true := List.all_eq_true.mpr hd.digits
    have hm : mark = 'e' ∨ mark = 'E' := by simpa [Part.isExponentMark] using hm
    exact ⟨_, by simp [exponent?, hs, hm, hd.ne_nil, ha]; rfl⟩
  case signed mark sign digits hm hs hd =>
    have ha : digits.all isDigit = true := List.all_eq_true.mpr hd.digits
    have hm : mark = 'e' ∨ mark = 'E' := by simpa [Part.isExponentMark] using hm
    have hs : ∃ negative, signed (sign :: digits) = (negative, digits) := by
      have hs : sign = '+' ∨ sign = '-' := by simpa [Part.isSign] using hs
      rcases hs with rfl | rfl
      · exact ⟨_, rfl⟩
      · exact ⟨_, rfl⟩
    have ⟨_, hs⟩ := hs
    exact ⟨_, by simp [exponent?, hs, hm, hd.ne_nil, ha]; rfl⟩

-- A number lexeme writes a number, with a sign in front or none.
theorem exists_written (h : IsNumber t) :
    ∃ u negative c k, Written u c k ∧ signed t = (negative, u) := by
  cases h
  case unsigned hw hf hx =>
    have ⟨_, hf, hb⟩ := hf.exists_pointed
    have ⟨_, hx'⟩ := exists_exponent? hx
    have h := Written.mk hw hb hx hx'
    rw [← List.append_assoc, ← hf] at h
    exact ⟨_, false, _, _, h, h.signed_eq⟩
  case negative hw hf hx =>
    have ⟨_, hf, hb⟩ := hf.exists_pointed
    have ⟨_, hx'⟩ := exists_exponent? hx
    have h := Written.mk hw hb hx hx'
    rw [← List.append_assoc, ← hf] at h
    exact ⟨_, true, _, _, h, rfl⟩

end Decimal

-- Every number lexeme is read as a number, if not as a finite one.
theorem Binary64.exists_ofText? (h : IsNumber t) : ∃ x, Binary64.ofText? t = some x := by
  have ⟨_, _, _, _, hw, hs⟩ := Decimal.exists_written h
  exact ⟨_, by rw [ofText?, hw.ofText?_of_signed hs]⟩

namespace Layout

theorem isDigit_of_mem_zeros (n : Nat) : ∀ c ∈ zeros n, isDigit c = true := by
  intro c hc
  rw [List.eq_of_mem_replicate hc]
  rfl

-- Digits in place around a point write the digits times a power of ten. There may be zeros at the end.
theorem written_inPlace (m : Nat) (hd : IsDigits digits) (leading : Int) :
    ∃ j : Nat, Decimal.Written (inPlace (pointed (zeros m)) digits leading)
      (Nat.ofDigitChars 10 digits 0 * 10 ^ j) (leading + 1 - digits.length - j) := by
  have hp : 0 < digits.length := List.length_pos_iff.mpr hd.ne_nil
  have hw {whole broken : Text} (hw : IsDigits whole) (hb : ∀ c ∈ broken, isDigit c = true) :=
    Decimal.Written.mk hw hb .absent rfl
  simp only [List.append_nil] at hw
  unfold inPlace
  split
  case isTrue hl =>
    have hb : ∀ c ∈ zeros ((-leading).toNat - 1) ++ digits, isDigit c = true :=
      List.forall_mem_append.mpr ⟨isDigit_of_mem_zeros _, hd.digits⟩
    have h₀ : IsDigits ['0'] := ⟨List.cons_ne_nil _ _, List.forall_mem_singleton.mpr rfl⟩
    have ht : "0.".toList ++ zeros ((-leading).toNat - 1) ++ digits =
        ['0'] ++ pointed (zeros ((-leading).toNat - 1) ++ digits) := by simp [pointed, hd.ne_nil]
    refine ⟨0, ht ▸ (hw h₀ hb).of_eq ?_ ?_⟩
    · simp [Nat.ofDigitChars_cons, Nat.ofDigitChars_append, zeros]
    · simp [zeros]
      omega
  case isFalse hl =>
    simp only
    split
    case isTrue hn =>
      let n := leading.toNat + 1 - digits.length
      have hn : IsDigits (digits ++ zeros n) :=
        ⟨by simp [hd.ne_nil], List.forall_mem_append.mpr ⟨hd.digits, isDigit_of_mem_zeros n⟩⟩
      refine ⟨n + m, (hw hn (isDigit_of_mem_zeros m)).of_eq ?_ ?_⟩
      · simp [Nat.ofDigitChars_append, zeros, Nat.pow_add]
        ring
      · simp [n, zeros]
        omega
    case isFalse hn =>
      have ht : IsDigits (digits.take (leading.toNat + 1)) :=
        ⟨by simp [hd.ne_nil], fun c hc => hd.digits c (List.mem_of_mem_take hc)⟩
      have hb : ∀ c ∈ digits.drop (leading.toNat + 1), isDigit c = true :=
        fun c hc => hd.digits c (List.mem_of_mem_drop hc)
      have he : pointed (digits.drop (leading.toNat + 1)) = '.' :: digits.drop (leading.toNat + 1) :=
        if_neg (by simp; omega)
      refine ⟨0, he ▸ (hw ht hb).of_eq ?_ ?_⟩
      · simp
      · simp
        omega

-- Digits with a power of ten write the digits with all but the first one behind the point.
theorem written_withExponent (hd : IsDigits digits) {leading : Int}
    (hl : leading.natAbs < Decimal.exponentCap) :
    Decimal.Written (withExponent digits leading) (Nat.ofDigitChars 10 digits 0)
      (leading + 1 - digits.length) := by
  have hx : IsExponent ('e' :: (if leading < 0 then '-' else '+') :: Text.ofNat leading.natAbs) :=
    .signed rfl (by split <;> rfl) (isDigits_toDigits _)
  have he := Decimal.exponent?_signed hl
  cases digits
  case nil => exact absurd rfl hd.ne_nil
  case cons first rest =>
    have ⟨hf, hr⟩ := List.forall_mem_cons.mp hd.digits
    have hw : IsDigits [first] := ⟨List.cons_ne_nil _ _, List.forall_mem_singleton.mpr hf⟩
    have ht : withExponent (first :: rest) leading =
        [first] ++ (pointed rest ++ 'e' :: (if leading < 0 then '-' else '+') :: Text.ofNat leading.natAbs) := by
      cases rest <;> rfl
    exact ht ▸ (Decimal.Written.mk hw hr hx he).of_eq rfl (by simp)

end Layout

namespace Magnitude

theorem shortest_of_isZero {tie : Tie} (h : x.isZero = true) : x.shortest tie = ⟨false, 0, 0⟩ := by
  simp [shortest, h]

theorem eq_zero_of_isZero (h : x.isZero = true) : x = zero := by
  have hs : x.significand = 0 := by simpa [isZero] using h
  have hn : x.shift = 0 := x.normal.resolve_right (by rw [hs]; decide)
  obtain ⟨_, _, _, _, _⟩ := x
  cases hs
  cases hn
  rfl

theorem ofDecimal?_shortest {tie : Tie} {c : Nat} {k : Int} {j : Nat}
    (hc : c = (x.shortest tie).significand * 10 ^ j) (hk : (x.shortest tie).exponent = k + j) :
    ofDecimal? c k = some x := by
  cases hx : x.isZero
  case true =>
    rw [shortest_of_isZero hx] at hc
    have hc : c = 0 := by simpa using hc
    rw [eq_zero_of_isZero hx, ofDecimal?, if_pos (.inl hc)]
  case false =>
    have hr : x.Reads (x.shortest tie).significand (x.shortest tie).exponent := reads_shortest hx
    rw [hk] at hr
    exact ofDecimal?_of_reads (hc ▸ reads_mul_pow_iff.mpr hr) hx

end Magnitude

namespace Layout

variable {l : Layout}

-- The power of ten of the leading digit is small enough to be read.
theorem natAbs_leading_lt (tie : Tie) (x : Magnitude) :
    ((Nat.toDigits 10 (x.shortest tie).significand).length - 1 + (x.shortest tie).exponent : Int).natAbs <
      Decimal.exponentCap := by
  cases hx : x.isZero
  case true  => rw [Magnitude.shortest_of_isZero hx]; decide
  case false =>
    have hr : x.Reads (x.shortest tie).significand (x.shortest tie).exponent := Magnitude.reads_shortest hx
    have hl := hr.le_leading hx (m := 330) (by decide +kernel)
    have hu := hr.leading_le hx x.shift_le (m := 310) (by decide +kernel)
    simp only [Decimal.exponentCap]
    omega

theorem written_magnitude {m : Nat} (hl : l.wholeEnd = pointed (zeros m)) (x : Magnitude) :
    ∃ j : Nat, Decimal.Written (l.magnitude x) ((x.shortest l.tie).significand * 10 ^ j)
      ((x.shortest l.tie).exponent - j) := by
  let digits := Nat.toDigits 10 (x.shortest l.tie).significand
  let leading : Int := digits.length - 1 + (x.shortest l.tie).exponent
  have hd : IsDigits digits := isDigits_toDigits _
  have hv : Nat.ofDigitChars 10 digits 0 = (x.shortest l.tie).significand := Nat.ofDigitChars_ten_toDigits
  have hm : l.magnitude x = if l.positional leading then inPlace l.wholeEnd digits leading
      else withExponent digits leading := rfl
  rw [hm]
  split
  case isTrue =>
    have ⟨j, hw⟩ := written_inPlace m hd leading
    exact ⟨j, hl ▸ hw.of_eq (by rw [hv]) (by omega)⟩
  case isFalse =>
    have hn : leading.natAbs < Decimal.exponentCap := natAbs_leading_lt l.tie x
    have hw := written_withExponent hd hn
    exact ⟨0, hw.of_eq (by rw [hv, Nat.pow_zero, Nat.mul_one]) (by omega)⟩

-- A finite number is written as a number lexeme that is read as the number.
theorem finite_spec {m : Nat} (hl : l.wholeEnd = pointed (zeros m)) (negative : Bool) (x : Magnitude) :
    IsNumber (l.finite negative x) ∧
      Binary64.ofText? (l.finite negative x) = some (.finite negative x) := by
  have ⟨j, hw⟩ := written_magnitude hl x
  have hx : Magnitude.ofDecimal? ((x.shortest l.tie).significand * 10 ^ j)
      ((x.shortest l.tie).exponent - j) = some x :=
    Magnitude.ofDecimal?_shortest rfl (Int.sub_add_cancel _ _).symm
  cases negative
  case false =>
    have ht := hw.ofText?_of_signed hw.signed_eq
    exact ⟨hw.isNumber.left, by simp [finite, Binary64.ofText?, ht, Binary64.ofDecimal, hx]⟩
  case true =>
    have ht := hw.ofText?_of_signed (u := '-' :: l.magnitude x) rfl
    exact ⟨hw.isNumber.right, by simp [finite, Binary64.ofText?, ht, Binary64.ofDecimal, hx]⟩

end Layout

theorem Value.numberText_spec {x : Binary64} (h : x.isFinite = true) :
    IsNumber (numberText x) ∧ Binary64.ofText? (numberText x) = some x := by
  cases x
  case nan | infinite    => cases h
  case finite negative x => exact Layout.finite_spec (l := textLayout) (m := 0) rfl negative x

-- Numbers have the same form in JSON.
theorem Value.exists_numberJson {x : Binary64} (h : x.isFinite = true) :
    ∃ t, numberJson x = .number t ∧ IsNumber t ∧ Binary64.ofText? t = some x := by
  cases x
  case nan | infinite    => cases h
  case finite negative x => exact ⟨_, rfl, Layout.finite_spec (l := jsonLayout) (m := 1) rfl negative x⟩

end AttributeFilter
