import AttributeFilter.Proofs.Number.Nearest

/-!
The shortest decimal number of a magnitude is read as the magnitude.
-/

namespace AttributeFilter.Magnitude

variable {x : Magnitude} {c : Nat} {k : Int}

-- The number `c * 10 ^ k` lies in the interval that is read as a magnitude.
def Reads (x : Magnitude) (c : Nat) (k : Int) : Prop :=
  x.Near (c * scale * 10 ^ k.toNat) (10 ^ (-k).toNat)

theorem reads_of_readsBack (h : x.readsBack c k = true) : x.Reads c k := by
  have hc : 4 * scale * c * 10 ^ k.toNat = 4 * (c * scale * 10 ^ k.toNat) := by ring
  simp only [readsBack, Nat.pow_eq, hc] at h
  split at h
  case isTrue he =>
    simp only [Bool.and_eq_true, decide_eq_true_eq] at h
    exact ⟨h.left, h.right, by omega⟩
  case isFalse he =>
    simp only [Bool.and_eq_true, decide_eq_true_eq] at h
    exact ⟨Nat.le_of_lt h.left, Nat.le_of_lt h.right, fun _ => h⟩

theorem ten_pow_pos {n : Nat} : 0 < 10 ^ n :=
  Nat.pow_pos (by decide)

-- Zeros may move between the significand and the exponent.
theorem reads_mul_pow_iff {j : Nat} : x.Reads (c * 10 ^ j) k ↔ x.Reads c (k + j) := by
  have hp : 10 ^ j * 10 ^ k.toNat * 10 ^ (-(k + j)).toNat = 10 ^ (k + j).toNat * 10 ^ (-k).toNat := by
    simp only [← Nat.pow_add]
    congr 1
    omega
  have he : c * 10 ^ j * scale * 10 ^ k.toNat * 10 ^ (-(k + j)).toNat =
      c * scale * 10 ^ (k + j).toNat * 10 ^ (-k).toNat :=
    calc c * 10 ^ j * scale * 10 ^ k.toNat * 10 ^ (-(k + j)).toNat
      _ = c * scale * (10 ^ j * 10 ^ k.toNat * 10 ^ (-(k + j)).toNat) := by ring
      _ = c * scale * (10 ^ (k + j).toNat * 10 ^ (-k).toNat)          := by rw [hp]
      _ = c * scale * 10 ^ (k + j).toNat * 10 ^ (-k).toNat            := by ring
  exact ⟨fun h => h.congr ten_pow_pos ten_pow_pos he,
    fun h => h.congr ten_pow_pos ten_pow_pos he.symm⟩

theorem near_units (x : Magnitude) : x.Near x.units 1 := by
  have hp : 0 < 2 ^ x.shift * 1 := Nat.mul_pos (Nat.two_pow_pos _) Nat.one_pos
  have hu := x.units_mul 1
  constructor
  case lower => rw [lowerEnd_mul]; omega
  case upper => rw [upperEnd_mul]; omega
  case inner =>
    intro ho
    have hs : 2 ^ x.shift * 1 ≤ x.significand * (2 ^ x.shift * 1) :=
      Nat.le_mul_of_pos_left _ (by omega)
    rw [lowerEnd_mul, upperEnd_mul]
    split <;> omega

-- A magnitude has an end as a decimal number, since its scale divides a power of ten.
theorem reads_units (x : Magnitude) {n cofactor : Nat} (hn : 10 ^ n = cofactor * scale) :
    x.Reads (x.units * cofactor) (-n) := by
  apply x.near_units.congr Nat.one_pos ten_pow_pos
  have h₁ : (-(-(n : Int))).toNat = n := by omega
  have h₂ : (-(n : Int)).toNat = 0 := by omega
  rw [h₁, h₂, hn]
  ring

theorem Reads.pow_le (h : x.Reads c k) (hx : x.isZero = false) :
    10 ^ (-k).toNat ≤ 2 * scale * (c * 10 ^ k.toNat) := by
  have hl : 2 ≤ x.lowerEnd := by
    have hp := Nat.two_pow_pos x.shift
    have hs : 2 ^ x.shift * 1 ≤ x.significand * (2 ^ x.shift * 1) :=
      Nat.le_mul_of_pos_left _ (Nat.pos_of_ne_zero (by simpa [isZero] using hx))
    have hu := x.units_mul 1
    have hl := x.lowerEnd_mul 1
    split at hl <;> omega
  have h₁ := Nat.mul_le_mul_right (10 ^ (-k).toNat) hl
  have h₂ := h.lower
  have h₃ : 2 * scale * (c * 10 ^ k.toNat) = 2 * (c * scale * 10 ^ k.toNat) := by ring
  omega

variable {e m : Nat}

theorem upperEnd_lt (he : x.shift ≤ e) (hm : 2 ^ 53 * 2 ^ e ≤ scale * 10 ^ m) :
    x.upperEnd < 4 * scale * 10 ^ m := by
  have hp := Nat.pow_le_pow_right (n := 2) (by decide) he
  have hs : x.significand + 1 ≤ 2 ^ 53 := x.significand_lt
  have hm := Nat.le_trans (Nat.mul_le_mul hs hp) hm
  have hu := x.units_mul 1
  have he := x.upperEnd_mul 1
  have := Nat.two_pow_pos x.shift
  simp only [Nat.mul_one] at hu he
  rw [Nat.add_one_mul] at hm
  rw [Nat.mul_assoc]
  omega

theorem Reads.lt_pow (h : x.Reads c k) (he : x.shift ≤ e) (hm : 2 ^ 53 * 2 ^ e ≤ scale * 10 ^ m) :
    c * 10 ^ k.toNat < 10 ^ m * 10 ^ (-k).toNat := by
  have hu := Nat.mul_lt_mul_of_pos_right (upperEnd_lt he hm) (ten_pow_pos (n := (-k).toNat))
  apply Nat.lt_of_mul_lt_mul_left (a := 4 * scale)
  calc 4 * scale * (c * 10 ^ k.toNat)
    _ = 4 * (c * scale * 10 ^ k.toNat)           := by ring
    _ ≤ x.upperEnd * 10 ^ (-k).toNat             := h.upper
    _ < 4 * scale * 10 ^ m * 10 ^ (-k).toNat     := hu
    _ = 4 * scale * (10 ^ m * 10 ^ (-k).toNat)   := Nat.mul_assoc ..

theorem Reads.ne_zero (h : x.Reads c k) (hx : x.isZero = false) : c ≠ 0 := by
  rintro rfl
  have := h.pow_le hx
  have := ten_pow_pos (n := (-k).toNat)
  omega

-- What is read as a magnitude other than zero is neither too long nor too short.
theorem Reads.leading_le (h : x.Reads c k) (hx : x.isZero = false) (he : x.shift ≤ e)
    (hm : 2 ^ 53 * 2 ^ e ≤ scale * 10 ^ m) : (Nat.toDigits 10 c).length + k ≤ m := by
  have hc : 10 ^ ((Nat.toDigits 10 c).length - 1) ≤ c := by
    by_cases hl : 0 < (Nat.toDigits 10 c).length - 1
    case pos =>
      have hi := Nat.length_toDigits_le_iff (b := 10) (n := c) (by decide) hl
      exact Nat.not_lt.mp fun hn => by have := hi.mpr hn; omega
    case neg =>
      rw [Nat.eq_zero_of_not_pos hl]
      exact Nat.pos_of_ne_zero (h.ne_zero hx)
  have hm := Nat.lt_of_le_of_lt (Nat.mul_le_mul_right (10 ^ k.toNat) hc) (h.lt_pow he hm)
  rw [← Nat.pow_add, ← Nat.pow_add, Nat.pow_lt_pow_iff_right (by decide)] at hm
  omega

theorem Reads.le_leading (h : x.Reads c k) (hx : x.isZero = false) (hm : 2 * scale ≤ 10 ^ m) :
    -m ≤ (Nat.toDigits 10 c).length + k := by
  have hc : c < 10 ^ (Nat.toDigits 10 c).length :=
    (Nat.length_toDigits_le_iff (by decide) Nat.length_toDigits_pos).mp (Nat.le_refl _)
  have hm := Nat.mul_le_mul hm (Nat.mul_le_mul_right (10 ^ k.toNat) (Nat.le_of_lt hc))
  have hm := Nat.le_trans (h.pow_le hx) hm
  rw [← Nat.pow_add, ← Nat.pow_add, Nat.pow_le_pow_iff_right (by decide)] at hm
  omega

theorem ofDecimal?_of_reads (h : x.Reads c k) (hx : x.isZero = false) : ofDecimal? c k = some x := by
  have hl := h.le_leading hx (m := 330) (by decide +kernel)
  have hu := h.leading_le hx x.shift_le (m := 310) (by decide +kernel)
  have h₁ : ¬(c = 0 ∨ (Nat.toDigits 10 c).length + k < decimalRange.1) := by
    simp only [decimalRange, not_or]
    exact ⟨h.ne_zero hx, by omega⟩
  have h₂ : ¬decimalRange.2 < (Nat.toDigits 10 c).length + k := by
    simp only [decimalRange]
    omega
  rw [ofDecimal?, if_neg h₁, if_neg h₂]
  exact nearest?_of_near ten_pow_pos h

theorem reads_of_onGrid? {tie : Tie} {j : Int} (h : x.onGrid? tie j = some (c, k)) : x.Reads c k := by
  simp only [onGrid?] at h
  split at h
  case h_1 h₁ h₂ =>
    cases h
    split
    · exact reads_of_readsBack h₂
    · exact reads_of_readsBack h₁
  case h_2 h₁ _ => cases h; exact reads_of_readsBack h₁
  case h_3 h₁ => cases h; exact reads_of_readsBack h₁
  case h_4 => cases h

theorem reads_strip {s : Bool} (h : x.Reads c k) :
    x.Reads (Decimal.strip s c k).significand (Decimal.strip s c k).exponent := by
  fun_induction Decimal.strip s c k
  case case1 c k hc ih =>
    refine ih (reads_mul_pow_iff (j := 1).mp ?_)
    rwa [Nat.pow_one, Nat.div_mul_cancel (Nat.dvd_of_mod_eq_zero hc.right)]
  case case2 => exact h

theorem reads_shortest {tie : Tie} (hx : x.isZero = false) :
    x.Reads (x.shortest tie).significand (x.shortest tie).exponent := by
  simp only [shortest, hx, Bool.false_eq_true, if_false]
  split
  case h_1 hf =>
    have ⟨_, _, hg⟩ := List.exists_of_findSome?_eq_some hf
    exact reads_strip (reads_of_onGrid? hg)
  case h_2 => exact reads_strip (x.reads_units (n := 1074) (by decide +kernel))

end AttributeFilter.Magnitude
