import AttributeFilter.Number.Shortest
import Mathlib.Tactic.Linarith
import Mathlib.Tactic.Ring

/-!
Rounding to the nearest magnitude gives the magnitude in whose interval a number of units lies.
-/

namespace AttributeFilter.Magnitude

variable {x : Magnitude} {num den num' den' s e n : Nat}

-- A quotient of units lies in the interval that is read as a magnitude. The ends belong to it if and
-- only if the significand is even.
structure Near (x : Magnitude) (num den : Nat) : Prop where
  lower : x.lowerEnd * den ≤ 4 * num
  upper : 4 * num ≤ x.upperEnd * den
  inner : x.significand % 2 = 1 → x.lowerEnd * den < 4 * num ∧ 4 * num < x.upperEnd * den

theorem mul_le_iff_of_cross {a : Nat} (hd : 0 < den) (hd' : 0 < den')
    (he : num * den' = num' * den) : a * den ≤ num ↔ a * den' ≤ num' :=
  calc a * den ≤ num
    _ ↔ a * den * den' ≤ num * den'  := (Nat.mul_le_mul_right_iff hd').symm
    _ ↔ a * den' * den ≤ num' * den  := by rw [he, Nat.mul_right_comm]
    _ ↔ a * den' ≤ num'              := Nat.mul_le_mul_right_iff hd

theorem le_mul_iff_of_cross {a : Nat} (hd : 0 < den) (hd' : 0 < den')
    (he : num * den' = num' * den) : num ≤ a * den ↔ num' ≤ a * den' :=
  calc num ≤ a * den
    _ ↔ num * den' ≤ a * den * den'  := (Nat.mul_le_mul_right_iff hd').symm
    _ ↔ num' * den ≤ a * den' * den  := by rw [he, Nat.mul_right_comm]
    _ ↔ num' ≤ a * den'              := Nat.mul_le_mul_right_iff hd

-- Equal quotients are near the same magnitudes.
theorem Near.congr (h : x.Near num den) (hd : 0 < den) (hd' : 0 < den')
    (he : num * den' = num' * den) : x.Near num' den' := by
  have he : 4 * num * den' = 4 * num' * den := by rw [Nat.mul_assoc, he, Nat.mul_assoc]
  have hl {a : Nat} := mul_le_iff_of_cross (a := a) hd hd' he
  have hu {a : Nat} := le_mul_iff_of_cross (a := a) hd hd' he
  constructor
  case lower => exact hl.mp h.lower
  case upper => exact hu.mp h.upper
  case inner =>
    intro ho
    have ⟨h₁, h₂⟩ := h.inner ho
    exact ⟨(lt_iff_lt_of_le_iff_le hu).mp h₁, (lt_iff_lt_of_le_iff_le hl).mp h₂⟩

theorem roundHalfEven_eq (hd : 0 < den) (hl : 2 * (den * s) ≤ 2 * num + den)
    (hu : 2 * num ≤ 2 * (den * s) + den)
    (ho : s % 2 = 1 → 2 * (den * s) < 2 * num + den ∧ 2 * num < 2 * (den * s) + den) :
    roundHalfEven num den = s := by
  have hn := Nat.div_add_mod num den
  have hr := Nat.mod_lt num hd
  -- The quotient is the number itself, or one less.
  have hs : s = num / den ∨ s = num / den + 1 := by
    have h₁ : den * (num / den) < den * (s + 1) := by rw [Nat.mul_add]; omega
    have h₂ : den * s < den * (num / den + 2) := by rw [Nat.mul_add]; omega
    have h₁ := Nat.lt_of_mul_lt_mul_left h₁
    have h₂ := Nat.lt_of_mul_lt_mul_left h₂
    omega
  unfold roundHalfEven
  generalize num / den = q at *
  generalize num % den = r at *
  cases hs
  case inl hs =>
    subst hs
    have h₁ : 2 * r < den ∨ 2 * r = den ∧ s % 2 = 0 := by omega
    exact if_pos (by simpa using h₁)
  case inr hs =>
    subst hs
    have h₁ : den * (q + 1) = den * q + den := Nat.mul_add_one den q
    have h₂ : ¬(2 * r < den ∨ 2 * r = den ∧ q % 2 = 0) := by omega
    exact if_neg (by simpa using h₂)

theorem shiftOf_eq (hl : e = 0 ∨ 2 ^ (52 + e) ≤ n) (hu : n < 2 ^ (53 + e)) : shiftOf n = e := by
  unfold shiftOf
  split
  case isTrue h =>
    cases hl
    case inl hl => exact hl.symm
    case inr hl => have := Nat.two_pow_pos (52 + e); omega
  case isFalse h =>
    have hu := (Nat.log2_lt h).mpr hu
    cases hl
    case inl hl => omega
    case inr hl => have := (Nat.le_log2 h).mpr hl; omega

theorem shiftOf_div_eq (hd : 0 < den) (hl : e = 0 ∨ 2 ^ (52 + e) * den ≤ num)
    (hu : num < 2 ^ (53 + e) * den) : shiftOf (num / den) = e := by
  refine shiftOf_eq ?_ ((Nat.div_lt_iff_lt_mul hd).mpr hu)
  cases hl
  case inl hl => exact .inl hl
  case inr hl => exact .inr ((Nat.le_div_iff_mul_le hd).mpr hl)

-- The significand and the shift, after the carry.
theorem nearest?_eq_some
    (h : (if roundHalfEven num (den * 2 ^ shiftOf (num / den)) = 2 ^ 53
        then (2 ^ 52, shiftOf (num / den) + 1)
        else (roundHalfEven num (den * 2 ^ shiftOf (num / den)), shiftOf (num / den))) =
      (x.significand, x.shift)) :
    nearest? num den = some x := by
  simp only [← Nat.pow_eq] at h
  simp only [nearest?, h]
  exact dif_pos ⟨x.significand_lt, x.shift_le, x.normal⟩

theorem nearest?_eq (hs : shiftOf (num / den) = x.shift)
    (hr : roundHalfEven num (den * 2 ^ x.shift) = x.significand) : nearest? num den = some x := by
  have hc : x.significand ≠ 2 ^ 53 := Nat.ne_of_lt x.significand_lt
  exact nearest?_eq_some (by rw [hs, hr, if_neg hc])

theorem nearest?_eq_of_carry (hx : x.significand = 2 ^ 52) (hs : shiftOf (num / den) + 1 = x.shift)
    (hr : roundHalfEven num (den * 2 ^ shiftOf (num / den)) = 2 ^ 53) :
    nearest? num den = some x :=
  nearest?_eq_some (by rw [hr, if_pos rfl, hs, hx])

-- Between its midpoints, a magnitude that is no power of two is the nearest one.
theorem nearest?_of_centred (hd : 0 < den)
    (hl : 2 * x.units * den ≤ 2 * num + 2 ^ x.shift * den)
    (hu : 2 * num ≤ 2 * x.units * den + 2 ^ x.shift * den)
    (ho : x.significand % 2 = 1 → 2 * x.units * den < 2 * num + 2 ^ x.shift * den ∧
      2 * num < 2 * x.units * den + 2 ^ x.shift * den)
    (hb : x.shift = 0 ∨ 2 ^ 52 * (2 ^ x.shift * den) ≤ num) : nearest? num den = some x := by
  have hp : 0 < 2 ^ x.shift * den := Nat.mul_pos (Nat.two_pow_pos _) hd
  have hx : 2 * x.units * den = 2 * (2 ^ x.shift * den * x.significand) := by
    simp only [units, Nat.pow_eq]
    ring
  have hn : 2 ^ x.shift * den * (x.significand + 1) ≤ 2 ^ x.shift * den * 2 ^ 53 :=
    Nat.mul_le_mul_left _ x.significand_lt
  rw [Nat.mul_add_one] at hn
  have hs : shiftOf (num / den) = x.shift := by
    refine shiftOf_div_eq hd ?_ ?_
    · rw [Nat.pow_add, Nat.mul_assoc]
      exact hb
    · rw [Nat.pow_add, Nat.mul_assoc]
      omega
  rw [hx] at hl hu ho
  refine nearest?_eq hs ?_
  rw [Nat.mul_comm den]
  exact roundHalfEven_eq hp hl hu ho

theorem units_mul (x : Magnitude) (den : Nat) :
    x.units * den = x.significand * (2 ^ x.shift * den) := by
  simp only [units, Nat.pow_eq, Nat.mul_assoc]

theorem lowerEnd_mul (x : Magnitude) (den : Nat) :
    x.lowerEnd * den =
      4 * (x.units * den) - (if x.narrowBelow then 1 else 2) * (2 ^ x.shift * den) := by
  simp only [lowerEnd, Nat.pow_eq, Nat.sub_mul, Nat.mul_assoc]

theorem upperEnd_mul (x : Magnitude) (den : Nat) :
    x.upperEnd * den = 4 * (x.units * den) + 2 * (2 ^ x.shift * den) := by
  simp only [upperEnd, Nat.pow_eq, Nat.add_mul, Nat.mul_assoc]

theorem narrowBelow_iff : x.narrowBelow = true ↔ x.significand = 2 ^ 52 ∧ x.shift ≠ 0 := by
  simp [narrowBelow]

theorem nearest?_of_wide (hd : 0 < den) (hw : x.narrowBelow = false) (h : x.Near num den) :
    nearest? num den = some x := by
  have hl := h.lower
  have hu := h.upper
  have ho := h.inner
  have hp : 0 < 2 ^ x.shift * den := Nat.mul_pos (Nat.two_pow_pos _) hd
  rw [lowerEnd_mul] at hl ho
  rw [upperEnd_mul] at hu ho
  simp only [hw, Bool.false_eq_true, if_false] at hl ho
  have hb : x.shift = 0 ∨ (2 ^ 52 + 1) * (2 ^ x.shift * den) ≤ x.units * den := by
    by_cases hz : x.shift = 0
    case pos => exact .inl hz
    case neg =>
      have hs : x.significand ≠ 2 ^ 52 := fun hs => by simp [narrowBelow_iff.mpr ⟨hs, hz⟩] at hw
      have hn := x.normal.resolve_left hz
      simp only [Nat.pow_eq] at hn
      rw [units_mul]
      exact .inr (Nat.mul_le_mul_right _ (Nat.lt_of_le_of_ne hn hs.symm))
  have hz : x.significand = 0 ∨ 2 ^ x.shift * den ≤ x.units * den := by
    rw [units_mul]
    exact (Nat.eq_zero_or_pos _).imp_right (Nat.le_mul_of_pos_left _)
  refine nearest?_of_centred hd ?_ ?_ ?_ ?_
  all_goals try rw [Nat.mul_assoc 2 x.units]
  all_goals omega

theorem nearest?_of_narrow (hd : 0 < den) (hw : x.narrowBelow = true) (h : x.Near num den) :
    nearest? num den = some x := by
  have hl := h.lower
  have hu := h.upper
  have ⟨hs, hz⟩ := narrowBelow_iff.mp hw
  rw [lowerEnd_mul] at hl
  rw [upperEnd_mul] at hu
  simp only [hw, if_true] at hl
  have hx := x.units_mul den
  rw [hs] at hx
  by_cases hb : 2 ^ 52 * (2 ^ x.shift * den) ≤ num
  case pos =>
    refine nearest?_of_centred hd ?_ ?_ ?_ (.inr hb)
    all_goals try rw [Nat.mul_assoc 2 x.units]
    all_goals omega
  -- Below the power of two the values lie twice as close, and rounding carries.
  case neg =>
    have hc : 2 ^ x.shift * den = 2 * (2 ^ (x.shift - 1) * den) := by
      rw [← Nat.mul_assoc, ← Nat.pow_add_one', Nat.sub_add_cancel (Nat.pos_of_ne_zero hz)]
    have hp : 0 < 2 ^ (x.shift - 1) * den := Nat.mul_pos (Nat.two_pow_pos _) hd
    have he : shiftOf (num / den) = x.shift - 1 := by
      refine shiftOf_div_eq hd (.inr ?_) ?_
      all_goals
        rw [Nat.pow_add, Nat.mul_assoc]
        omega
    refine nearest?_eq_of_carry hs (by omega) ?_
    rw [he, Nat.mul_comm den]
    exact roundHalfEven_eq hp (by omega) (by omega) (by omega)

theorem nearest?_of_near (hd : 0 < den) (h : x.Near num den) : nearest? num den = some x := by
  cases hw : x.narrowBelow
  case false => exact nearest?_of_wide hd hw h
  case true  => exact nearest?_of_narrow hd hw h

end AttributeFilter.Magnitude
