import Scriptlet.Proofs.Decimal.Rounding

/-
  Decimals read as doubles, and numbers that read back.

  Key declarations include:
    * `Decimal.encode`
    * `Decimal.ofScientific_eq`
    * `Decimal.Digits.value`
    * `Decimal.shortest_within`
    * `Numeral.displayed_of_spells`

  Digits are read by dividing their natural number by a power
  of ten.  The fewest digits of a double lie within its
  interval, so they are read as it.
-/

namespace Scriptlet

namespace Decimal

open Float.Model
open Float.Model.UnpackedFloat

/- A power as a fraction of powers with natural exponents. -/
theorem zpow_eq_div {base : ℚ} (h : base ≠ 0) (e : Int) :
    base ^ e = base ^ e.toNat / base ^ (-e).toNat := by
  rw [eq_div_iff (pow_ne_zero _ h), ← zpow_natCast, ← zpow_natCast, ← zpow_add₀ h]
  congr 1
  omega

section

variable {mantissa m₁ m₂ : Nat} {exponent e₁ e₂ : Int}

theorem approximates_rest {rest den : Nat} (hRest : rest < den) (whole : Nat) :
    Approximates
      (ExtendedMantissa.ofMantissaAndAccuracy whole
        (accuracyOfFraction rest den)) (whole + (rest : ℚ) / den) := by
  have hDen : (0 : ℚ) < den := by exact_mod_cast Nat.zero_lt_of_lt hRest
  have hBelow : (rest : ℚ) / den < 1 := by
    rw [div_lt_one hDen]
    exact_mod_cast hRest
  unfold accuracyOfFraction
  split
  · rename_i hZero
    simp [Approximates, ExtendedMantissa.ofMantissaAndAccuracy, hZero]
  · rename_i hPositive
    have hPositive : (0 : ℚ) < rest / den := by
      apply div_pos _ hDen
      exact_mod_cast Nat.pos_of_ne_zero hPositive
    cases hOrder : compare (2 * rest) den with
    | lt =>
      have hLess : (2 * rest : ℚ) < den := by exact_mod_cast Nat.compare_eq_lt.mp hOrder
      have hHalf : (rest : ℚ) / den < 1 / 2 := by
        rw [div_lt_iff₀ hDen]
        linarith
      simp only [Approximates, ExtendedMantissa.ofMantissaAndAccuracy]
      exact ⟨by linarith, by linarith⟩
    | eq =>
      have hEqual : (2 * rest : ℚ) = den := by exact_mod_cast Nat.compare_eq_eq.mp hOrder
      have hHalf : (rest : ℚ) / den = 1 / 2 := by
        rw [div_eq_iff hDen.ne']
        linarith
      simp only [Approximates, ExtendedMantissa.ofMantissaAndAccuracy]
      linarith
    | gt =>
      have hMore : (den : ℚ) < 2 * rest := by exact_mod_cast Nat.compare_eq_gt.mp hOrder
      have hHalf : 1 / 2 < (rest : ℚ) / den := by
        rw [lt_div_iff₀ hDen]
        linarith
      simp only [Approximates, ExtendedMantissa.ofMantissaAndAccuracy]
      exact ⟨by linarith, by linarith⟩

/- A quotient with remainder approximates a fraction. -/
theorem approximates_fraction (num : Nat) {den : Nat} (h : 0 < den) :
    Approximates
      (ExtendedMantissa.ofMantissaAndAccuracy (num / den)
        (accuracyOfFraction (num % den) den)) ((num : ℚ) / den) := by
  have hDen : (den : ℚ) ≠ 0 := by exact_mod_cast h.ne'
  have hParts : (num : ℚ) / den = (num / den : Nat) + ((num % den : Nat) : ℚ) / den := by
    have hNum : (num : ℚ) = (num / den : Nat) * den + (num % den : Nat) := by
      exact_mod_cast (Nat.div_add_mod' num den).symm
    rw [eq_comm, add_div' _ _ _ hDen, ← hNum]
  rw [hParts]
  exact approximates_rest (Nat.mod_lt num h) _

/- The bits of a quotient suffice for a mantissa. -/
theorem le_log2_quotient {shift : Nat} (h₁ : 0 < m₁) (h₂ : 0 < m₂)
    (hShift : m₂.log2 + 53 ≤ m₁.log2 + shift) : 52 ≤ (m₁ <<< shift / m₂).log2 := by
  have hQuotient : 2 ^ 52 ≤ m₁ <<< shift / m₂ := by
    rw [Nat.le_div_iff_mul_le h₂, Nat.shiftLeft_eq]
    calc
      2 ^ 52 * m₂ ≤ 2 ^ 52 * 2 ^ (m₂.log2 + 1) := Nat.mul_le_mul_left _ Nat.lt_log2_self.le
      _ = 2 ^ (m₂.log2 + 53) := by
          rw [← pow_add]
          congr 1
          omega
      _ ≤ 2 ^ (m₁.log2 + shift) := Nat.pow_le_pow_right two_pos hShift
      _ = 2 ^ m₁.log2 * 2 ^ shift := pow_add ..
      _ ≤ m₁ * 2 ^ shift := Nat.mul_le_mul_right _ (Nat.log2_self_le h₁.ne')
  exact (Nat.le_log2 (by omega)).mpr hQuotient

/- A quotient within the interval of a double is the double. -/
theorem quotient_eq (hDouble : IsDouble mantissa exponent) (h₁ : 0 < m₁) (h₂ : 0 < m₂)
    (hWithin : Within mantissa exponent (m₁ * 2 ^ e₁ / (m₂ * 2 ^ e₂))) :
    UnpackedFloat.div Format.binary64 (.finite .positive m₁ e₁ h₁)
        (.finite .positive m₂ e₂ h₂) = .finite .positive mantissa exponent hDouble.positive := by
  simp only [UnpackedFloat.div, divCore]
  generalize hTarget : min (e₁ - e₂)
      (Format.binary64.targetExponent (totalExponent m₁ e₁ - totalExponent m₂ e₂)) = target
  have hBound : target ≤ e₁ - e₂ ∧
        (-1074 < target → target ≤ m₁.log2 + e₁ - (m₂.log2 + e₂) - 53) := by
    rw [← hTarget]
    simp only [Format.targetExponent, totalExponent, Format.mantissaBits, Format.minExponent]
    norm_num
    omega
  generalize hShift : (e₁ - e₂ - target).toNat = shift
  have hPower : ((m₁ <<< shift : Nat) : ℚ) / m₂ = m₁ * 2 ^ e₁ / (m₂ * 2 ^ e₂) / 2 ^ target := by
    have hDen : (m₂ : ℚ) ≠ 0 := by exact_mod_cast h₂.ne'
    have hExponents : e₁ = target + shift + e₂ := by omega
    rw [Nat.shiftLeft_eq, hExponents, zpow_add₀ two_ne_zero, zpow_add₀ two_ne_zero, zpow_natCast]
    push_cast
    field_simp
  apply hWithin.round_eq hDouble
  · rw [targetExponent_eq]
    by_cases hLeast : -1074 < target
    · have hBits := @le_log2_quotient m₁ m₂ shift h₁ h₂ (by omega)
      omega
    · omega
  · rw [← hPower]
    exact approximates_fraction _ h₂

end

/- The double of a natural number with few bits. -/
theorem isDouble_natural {n : Nat} (hPositive : 0 < n) (hSmall : n < 2 ^ 53) :
    IsDouble (n <<< (52 - n.log2)) (n.log2 - 52) ∧ 2 ^ 52 ≤ n <<< (52 - n.log2) := by
  have hLog : n.log2 < 53 := (Nat.log2_lt hPositive.ne').mpr hSmall
  have hLow : 2 ^ 52 ≤ n <<< (52 - n.log2) := by
    calc
      2 ^ 52 = 2 ^ n.log2 * 2 ^ (52 - n.log2) := by
          rw [← pow_add]
          congr 1
          omega
      _ ≤ n * 2 ^ (52 - n.log2) := Nat.mul_le_mul_right _ (Nat.log2_self_le hPositive.ne')
      _ = n <<< (52 - n.log2) := (Nat.shiftLeft_eq ..).symm
  have hHigh : n <<< (52 - n.log2) < 2 ^ 53 := by
    calc
      n <<< (52 - n.log2) = n * 2 ^ (52 - n.log2) := Nat.shiftLeft_eq ..
      _ < 2 ^ (n.log2 + 1) * 2 ^ (52 - n.log2) :=
          Nat.mul_lt_mul_of_pos_right Nat.lt_log2_self (Nat.two_pow_pos _)
      _ = 2 ^ 53 := by
          rw [← pow_add]
          congr 1
          omega
  exact ⟨⟨by omega, hHigh, by omega, by omega, .inl hLow⟩, hLow⟩

theorem natural_value {n : Nat} (h : n < 2 ^ 53) :
    ((n <<< (52 - n.log2) : Nat) : ℚ) * 2 ^ ((n.log2 : Int) - 52) = n := by
  have hLog : n.log2 < 53 := by
    by_cases hZero : n = 0
    · rw [hZero]
      decide
    · exact (Nat.log2_lt hZero).mpr h
  rw [Nat.shiftLeft_eq]
  push_cast
  rw [mul_assoc, ← zpow_natCast, ← zpow_add₀ two_ne_zero]
  have hZero : ((52 - n.log2 : Nat) : Int) + (n.log2 - 52) = 0 := by omega
  rw [hZero, zpow_zero, mul_one]

theorem ofNat_eq {n : Nat} (hPositive : 0 < n) (hSmall : n < 2 ^ 53) :
    UnpackedFloat.ofNat Format.binary64 n = .finite .positive (n <<< (52 - n.log2)) (n.log2 - 52)
        (isDouble_natural hPositive hSmall).1.positive := by
  have hDouble := (isDouble_natural hPositive hSmall).1
  have hLog : n.log2 < 53 := (Nat.log2_lt hPositive.ne').mpr hSmall
  have hOrder : compare (n : Int) 0 = .gt := by
    rw [Int.compare_eq_gt]
    omega
  have hAmount : (0 - Format.binary64.targetExponent (totalExponent n 0)).toNat = 52 - n.log2 := by
    rw [targetExponent_eq]
    omega
  have hExponent : (0 : Int) - (52 - n.log2 : Nat) = n.log2 - 52 := by omega
  simp only [UnpackedFloat.ofNat, UnpackedFloat.ofInt,
    UnpackedFloat.normalize, hOrder, UnpackedFloat.round,
    decreaseExponent, Int.toNat_natCast, hAmount, hExponent]
  apply hDouble.within.round_eq hDouble
  · rw [targetExponent_eq]
    have hBits := (Nat.le_log2 hDouble.positive.ne').mpr (isDouble_natural hPositive hSmall).2
    omega
  · rw [mul_div_cancel_right₀ _ (zpow_ne_zero _ two_ne_zero)]
    rfl

/- The value of an unpacked power of ten. -/
def isPower (k : Nat) : UnpackedFloat → Bool
  | .finite .positive m e _ => decide (m * 2 ^ e.toNat = 10 ^ k * 2 ^ (-e).toNat)
  | _ => false

theorem isPower_table :
    ∀ k (h : k < Float.exactlyRepresentablePowersOfTen.size),
      isPower k Float.exactlyRepresentablePowersOfTen[k].toModel.unpack = true := by
  decide +kernel

theorem unpack_power {k : Nat} (h : k < Float.exactlyRepresentablePowersOfTen.size) :
    ∃ m e hPositive, Float.exactlyRepresentablePowersOfTen[k].toModel.unpack =
        .finite .positive m e hPositive ∧ (m : ℚ) * 2 ^ e = 10 ^ k := by
  have hPower := isPower_table k h
  unfold isPower at hPower
  split at hPower
  · rename_i m e hPositive hUnpack
    refine ⟨m, e, hPositive, hUnpack, ?_⟩
    have hValue : (m : ℚ) * 2 ^ e.toNat = 10 ^ k * 2 ^ (-e).toNat := by
      exact_mod_cast of_decide_eq_true hPower
    rw [zpow_eq_div two_ne_zero, mul_div_assoc', hValue]
    exact mul_div_cancel_right₀ _ (by positivity)
  · cases hPower

section

variable {mantissa : Nat} {exponent : Int} {n k : Nat}

section

variable (hDouble : IsDouble mantissa exponent)

include hDouble

theorem positive_of_within (h : Within mantissa exponent (n / 10 ^ k)) : 0 < n := by
  apply Nat.pos_of_ne_zero
  rintro rfl
  have hEnd := le_lowerEnd hDouble.positive exponent
  have hLow := h.low
  have hOne : (1 : ℚ) ≤ mantissa := by exact_mod_cast hDouble.positive
  simp only [Nat.cast_zero, zero_div, mul_zero] at hLow
  linarith

/- The decimals of doubles are not cut off as too small. -/
theorem le_of_within (h : Within mantissa exponent (n / 10 ^ k)) : k ≤ 2 ^ 11 + n.log2 := by
  have hEnd := le_lowerEnd hDouble.positive exponent
  have hLow := h.low
  have hOne : (1 : ℚ) ≤ mantissa := by exact_mod_cast hDouble.positive
  have hHalf : 1 / 2 ≤ (n : ℚ) / 10 ^ k / 2 ^ exponent := by linarith
  rw [le_div_iff₀ (by positivity), le_div_iff₀ (by positivity)] at hHalf
  have hBits : (n : ℚ) < 2 ^ ((n.log2 : Int) + 1) := by
    have hBits : (n : ℚ) < 2 ^ (n.log2 + 1) := by exact_mod_cast Nat.lt_log2_self
    rw [← zpow_natCast] at hBits
    exact_mod_cast hBits
  have hTen : (2 : ℚ) ^ (2 * (k : Int)) ≤ 10 ^ k := by
    rw [zpow_mul, zpow_natCast]
    exact pow_le_pow_left₀ (by positivity) (by norm_num) k
  have hOrder : (2 : ℚ) ^ (2 * (k : Int) - 1075) < 2 ^ ((n.log2 : Int) + 1) := by
    have hLeast : (2 : ℚ) ^ (-1074 : Int) ≤ 2 ^ exponent :=
      zpow_le_zpow_right₀ one_le_two hDouble.least
    calc
      (2 : ℚ) ^ (2 * (k : Int) - 1075) = 1 / 2 * 2 ^ (-1074 : Int) * 2 ^ (2 * (k : Int)) := by
          rw [one_div, ← zpow_neg_one, ← zpow_add₀ two_ne_zero, ← zpow_add₀ two_ne_zero]
          congr 1
      _ ≤ 1 / 2 * 2 ^ exponent * 10 ^ k := by gcongr
      _ ≤ n := hHalf
      _ < 2 ^ ((n.log2 : Int) + 1) := hBits
  have hExponents := (zpow_lt_zpow_iff_right₀ one_lt_two).mp hOrder
  omega

/- A natural number is shifted far enough for a mantissa. -/
theorem product_eq (hPositive : 0 < n) (h : Within mantissa exponent n) :
    roundWithAccuracy Format.binary64 .positive (n <<< 53) (-53) .exact =
      .finite .positive mantissa exponent hDouble.positive := by
  have hBits : 53 ≤ (n <<< 53).log2 := by
    rw [Nat.le_log2 (by rw [Nat.shiftLeft_eq]; positivity), Nat.shiftLeft_eq]
    exact Nat.le_mul_of_pos_left _ hPositive
  apply h.round_eq hDouble
  · rw [targetExponent_eq]
    omega
  · rw [Nat.shiftLeft_eq]
    change (n : ℚ) / 2 ^ (-53 : Int) = ((n * 2 ^ 53 : Nat) : ℚ)
    rw [zpow_neg, div_inv_eq_mul]
    push_cast
    rfl

theorem scientific_eq (h : Within mantissa exponent (n / 10 ^ k)) :
    UnpackedFloat.ofScientific Format.binary64 n (-(k : Int)) =
      .finite .positive mantissa exponent hDouble.positive := by
  have hPositive := positive_of_within hDouble h
  have hLarge := le_of_within hDouble h
  have hTop : ¬ -(k : Int) > 2 ^ 11 := by omega
  have hBottom : ¬ -(k : Int) < -(2 ^ 11 + n.log2) := by omega
  unfold UnpackedFloat.ofScientific
  rw [dif_neg hPositive.ne', if_neg hTop, if_neg hBottom]
  split
  · have hZero : k = 0 := by omega
    subst hZero
    rw [pow_zero, div_one] at h
    have hProduct := product_eq hDouble hPositive h
    rw [← mul_one (n <<< 53)] at hProduct
    exact hProduct
  · have hPower : (- -(k : Int)).toNat = k := by omega
    apply quotient_eq hDouble
    simpa using h

/- Few digits are divided by an exact power of ten. -/
theorem small_quotient_eq (h : Within mantissa exponent (n / 10 ^ k)) (hSmall : n < 2 ^ 53)
    (hPlaces : k < Float.exactlyRepresentablePowersOfTen.size) :
    UnpackedFloat.div Format.binary64
        (Float.Model.pack (UnpackedFloat.ofNat Format.binary64 n)).unpack
        Float.exactlyRepresentablePowersOfTen[k].toModel.unpack =
      .finite .positive mantissa exponent hDouble.positive := by
  have hPositive := positive_of_within hDouble h
  rcases isDouble_natural hPositive hSmall with ⟨hNatural, hNormal⟩
  rcases unpack_power hPlaces with ⟨m, e, hPower, hUnpack, hValue⟩
  rw [ofNat_eq hPositive hSmall, unpack_pack hNatural hNormal, hUnpack]
  apply quotient_eq hDouble
  rw [hValue, natural_value hSmall]
  exact h

end

/- The decimals within the interval of a double read as it. -/
theorem ofScientific_eq {x : Float}
    (hFloat : Double.ofFloat x = .finite false mantissa exponent)
    (hPositive : 0 < mantissa) (h : Within mantissa exponent (n / 10 ^ k)) :
    Float.ofScientific n true k = x := by
  rcases eq_pack hFloat hPositive with ⟨hDouble, rfl⟩
  have hNatural := positive_of_within hDouble h
  unfold Float.ofScientific
  split
  · rename_i hFast
    have hWhole : n.toUInt64.toNat = n := Nat.mod_eq_of_lt (by omega)
    have hPlaces : k < Float.exactlyRepresentablePowersOfTen.size := Nat.lt_succ_of_le hFast.2
    rw [← small_quotient_eq hDouble h hFast.1 hPlaces]
    change Float.ofModel (.pack (UnpackedFloat.div _
      (Float.Model.pack (UnpackedFloat.ofNat _ n.toUInt64.toNat)).unpack _)) = _
    rw [hWhole]
  · change Float.ofModel (.pack (UnpackedFloat.ofScientific Format.binary64 n (Int.negOfNat k))) = _
    rw [Int.negOfNat_eq]
    rw [← scientific_eq hDouble h]
    rfl

theorem isPositive_round (m : Nat) (e : Int) (accuracy : Accuracy) :
    IsPositive (roundWithAccuracy Format.binary64 .positive m e accuracy) := by
  unfold roundWithAccuracy
  dsimp only
  split <;> rfl

theorem isPositive_div {u v : UnpackedFloat} (hLeft : IsPositive u) {m : Nat}
    {e : Int} {hPositive : 0 < m} (hRight : v = .finite .positive m e hPositive) :
    IsPositive (UnpackedFloat.div Format.binary64 u v) := by
  subst hRight
  cases u with
  | zero sign =>
    cases hLeft
    rfl
  | finite sign m e hPositive =>
    cases hLeft
    exact isPositive_round ..
  | infinity sign => cases hLeft
  | notANumber => cases hLeft

theorem isPositive_natural (hSmall : n < 2 ^ 53) :
    IsPositive (Float.Model.pack (UnpackedFloat.ofNat Format.binary64 n)).unpack := by
  rcases Nat.eq_zero_or_pos n with rfl | hPositive
  · rfl
  · rcases isDouble_natural hPositive hSmall with ⟨hNatural, hNormal⟩
    rw [ofNat_eq hPositive hSmall, unpack_pack hNatural hNormal]
    rfl

theorem isPositive_scientific (n k : Nat) :
    IsPositive (UnpackedFloat.ofScientific Format.binary64 n (-(k : Int))) := by
  have hTop : ¬ -(k : Int) > 2 ^ 11 := by omega
  unfold UnpackedFloat.ofScientific
  by_cases hZero : n = 0
  · rw [dif_pos hZero]
    rfl
  rw [dif_neg hZero, if_neg hTop]
  split
  · rfl
  split
  · exact isPositive_round ..
  · exact isPositive_div rfl rfl

/- Digits are read as a number without sign. -/
theorem ofScientific_unsigned (n k : Nat) :
    (Double.ofFloat (Float.ofScientific n true k)).IsUnsigned := by
  unfold Float.ofScientific
  split
  · rename_i hFast
    have hWhole : n.toUInt64.toNat = n := Nat.mod_eq_of_lt (by omega)
    have hPlaces : k < Float.exactlyRepresentablePowersOfTen.size := Nat.lt_succ_of_le hFast.2
    rcases unpack_power hPlaces with ⟨m, e, hPower, hUnpack, _⟩
    have hNatural := isPositive_natural hFast.1
    rw [← hWhole] at hNatural
    exact ofFloat_pack (isPositive_div hNatural hUnpack)
  · exact ofFloat_pack (Int.negOfNat_eq ▸ isPositive_scientific n k)

end

end Decimal

------------------------------------------------------------
-- Values of Digits
------------------------------------------------------------

namespace Decimal

namespace Ratio

def value (r : Ratio) : ℚ := r.num / r.den

theorem le_iff {a b : Ratio} (hLeft : 0 < a.den) (hRight : 0 < b.den) :
    a.le b = true ↔ a.value ≤ b.value := by
  have hLeft : (0 : ℚ) < a.den := by exact_mod_cast hLeft
  have hRight : (0 : ℚ) < b.den := by exact_mod_cast hRight
  rw [le, decide_eq_true_eq, value, value, div_le_div_iff₀ hLeft hRight]
  exact_mod_cast Iff.rfl

theorem lt_iff {a b : Ratio} (hLeft : 0 < a.den) (hRight : 0 < b.den) :
    a.lt b = true ↔ a.value < b.value := by
  have hLeft : (0 : ℚ) < a.den := by exact_mod_cast hLeft
  have hRight : (0 : ℚ) < b.den := by exact_mod_cast hRight
  rw [lt, decide_eq_true_eq, value, value, div_lt_div_iff₀ hLeft hRight]
  exact_mod_cast Iff.rfl

end Ratio

theorem den_scaled (n : Nat) (two ten : Int) : 0 < (scaled n two ten).den :=
  Nat.mul_pos (Nat.pow_pos two_pos) (Nat.pow_pos (by decide))

theorem value_scaled (n : Nat) (two ten : Int) :
    (scaled n two ten).value = n * 2 ^ two * 10 ^ ten := by
  rw [zpow_eq_div two_ne_zero, zpow_eq_div (by norm_num)]
  simp only [Ratio.value, scaled, Nat.pow_eq]
  push_cast
  field_simp

namespace Digits

/- The number that a decimal stands for. -/
def value (d : Digits) : ℚ := d.coefficient * 10 ^ d.scale

theorem value_ratio (d : Digits) : d.ratio.value = d.value := by
  rw [ratio, value_scaled, zpow_zero, mul_one, value]

theorem value_trim (coefficient : Nat) (scale : Int) :
    (trim coefficient scale).value = coefficient * 10 ^ scale := by
  fun_induction trim coefficient scale with
  | case1 coefficient scale hZeros ih =>
    rw [ih, zpow_add₀ (by norm_num), zpow_one]
    have hTen : coefficient = 10 * (coefficient / 10) := by omega
    have hTen : (coefficient : ℚ) = 10 * (coefficient / 10 : Nat) := by exact_mod_cast hTen
    rw [hTen]
    ring
  | case2 => rfl

end Digits

section

variable {mantissa : Nat} {exponent : Int}

theorem within_of_readsBack {d : Digits} (h : readsBack mantissa exponent d = true) :
    Within mantissa exponent d.value := by
  have hUnit : (0 : ℚ) < 2 ^ exponent / 4 := by positivity
  have hEnd : ∀ n : Nat, (scaled n (exponent - 2) 0).value = n * (2 ^ exponent / 4) := by
    intro n
    rw [value_scaled, zpow_zero, mul_one, zpow_sub₀ two_ne_zero]
    norm_num
  have hDigits : d.ratio.value = 4 * (d.value / 2 ^ exponent) * (2 ^ exponent / 4) := by
    rw [Digits.value_ratio]
    field_simp
  have hDen : 0 < d.ratio.den := den_scaled ..
  have hHigh : ((4 * mantissa + 2 : Nat) : ℚ) = 4 * mantissa + 2 := by
    push_cast
    rfl
  unfold readsBack at h
  dsimp only at h
  split at h
  · rename_i hEven
    rw [Bool.and_eq_true, Ratio.le_iff (den_scaled ..) hDen,
      Ratio.le_iff hDen (den_scaled ..), hEnd, hEnd, hDigits,
      mul_le_mul_iff_left₀ hUnit, mul_le_mul_iff_left₀ hUnit, hHigh] at h
    exact ⟨h.1, h.2, fun hOdd => by omega⟩
  · rw [Bool.and_eq_true, Ratio.lt_iff (den_scaled ..) hDen,
      Ratio.lt_iff hDen (den_scaled ..), hEnd, hEnd, hDigits,
      mul_lt_mul_iff_left₀ hUnit, mul_lt_mul_iff_left₀ hUnit, hHigh] at h
    exact ⟨h.1.le, h.2.le, fun _ => h⟩

/- The digits chosen on a grid are those of the double. -/
theorem within_of_onGrid {tie : Tie} {digits : Nat} {d : Digits}
    (h : onGrid tie mantissa exponent digits = some d) : Within mantissa exponent d.value := by
  apply within_of_readsBack
  unfold onGrid at h
  dsimp only at h
  split at h
  · rename_i hLower hUpper
    cases h
    split
    · exact hUpper
    · exact hLower
  · rename_i hLower _
    cases h
    exact hLower
  · rename_i _ hUpper
    cases h
    exact hUpper
  · cases h

theorem value_exact (mantissa : Nat) (exponent : Int) :
    (exact mantissa exponent).value = mantissa * 2 ^ exponent := by
  have hScale : min exponent 0 = -((-exponent).toNat : Int) := by omega
  rw [zpow_eq_div two_ne_zero]
  simp only [Digits.value, exact, Nat.pow_eq, hScale, zpow_neg, zpow_natCast]
  have hTen : (10 : ℚ) ^ (-exponent).toNat = 2 ^ (-exponent).toNat * 5 ^ (-exponent).toNat := by
    rw [← mul_pow]
    norm_num
  rw [hTen]
  push_cast
  field_simp

/- The shortest digits lie within the interval. -/
theorem shortest_within (hDouble : IsDouble mantissa exponent) (tie : Tie) :
    Within mantissa exponent (shortest tie mantissa exponent).value := by
  unfold shortest
  dsimp only
  split
  · rename_i d hFound
    rw [Digits.value_trim]
    rcases List.exists_of_findSome?_eq_some hFound with ⟨extra, _, hGrid⟩
    exact within_of_onGrid hGrid
  · rw [value_exact]
    exact hDouble.within

end

end Decimal

namespace Numeral

open Decimal

/- Digits with a point somewhere, of a value. -/
structure Denotes (whole fraction : List Char) (value : ℚ) : Prop where
  nonempty : whole ≠ []
  digits : ∀ d ∈ whole ++ fraction, d.isDigit = true
  value : (natural (whole ++ fraction) : ℚ) / 10 ^ fraction.length = value

theorem natural_eq (digits : List Char) : natural digits = Nat.ofDigitChars 10 digits 0 :=
  rfl

theorem isDigit_toDigits {n : Nat} : ∀ d ∈ Nat.toDigits 10 n, d.isDigit = true :=
  fun _ => Nat.isDigit_of_mem_toDigits (by decide) (by decide)

theorem isDigit_zeros {n : Nat} : ∀ d ∈ zeros n, d.isDigit = true := by
  intro d hMem
  rw [List.eq_of_mem_replicate hMem]
  rfl

theorem denotes_whole (n places : Nat) : Denotes (Nat.toDigits 10 n) (zeros places) n := by
  refine ⟨Nat.toDigits_ne_nil, ?_, ?_⟩
  · exact List.forall_mem_append.mpr ⟨isDigit_toDigits, isDigit_zeros⟩
  · rw [natural_eq, Nat.ofDigitChars_append, zeros, Nat.ofDigitChars_replicate_zero,
      Nat.ofDigitChars_ten_toDigits, List.length_replicate]
    push_cast
    field_simp

variable {d : Digits}

/- A decimal without fractional places. -/
theorem denotes_padded (h : 0 ≤ d.scale) :
    Denotes (d.chars ++ zeros d.scale.toNat) [] d.value := by
  refine ⟨?_, ?_, ?_⟩
  · simp [Digits.chars, Nat.toDigits_ne_nil]
  · rw [List.append_nil]
    exact List.forall_mem_append.mpr ⟨isDigit_toDigits, isDigit_zeros⟩
  · have hScale : (10 : ℚ) ^ d.scale = 10 ^ d.scale.toNat := by
      rw [← zpow_natCast, Int.toNat_of_nonneg h]
    rw [List.append_nil, natural_eq, Nat.ofDigitChars_append,
      zeros, Nat.ofDigitChars_replicate_zero, Digits.chars,
      Nat.ofDigitChars_ten_toDigits, Digits.value, hScale]
    push_cast
    simp [mul_comm]

/- Fractional places are as many as the scale says. -/
theorem denotes_places {whole fraction : List Char} {n : Nat}
    (hNonempty : whole ≠ []) (hDigits : whole ++ fraction = zeros n ++ d.chars)
    (hPlaces : d.scale = -(fraction.length : Int)) : Denotes whole fraction d.value := by
  refine ⟨hNonempty, ?_, ?_⟩
  · rw [hDigits]
    exact List.forall_mem_append.mpr ⟨isDigit_zeros, isDigit_toDigits⟩
  · rw [hDigits, natural_eq, Nat.ofDigitChars_append, zeros,
      Nat.ofDigitChars_replicate_zero, mul_zero, Digits.chars,
      Nat.ofDigitChars_ten_toDigits, Digits.value, hPlaces, zpow_neg, zpow_natCast, div_eq_mul_inv]

theorem decimalText_eq {whole fraction : List Char} (h : fraction ≠ []) :
    decimalText whole fraction = whole ++ '.' :: fraction := by
  cases fraction with
  | nil => exact absurd rfl h
  | cons d others => rfl

/- A decimal with fractional places. -/
theorem denotes_fractional (h : d.scale < 0) :
    ∃ whole fraction, d.fractional = decimalText whole fraction ∧
        Denotes whole fraction d.value := by
  unfold Digits.fractional
  dsimp only
  generalize hPoint : (d.chars.length : Int) + d.scale = point
  split
  · have hPlaces : d.scale = -((d.chars.drop point.toNat).length : Int) := by
      rw [List.length_drop]
      omega
    refine ⟨_, _, (decimalText_eq ?_).symm,
      denotes_places (n := 0) ?_ (List.take_append_drop ..) hPlaces⟩
    · rw [← List.length_pos_iff]
      omega
    · rw [← List.length_pos_iff, List.length_take]
      omega
  · have hPlaces : d.scale = -((zeros (-point).toNat ++ d.chars).length : Int) := by
      rw [List.length_append, zeros, List.length_replicate]
      omega
    have hDigits : ['0'] ++ (zeros (-point).toNat ++ d.chars) =
          zeros ((-point).toNat + 1) ++ d.chars := by
      rw [zeros, zeros, List.replicate_succ]
      rfl
    refine ⟨['0'], _, (@decimalText_eq ['0'] _ ?_).symm,
      denotes_places (List.cons_ne_nil _ _) hDigits hPlaces⟩
    rw [← List.length_pos_iff]
    omega

theorem denotes_positional (d : Digits) :
    ∃ whole fraction, d.positional = decimalText whole fraction ∧
        Denotes whole fraction d.value := by
  unfold Digits.positional
  split
  · rename_i hScale
    exact ⟨_, [], rfl, denotes_padded hScale⟩
  · rename_i hScale
    exact denotes_fractional (Int.lt_of_not_ge hScale)

section

variable {x : Float} {mantissa : Nat} {exponent : Int}

theorem value_whole {n : Nat} (h : (Double.finite false mantissa exponent).whole? = some n) :
    (n : ℚ) = mantissa * 2 ^ exponent := by
  simp only [Double.whole?, Nat.pow_eq] at h
  split at h
  · rename_i hDown
    cases h
    have hMantissa : (mantissa : ℚ) = (mantissa / 2 ^ (-exponent).toNat : Nat) *
            2 ^ (-exponent).toNat := by
      exact_mod_cast (Nat.div_mul_cancel (Nat.dvd_of_mod_eq_zero hDown)).symm
    rw [zpow_eq_div two_ne_zero, hMantissa]
    push_cast
    field_simp
  · cases h

variable (hFloat : Double.ofFloat x = .finite false mantissa exponent)
include hFloat

theorem Denotes.spells {whole fraction : List Char} {value : ℚ}
    (h : Denotes whole fraction value)
    (hPositive : 0 < mantissa) (hWithin : Within mantissa exponent value) :
    Spells whole fraction x := by
  rw [← h.value] at hWithin
  exact ⟨ofScientific_eq hFloat hPositive hWithin, h.nonempty, h.digits⟩

/- The fewest digits of a number spell it. -/
theorem spells_shortest (hPositive : 0 < mantissa) :
    ∃ whole fraction, Spells whole fraction x ∧
      (shortest x).toList = decimalText whole fraction := by
  rcases eq_pack hFloat hPositive with ⟨hDouble, _⟩
  rcases denotes_positional (Decimal.shortest .up mantissa exponent) with
    ⟨whole, fraction, hText, hDenotes⟩
  refine ⟨whole, fraction, hDenotes.spells hFloat hPositive (shortest_within hDouble .up), ?_⟩
  simp only [shortest, hFloat, hPositive.ne', if_false, signed,
    Bool.false_eq_true, String.toList_ofList, hText]

/- A whole number is spelled exactly, also with a place behind the point. -/
theorem spells_whole {n : Nat}
    (hWhole : (Double.finite false mantissa exponent).whole? = some n) :
    Spells (Nat.toDigits 10 n) [] x ∧ Spells (Nat.toDigits 10 n) ['0'] x := by
  rcases Nat.eq_zero_or_pos mantissa with rfl | hPositive
  · cases (show n = 0 by simpa [Double.whole?] using hWhole.symm)
    rw [eq_pack_zero hFloat]
    have hBare := denotes_whole 0 0
    have hPlace := denotes_whole 0 1
    exact ⟨⟨by decide +kernel, hBare.nonempty, hBare.digits⟩,
      ⟨by decide +kernel, hPlace.nonempty, hPlace.digits⟩⟩
  · have hWithin := (eq_pack hFloat hPositive).1.within
    rw [← value_whole hWhole] at hWithin
    exact ⟨(denotes_whole n 0).spells hFloat hPositive hWithin,
      (denotes_whole n 1).spells hFloat hPositive hWithin⟩

theorem spells_fractional (hWhole : (Double.finite false mantissa exponent).whole? ≠ some 0) :
    ∃ whole fraction, Spells whole fraction x ∧
      (shortest x).toList = decimalText whole fraction := by
  refine spells_shortest hFloat (Nat.pos_of_ne_zero ?_)
  rintro rfl
  simp [Double.whole?] at hWhole

/- Whole numbers below the limit are spelled exactly. -/
theorem spells_display :
    ∃ whole fraction, Spells whole fraction x ∧
      (display x).toList = decimalText whole fraction := by
  unfold display
  rw [hFloat]
  dsimp only
  split
  · rename_i n hWhole
    split
    · refine ⟨_, _, (spells_whole hFloat hWhole).1, ?_⟩
      simp [signed, Double.negative, decimalText]
    · exact spells_fractional hFloat (by rw [hWhole]; rintro ⟨⟩; contradiction)
  · rename_i hWhole
    exact spells_fractional hFloat (by rw [hWhole]; nofun)

/- So is what outlines show. -/
theorem spells_oneDecimal :
    ∃ whole fraction, Spells whole fraction x ∧
      (oneDecimal x).toList = decimalText whole fraction := by
  unfold oneDecimal
  rw [hFloat]
  dsimp only
  split
  · rename_i n hWhole
    refine ⟨_, _, (spells_whole hFloat hWhole).2, ?_⟩
    simp [signed, Double.negative, decimalText]
  · rename_i hWhole
    exact spells_fractional hFloat (by rw [hWhole]; nofun)

end

variable {whole fraction : List Char} {x : Float}

/- Digits spell no number below zero. -/
theorem Spells.double (h : Spells whole fraction x) : Double.ofFloat x = .infinite false ∨
    ∃ mantissa exponent, Double.ofFloat x = .finite false mantissa exponent := by
  have hUnsigned : (Double.ofFloat x).IsUnsigned := by
    rw [← h.value]
    exact ofScientific_unsigned ..
  cases hFloat : Double.ofFloat x with
  | nan => exact absurd hFloat hUnsigned.1
  | infinite negative =>
    rw [hFloat] at hUnsigned
    cases hUnsigned.2
    exact .inl rfl
  | finite negative mantissa exponent =>
    rw [hFloat] at hUnsigned
    cases hUnsigned.2
    exact .inr ⟨mantissa, exponent, rfl⟩

theorem displayed_of_spells (h : Spells whole fraction x) : Displayed x := by
  unfold Displayed
  rcases h.double with hFloat | ⟨mantissa, exponent, hFloat⟩
  · simp [display, shortest, hFloat, Double.whole?, signed]
  · rw [if_neg (by rw [hFloat]; nofun)]
    exact spells_display hFloat

end Numeral

end Scriptlet
