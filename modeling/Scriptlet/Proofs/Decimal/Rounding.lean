import Mathlib
import Scriptlet.Proofs.Decimal.Digits

/-
  Numbers rounded to doubles, and the bits of doubles.

  Key declarations include:
    * `Decimal.Approximates`
    * `Decimal.Nearest`
    * `Decimal.Within`
    * `Decimal.Within.round_eq`
    * `Decimal.eq_pack`
    * `Decimal.unpack_pack`

  A number is rounded by way of a mantissa and two further
  bits, which tell how it compares with the mantissa and with
  the middle between it and the next one.  What lies within
  the interval of a double is rounded to that double.  A
  double without sign is an exponent field and a fraction,
  and its mantissa and exponent determine it.
-/

namespace Scriptlet

namespace Decimal

open Float.Model
open Float.Model.UnpackedFloat

/- Where a number lies from a mantissa on. -/
def Approximates (em : ExtendedMantissa) (x : ℚ) : Prop :=
  match em.roundBit, em.stickyBit with
  | false, false => x = em.mantissa
  | false, true => em.mantissa < x ∧ x < em.mantissa + 1 / 2
  | true, false => x = em.mantissa + 1 / 2
  | true, true => em.mantissa + 1 / 2 < x ∧ x < em.mantissa + 1

/- The nearest natural number, the even one of two. -/
structure Nearest (x : ℚ) (n : Nat) : Prop where
  low : (n : ℚ) - 1 / 2 ≤ x
  high : x ≤ n + 1 / 2
  even : x = n - 1 / 2 ∨ x = n + 1 / 2 → n % 2 = 0

theorem Nearest.le {x : ℚ} {n m : Nat} (h : Nearest x n) (h' : Nearest x m) : n ≤ m := by
  by_contra hLess
  have hNext : (m : ℚ) + 1 ≤ n := by exact_mod_cast Nat.lt_of_not_le hLess
  have hLow := h.low
  have hHigh := h'.high
  have hEven := h.even (.inl (by linarith))
  have hEven' := h'.even (.inr (by linarith))
  have hGap : (n : ℚ) ≤ m + 1 := by linarith
  have hGap : n ≤ m + 1 := by exact_mod_cast hGap
  omega

theorem Nearest.unique {x : ℚ} {n m : Nat} (h : Nearest x n)
    (h' : Nearest x m) : n = m := Nat.le_antisymm (h.le h') (h'.le h)

namespace Approximates

variable {em : ExtendedMantissa} {x : ℚ}

variable (h : Approximates em x)

include h

theorem low : em.mantissa ≤ x := by
  rcases em with ⟨m, round, sticky⟩
  cases round <;> cases sticky <;>
    simp only [Approximates] at h ⊢ <;> linarith

theorem high : x < em.mantissa + 1 := by
  rcases em with ⟨m, round, sticky⟩
  cases round <;> cases sticky <;>
    simp only [Approximates] at h ⊢ <;> linarith

theorem nearest : Nearest x em.roundedMantissa := by
  rcases em with ⟨m, round, sticky⟩
  cases round <;> cases sticky <;>
    simp only [Approximates, ExtendedMantissa.roundedMantissa,
      ExtendedMantissa.accuracy, Accuracy.roundToNearestEven] at h ⊢
  · refine ⟨by linarith, by linarith, ?_⟩
    rintro (hTie | hTie) <;> linarith
  · refine ⟨by linarith, by linarith, ?_⟩
    rintro (hTie | hTie) <;> linarith
  · rcases Nat.mod_two_eq_zero_or_one m with hBit | hBit
    · rw [hBit]
      refine ⟨?_, ?_, fun _ => hBit⟩ <;> push_cast <;> linarith
    · rw [hBit]
      refine ⟨?_, ?_, fun _ => by omega⟩ <;> push_cast <;>
        linarith
  · refine ⟨by push_cast; linarith, by push_cast; linarith, ?_⟩
    push_cast
    rintro (hTie | hTie) <;> linarith

/- One bit less. -/
theorem shiftRightOne : Approximates em.shiftRightOne (x / 2) := by
  rcases em with ⟨m, round, sticky⟩
  have hHalves : ((m % 2 : Nat) : ℚ) + 2 * (m / 2 : Nat) = m := by
    exact_mod_cast Nat.mod_add_div m 2
  rcases Nat.mod_two_eq_zero_or_one m with hBit | hBit <;>
    rw [hBit] at hHalves <;> push_cast at hHalves <;>
    cases round <;> cases sticky <;>
    simp [Approximates, ExtendedMantissa.shiftRightOne, hBit] at h ⊢ <;>
    first
      | linarith
      | exact ⟨by linarith, by linarith⟩

theorem shiftRight (n : Nat) : Approximates (em >>> n) (x / 2 ^ n) := by
  induction n with
  | zero => simpa [HShiftRight.hShiftRight, Nat.repeat] using h
  | succ n ih =>
    have hNext := ih.shiftRightOne
    rw [div_div, ← pow_succ] at hNext
    exact hNext

end Approximates

/- The mantissas and exponents of positive doubles. -/
structure IsDouble (mantissa : Nat) (exponent : Int) : Prop where
  positive : 0 < mantissa
  bound : mantissa < 2 ^ 53
  least : -1074 ≤ exponent
  greatest : exponent ≤ 971
  normal : 2 ^ 52 ≤ mantissa ∨ exponent = -1074

/- A number that is to be rounded to a double. -/
structure Within (mantissa : Nat) (exponent : Int) (x : ℚ) : Prop where
  low : (lowerEnd mantissa exponent : ℚ) ≤ 4 * (x / 2 ^ exponent)
  high : 4 * (x / 2 ^ exponent) ≤ 4 * mantissa + 2
  odd : mantissa % 2 = 1 → (lowerEnd mantissa exponent : ℚ) < 4 * (x / 2 ^ exponent) ∧
        4 * (x / 2 ^ exponent) < 4 * mantissa + 2

section

variable {mantissa : Nat} {exponent : Int} {x : ℚ}

theorem le_lowerEnd (h : 0 < mantissa) (exponent : Int) :
    (4 * mantissa : ℚ) - 2 ≤ lowerEnd mantissa exponent := by
  have hEnd : 4 * mantissa ≤ lowerEnd mantissa exponent + 2 := by
    unfold lowerEnd
    split <;> omega
  have hEnd : (4 * mantissa : ℚ) ≤ lowerEnd mantissa exponent + 2 := by exact_mod_cast hEnd
  linarith

theorem lowerEnd_lt (h : 0 < mantissa) (exponent : Int) :
    (lowerEnd mantissa exponent : ℚ) < 4 * mantissa := by
  have hEnd : lowerEnd mantissa exponent < 4 * mantissa := by
    unfold lowerEnd
    split <;> omega
  exact_mod_cast hEnd

/- A double is within its own interval. -/
theorem IsDouble.within (h : IsDouble mantissa exponent) :
    Within mantissa exponent (mantissa * 2 ^ exponent) := by
  have hValue : (mantissa : ℚ) * 2 ^ exponent / 2 ^ exponent = mantissa :=
    mul_div_cancel_right₀ _ (zpow_ne_zero _ two_ne_zero)
  have hLow := lowerEnd_lt h.positive exponent
  refine ⟨?_, ?_, fun _ => ⟨?_, ?_⟩⟩ <;> rw [hValue] <;>
    linarith

/- On the grid of the double, it is the nearest number. -/
theorem Within.nearest (hDouble : IsDouble mantissa exponent)
    (h : Within mantissa exponent x) : Nearest (x / 2 ^ exponent) mantissa := by
  have hEnd := le_lowerEnd hDouble.positive exponent
  have hLow := h.low
  have hHigh := h.high
  refine ⟨by linarith, by linarith, fun hTie => ?_⟩
  rcases Nat.mod_two_eq_zero_or_one mantissa with hBit | hBit
  · exact hBit
  · rcases h.odd hBit with ⟨hLow, hHigh⟩
    rcases hTie with hTie | hTie <;> linarith

variable {m : Nat} {e target : Int} {accuracy : Accuracy}

theorem targetExponent_eq (m : Nat) (e : Int) :
    Format.binary64.targetExponent (totalExponent m e) = max (m.log2 + e - 52) (-1074) := by
  simp only [Format.targetExponent, totalExponent, Format.mantissaBits, Format.minExponent]
  norm_num
  omega

/- Shifts to the right end at the target. -/
theorem shift_eq (hTarget : Format.binary64.targetExponent (totalExponent m e) = target)
    (hShift : e ≤ target) :
    shiftToTargetExponent Format.binary64 m e accuracy =
      (ExtendedMantissa.ofMantissaAndAccuracy m accuracy >>> (target - e).toNat, target) := by
  unfold shiftToTargetExponent
  rw [hTarget]
  have hEnd : e + ((target - e).toNat : Int) = target := by omega
  simp only [shiftToExponent, hEnd]

/- A double stays what it is. -/
theorem shift_double (h : IsDouble mantissa exponent) :
    shiftToTargetExponent Format.binary64 mantissa exponent .exact =
      (⟨mantissa, false, false⟩, exponent) := by
  have hLog : mantissa.log2 < 53 := (Nat.log2_lt h.positive.ne').mpr h.bound
  have hNormal : 52 ≤ mantissa.log2 ∨ exponent = -1074 :=
    h.normal.imp (Nat.le_log2 h.positive.ne').mpr id
  have hLeast := h.least
  have hTarget : Format.binary64.targetExponent (totalExponent mantissa exponent) = exponent := by
    rw [targetExponent_eq]
    omega
  rw [shift_eq hTarget le_rfl, sub_self]
  rfl

/- A mantissa that is rounded up to a further bit. -/
theorem shift_carry (h : -1074 ≤ e) :
    shiftToTargetExponent Format.binary64 (2 ^ 53) e .exact = (⟨2 ^ 52, false, false⟩, e + 1) := by
  have hTarget : Format.binary64.targetExponent (totalExponent (2 ^ 53) e) = e + 1 := by
    rw [targetExponent_eq, Nat.log2_two_pow]
    omega
  have hOne : (e + 1 - e).toNat = 1 := by omega
  rw [shift_eq hTarget (by omega), hOne]
  rfl

theorem mantissa_ofAccuracy :
    (ExtendedMantissa.ofMantissaAndAccuracy m accuracy).mantissa =
      m := by
  rcases accuracy with _ | order
  · rfl
  · cases order <;> rfl

section

variable (hTarget : Format.binary64.targetExponent (totalExponent m e) = target)

include hTarget

/- What is approximated has few bits from the target on. -/
theorem lt_of_approximates
    (h : Approximates (ExtendedMantissa.ofMantissaAndAccuracy m accuracy)
        (x / 2 ^ e)) : x < 2 ^ (target + 53) := by
  have hHigh := h.high
  rw [mantissa_ofAccuracy, div_lt_iff₀ (by positivity)] at hHigh
  have hBits : (m : ℚ) + 1 ≤ 2 ^ (m.log2 + 1) := by exact_mod_cast Nat.lt_log2_self
  rw [targetExponent_eq] at hTarget
  calc
    x < (m + 1) * 2 ^ e := hHigh
    _ ≤ 2 ^ (m.log2 + 1) * 2 ^ e := by gcongr
    _ = 2 ^ ((m.log2 + 1 : Nat) + e : Int) := by rw [zpow_add₀ two_ne_zero, zpow_natCast]
    _ ≤ 2 ^ (target + 53) := zpow_le_zpow_right₀ one_le_two (by omega)

theorem le_of_approximates (hShift : e ≤ target)
    (h : Approximates (ExtendedMantissa.ofMantissaAndAccuracy m accuracy)
        (x / 2 ^ e)) (hLeast : target ≠ -1074) : 2 ^ (target + 52) ≤ x := by
  rw [targetExponent_eq] at hTarget
  have hPositive : m ≠ 0 := by
    rintro rfl
    rw [Nat.log2_zero] at hTarget
    omega
  have hLow := h.low
  rw [mantissa_ofAccuracy, le_div_iff₀ (by positivity)] at hLow
  have hBits : (2 : ℚ) ^ m.log2 ≤ m := by exact_mod_cast Nat.log2_self_le hPositive
  calc
    (2 : ℚ) ^ (target + 52) = 2 ^ ((m.log2 : Int) + e) := by
        congr 1
        omega
    _ = 2 ^ m.log2 * 2 ^ e := by rw [zpow_add₀ two_ne_zero, zpow_natCast]
    _ ≤ m * 2 ^ e := by gcongr
    _ ≤ x := hLow

/- Rounding is a shift, the nearest mantissa and a shift. -/
theorem roundWithAccuracy_eq (hShift : e ≤ target)
    (h : Approximates (ExtendedMantissa.ofMantissaAndAccuracy m accuracy)
        (x / 2 ^ e)) {rounded : Nat}
    (hNearest : Nearest (x / 2 ^ target) rounded) (hPositive : 0 < mantissa)
    (hFinal : shiftToTargetExponent Format.binary64 rounded target .exact =
        (⟨mantissa, false, false⟩, exponent)) :
    roundWithAccuracy Format.binary64 .positive m e accuracy =
      .finite .positive mantissa exponent hPositive := by
  have hApproximates := h.shiftRight (target - e).toNat
  have hScale : x / 2 ^ e / 2 ^ (target - e).toNat = x / 2 ^ target := by
    rw [div_div, ← zpow_natCast, ← zpow_add₀ two_ne_zero]
    congr 2
    omega
  rw [hScale] at hApproximates
  have hRounded := hApproximates.nearest.unique hNearest
  unfold roundWithAccuracy
  rw [shift_eq hTarget hShift]
  simp only [hRounded, hFinal]
  rw [dif_neg hPositive.ne']

end

/-
  What has a smaller exponent than its double lies just below
  a power of two.
-/
theorem Within.carry (hDouble : IsDouble mantissa exponent)
    (h : Within mantissa exponent x) (hLeast : -1074 ≤ target)
    (hLess : target < exponent) (hBelow : x < 2 ^ (target + 53)) :
    mantissa = 2 ^ 52 ∧ exponent = target + 1 ∧ Nearest (x / 2 ^ target) (2 ^ 53) := by
  have hPower : (0 : ℚ) < 2 ^ exponent := by positivity
  have hSmall : x / 2 ^ exponent < 2 ^ 52 := by
    rw [div_lt_iff₀ hPower, ← zpow_natCast, ← zpow_add₀ two_ne_zero]
    exact hBelow.trans_le (zpow_le_zpow_right₀ one_le_two (by push_cast; omega))
  have hEnd : lowerEnd mantissa exponent < 2 ^ 54 := by
    have hLow := h.low
    have hEnd : (lowerEnd mantissa exponent : ℚ) < 2 ^ 54 := by linarith
    exact_mod_cast hEnd
  have hNormal := hDouble.normal.resolve_right (by omega)
  have hMantissa : mantissa = 2 ^ 52 := by
    unfold lowerEnd at hEnd
    split at hEnd <;> omega
  have hExact : (lowerEnd mantissa exponent : ℚ) = 2 ^ 54 - 1 := by
    have hHolds : mantissa = Double.leastNormal ∧
          Double.leastExponent < exponent := ⟨hMantissa, hLeast.trans_lt hLess⟩
    rw [lowerEnd, if_pos hHolds, hMantissa]
    norm_num
  have hLow := h.low
  rw [hExact] at hLow
  have hAbove : (2 : ℚ) ^ (exponent + 51) < x := by
    rw [zpow_add₀ two_ne_zero, mul_comm, ← lt_div_iff₀ hPower]
    norm_num at hLow ⊢
    linarith
  have hExponent : exponent = target + 1 := by
    have hOrder : exponent + 51 < target + 53 :=
      (zpow_lt_zpow_iff_right₀ one_lt_two).mp (hAbove.trans hBelow)
    omega
  have hTwice : x / 2 ^ target = 2 * (x / 2 ^ exponent) := by
    rw [hExponent, zpow_add₀ two_ne_zero, zpow_one]
    ring
  refine ⟨hMantissa, hExponent, ?_⟩
  rw [hTwice]
  refine ⟨?_, ?_, fun _ => by norm_num⟩ <;> push_cast <;>
    linarith

/- What lies within the interval is rounded to the double. -/
theorem Within.round_eq (hDouble : IsDouble mantissa exponent)
    (hWithin : Within mantissa exponent x)
    (hShift : e ≤ Format.binary64.targetExponent (totalExponent m e))
    (h : Approximates (ExtendedMantissa.ofMantissaAndAccuracy m accuracy) (x / 2 ^ e)) :
    roundWithAccuracy Format.binary64 .positive m e accuracy =
      .finite .positive mantissa exponent hDouble.positive := by
  generalize hTarget : Format.binary64.targetExponent (totalExponent m e) = target at hShift
  have hBelow := lt_of_approximates hTarget h
  have hAbove := le_of_approximates hTarget hShift h
  have hLeast : -1074 ≤ target := by
    rw [← hTarget, targetExponent_eq]
    exact le_max_right _ _
  have hPower : (0 : ℚ) < 2 ^ exponent := by positivity
  have hUpper : x < 2 ^ (exponent + 53) := by
    have hBound : (mantissa : ℚ) + 1 ≤ 2 ^ 53 := by exact_mod_cast hDouble.bound
    have hHigh := hWithin.high
    rw [zpow_add₀ two_ne_zero, mul_comm, ← div_lt_iff₀ hPower]
    norm_num at hBound ⊢
    linarith
  rcases lt_trichotomy target exponent with hLess | rfl | hMore
  · rcases hWithin.carry hDouble hLeast hLess hBelow with ⟨rfl, rfl, hNearest⟩
    exact roundWithAccuracy_eq hTarget hShift h hNearest hDouble.positive (shift_carry hLeast)
  · exact roundWithAccuracy_eq hTarget hShift h
      (hWithin.nearest hDouble) hDouble.positive (shift_double hDouble)
  · have hLower := hAbove (by have := hDouble.least; omega)
    have hGap : (2 : ℚ) ^ (exponent + 53) ≤ 2 ^ (target + 52) :=
      zpow_le_zpow_right₀ one_le_two (by omega)
    linarith

end

end Decimal

------------------------------------------------------------
-- Bits of a Double
------------------------------------------------------------

namespace Decimal

open Float.Model
open Float.Model.UnpackedFloat

/- Doubles are the same if their bits are. -/
theorem eq_of_toBits {x y : Float} (h : x.toBits.toNat = y.toBits.toNat) : x = y := by
  rcases x with ⟨⟨bits, _⟩⟩
  rcases y with ⟨⟨bits', _⟩⟩
  have hBits : bits = bits' := UInt64.toNat_inj.mp h
  cases hBits
  rfl

/- The double with these bits. -/
theorem toBits_pack (u : UnpackedFloat) :
    (Float.ofModel (.pack u)).toBits.toNat = (UnpackedFloat.pack Format.binary64 u).toNat :=
  rfl

theorem toNat_packComponents (exponent : BitVec 11) (fraction : BitVec 52) :
    (packComponents Format.binary64 .positive exponent fraction).toNat =
      exponent.toNat * 2 ^ 52 + fraction.toNat := by
  unfold packComponents
  rw [BitVec.toNat_append, ← Nat.shiftLeft_add_eq_or_of_lt fraction.isLt,
    BitVec.toNat_append, ← Nat.shiftLeft_add_eq_or_of_lt exponent.isLt]
  simp [Sign.toBitVec, Nat.shiftLeft_eq]

/- The fields of a double that is not negative. -/
theorem ofFloat_eq {x : Float} {field fraction : Nat}
    (hBits : x.toBits.toNat = field * 2 ^ 52 + fraction)
    (hField : field < 2 ^ 11) (hFraction : fraction < 2 ^ 52) :
    Double.ofFloat x =
      if field = 2047 then
        if fraction = 0 then .infinite false else .nan
      else if field = 0 then
        .finite false fraction Double.leastExponent
      else
        .finite false (Double.leastNormal + fraction) ((field : Int) - 1075) := by
  have hSign : ¬ 2 ^ 63 ≤ x.toBits.toNat := by omega
  have hHigh : x.toBits.toNat / 2 ^ 52 % 2 ^ 11 = field := by omega
  have hLow : x.toBits.toNat % 2 ^ 52 = fraction := by omega
  simp only [Double.ofFloat, Nat.pow_eq, hSign, hHigh, hLow, decide_false]

theorem biased_eq (exponent : Int) :
    (exponent + (Format.binary64.exponentBias : Int) +
        ((52 : Nat) : Int)).toNat = (exponent + 1075).toNat := by
  simp only [Format.exponentBias]
  omega

section

variable {mantissa : Nat} {exponent : Int}

theorem pack_normal (h : IsDouble mantissa exponent) (hNormal : 2 ^ 52 ≤ mantissa) :
    UnpackedFloat.pack Format.binary64 (.finite .positive mantissa exponent h.positive) =
      packComponents Format.binary64 .positive
        (.ofNat 11 (exponent + 1075).toNat) (.ofNat 52 mantissa) := by
  have hGreatest := h.greatest
  have hFits : ¬ 2 ^ 11 ≤ (exponent + 1075).toNat + 1 := by omega
  have hLog : mantissa.log2 = 52 := (Nat.log2_eq_iff h.positive.ne').mpr ⟨hNormal, h.bound⟩
  simp only [UnpackedFloat.pack, biased_eq, hFits, if_false, hLog]
  rfl

theorem pack_subnormal (h : IsDouble mantissa exponent) (hSmall : mantissa < 2 ^ 52) :
    UnpackedFloat.pack Format.binary64 (.finite .positive mantissa exponent h.positive) =
      packComponents Format.binary64 .positive 0#11 (.ofNat 52 mantissa) := by
  have hGreatest := h.greatest
  have hFits : ¬ 2 ^ 11 ≤ (exponent + 1075).toNat + 1 := by omega
  have hLog : mantissa.log2 < 52 := (Nat.log2_lt h.positive.ne').mpr hSmall
  have hBits : ¬ mantissa.log2 + 1 = Format.binary64.mantissaBits := by
    simp only [Format.mantissaBits]
    omega
  simp only [UnpackedFloat.pack, biased_eq, hFits, hBits, if_false]

/- The bits of a positive double. -/
theorem toNat_pack (h : IsDouble mantissa exponent) :
    (UnpackedFloat.pack Format.binary64 (.finite .positive mantissa exponent h.positive)).toNat =
      if 2 ^ 52 ≤ mantissa then
        (exponent + 1075).toNat * 2 ^ 52 + (mantissa - 2 ^ 52)
      else mantissa := by
  have hLeast := h.least
  have hGreatest := h.greatest
  have hBound := h.bound
  split
  · rename_i hNormal
    rw [pack_normal h hNormal, toNat_packComponents]
    simp only [BitVec.toNat_ofNat]
    omega
  · rename_i hSmall
    rw [pack_subnormal h (Nat.lt_of_not_le hSmall), toNat_packComponents]
    simp only [BitVec.toNat_ofNat]
    omega

/- A double is packed from its mantissa and exponent. -/
theorem eq_pack {x : Float} (h : Double.ofFloat x = .finite false mantissa exponent)
    (hPositive : 0 < mantissa) :
    ∃ hDouble : IsDouble mantissa exponent, x = Float.ofModel (.pack
        (.finite .positive mantissa exponent hDouble.positive)) := by
  unfold Double.ofFloat at h
  generalize hBits : x.toBits.toNat = bits at h
  have hSize : bits < 2 ^ 64 := by
    rw [← hBits]
    exact x.toBits.toNat_lt
  dsimp only [Nat.pow_eq] at h
  split at h
  · split at h <;> cases h
  rename_i hFinite
  split at h
  · rename_i hField
    simp only [Double.finite.injEq, decide_eq_false_iff_not, Double.leastExponent] at h
    rcases h with ⟨hSign, rfl, rfl⟩
    have hDouble : IsDouble (bits % 2 ^ 52) (-1074) :=
      ⟨hPositive, by omega, by omega, by omega, .inr rfl⟩
    refine ⟨hDouble, eq_of_toBits ?_⟩
    rw [toBits_pack, toNat_pack hDouble, hBits]
    split <;> omega
  · rename_i hField
    simp only [Double.finite.injEq, decide_eq_false_iff_not, Double.leastNormal, Nat.pow_eq] at h
    rcases h with ⟨hSign, rfl, rfl⟩
    have hDouble : IsDouble (2 ^ 52 + bits % 2 ^ 52)
          (((bits / 2 ^ 52 % 2 ^ 11 : Nat) : Int) - 1075) :=
      ⟨hPositive, by omega, by omega, by omega, .inl (by omega)⟩
    refine ⟨hDouble, eq_of_toBits ?_⟩
    rw [toBits_pack, toNat_pack hDouble, hBits]
    split <;> omega

/- Zero without sign has no bits. -/
theorem eq_pack_zero {x : Float} (h : Double.ofFloat x = .finite false 0 exponent) :
    x = Float.ofModel (.pack (.zero .positive)) := by
  have hZero : x.toBits.toNat = 0 := by
    unfold Double.ofFloat at h
    have hSize := x.toBits.toNat_lt
    generalize x.toBits.toNat = bits at h hSize ⊢
    dsimp only [Nat.pow_eq] at h
    split at h
    · split at h <;> cases h
    · split at h
      · simp only [Double.finite.injEq, decide_eq_false_iff_not] at h
        omega
      · simp only [Double.finite.injEq, Double.leastNormal, Nat.pow_eq] at h
        omega
  apply eq_of_toBits
  rw [hZero]
  rfl

/- A number without sign. -/
def Double.IsUnsigned (double : Double) : Prop := double ≠ .nan ∧ double.negative = false

theorem ofFloat_packComponents {u : UnpackedFloat} (exponent : BitVec 11)
    (fraction : BitVec 52)
    (hPack : UnpackedFloat.pack Format.binary64 u =
        packComponents Format.binary64 .positive exponent fraction)
    (hNumber : exponent.toNat = 2047 → fraction.toNat = 0) :
    (Double.ofFloat (Float.ofModel (.pack u))).IsUnsigned := by
  have hBits : (Float.ofModel (.pack u)).toBits.toNat =
        exponent.toNat * 2 ^ 52 + fraction.toNat := by
    rw [toBits_pack, hPack, toNat_packComponents]
  rw [ofFloat_eq hBits exponent.isLt fraction.isLt]
  split
  · rename_i hField
    rw [if_pos (hNumber hField)]
    exact ⟨Double.noConfusion, rfl⟩
  · split <;> exact ⟨Double.noConfusion, rfl⟩

/- Zero or a finite number, of positive sign. -/
def IsPositive : UnpackedFloat → Prop
  | .zero sign => sign = .positive
  | .finite sign _ _ _ => sign = .positive
  | .infinity _ => False
  | .notANumber => False

theorem ofFloat_pack_finite (exponent : Int) (hPositive : 0 < mantissa) :
    (Double.ofFloat (Float.ofModel (.pack
      (.finite .positive mantissa exponent hPositive)))).IsUnsigned := by
  by_cases hLarge : 2 ^ 11 ≤ (exponent + 1075).toNat + 1
  · refine ofFloat_packComponents (-1#11) 0 ?_ (fun _ => rfl)
    simp only [UnpackedFloat.pack, biased_eq, hLarge, if_true]
    rfl
  by_cases hNormal : mantissa.log2 + 1 = Format.binary64.mantissaBits
  · refine ofFloat_packComponents (.ofNat 11 (exponent + 1075).toNat) (.ofNat 52 mantissa) ?_ ?_
    · simp only [UnpackedFloat.pack, biased_eq, hLarge, hNormal, if_true, if_false]
    · rw [BitVec.toNat_ofNat]
      omega
  · refine ofFloat_packComponents 0#11 (.ofNat 52 mantissa) ?_ ?_
    · simp only [UnpackedFloat.pack, biased_eq, hLarge, hNormal, if_false]
    · intro hField
      cases hField

/- What is packed with a positive sign has no sign. -/
theorem ofFloat_pack {u : UnpackedFloat} (h : IsPositive u) :
    (Double.ofFloat (Float.ofModel (.pack u))).IsUnsigned := by
  cases u with
  | zero sign =>
    cases h
    exact ofFloat_packComponents 0 0 rfl (fun _ => rfl)
  | finite sign mantissa exponent hPositive =>
    cases h
    exact ofFloat_pack_finite exponent hPositive
  | infinity sign => cases h
  | notANumber => cases h

theorem unpackSign_packComponents (exponent : BitVec 11) (fraction : BitVec 52) :
    unpackSign (packComponents Format.binary64 .positive exponent fraction) = 0#1 := by
  apply BitVec.eq_of_toNat_eq
  have hExponent := exponent.isLt
  have hFraction := fraction.isLt
  simp only [unpackSign, BitVec.toNat_cast,
    BitVec.extractLsb_toNat, toNat_packComponents, Nat.shiftRight_eq_div_pow]
  norm_num
  omega

theorem toNat_implicit (fraction : BitVec 52) :
    (1#1 ++ fraction).toNat = 2 ^ 52 + fraction.toNat := by
  rw [BitVec.toNat_append, ← Nat.shiftLeft_add_eq_or_of_lt fraction.isLt]
  rfl

/- What is unpacked from the fields of a finite double. -/
theorem unpack_packComponents {exponent : BitVec 11}
    (hFinite : exponent.toNat ≠ 2047) (hField : exponent.toNat ≠ 0) (fraction : BitVec 52) :
    UnpackedFloat.unpack Format.binary64
        (packComponents Format.binary64 .positive exponent fraction) =
      .finite .positive (2 ^ 52 + fraction.toNat) ((exponent.toNat : Int) - 1075) (by omega) := by
  have hOnes : exponent ≠ -1#11 := by
    rintro rfl
    exact hFinite rfl
  have hZero : exponent ≠ 0#11 := by
    rintro rfl
    exact hField rfl
  simp only [UnpackedFloat.unpack, unpackExponent_packComponents,
    unpackMantissa_packComponents, unpackSign_packComponents,
    hOnes, hZero, if_false, toNat_implicit]
  rfl

/- Packed normal doubles are unpacked as they were. -/
theorem unpack_pack (h : IsDouble mantissa exponent) (hNormal : 2 ^ 52 ≤ mantissa) :
    (Float.Model.pack (.finite .positive mantissa exponent h.positive)).unpack =
      .finite .positive mantissa exponent h.positive := by
  have hLeast := h.least
  have hGreatest := h.greatest
  have hBound := h.bound
  have hField : (BitVec.ofNat 11 (exponent + 1075).toNat).toNat = (exponent + 1075).toNat := by
    rw [BitVec.toNat_ofNat]
    omega
  have hUnpack :=
    unpack_packComponents (by rw [hField]; omega) (by rw [hField]; omega) (.ofNat 52 mantissa)
  rw [← pack_normal h hNormal] at hUnpack
  refine hUnpack.trans ?_
  congr 1
  · rw [BitVec.toNat_ofNat]
    omega
  · rw [hField]
    omega

end

end Decimal

end Scriptlet
