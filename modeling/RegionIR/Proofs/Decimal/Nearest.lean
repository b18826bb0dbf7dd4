import Mathlib.Algebra.Order.Field.Power
import Mathlib.Data.Int.Log
import Mathlib.Data.Nat.Cast.Field
import Mathlib.Data.Rat.Floor
import Mathlib.Tactic.FieldSimp
import Mathlib.Tactic.Linarith
import Mathlib.Tactic.Positivity
import Mathlib.Tactic.Ring
import RegionIR.Decimal.Shortest

/-! The double nearest to a numeral.

Which double that is depends on the value of the numeral only, not on how it is written; and for
a numeral with the value of a double it is this double. -/

namespace RegionIR.Decimal

theorem zpow_eq_div (b : ℕ) (hb : b ≠ 0) (e : ℤ) :
    (b : ℚ) ^ e = (b ^ e.toNat : ℕ) / (b ^ (-e).toNat : ℕ) := by
  have hb' : (b : ℚ) ≠ 0 := Nat.cast_ne_zero.mpr hb
  rcases Int.le_total 0 e with he | he
  · obtain ⟨n, rfl⟩ := Int.eq_ofNat_of_zero_le he
    simp
  · obtain ⟨n, hn⟩ := Int.eq_ofNat_of_zero_le (Int.neg_nonneg_of_nonpos he)
    obtain rfl : e = -(n : ℤ) := by omega
    simp

/-- The logarithm of a quotient is the difference of the logarithms of its parts, or one less. -/
theorem floorLog2_eq {num den : ℕ} (hnum : 0 < num) (hden : 0 < den) :
    floorLog2 num den = Int.log 2 ((num : ℚ) / den) := by
  have hn : (0 : ℚ) < num := Nat.cast_pos.mpr hnum
  have hd : (0 : ℚ) < den := Nat.cast_pos.mpr hden
  have hr : (0 : ℚ) < (num : ℚ) / den := div_pos hn hd
  have hlow : (2 : ℚ) ^ num.log2 ≤ num := by exact_mod_cast Nat.log2_self_le hnum.ne'
  have hhigh : (num : ℚ) < 2 ^ (num.log2 + 1) := by exact_mod_cast Nat.lt_log2_self
  have dlow : (2 : ℚ) ^ den.log2 ≤ den := by exact_mod_cast Nat.log2_self_le hden.ne'
  have dhigh : (den : ℚ) < 2 ^ (den.log2 + 1) := by exact_mod_cast Nat.lt_log2_self
  have hgap (z : ℤ) : (2 : ℚ) ^ ((num.log2 : ℤ) - den.log2 + z) =
      2 ^ num.log2 / 2 ^ den.log2 * 2 ^ z := by
    rw [zpow_add₀ (by norm_num), zpow_sub₀ (by norm_num), zpow_natCast, zpow_natCast]
  have hbelow : (2 : ℚ) ^ ((num.log2 : ℤ) - den.log2 + -1) ≤ (num : ℚ) / den := by
    rw [hgap, zpow_neg_one, le_div_iff₀ hd]
    calc (2 : ℚ) ^ num.log2 / 2 ^ den.log2 * 2⁻¹ * den
        ≤ 2 ^ num.log2 / 2 ^ den.log2 * 2⁻¹ * 2 ^ (den.log2 + 1) := by gcongr
      _ = 2 ^ num.log2 := by field_simp; ring
      _ ≤ num := hlow
  have habove : (num : ℚ) / den < 2 ^ ((num.log2 : ℤ) - den.log2 + 1) := by
    rw [hgap, zpow_one, div_lt_iff₀ hd]
    calc (num : ℚ) < 2 ^ (num.log2 + 1) := hhigh
      _ = 2 ^ num.log2 / 2 ^ den.log2 * 2 * 2 ^ den.log2 := by field_simp; ring
      _ ≤ 2 ^ num.log2 / 2 ^ den.log2 * 2 * den := by gcongr
  have htest : den * 2 ^ ((num.log2 : ℤ) - den.log2).toNat ≤
      num * 2 ^ (-((num.log2 : ℤ) - den.log2)).toNat ↔
      (2 : ℚ) ^ ((num.log2 : ℤ) - den.log2) ≤ (num : ℚ) / den := by
    have hz := zpow_eq_div 2 (by decide) ((num.log2 : ℤ) - den.log2)
    push_cast at hz
    rw [hz, div_le_div_iff₀ (by positivity) hd, mul_comm den]
    exact_mod_cast Iff.rfl
  have hcast : ((2 : ℕ) : ℚ) = 2 := by norm_num
  have hle (z : ℤ) := Int.zpow_le_iff_le_log (b := 2) (R := ℚ) (by decide) (x := z) hr
  have hlt (z : ℤ) := Int.lt_zpow_iff_log_lt (b := 2) (R := ℚ) (by decide) (x := z) hr
  rw [hcast] at hle hlt
  unfold floorLog2
  by_cases h : (2 : ℚ) ^ ((num.log2 : ℤ) - den.log2) ≤ (num : ℚ) / den
  · have h1 := (hle _).mp h
    have h2 := (hlt _).mp habove
    simp only [Nat.pow_eq, htest, h, if_true]
    omega
  · have h1 := (hle _).mp hbelow
    have h2 := (hlt _).mp (not_le.mp h)
    simp only [Nat.pow_eq, htest, h, if_false]
    omega

theorem divToEven_mul (num den k : ℕ) (hk : 0 < k) :
    divToEven (num * k) (den * k) = divToEven num den := by
  unfold divToEven
  have hmod : num * k % (den * k) = num % den * k := Nat.mul_mod_mul_right k num den
  have hdiv : num * k / (den * k) = num / den := Nat.mul_div_mul_right num den hk
  have hlt : den * k < 2 * (num % den * k) ↔ den < 2 * (num % den) := by
    rw [← Nat.mul_assoc]
    exact Nat.mul_lt_mul_right hk
  have heq : 2 * (num % den * k) = den * k ↔ 2 * (num % den) = den := by
    rw [← Nat.mul_assoc]
    exact Nat.mul_left_inj hk.ne'
  simp only [hmod, hdiv, hlt, heq]

theorem divToEven_exact (q : ℕ) {den : ℕ} (hden : 0 < den) : divToEven (q * den) den = q := by
  have hne : (0 = den) = False := by simp [hden.ne]
  simp [divToEven, Nat.mul_div_cancel _ hden, hne]

theorem divToEven_congr {num den num' den' : ℕ} (hden : 0 < den) (hden' : 0 < den')
    (h : num * den' = num' * den) : divToEven num den = divToEven num' den' := by
  rw [← divToEven_mul num den den' hden', ← divToEven_mul num' den' den hden, h,
    Nat.mul_comm den den']

/-- The nearest double depends on the quotient only. -/
theorem nearestBits_congr {num den num' den' : ℕ} (hden : 0 < den) (hden' : 0 < den')
    (h : num * den' = num' * den) : nearestBits num den = nearestBits num' den' := by
  have hzero : num = 0 ↔ num' = 0 := by
    constructor
    · rintro rfl
      simpa [hden.ne'] using h.symm
    · rintro rfl
      simpa [hden'.ne'] using h
  by_cases hnum : num = 0
  · simp [nearestBits, hnum, hzero.mp hnum]
  have hnum' : num' ≠ 0 := fun h0 => hnum (hzero.mpr h0)
  have hlog : floorLog2 num den = floorLog2 num' den' := by
    have hq : (num : ℚ) / den = num' / den' := by
      rw [div_eq_div_iff (by exact_mod_cast hden.ne') (by exact_mod_cast hden'.ne')]
      exact_mod_cast h
    rw [floorLog2_eq (Nat.pos_of_ne_zero hnum) hden, floorLog2_eq (Nat.pos_of_ne_zero hnum') hden',
      hq]
  have hdiv (i j : ℕ) : divToEven (num * 2 ^ i) (den * 2 ^ j) =
      divToEven (num' * 2 ^ i) (den' * 2 ^ j) := by
    refine divToEven_congr (by positivity) (by positivity) ?_
    calc num * 2 ^ i * (den' * 2 ^ j) = num * den' * 2 ^ i * 2 ^ j := by ring
      _ = num' * 2 ^ i * (den * 2 ^ j) := by rw [h]; ring
  simp only [nearestBits, Nat.pow_eq, if_neg hnum, if_neg hnum', hlog, hdiv]

/-- A quotient that is a double has the bits of this double. The leading bit of the significand decides
the exponent. -/
theorem nearestBits_exact {num den significand : ℕ} {exponent : ℤ} (hden : 0 < den)
    (hpos : 0 < significand) (hlt : significand < 2 ^ 53) (hmin : -1074 ≤ exponent)
    (hnormal : 2 ^ 52 ≤ significand ∨ exponent = -1074)
    (h : (num : ℚ) / den = significand * 2 ^ exponent) :
    nearestBits num den =
      min ((exponent + 1074).toNat * 2 ^ 52 + significand) infinityBits := by
  have hd : (0 : ℚ) < den := Nat.cast_pos.mpr hden
  have hs : (0 : ℚ) < significand := Nat.cast_pos.mpr hpos
  have hnum : num ≠ 0 := by
    rintro rfl
    have hne : (0 : ℚ) < significand * 2 ^ exponent := by positivity
    simp [← h] at hne
  have hlog : floorLog2 num den = Nat.log2 significand + exponent := by
    rw [floorLog2_eq (Nat.pos_of_ne_zero hnum) hden, h]
    have hr : (0 : ℚ) < significand * 2 ^ exponent := by positivity
    have hcast : ((2 : ℕ) : ℚ) = 2 := by norm_num
    have hle := Int.zpow_le_iff_le_log (b := 2) (R := ℚ) (by decide)
      (x := Nat.log2 significand + exponent) hr
    have hlt := Int.lt_zpow_iff_log_lt (b := 2) (R := ℚ) (by decide)
      (x := Nat.log2 significand + exponent + 1) hr
    rw [hcast] at hle hlt
    have hlow : (2 : ℚ) ^ significand.log2 ≤ significand := by
      exact_mod_cast Nat.log2_self_le hpos.ne'
    have hhigh : (significand : ℚ) < 2 ^ (significand.log2 + 1) := by
      exact_mod_cast Nat.lt_log2_self
    have h1 := hle.mp (by
      rw [zpow_add₀ (by norm_num), zpow_natCast]
      gcongr)
    have h2 := hlt.mp (by
      rw [show (Nat.log2 significand : ℤ) + exponent + 1 = ((significand.log2 + 1 : ℕ) : ℤ) + exponent
        by push_cast; ring, zpow_add₀ (by norm_num), zpow_natCast]
      gcongr)
    omega
  have he : max (floorLog2 num den - 52) (-1074) = exponent := by
    have hhigh : significand.log2 ≤ 52 := by
      have := (Nat.log2_lt hpos.ne').mpr hlt
      omega
    rcases hnormal with hn | hn
    · have hlow : 52 ≤ significand.log2 := (Nat.le_log2 hpos.ne').mpr hn
      omega
    · omega
  have hdiv : divToEven (num * 2 ^ (-exponent).toNat) (den * 2 ^ exponent.toNat) = significand := by
    have hz := zpow_eq_div 2 (by decide) exponent
    push_cast at hz
    rw [hz] at h
    have hmul : num * 2 ^ (-exponent).toNat = significand * (den * 2 ^ exponent.toNat) := by
      have hq : (num : ℚ) * 2 ^ (-exponent).toNat = significand * (den * 2 ^ exponent.toNat) := by
        field_simp at h
        linarith
      exact_mod_cast hq
    rw [hmul, divToEven_exact _ (by positivity)]
  simp only [nearestBits, Nat.pow_eq, if_neg hnum, he, hdiv]

namespace Numeral

/-- The number that a numeral denotes. -/
def value (n : Numeral) : ℚ :=
  n.coefficient * 10 ^ n.exponent

theorem value_eq_div (n : Numeral) : n.value =
    (n.coefficient * 10 ^ n.exponent.toNat : ℕ) / (10 ^ (-n.exponent).toNat : ℕ) := by
  have hz := zpow_eq_div 10 (by decide) n.exponent
  push_cast at hz
  rw [value, hz]
  push_cast
  ring

theorem value_eq_zero_iff (n : Numeral) : n.value = 0 ↔ n.coefficient = 0 := by
  have hz : (10 : ℚ) ^ n.exponent ≠ 0 := by positivity
  simp [value, hz]

theorem digitCount_le_iff {n k : ℕ} (hk : 0 < k) : digitCount n ≤ k ↔ n < 10 ^ k :=
  Nat.length_toDigits_le_iff (by decide) hk

/-- The number of digits before the point. -/
theorem size_eq (n : Numeral) (h : n.coefficient ≠ 0) :
    (digitCount n.coefficient : ℤ) + n.exponent = Int.log 10 n.value + 1 := by
  have hpos : (0 : ℚ) < n.coefficient := Nat.cast_pos.mpr (Nat.pos_of_ne_zero h)
  have hv : 0 < n.value := by unfold value; positivity
  have hcast : ((10 : ℕ) : ℚ) = 10 := by norm_num
  have hcount : 0 < digitCount n.coefficient := Nat.length_toDigits_pos
  obtain ⟨k, hk⟩ : ∃ k, digitCount n.coefficient = k + 1 := ⟨_, (Nat.succ_pred_eq_of_pos hcount).symm⟩
  have hhigh : n.coefficient < 10 ^ (k + 1) := (digitCount_le_iff k.succ_pos).mp hk.le
  have hlow : 10 ^ k ≤ n.coefficient := by
    rcases Nat.eq_zero_or_pos k with rfl | hk0
    · simpa using Nat.one_le_iff_ne_zero.mpr h
    · by_contra hlt
      have := (digitCount_le_iff hk0).mpr (Nat.lt_of_not_le hlt)
      omega
  have hle := Int.zpow_le_iff_le_log (b := 10) (R := ℚ) (by decide) (x := k + n.exponent) hv
  have hlt := Int.lt_zpow_iff_log_lt (b := 10) (R := ℚ) (by decide) (x := k + 1 + n.exponent) hv
  rw [hcast] at hle hlt
  have hlow' : (10 : ℚ) ^ k ≤ n.coefficient := by exact_mod_cast hlow
  have hhigh' : (n.coefficient : ℚ) < 10 ^ (k + 1) := by exact_mod_cast hhigh
  have h1 := hle.mp (by
    rw [zpow_add₀ (by norm_num), zpow_natCast, value]
    gcongr)
  have h2 := hlt.mp (by
    rw [show (k : ℤ) + 1 = ((k + 1 : ℕ) : ℤ) by push_cast; ring, zpow_add₀ (by norm_num),
      zpow_natCast, value]
    gcongr)
  omega

/-- What a numeral reads as depends on the number that it denotes only. -/
theorem toBits_congr {n m : Numeral} (h : n.value = m.value) : n.toBits = m.toBits := by
  have hzero : n.coefficient = 0 ↔ m.coefficient = 0 := by
    rw [← value_eq_zero_iff, ← value_eq_zero_iff, h]
  by_cases hn : n.coefficient = 0
  · simp [toBits, hn, hzero.mp hn]
  have hm : m.coefficient ≠ 0 := fun h0 => hn (hzero.mpr h0)
  have hsize : (digitCount n.coefficient : ℤ) + n.exponent = digitCount m.coefficient + m.exponent := by
    rw [n.size_eq hn, m.size_eq hm, h]
  have hnearest : nearestBits (n.coefficient * 10 ^ n.exponent.toNat) (10 ^ (-n.exponent).toNat) =
      nearestBits (m.coefficient * 10 ^ m.exponent.toNat) (10 ^ (-m.exponent).toNat) := by
    refine nearestBits_congr (by positivity) (by positivity) ?_
    rw [n.value_eq_div, m.value_eq_div, div_eq_div_iff (by positivity) (by positivity)] at h
    exact_mod_cast h
  simp only [toBits, Nat.pow_eq, if_neg hn, if_neg hm, hsize, hnearest]

theorem two_pow_le_ten_pow : 2 ^ 53 * 2 ^ 971 ≤ 10 ^ 310 ∧ 2 ^ 1074 ≤ 10 ^ 325 := by
  decide +kernel

theorem toBits_exact {n : Numeral} {significand : ℕ} {exponent : ℤ} (hpos : 0 < significand)
    (hlt : significand < 2 ^ 53) (hmin : -1074 ≤ exponent) (hmax : exponent ≤ 971)
    (hnormal : 2 ^ 52 ≤ significand ∨ exponent = -1074)
    (h : n.value = significand * 2 ^ exponent) :
    n.toBits = min ((exponent + 1074).toNat * 2 ^ 52 + significand) infinityBits := by
  have hs : (0 : ℚ) < significand := Nat.cast_pos.mpr hpos
  have hv : 0 < n.value := by rw [h]; positivity
  have hn : n.coefficient ≠ 0 := fun h0 => hv.ne' (n.value_eq_zero_iff.mpr h0)
  have hcast : ((10 : ℕ) : ℚ) = 10 := by norm_num
  have hbelow : ¬ (310 : ℤ) < digitCount n.coefficient + n.exponent := by
    rw [n.size_eq hn]
    have hlog := Int.lt_zpow_iff_log_lt (b := 10) (R := ℚ) (by decide) (x := 310) hv
    rw [hcast] at hlog
    have hs' : (significand : ℚ) < 2 ^ 53 := by exact_mod_cast hlt
    have htop : (2 : ℚ) ^ 53 * 2 ^ 971 ≤ 10 ^ 310 := by exact_mod_cast two_pow_le_ten_pow.1
    have hup : (2 : ℚ) ^ exponent ≤ 2 ^ (971 : ℤ) := zpow_le_zpow_right₀ (by norm_num) hmax
    have := hlog.mp (by
      calc n.value = significand * 2 ^ exponent := h
        _ < 2 ^ 53 * 2 ^ exponent := by gcongr
        _ ≤ 2 ^ 53 * 2 ^ (971 : ℤ) := by gcongr
        _ ≤ 10 ^ (310 : ℤ) := by exact_mod_cast htop)
    omega
  have habove : ¬ (digitCount n.coefficient : ℤ) + n.exponent < -325 := by
    rw [n.size_eq hn]
    have hlog := Int.zpow_le_iff_le_log (b := 10) (R := ℚ) (by decide) (x := -325) hv
    rw [hcast] at hlog
    have hs' : (1 : ℚ) ≤ significand := by exact_mod_cast hpos
    have hbottom : (2 : ℚ) ^ 1074 ≤ 10 ^ 325 := by exact_mod_cast two_pow_le_ten_pow.2
    have hdown : (2 : ℚ) ^ (-1074 : ℤ) ≤ 2 ^ exponent := zpow_le_zpow_right₀ (by norm_num) hmin
    have := hlog.mp (by
      calc (10 : ℚ) ^ (-325 : ℤ) = (10 ^ 325)⁻¹ := by rw [zpow_neg]; rfl
        _ ≤ (2 ^ 1074)⁻¹ := by gcongr
        _ = 1 * 2 ^ (-1074 : ℤ) := by rw [zpow_neg, one_mul]; rfl
        _ ≤ significand * 2 ^ exponent := by gcongr
        _ = n.value := h.symm)
    omega
  simp only [toBits, Nat.pow_eq, if_neg hn, if_neg hbelow, if_neg habove]
  refine nearestBits_exact (by positivity) hpos hlt hmin hnormal ?_
  rw [← n.value_eq_div, h]

end Numeral

end RegionIR.Decimal
