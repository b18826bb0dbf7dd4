import Mathlib.Data.List.TakeWhile
import RegionIR.Proofs.Decimal.Nearest

/-! The text of a double.

The digits of a text denote the same number as the numeral that was written, and the numeral
that is written for a double reads as this double. -/

namespace RegionIR.Decimal

/-- Whether a pattern is a number. -/
def Binary64.isFinite : Binary64 → Bool
  | .finite .. => true
  | _ => false

/-- The number between zero and one that digits after a point denote. -/
def fractionValue (digits : List Char) : ℚ :=
  Nat.ofDigitChars 10 digits 0 / 10 ^ digits.length

theorem ofDigitChars_append_zero (whole digits : List Char) :
    Nat.ofDigitChars 10 (whole ++ digits) 0 =
      10 ^ digits.length * Nat.ofDigitChars 10 whole 0 + Nat.ofDigitChars 10 digits 0 := by
  rw [Nat.ofDigitChars_append, Nat.ofDigitChars_eq_ofDigitChars_zero]

theorem fractionValue_append_zeros (digits : List Char) (k : ℕ) :
    fractionValue (digits ++ List.replicate k '0') = fractionValue digits := by
  have hzeros : Nat.ofDigitChars 10 (List.replicate k '0') 0 = 0 := by
    simp [Nat.ofDigitChars_replicate_zero]
  unfold fractionValue
  rw [ofDigitChars_append_zero, hzeros, List.length_append, List.length_replicate]
  push_cast
  field_simp
  ring

theorem exists_zeros (digits : List Char) :
    ∃ k, digits = dropTrailingZeros digits ++ List.replicate k '0' := by
  obtain ⟨k, hk⟩ : ∃ k, digits.reverse.takeWhile (· == '0') = List.replicate k '0' :=
    ⟨_, List.eq_replicate_of_mem fun c hc => by
      simpa using List.mem_takeWhile_imp hc⟩
  refine ⟨k, ?_⟩
  have hsplit := congrArg List.reverse
    (List.takeWhile_append_dropWhile (p := (· == '0')) (l := digits.reverse))
  rw [List.reverse_append, List.reverse_reverse, hk, List.reverse_replicate] at hsplit
  exact hsplit.symm

theorem fractionValue_dropTrailingZeros (digits : List Char) :
    fractionValue (dropTrailingZeros digits) = fractionValue digits := by
  obtain ⟨k, hk⟩ := exists_zeros digits
  conv_rhs => rw [hk]
  exact (fractionValue_append_zeros _ k).symm

theorem fractionValue_padLeft {places n : ℕ} (hp : 0 < places) (hn : n < 10 ^ places) :
    fractionValue (padLeft places (Nat.toDigits 10 n)) = n / 10 ^ places := by
  have hlen : (Nat.toDigits 10 n).length ≤ places :=
    (Nat.length_toDigits_le_iff (by decide) hp).mpr hn
  unfold fractionValue padLeft
  rw [ofDigitChars_append_zero, Nat.ofDigitChars_replicate_zero, Nat.ofDigitChars_ten_toDigits]
  simp [Nat.sub_add_cancel hlen]

/-- All characters are digits, and there is at least one. -/
def IsDigits (digits : List Char) : Prop :=
  digits ≠ [] ∧ ∀ c ∈ digits, c.isDigit

theorem isDigits_toDigits (n : ℕ) : IsDigits (Nat.toDigits 10 n) :=
  ⟨Nat.toDigits_ne_nil, fun _ hc => Nat.isDigit_of_mem_toDigits (by decide) (by decide) hc⟩

theorem isDigit_of_mem_places {places n : ℕ} {c : Char}
    (hc : c ∈ dropTrailingZeros (padLeft places (Nat.toDigits 10 n))) : c.isDigit := by
  obtain ⟨k, hk⟩ := exists_zeros (padLeft places (Nat.toDigits 10 n))
  have hpad : c ∈ padLeft places (Nat.toDigits 10 n) := by
    rw [hk]
    exact List.mem_append_left _ hc
  rcases List.mem_append.mp hpad with hm | hm
  · rw [List.eq_of_mem_replicate hm]
    decide
  · exact (isDigits_toDigits n).2 c hm

namespace Numeral

theorem value_parts (n : Numeral) :
    Nat.ofDigitChars 10 n.parts.1 0 + fractionValue n.parts.2 = n.value := by
  have hvalue : n.value = (n.coefficient * 10 ^ n.exponent.toNat : ℕ) / 10 ^ (-n.exponent).toNat := by
    rw [n.value_eq_div]
    push_cast
    rfl
  simp only [parts, Nat.pow_eq, Nat.ofDigitChars_ten_toDigits]
  generalize hc : n.coefficient * 10 ^ n.exponent.toNat = c at hvalue ⊢
  generalize (-n.exponent).toNat = places at hvalue ⊢
  have hdiv : (c : ℚ) = (c / 10 ^ places : ℕ) * 10 ^ places + (c % 10 ^ places : ℕ) := by
    exact_mod_cast (Nat.div_add_mod' c (10 ^ places)).symm
  by_cases hp : places = 0
  · subst hp
    simp [hvalue, fractionValue]
  · rw [if_neg hp, fractionValue_dropTrailingZeros,
      fractionValue_padLeft (Nat.pos_of_ne_zero hp) (Nat.mod_lt c (by positivity)), hvalue, hdiv]
    field_simp

theorem isDigit_of_mem_parts {n : Numeral} {c : Char} (hc : c ∈ n.parts.2) : c.isDigit := by
  simp only [parts] at hc
  split at hc
  · simp at hc
  · exact isDigit_of_mem_places hc

theorem exists_digits (n : Numeral) : ∃ whole fraction, n.text.toList = whole ++ '.' :: fraction ∧
    IsDigits whole ∧ IsDigits fraction ∧
    value ⟨Nat.ofDigitChars 10 (whole ++ fraction) 0, -(fraction.length : ℤ)⟩ = n.value := by
  have hvalue (whole fraction : List Char) :
      value ⟨Nat.ofDigitChars 10 (whole ++ fraction) 0, -(fraction.length : ℤ)⟩ =
        Nat.ofDigitChars 10 whole 0 + fractionValue fraction := by
    rw [value, ofDigitChars_append_zero, fractionValue, zpow_neg, zpow_natCast]
    push_cast
    field_simp
  have hwhole : IsDigits n.parts.1 := isDigits_toDigits _
  refine ⟨n.parts.1, if n.parts.2.isEmpty then ['0'] else n.parts.2, ?_, hwhole, ?_, ?_⟩
  · simp [text]
  · by_cases he : n.parts.2 = []
    · simp [he, IsDigits]
    · simpa [he, IsDigits] using fun c hc => isDigit_of_mem_parts hc
  · rw [hvalue, ← n.value_parts]
    by_cases he : n.parts.2 = []
    · simp [he, fractionValue, Nat.ofDigitChars]
    · simp [he]

theorem text_reads (n : Numeral) : ∃ whole fraction, n.text.toList = whole ++ '.' :: fraction ∧
    IsDigits whole ∧ IsDigits fraction ∧
    toBits ⟨Nat.ofDigitChars 10 (whole ++ fraction) 0, -(fraction.length : ℤ)⟩ = n.toBits := by
  obtain ⟨whole, fraction, htext, hw, hf, hvalue⟩ := n.exists_digits
  exact ⟨whole, fraction, htext, hw, hf, toBits_congr hvalue⟩

end Numeral

theorem toBits_of_gridNumeral {bits num den : ℕ} {k : ℤ} {n : Numeral}
    (h : gridNumeral bits num den k = some n) : n.toBits = bits := by
  simp only [gridNumeral] at h
  split at h
  · rename_i hbelow
    split at h
    · rename_i habove
      cases Option.some.inj h
      exact habove.1
    · cases Option.some.inj h
      exact hbelow
  · split at h
    · rename_i habove
      cases Option.some.inj h
      exact habove
    · simp at h

theorem value_exactNumeral (significand : ℕ) (exponent : ℤ) :
    (exactNumeral significand exponent).value = significand * 2 ^ exponent := by
  unfold exactNumeral
  rcases Int.le_total 0 exponent with he | he
  · obtain ⟨n, rfl⟩ := Int.eq_ofNat_of_zero_le he
    simp [Numeral.value]
  · obtain ⟨n, hn⟩ := Int.eq_ofNat_of_zero_le (Int.neg_nonneg_of_nonpos he)
    obtain rfl : exponent = -(n : ℤ) := by omega
    split
    · obtain rfl : n = 0 := by omega
      simp [Numeral.value]
    · simp only [Numeral.value, Nat.pow_eq, neg_neg, Int.toNat_natCast, zpow_neg, zpow_natCast, Nat.cast_mul,
        Nat.cast_pow, Nat.cast_ofNat]
      rw [show (10 : ℚ) ^ n = 2 ^ n * 5 ^ n by rw [← mul_pow]; norm_num]
      field_simp

theorem toBits_shortest {bits significand : ℕ} {exponent : ℤ} (hpos : 0 < significand)
    (hlt : significand < 2 ^ 53) (hmin : -1074 ≤ exponent) (hmax : exponent ≤ 971)
    (hnormal : 2 ^ 52 ≤ significand ∨ exponent = -1074)
    (hbits : bits = (exponent + 1074).toNat * 2 ^ 52 + significand) (hfinite : bits ≤ infinityBits) :
    (shortest bits significand exponent).toBits = bits := by
  simp only [shortest, Nat.pow_eq]
  cases hs : (List.range 17).findSome? fun n => gridNumeral bits (significand * 2 ^ exponent.toNat)
      (2 ^ (-exponent).toNat) (decimalWidth (significand * 2 ^ exponent.toNat)
        (2 ^ (-exponent).toNat) - (n + 1 : ℕ)) with
  | some n =>
    obtain ⟨i, -, hi⟩ := List.exists_of_findSome?_eq_some hs
    exact toBits_of_gridNumeral hi
  | none =>
    rw [Option.getD_none, Numeral.toBits_exact hpos hlt hmin hmax hnormal
      (value_exactNumeral significand exponent), ← hbits, Nat.min_eq_left hfinite]

/-- The text of a finite double is a sign and a numeral that reads as the double without it. -/
theorem floatText_finite {bits : UInt64} (h : (Binary64.ofBits bits).isFinite) :
    ∃ n : Numeral, floatText bits = (if signBit ≤ bits.toNat then "-" else "") ++ n.text ∧
      n.toBits + (if signBit ≤ bits.toNat then signBit else 0) = bits.toNat := by
  have hlt : bits.toNat < 2 ^ 64 := bits.toNat_lt
  generalize hn : bits.toNat = b at hlt
  have hsign : signBit = 2 ^ 63 := rfl
  have hsplit : b % signBit + (if signBit ≤ b then signBit else 0) = b := by
    rw [hsign]
    split <;> omega
  have hexp : b % signBit = b / 2 ^ 52 % 2048 * 2 ^ 52 + b % 2 ^ 52 := by
    rw [hsign]
    omega
  simp only [floatText, Binary64.ofBits, Nat.pow_eq, hn] at h ⊢
  split at h
  · split at h <;> simp [Binary64.isFinite] at h
  rename_i hbiased
  have hfinite : b % signBit ≤ infinityBits := by
    simp only [infinityBits, Nat.pow_eq]
    omega
  rw [if_neg hbiased]
  by_cases hsub : b / 2 ^ 52 % 2048 = 0
  · rw [if_pos hsub]
    refine ⟨if b % 2 ^ 52 = 0 then ⟨0, 0⟩ else shortest (b % signBit) (b % 2 ^ 52) (-1074),
      by simp only [decide_eq_true_eq], ?_⟩
    split
    · rename_i hzero
      rw [hzero, hsub] at hexp
      rw [hexp] at hsplit
      simpa [Numeral.toBits] using hsplit
    · rename_i hpos
      rw [toBits_shortest (Nat.pos_of_ne_zero hpos) (by omega) (by omega) (by omega) (.inr rfl) ?_
        hfinite, hsplit]
      rw [hexp, hsub]
      rfl
  · rw [if_neg hsub]
    refine ⟨if b % 2 ^ 52 + 2 ^ 52 = 0 then ⟨0, 0⟩ else
      shortest (b % signBit) (b % 2 ^ 52 + 2 ^ 52) (Int.ofNat (b / 2 ^ 52 % 2048) - 1075),
      by simp only [decide_eq_true_eq], ?_⟩
    rw [if_neg (by omega), toBits_shortest (by omega) (by omega) ?_ ?_ (.inl (by omega)) ?_ hfinite,
      hsplit]
    · simp only [Int.ofNat_eq_natCast]
      omega
    · simp only [Int.ofNat_eq_natCast]
      omega
    · obtain ⟨e, he⟩ : ∃ e, b / 2 ^ 52 % 2048 = e + 1 := ⟨_, (Nat.succ_pred_eq_of_ne_zero hsub).symm⟩
      have hcount : (Int.ofNat (e + 1) - 1075 + 1074).toNat = e := by
        simp only [Int.ofNat_eq_natCast]
        omega
      rw [hexp, he, hcount, Nat.succ_mul, Nat.add_assoc, Nat.add_comm (2 ^ 52)]

end RegionIR.Decimal
