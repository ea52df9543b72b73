import InfixCalc.Proofs.Decimal.Literal
import InfixCalc.Proofs.Decimal.Nearest

namespace InfixCalc

namespace Decimal

theorem cast_tenTo (n : ℕ) : (tenTo n : ℚ) = 10 ^ n := by
  rw [tenTo, Nat.pow_eq, Nat.cast_pow, Nat.cast_ofNat]

theorem eight_pow (n : ℕ) : (8 : ℚ) ^ n = 2 ^ (3 * n) := by
  rw [pow_mul]
  norm_num only

theorem two_pow_le_ten_pow {m n : ℕ} (h : m ≤ 3 * n) : (2 : ℚ) ^ m ≤ 10 ^ n :=
  calc
    (2 : ℚ) ^ m ≤ 2 ^ (3 * n) := pow_le_pow_right₀ (by norm_num) h
    _ = 8 ^ n := (eight_pow n).symm
    _ ≤ 10 ^ n := by gcongr; norm_num

namespace Numeral

open Binary64

variable {coefficient num den : ℕ} {exponent : ℤ}

theorem nearestBits_of_exponent_gt (h : 0 < den) (hvalue : (num : ℚ) / den = coefficient * 10 ^ exponent)
    (hexponent : 400 < exponent) (hcoefficient : coefficient ≠ 0) : nearestBits num den = infinityBits := by
  rw [nearestBits_eq_infinityBits_iff num h, hvalue]
  have hone : (1 : ℚ) ≤ coefficient := by exact_mod_cast Nat.one_le_iff_ne_zero.2 hcoefficient
  calc
    (2 ^ 1024 - 2 ^ 970 : ℚ) ≤ 2 ^ 1024 := sub_le_self _ (by positivity)
    _ ≤ 10 ^ 342 := two_pow_le_ten_pow (by norm_num)
    _ = 10 ^ (342 : ℤ) := (zpow_natCast _ _).symm
    _ ≤ 10 ^ exponent := zpow_le_zpow_right₀ (by norm_num) (by omega)
    _ ≤ coefficient * 10 ^ exponent := le_mul_of_one_le_left (by positivity) hone

theorem nearestBits_of_exponent_lt (h : 0 < den) (hvalue : (num : ℚ) / den = coefficient * 10 ^ exponent)
    (hexponent : exponent < -(400 + coefficient.log2 : Int)) : nearestBits num den = 0 := by
  refine nearestBits_eq_zero num h ?_
  obtain ⟨k, rfl⟩ : ∃ k : ℕ, exponent = -k := ⟨(-exponent).toNat, by omega⟩
  have hcoefficient : (coefficient : ℚ) < 2 ^ (coefficient.log2 + 1) := by
    exact_mod_cast Nat.lt_log2_self
  have hsmall : (coefficient : ℚ) * 2 ^ 1075 < 10 ^ k :=
    calc
      (coefficient : ℚ) * 2 ^ 1075 < 2 ^ (coefficient.log2 + 1) * 2 ^ 1075 := by gcongr
      _ = 2 ^ (coefficient.log2 + 1 + 1075) := (pow_add _ _ _).symm
      _ ≤ 10 ^ k := two_pow_le_ten_pow (by omega)
  have hpow : (0 : ℚ) < 10 ^ k := by positivity
  rw [unitsOf_eq, hvalue, cast_one, zpow_neg, zpow_natCast, mul_right_comm, ← div_eq_mul_inv, div_lt_iff₀ hpow]
  rw [pow_succ, ← mul_assoc] at hsmall
  generalize (2 : ℚ) ^ 1074 = units at *
  linarith

theorem nearest_congr (negative : Bool) {num' den' : ℕ} (h : nearestBits num den = nearestBits num' den') :
    nearest negative num den = nearest negative num' den' := by
  rw [nearest, h, nearest]

theorem toFloat_finite (negative : Bool) (h : 0 < den)
    (hvalue : (num : ℚ) / den = coefficient * 10 ^ exponent) :
    (Numeral.finite negative coefficient exponent).toFloat = nearest negative num den := by
  have hzero : nearestBits 0 1 = 0 := nearestBits_eq_zero 0 (by decide) (by simp [unitsOf])
  rw [toFloat]
  split
  · next hlarge => exact infinity_eq_nearest num negative (nearestBits_of_exponent_gt h hvalue hlarge.1 hlarge.2)
  · split
    · next hsmall =>
      refine nearest_congr negative (hzero.trans (Eq.symm ?_))
      rcases hsmall with hsmall | rfl
      · exact nearestBits_of_exponent_lt h hvalue hsmall
      · refine nearestBits_eq_zero num h ?_
        rw [unitsOf_eq, hvalue]
        norm_num
    · split
      · next hexponent =>
        obtain ⟨k, rfl⟩ := Int.eq_ofNat_of_zero_le hexponent
        refine nearest_congr negative (nearestBits_congr (by decide) h ?_)
        rw [hvalue, Nat.cast_mul, cast_tenTo, Nat.cast_one, div_one]
        rfl
      · next hexponent =>
        obtain ⟨k, rfl⟩ : ∃ k : ℕ, exponent = -k := ⟨(-exponent).toNat, by omega⟩
        refine nearest_congr negative (nearestBits_congr (tenTo_pos _) h ?_)
        rw [hvalue, cast_tenTo, zpow_neg, zpow_natCast, neg_neg, Int.toNat_natCast, div_eq_mul_inv]

end Numeral

structure Literal where
  whole : List Char
  fraction : List Char
  isDigits_whole : IsDigits whole
  isDigit_of_mem_fraction : ∀ c ∈ fraction, isDigit c

namespace Literal

def chars (l : Literal) : List Char := l.whole ++ if l.fraction = [] then [] else '.' :: l.fraction

def value (l : Literal) : ℚ := digitsValue l.whole + digitsValue l.fraction / 10 ^ l.fraction.length

theorem exists_isDigits_fraction (l : Literal) :
    l.fraction = [] ∧ l.chars = l.whole ∨ IsDigits l.fraction ∧ l.chars = l.whole ++ '.' :: l.fraction := by
  rw [chars]
  by_cases h : l.fraction = []
  · exact .inl ⟨h, by rw [if_pos h, List.append_nil]⟩
  · exact .inr ⟨⟨h, l.isDigit_of_mem_fraction⟩, by rw [if_neg h]⟩

theorem isLiteral_iff {cs : List Char} : IsLiteral cs ↔ ∃ l : Literal, l.chars = cs := by
  constructor
  · rintro (h | ⟨h, h'⟩)
    · exact ⟨⟨_, [], h, List.forall_mem_nil _⟩, List.append_nil _⟩
    · exact ⟨⟨_, _, h, h'.2⟩, by rw [chars, if_neg h'.1]⟩
  · rintro ⟨l, rfl⟩
    rcases l.exists_isDigits_fraction with ⟨-, hchars⟩ | ⟨hfraction, hchars⟩ <;> rw [hchars]
    · exact .whole l.isDigits_whole
    · exact .pointed l.isDigits_whole hfraction

theorem digitsValue_append (ds fs : List Char) :
    digitsValue (ds ++ fs) = digitsValue ds * 10 ^ fs.length + digitsValue fs := by
  rw [digitsValue, Nat.ofDigitChars_append, Nat.ofDigitChars_eq_ofDigitChars_zero, mul_comm]
  rfl

theorem value_eq (l : Literal) :
    l.value = digitsValue (l.whole ++ l.fraction) / 10 ^ l.fraction.length := by
  have hpow : (10 : ℚ) ^ l.fraction.length ≠ 0 := by positivity
  rw [value, digitsValue_append]
  push_cast
  field_simp

theorem ofString?_eq (l : Literal) : Numeral.ofString? (String.ofList l.chars) =
    some (.finite false (digitsValue (l.whole ++ l.fraction)) (-l.fraction.length)) := by
  have hliteral : IsLiteral l.chars := isLiteral_iff.2 ⟨l, rfl⟩
  rw [Numeral.ofString?, hliteral.plain_eq, hliteral.ofChars?_eq]
  rcases l.exists_isDigits_fraction with ⟨hfraction, hchars⟩ | ⟨hfraction, hchars⟩ <;> rw [hchars]
  · rw [l.isDigits_whole.decimal?_eq, hfraction, List.append_nil]
    rfl
  · exact l.isDigits_whole.decimal?_pointed hfraction

end Literal
end Decimal
end InfixCalc
