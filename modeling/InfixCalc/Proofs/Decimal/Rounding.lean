import InfixCalc.Decimal.Rounding
import Mathlib.Algebra.Order.Field.Basic
import Mathlib.Algebra.Order.Field.Rat
import Mathlib.Algebra.Order.Round
import Mathlib.Algebra.Ring.Int.Parity
import Mathlib.Data.Rat.Floor
import Mathlib.Tactic.FieldSimp
import Mathlib.Tactic.Linarith
import Mathlib.Tactic.Ring

namespace InfixCalc.Decimal

/-- No `value j` is nearer to `q` than `value i`, and if another one is as near then `i` is even. -/
structure IsNearest {ι : Type*} (value : ι → ℚ) (IsEven : ι → Prop) (q : ℚ) (i : ι) : Prop where
  le (j : ι) : |value i - q| ≤ |value j - q|
  even (j : ι) : |value i - q| = |value j - q| → value j = value i ∨ IsEven i

theorem IsNearest.mul {ι : Type*} {value : ι → ℚ} {IsEven : ι → Prop} {q : ℚ} {i : ι}
    (h : IsNearest value IsEven q i) {c : ℚ} (hc : 0 < c) :
    IsNearest (fun j => value j * c) IsEven (q * c) i := by
  have hscale (j : ι) : |value j * c - q * c| = |value j - q| * c := by
    rw [← sub_mul, abs_mul, abs_of_pos hc]
  refine ⟨fun j => ?_, fun j heq => ?_⟩
  · rw [hscale, hscale]
    exact mul_le_mul_of_nonneg_right (h.le j) hc.le
  · rw [hscale, hscale] at heq
    exact (h.even j (mul_right_cancel₀ hc.ne' heq)).imp (congrArg (· * c)) id

section
variable {q q' : ℚ} {n n' : ℤ}

theorem one_half_le_abs_sub (hle : |(n : ℚ) - q| ≤ 1 / 2) (h : n' ≠ n) : 1 / 2 ≤ |(n' : ℚ) - q| := by
  have hapart : (1 : ℚ) ≤ |(n' : ℚ) - n| := by
    exact_mod_cast Int.one_le_abs (sub_ne_zero.2 h)
  have hbetween := abs_sub_le (n' : ℚ) q n
  rw [abs_sub_comm q] at hbetween
  linarith

theorem isNearest_of_abs_sub_le (hle : |(n : ℚ) - q| ≤ 1 / 2) (heven : |(n : ℚ) - q| = 1 / 2 → Even n) :
    IsNearest (fun k : ℤ => (k : ℚ)) Even q n := by
  refine ⟨fun k => ?_, fun k heq => ?_⟩
  · by_cases hk : k = n
    · rw [hk]
    · exact hle.trans (one_half_le_abs_sub hle hk)
  · by_cases hk : k = n
    · exact .inl (by rw [hk])
    · exact .inr (heven (hle.antisymm (heq ▸ one_half_le_abs_sub hle hk)))

theorem isNearest_self (n : ℤ) : IsNearest (fun k : ℤ => (k : ℚ)) Even n n :=
  isNearest_of_abs_sub_le (by norm_num) (by norm_num)

theorem IsNearest.abs_sub_le_half (h : IsNearest (fun k : ℤ => (k : ℚ)) Even q n) : |(n : ℚ) - q| ≤ 1 / 2 :=
  (h.le (round q)).trans (abs_sub_comm q _ ▸ abs_sub_round q)

theorem IsNearest.neg (h : IsNearest (fun k : ℤ => (k : ℚ)) Even q n) :
    IsNearest (fun k : ℤ => (k : ℚ)) Even (-q) (-n) := by
  have hmirror (k : ℤ) : |(k : ℚ) - -q| = |((-k : ℤ) : ℚ) - q| := by
    rw [Int.cast_neg, ← neg_add', abs_neg, sub_neg_eq_add]
  refine ⟨fun k => ?_, fun k heq => ?_⟩
  · rw [hmirror, hmirror, neg_neg]
    exact h.le (-k)
  · rw [hmirror, hmirror, neg_neg] at heq
    refine (h.even (-k) heq).imp (fun hvalue => ?_) Even.neg
    rw [Int.cast_neg, ← hvalue, Int.cast_neg, neg_neg]

theorem add_le_two_mul_of_abs_sub_le (h : n' < n) (hle : |(n : ℚ) - q| ≤ |(n' : ℚ) - q|) :
    (n : ℚ) + n' ≤ 2 * q := by
  have hlt : (n' : ℚ) < n := by exact_mod_cast h
  rcases abs_cases ((n : ℚ) - q) with h1 | h1 <;> rcases abs_cases ((n' : ℚ) - q) with h2 | h2 <;> linarith

theorem two_mul_le_add_of_abs_sub_le (h : n' < n) (hle : |(n' : ℚ) - q| ≤ |(n : ℚ) - q|) :
    2 * q ≤ (n : ℚ) + n' := by
  have hlt : (n' : ℚ) < n := by exact_mod_cast h
  rcases abs_cases ((n : ℚ) - q) with h1 | h1 <;> rcases abs_cases ((n' : ℚ) - q) with h2 | h2 <;> linarith

theorem IsNearest.mono (h : IsNearest (fun k : ℤ => (k : ℚ)) Even q n)
    (h' : IsNearest (fun k : ℤ => (k : ℚ)) Even q' n') (hq : q ≤ q') : n ≤ n' := by
  by_contra hlt
  rw [not_le] at hlt
  -- Otherwise both numbers are in the middle between the two, which are then neighbours and both even.
  have hbelow := add_le_two_mul_of_abs_sub_le hlt (h.le n')
  have habove := two_mul_le_add_of_abs_sub_le hlt (h'.le n)
  obtain rfl : q = q' := by linarith
  have hdistance : |(n : ℚ) - q| = |(n' : ℚ) - q| := (h.le n').antisymm (h'.le n)
  have hne : (n' : ℚ) ≠ n := by exact_mod_cast hlt.ne
  have heven := (h.even n' hdistance).resolve_left hne
  have heven' := (h'.even n hdistance.symm).resolve_left hne.symm
  have hnext : n = n' + 1 := by
    by_contra hapart
    have hbetween := add_le_two_mul_of_abs_sub_le (by omega) (h.le (n' + 1))
    push_cast at hbetween
    linarith
  rw [Int.even_iff] at heven heven'
  omega

theorem IsNearest.le_of_even (h : IsNearest (fun k : ℤ => (k : ℚ)) Even q n) (heven : Even n')
    (hq : (n' : ℚ) - 1 / 2 ≤ q) : n' ≤ n := by
  refine (isNearest_of_abs_sub_le ?_ fun _ => heven).mono h hq
  rw [sub_sub_cancel]
  norm_num

theorem IsNearest.ge_of_even (h : IsNearest (fun k : ℤ => (k : ℚ)) Even q n) (heven : Even n')
    (hq : q ≤ n' + 1 / 2) : n ≤ n' := by
  refine h.mono (isNearest_of_abs_sub_le ?_ fun _ => heven) hq
  rw [sub_add_cancel_left]
  norm_num

end

section
variable (num : ℕ) {den : ℕ}

theorem two_mul_abs_roundHalfEven_sub (h : 0 < den) :
    2 * |(roundHalfEven num den * den - num : ℤ)| ≤ den ∧
      (2 * |(roundHalfEven num den * den - num : ℤ)| = den → Even (roundHalfEven num den : ℤ)) := by
  have hnum : (num : ℤ) = (num / den : ℕ) * den + (num % den : ℕ) := by
    exact_mod_cast (Nat.div_add_mod' num den).symm
  have hlt := Nat.mod_lt num h
  simp only [roundHalfEven]
  generalize num % den = r at *
  generalize num / den = q at *
  rw [hnum, Int.even_iff]
  split
  · rw [sub_add_cancel_left, abs_neg, abs_of_nonneg (by omega)]
    omega
  · split
    · push_cast
      rw [add_mul, add_sub_add_left_eq_sub, one_mul, abs_of_nonneg (by omega)]
      omega
    · rcases Nat.mod_two_eq_zero_or_one q with hq | hq
      · rw [hq, add_zero, sub_add_cancel_left, abs_neg, abs_of_nonneg (by omega)]
        omega
      · push_cast [hq]
        rw [add_mul, add_sub_add_left_eq_sub, one_mul, abs_of_nonneg (by omega)]
        omega

theorem isNearest_roundHalfEven (h : 0 < den) :
    IsNearest (fun k : ℤ => (k : ℚ)) Even (num / den) (roundHalfEven num den : ℤ) := by
  obtain ⟨hle, heven⟩ := two_mul_abs_roundHalfEven_sub num h
  have hden : (0 : ℚ) < den := by exact_mod_cast h
  have hsub : |((roundHalfEven num den : ℤ) : ℚ) - num / den| =
      (|(roundHalfEven num den * den - num : ℤ)| : ℤ) / den := by
    rw [Int.cast_abs, ← abs_of_pos hden, ← abs_div, abs_of_pos hden]
    push_cast
    congr 1
    field_simp
  refine isNearest_of_abs_sub_le ?_ fun heq => heven ?_
  · rw [hsub, div_le_iff₀ hden]
    have : (2 : ℚ) * (|(roundHalfEven num den * den - num : ℤ)| : ℤ) ≤ den := by exact_mod_cast hle
    linarith
  · rw [hsub, div_eq_iff hden.ne'] at heq
    have : (2 : ℚ) * (|(roundHalfEven num den * den - num : ℤ)| : ℤ) = den := by linarith
    exact_mod_cast this

end
end InfixCalc.Decimal
