import InfixCalc.Proofs.Decimal.Bits
import InfixCalc.Proofs.Decimal.Rounding

/-!
The nearest float to a number. It is found in the scale of the number, where every whole number of steps
that has a mantissa is a float, and whatever has a smaller scale is further away.
-/

namespace InfixCalc.Decimal

namespace Binary64

theorem cast_shiftLeft (n k : ℕ) : ((n <<< k : ℕ) : ℚ) = n * 2 ^ k := by
  rw [Nat.shiftLeft_eq, Nat.cast_mul, Nat.cast_pow, Nat.cast_ofNat]

theorem cast_one : (one : ℚ) = 2 ^ 1074 := (cast_shiftLeft 1 1074).trans (by rw [Nat.cast_one, one_mul])

theorem cast_one_pos : (0 : ℚ) < one := by
  rw [cast_one]
  positivity

section
variable (num den : ℕ)

def scaleOf : ℕ := (num * one / den).log2 - 52

def mantissaOf : ℕ := roundHalfEven (num * one) (den <<< scaleOf num den)

theorem nearestBits_eq :
    nearestBits num den = min (magnitudeBits (mantissaOf num den) (scaleOf num den)) infinityBits := rfl

def unitsOf : ℚ := num * one / den

theorem unitsOf_nonneg : 0 ≤ unitsOf num den := by
  unfold unitsOf
  positivity

variable {den}

theorem isNearest_mantissaOf (h : 0 < den) :
    IsNearest (fun k : ℤ => (k : ℚ)) Even (unitsOf num den / 2 ^ scaleOf num den) (mantissaOf num den : ℤ) := by
  have hshift : 0 < den <<< scaleOf num den := by
    rw [Nat.shiftLeft_eq]
    positivity
  have hnearest := isNearest_roundHalfEven (num * one) hshift
  have hunits : ((num * one : ℕ) : ℚ) / (den <<< scaleOf num den : ℕ) =
      unitsOf num den / 2 ^ scaleOf num den := by
    rw [cast_shiftLeft, unitsOf, div_div, Nat.cast_mul]
  rwa [hunits] at hnearest

theorem unitsOf_lt (h : 0 < den) : unitsOf num den < 2 * fractions * 2 ^ scaleOf num den := by
  have hlog : num * one / den < 2 ^ 53 * 2 ^ scaleOf num den := by
    rw [← Nat.pow_add]
    refine Nat.lt_log2_self.trans_le (Nat.pow_le_pow_right (by decide) ?_)
    rw [scaleOf]
    omega
  rw [Nat.div_lt_iff_lt_mul h] at hlog
  have hden : (0 : ℚ) < den := by exact_mod_cast h
  rw [unitsOf, div_lt_iff₀ hden]
  exact_mod_cast hlog

theorem le_unitsOf (h : 0 < den) (hs : scaleOf num den ≠ 0) :
    fractions * 2 ^ scaleOf num den ≤ unitsOf num den := by
  have hne : num * one / den ≠ 0 := by
    intro hzero
    rw [scaleOf, hzero] at hs
    exact hs rfl
  have hlog : 2 ^ 52 * 2 ^ scaleOf num den ≤ num * one / den := by
    rw [← Nat.pow_add]
    refine (Nat.pow_le_pow_right (by decide) ?_).trans (Nat.log2_self_le hne)
    rw [scaleOf] at hs ⊢
    omega
  rw [Nat.le_div_iff_mul_le h] at hlog
  have hden : (0 : ℚ) < den := by exact_mod_cast h
  rw [unitsOf, le_div_iff₀ hden]
  exact_mod_cast hlog

theorem mantissaOf_le (h : 0 < den) : mantissaOf num den ≤ 2 * fractions := by
  have hscale : (0 : ℚ) < 2 ^ scaleOf num den := by positivity
  have hle : unitsOf num den / 2 ^ scaleOf num den ≤ ((2 * fractions : ℤ) : ℚ) := by
    rw [div_le_iff₀ hscale]
    exact_mod_cast (unitsOf_lt num h).le
  exact_mod_cast (isNearest_mantissaOf num h).mono (isNearest_self _) hle

theorem fractions_le_mantissaOf (h : 0 < den) (hs : scaleOf num den ≠ 0) : fractions ≤ mantissaOf num den := by
  have hscale : (0 : ℚ) < 2 ^ scaleOf num den := by positivity
  have hle : ((fractions : ℤ) : ℚ) ≤ unitsOf num den / 2 ^ scaleOf num den := by
    rw [le_div_iff₀ hscale]
    exact_mod_cast le_unitsOf num h hs
  exact_mod_cast (isNearest_self _).mono (isNearest_mantissaOf num h) hle

variable {negative : Bool} {m s : ℕ}

theorem Canonical.abs_sub_le (hcanonical : Canonical m s) (h : 0 < den) {w : ℚ}
    (hw : w = mantissaOf num den * 2 ^ scaleOf num den) :
    |w - unitsOf num den| ≤ |m * 2 ^ s - unitsOf num den| ∧
      (|w - unitsOf num den| = |m * 2 ^ s - unitsOf num den| → m * 2 ^ s = w ∨ Even (mantissaOf num den)) := by
  subst hw
  have hscale : (0 : ℚ) < 2 ^ scaleOf num den := by positivity
  have hgrid := (isNearest_mantissaOf num h).mul hscale
  rw [div_mul_cancel₀ _ hscale.ne'] at hgrid
  by_cases hs : scaleOf num den ≤ s
  · have hstep : ((m * 2 ^ (s - scaleOf num den) : ℤ) : ℚ) * 2 ^ scaleOf num den = m * 2 ^ s := by
      push_cast
      rw [mul_assoc, ← pow_add, Nat.sub_add_cancel hs]
    have hle := hgrid.le (m * 2 ^ (s - scaleOf num den))
    have heven := hgrid.even (m * 2 ^ (s - scaleOf num den))
    simp only [hstep] at hle heven
    exact ⟨hle, fun heq => (heven heq).imp_right (by exact_mod_cast id)⟩
  · have hbelow : (m : ℚ) * 2 ^ s < fractions * 2 ^ scaleOf num den := by
      have hlt : m * 2 ^ s < 2 * fractions * 2 ^ s := by
        have := hcanonical.mantissa_lt
        gcongr
      have hle : 2 * fractions * 2 ^ s ≤ fractions * 2 ^ scaleOf num den := by
        rw [mul_comm 2, mul_assoc, ← pow_succ']
        gcongr
        · decide
        · omega
      exact_mod_cast hlt.trans_le hle
    have hreach := le_unitsOf num h (by omega)
    have hle := hgrid.le fractions
    rw [Int.cast_natCast, Int.cast_natCast] at hle
    have hfurther := hle.trans_lt (show _ < |(m : ℚ) * 2 ^ s - unitsOf num den| by
      rw [abs_of_nonpos (by linarith), abs_of_nonpos (by linarith)]
      linarith)
    exact ⟨hfurther.le, fun heq => absurd heq hfurther.ne⟩

end
end Binary64

def signed (negative : Bool) (q : ℚ) : ℚ := if negative then -q else q

theorem abs_signed_sub_signed (negative negative' : Bool) (q r : ℚ) :
    |signed negative q - signed negative' r| = if negative = negative' then |q - r| else |q + r| := by
  cases negative <;> cases negative' <;> simp only [signed, Bool.false_eq_true, Bool.true_eq_false, if_true, if_false]
  · rw [sub_neg_eq_add]
  · rw [neg_sub_left, abs_neg, add_comm]
  · rw [neg_sub_neg, abs_sub_comm]

namespace Binary64

def units : Binary64 → ℚ
  | .finite negative mantissa scale => signed negative (mantissa * 2 ^ scale)
  | .infinite _ | .nan => 0

def exact (b : Binary64) : ℚ := b.units / one

def IsEven : Binary64 → Prop
  | .finite _ mantissa _ => Even mantissa
  | .infinite _ | .nan => False

def negative : Binary64 → Bool
  | .finite negative _ _ | .infinite negative => negative
  | .nan => false

theorem ofFloat_ofBits {b : ℕ} (hb : b < 2 * minus) (h : ofBits b ≠ .nan) :
    ofFloat (Float.ofBits (UInt64.ofNat b)) = ofBits b := by
  have hmod : (UInt64.ofNat b).toNat = b := UInt64.toNat_ofNat_of_lt hb
  rw [ofFloat, toBits_ofBits (by rwa [hmod]), hmod]

theorem canonical_of_ofFloat {x : Float} {negative : Bool} {m s : ℕ}
    (h : ofFloat x = .finite negative m s) : Canonical m s :=
  (ofBits_eq_finite x.toBits.toNat_lt h).1

end Binary64

def FiniteFloat : Type := {x : Float // (Binary64.ofFloat x).isFinite}

namespace FiniteFloat

open Binary64

def value (x : FiniteFloat) : ℚ := (ofFloat x.1).exact

def IsEven (x : FiniteFloat) : Prop := (ofFloat x.1).IsEven

theorem exists_eq_finite (x : FiniteFloat) :
    ∃ negative m s, ofFloat x.1 = .finite negative m s ∧ Canonical m s := by
  have hx := x.2
  match h : ofFloat x.1 with
  | .finite negative m s => exact ⟨negative, m, s, rfl, canonical_of_ofFloat h⟩
  | .infinite _ | .nan =>
    rw [h] at hx
    cases hx

end FiniteFloat

namespace Binary64

theorem canonical_zero : Canonical 0 0 := ⟨by decide, by decide, fun h => absurd rfl h⟩

section
variable {negative : Bool} (num : ℕ) {den m s : ℕ} {x : FiniteFloat}

theorem isNearest_units (h : 0 < den) (hx : ofFloat x.1 = .finite negative m s)
    (hvalue : (m * 2 ^ s : ℚ) = mantissaOf num den * 2 ^ scaleOf num den)
    (heven : Even (mantissaOf num den) → Even m) :
    IsNearest (fun y : FiniteFloat => (ofFloat y.1).units) FiniteFloat.IsEven
      (signed negative (unitsOf num den)) x := by
  have key (y : FiniteFloat) :
      |(ofFloat x.1).units - signed negative (unitsOf num den)| ≤
          |(ofFloat y.1).units - signed negative (unitsOf num den)| ∧
        (|(ofFloat x.1).units - signed negative (unitsOf num den)| =
            |(ofFloat y.1).units - signed negative (unitsOf num den)| →
          (ofFloat y.1).units = (ofFloat x.1).units ∨ FiniteFloat.IsEven x) := by
    obtain ⟨negative', m', s', hy, hcanonical⟩ := y.exists_eq_finite
    rw [FiniteFloat.IsEven, hx, hy, units, units, abs_signed_sub_signed, abs_signed_sub_signed, if_pos rfl]
    by_cases hsign : negative' = negative
    · subst hsign
      rw [if_pos rfl]
      obtain ⟨hle, htie⟩ := hcanonical.abs_sub_le num h hvalue
      exact ⟨hle, fun heq => (htie heq).imp (congrArg _) heven⟩
    · rw [if_neg hsign]
      obtain ⟨hle, htie⟩ := canonical_zero.abs_sub_le num h hvalue
      have hunits := unitsOf_nonneg num den
      have hother : (0 : ℚ) ≤ m' * 2 ^ s' := by positivity
      rw [Nat.cast_zero, zero_mul, zero_sub, abs_neg, abs_of_nonneg hunits] at hle htie
      rw [abs_of_nonneg (add_nonneg hother hunits)]
      refine ⟨by linarith, fun heq => ?_⟩
      have hzero : (m' * 2 ^ s' : ℚ) = 0 := by linarith
      refine (htie (by linarith)).imp (fun hw => ?_) heven
      rw [hzero, ← hw]
      cases negative <;> cases negative' <;> simp [signed]
  exact ⟨fun y => (key y).1, fun y => (key y).2⟩

theorem isNearest_value (h : 0 < den) (hx : ofFloat x.1 = .finite negative m s)
    (hvalue : (m * 2 ^ s : ℚ) = mantissaOf num den * 2 ^ scaleOf num den)
    (heven : Even (mantissaOf num den) → Even m) :
    IsNearest FiniteFloat.value FiniteFloat.IsEven (signed negative (num / den)) x := by
  have hscaled := (isNearest_units num h hx hvalue heven).mul (inv_pos.2 cast_one_pos)
  have hunits : signed negative (unitsOf num den) * (one : ℚ)⁻¹ = signed negative (num / den) := by
    have hnumber : unitsOf num den * (one : ℚ)⁻¹ = num / den := by
      rw [unitsOf, mul_div_right_comm, mul_inv_cancel_right₀ cast_one_pos.ne']
    cases negative
    · exact hnumber
    · change -unitsOf num den * _ = -(_ / _)
      rw [neg_mul, hnumber]
  rw [hunits] at hscaled
  exact hscaled

theorem exists_nearest (negative : Bool) (h : 0 < den) (hfinite : nearestBits num den < infinityBits) :
    ∃ x : FiniteFloat, x.1 = nearest negative num den ∧ (ofFloat x.1).negative = negative ∧
      IsNearest FiniteFloat.value FiniteFloat.IsEven (signed negative (num / den)) x := by
  have hmin := hfinite
  rw [nearestBits_eq, min_lt_iff] at hmin
  have hbits := hmin.resolve_right (lt_irrefl _)
  obtain ⟨m, s, hcanonical, hmagnitude, hshift, heven⟩ :=
    exists_canonical (mantissaOf_le num h) (fractions_le_mantissaOf num h) hbits
  have hnearest : nearestBits num den = magnitudeBits m s := by
    rw [nearestBits_eq, min_eq_left hbits.le, hmagnitude]
  have hofBits := hcanonical.ofBits_eq negative
  have hofFloat : ofFloat (nearest negative num den) = .finite negative m s := by
    rw [nearest, hnearest, ofFloat_ofBits _ (by rw [hofBits]; rintro ⟨⟩), hofBits]
    have := hcanonical.magnitudeBits_lt
    cases negative <;> simp only [signBit, minus, infinityBits, Bool.false_eq_true, if_true, if_false] at * <;> omega
  refine ⟨⟨nearest negative num den, by rw [hofFloat]; rfl⟩, rfl, by rw [hofFloat]; rfl, ?_⟩
  refine isNearest_value num h hofFloat ?_ heven
  rw [Nat.shiftLeft_eq, Nat.shiftLeft_eq] at hshift
  exact_mod_cast hshift

theorem unitsOf_eq (den : ℕ) : unitsOf num den = num / den * one := by
  rw [unitsOf, mul_div_right_comm]

theorem scaleOf_eq (den : ℕ) : scaleOf num den = ⌊unitsOf num den⌋₊.log2 - 52 := by
  rw [unitsOf, ← Nat.cast_mul, Nat.floor_div_eq_div, scaleOf]

variable {num} in
theorem nearestBits_congr {num' den' : ℕ} (h : 0 < den) (h' : 0 < den')
    (heq : (num : ℚ) / den = num' / den') : nearestBits num den = nearestBits num' den' := by
  have hunits : unitsOf num den = unitsOf num' den' := by rw [unitsOf_eq, unitsOf_eq, heq]
  have hscale : scaleOf num den = scaleOf num' den' := by rw [scaleOf_eq, scaleOf_eq, hunits]
  have hnearest := isNearest_mantissaOf num h
  have hnearest' := isNearest_mantissaOf num' h'
  rw [hunits, hscale] at hnearest
  have hmantissa : mantissaOf num den = mantissaOf num' den' := by
    exact_mod_cast (hnearest.mono hnearest' le_rfl).antisymm (hnearest'.mono hnearest le_rfl)
  rw [nearestBits_eq, nearestBits_eq, hmantissa, hscale]

theorem nearestBits_eq_zero (h : 0 < den) (hunits : unitsOf num den < 1 / 2) : nearestBits num den = 0 := by
  have hscale : scaleOf num den = 0 := by
    rw [scaleOf_eq, Nat.floor_eq_zero.2 (by linarith)]
    rfl
  have hmantissa : mantissaOf num den = 0 := by
    have hnearest := isNearest_mantissaOf num h
    rw [hscale, pow_zero, div_one] at hnearest
    have hle := hnearest.ge_of_even Even.zero (by push_cast; linarith)
    omega
  rw [nearestBits_eq, hscale, hmantissa]
  rfl

theorem ofFloat_infinity (negative : Bool) : ofFloat (infinity negative) = .infinite negative := by
  have hbits : signBit negative + infinityBits < 2 * minus := by cases negative <;> decide
  rw [infinity, ofFloat_ofBits hbits, ofBits_infinity]
  rw [ofBits_infinity]
  rintro ⟨⟩

theorem infinity_eq_nearest (negative : Bool) (h : nearestBits num den = infinityBits) :
    infinity negative = nearest negative num den := by
  rw [nearest, h, infinity]

theorem le_unitsOf_of_overflow (h : 0 < den)
    (hbits : infinityBits ≤ magnitudeBits (mantissaOf num den) (scaleOf num den)) :
    (2 * fractions - 1 / 2) * 2 ^ 2045 ≤ unitsOf num den := by
  have hmantissa := mantissaOf_le num h
  have hscale : 2045 ≤ scaleOf num den := by
    simp only [magnitudeBits, infinityBits, fractions] at *
    omega
  have hstep : (0 : ℚ) < 2 ^ 2045 := by positivity
  rcases hscale.eq_or_lt with hscale | hscale
  · have hlong : mantissaOf num den = 2 * fractions := by
      rw [← hscale] at hbits
      simp only [magnitudeBits, infinityBits, fractions] at *
      omega
    have hnearest := isNearest_mantissaOf num h
    rw [hlong, ← hscale] at hnearest
    rw [← le_div_iff₀ hstep]
    generalize unitsOf num den / 2 ^ 2045 = q at *
    have hmiddle := add_le_two_mul_of_abs_sub_le (by omega) (hnearest.le ((2 * fractions : ℕ) - 1))
    push_cast at hmiddle
    linarith
  · have hpow : (2 : ℚ) * 2 ^ 2045 ≤ 2 ^ scaleOf num den := by
      rw [← pow_succ']
      exact pow_le_pow_right₀ (by norm_num) hscale
    generalize (2 : ℚ) ^ 2045 = step at *
    calc
      (2 * fractions - 1 / 2) * step ≤ 2 * fractions * step := by gcongr; norm_num
      _ = fractions * (2 * step) := by ring
      _ ≤ fractions * 2 ^ scaleOf num den := by gcongr
      _ ≤ unitsOf num den := le_unitsOf num h (by omega)

theorem overflow_of_le_unitsOf (h : 0 < den)
    (hunits : (2 * fractions - 1 / 2) * 2 ^ 2045 ≤ unitsOf num den) :
    infinityBits ≤ magnitudeBits (mantissaOf num den) (scaleOf num den) := by
  have hlt := hunits.trans_lt (unitsOf_lt num h)
  have hstep : (0 : ℚ) < 2 ^ 2045 := by positivity
  have hscale : 2045 ≤ scaleOf num den := by
    by_contra hsmall
    have hpow : (2 : ℚ) * 2 ^ scaleOf num den ≤ 2 ^ 2045 := by
      rw [← pow_succ']
      exact pow_le_pow_right₀ (by norm_num) (by omega)
    have hfractions : (1 : ℚ) ≤ fractions := by norm_num [fractions]
    generalize (2 : ℚ) ^ 2045 = step at *
    nlinarith
  rcases hscale.eq_or_lt with hscale | hscale
  · have hnearest := isNearest_mantissaOf num h
    rw [← hscale] at hnearest
    rw [← le_div_iff₀ hstep] at hunits
    generalize unitsOf num den / 2 ^ 2045 = q at *
    -- The longer mantissa is even, so it is taken from the middle on.
    have hlong : 2 * fractions ≤ mantissaOf num den := by
      have heven : Even ((2 * fractions : ℕ) : ℤ) := by decide
      exact_mod_cast hnearest.le_of_even heven (by push_cast; exact hunits)
    rw [← hscale]
    simp only [magnitudeBits, infinityBits, fractions] at *
    omega
  · have hmantissa := fractions_le_mantissaOf num h (by omega)
    simp only [magnitudeBits, infinityBits, fractions] at *
    omega

theorem nearestBits_eq_infinityBits_iff (h : 0 < den) :
    nearestBits num den = infinityBits ↔ (2 ^ 1024 - 2 ^ 970 : ℚ) ≤ num / den := by
  have hlimit : (2 ^ 1024 - 2 ^ 970 : ℚ) * one = (2 * fractions - 1 / 2) * 2 ^ 2045 := by
    have hfractions : (2 * fractions : ℚ) = 2 ^ 53 := by norm_num [fractions]
    have hhalf (n : ℕ) : (1 / 2 : ℚ) * 2 ^ (n + 1) = 2 ^ n := by
      rw [pow_succ']
      ring
    rw [cast_one, hfractions, sub_mul, sub_mul, hhalf 2044, ← pow_add, ← pow_add, ← pow_add]
  rw [nearestBits_eq, min_eq_right_iff, ← mul_le_mul_iff_left₀ cast_one_pos, hlimit, ← unitsOf_eq]
  exact ⟨le_unitsOf_of_overflow num h, overflow_of_le_unitsOf num h⟩

theorem nearestBits_lt_infinityBits_iff (h : 0 < den) :
    nearestBits num den < infinityBits ↔ (num / den : ℚ) < 2 ^ 1024 - 2 ^ 970 := by
  have hle : nearestBits num den ≤ infinityBits := by
    rw [nearestBits_eq]
    exact min_le_right _ _
  rw [hle.lt_iff_ne, Ne, nearestBits_eq_infinityBits_iff num h, not_le]

end

end Binary64
end InfixCalc.Decimal
