import InfixCalc.Decimal.Shortest
import InfixCalc.Proofs.Decimal.Places
import InfixCalc.Proofs.Decimal.Value

namespace InfixCalc.Decimal

theorem isDigits_leftpad (n width : ℕ) : IsDigits ((digits n).leftpad width '0') :=
  Json.isDigits_zeros_append (isDigits_digits _) _

section
variable {ds : List Char}

theorem exponent?_minus (h : IsDigits ds) :
    Numeral.exponent? ('e' :: '-' :: ds) = some (-(digitsValue ds : ℤ)) := by
  simp [Numeral.exponent?, splitSign, h.1, List.all_eq_true.2 h.2]

theorem exponent?_plus (h : IsDigits ds) : Numeral.exponent? ('e' :: '+' :: ds) = some (digitsValue ds : ℤ) := by
  simp [Numeral.exponent?, splitSign, h.1, List.all_eq_true.2 h.2]

end

inductive IsPower : List Char → ℤ → Prop
  | nil : IsPower [] 0
  | text (l : Layout) (e : ℤ) : IsPower (exponentText l e) e

namespace IsPower

variable {tail : List Char} {e : ℤ}

theorem exponent?_eq (h : IsPower tail e) : Numeral.exponent? tail = some e := by
  cases h with
  | nil => rfl
  | text l e =>
    rw [exponentText]
    split
    · rw [exponent?_minus (isDigits_leftpad _ _), digitsValue_leftpad, digitsValue_digits]
      exact congrArg some (by omega)
    · rw [exponent?_plus (isDigits_leftpad _ _), digitsValue_leftpad, digitsValue_digits]
      exact congrArg some (by omega)

theorem mem_numberChars (h : IsPower tail e) : ∀ c ∈ tail, c ∈ numberChars := by
  cases h with
  | nil => exact List.forall_mem_nil _
  | text l e =>
    rw [exponentText]
    refine List.forall_mem_cons.2 ⟨by decide, List.forall_mem_cons.2 ⟨by split <;> decide, fun c hc => ?_⟩⟩
    exact mem_numberChars_of_isDigit ((isDigits_leftpad _ _).2 c hc)

theorem head?_tail (h : IsPower tail e) : ∀ c ∈ tail.head?, isDigit c = false ∧ c ≠ '.' := by
  cases h with
  | nil => simp
  | text l e =>
    simp only [exponentText, List.head?_cons, Option.mem_some_iff, forall_eq']
    decide

end IsPower

namespace Literal

variable {tail : List Char} {e : ℤ}

theorem decimal?_append (negative : Bool) (l : Literal) (h : IsPower tail e) :
    Numeral.decimal? negative (l.chars ++ tail) =
      some (.finite negative (digitsValue (l.whole ++ l.fraction)) (e - l.fraction.length)) := by
  rcases l.exists_isDigits_fraction with ⟨hfraction, hchars⟩ | ⟨hfraction, hchars⟩
  · rw [hchars, l.isDigits_whole.decimal?_append negative h.head?_tail, h.exponent?_eq, hfraction]
    simp
  · rw [hchars, List.append_assoc, List.cons_append,
      l.isDigits_whole.decimal?_pointed_append negative hfraction fun c hc => (h.head?_tail c hc).1,
      h.exponent?_eq]
    rfl

theorem value_mul_zpow (l : Literal) (e : ℤ) :
    l.value * 10 ^ e = digitsValue (l.whole ++ l.fraction) * (10 : ℚ) ^ (e - l.fraction.length) := by
  rw [l.value_eq, zpow_sub₀ (by norm_num), zpow_natCast]
  ring

theorem toFloat_ofString?_append (negative : Bool) (l : Literal) (h : IsPower tail e) {num den : ℕ}
    (hden : 0 < den) (hvalue : (num : ℚ) / den = l.value * 10 ^ e) :
    (Numeral.ofString? (String.ofList (sign negative ++ (l.chars ++ tail)))).map Numeral.toFloat =
      some (Binary64.nearest negative num den) := by
  obtain ⟨d, ds, hchars, hd⟩ := (isLiteral_iff.2 ⟨l, rfl⟩).exists_cons
  have hmem : ∀ c ∈ l.chars ++ tail, c ∈ numberChars :=
    List.forall_mem_append.2 ⟨(isLiteral_iff.2 ⟨l, rfl⟩).mem_numberChars, h.mem_numberChars⟩
  have hsign : ∀ c ∈ sign negative, c ∈ numberChars := by cases negative <;> simp [sign, numberChars]
  have hdecimal := l.decimal?_append negative h
  rw [Numeral.ofString?, plain_eq_of_mem_numberChars (List.forall_mem_append.2 ⟨hsign, hmem⟩)]
  rw [hchars, List.cons_append] at hmem hdecimal ⊢
  rw [ofChars?_sign_append negative hd hmem, hdecimal, Option.map_some, Numeral.toFloat_finite negative hden]
  rw [hvalue, l.value_mul_zpow]

end Literal

theorem digitsValue_zeros (n : ℕ) : digitsValue (List.replicate n '0') = 0 := by
  rw [digitsValue, Nat.ofDigitChars_replicate_zero, Nat.mul_zero]

theorem digitsValue_zeros_append (n : ℕ) (ds : List Char) :
    digitsValue (List.replicate n '0' ++ ds) = digitsValue ds := by
  rw [Literal.digitsValue_append, digitsValue_zeros, Nat.zero_mul, Nat.zero_add]

theorem digitsValue_append_zeros (n : ℕ) (ds : List Char) :
    digitsValue (ds ++ List.replicate n '0') = digitsValue ds * 10 ^ n := by
  rw [Literal.digitsValue_append, List.length_replicate, digitsValue_zeros, Nat.add_zero]

/-- A text of the number whose digits are `ds`, of which the point stands after the first `point`. -/
def IsWritten (ds : List Char) (point : ℤ) (cs : List Char) : Prop :=
  ∃ (l : Literal) (tail : List Char) (e : ℤ), cs = l.chars ++ tail ∧ IsPower tail e ∧
    l.value * 10 ^ e = digitsValue ds * (10 : ℚ) ^ (point - ds.length)

theorem isWritten_of_literal (l : Literal) {ds : List Char} {point : ℤ} (hdigits : l.whole ++ l.fraction = ds)
    (hpoint : point = l.whole.length) : IsWritten ds point l.chars := by
  refine ⟨l, [], 0, (List.append_nil _).symm, .nil, ?_⟩
  rw [l.value_mul_zpow, hdigits]
  congr 2
  rw [← hdigits, List.length_append]
  omega

section
variable {ds : List Char}

theorem isWritten_zeros (h : IsDigits ds) (n : ℕ) :
    IsWritten ds (-n) ('0' :: '.' :: (List.replicate n '0' ++ ds)) := by
  have hfraction := Json.isDigits_zeros_append h n
  refine ⟨⟨['0'], _, Json.isDigits_zero, hfraction.2⟩, [], 0, ?_, .nil, ?_⟩
  · rw [Literal.chars, if_neg hfraction.1, List.append_nil]
    rfl
  · rw [Literal.value_mul_zpow]
    congr 2
    · exact digitsValue_zeros_append (n + 1) ds
    · simp only [List.length_append, List.length_replicate]
      omega

theorem isWritten_filled (h : IsDigits ds) (n : ℕ) :
    IsWritten ds (ds.length + n) (ds ++ List.replicate n '0' ++ ['.', '0']) := by
  have hwhole : ∀ c ∈ ds ++ List.replicate n '0', isDigit c :=
    List.forall_mem_append.2 ⟨h.2, Json.isDigit_of_mem_zeros⟩
  have hne : ds ++ List.replicate n '0' ≠ [] := List.append_ne_nil_of_left_ne_nil h.1 _
  refine ⟨⟨_, ['0'], ⟨hne, hwhole⟩, Json.isDigits_zero.2⟩, [], 0, ?_, .nil, ?_⟩
  · rw [Literal.chars, if_neg (List.cons_ne_nil _ _), List.append_nil]
  · have hvalue : digitsValue (ds ++ List.replicate n '0' ++ ['0']) = digitsValue ds * 10 ^ (n + 1) := by
      rw [← digitsValue_append_zeros, List.replicate_succ', List.append_assoc]
    rw [Literal.value_mul_zpow, hvalue, Nat.cast_mul, Nat.cast_pow, mul_assoc, ← zpow_natCast,
      Nat.cast_ofNat, ← zpow_add₀ (by norm_num)]
    congr 2
    simp only [List.length_singleton]
    omega

theorem isWritten_cut (h : IsDigits ds) {n : ℕ} (hn : n ≠ 0) (hlength : n < ds.length) :
    IsWritten ds n (ds.take n ++ '.' :: ds.drop n) := by
  have hfirst : ds.take n ≠ [] := by
    simp [hn, h.1]
  have hbehind : ds.drop n ≠ [] := by
    simpa using hlength
  let l : Literal := ⟨ds.take n, ds.drop n, ⟨hfirst, fun c hc => h.2 c (List.mem_of_mem_take hc)⟩,
    fun c hc => h.2 c (List.mem_of_mem_drop hc)⟩
  have hwritten := isWritten_of_literal l (List.take_append_drop n ds) rfl
  rw [Literal.chars, if_neg hbehind, List.length_take, min_eq_left hlength.le] at hwritten
  exact hwritten

theorem isWritten_power (layout : Layout) (h : IsDigits ds) (point : ℤ) :
    IsWritten ds point
      (ds.take 1 ++ (if ds.length = 1 then [] else '.' :: ds.drop 1) ++ exponentText layout (point - 1)) := by
  obtain ⟨d, fs, rfl⟩ := List.exists_cons_of_ne_nil h.1
  obtain ⟨hfirst, hrest⟩ := List.forall_mem_cons.1 h.2
  refine ⟨⟨[d], fs, ⟨by simp, by simpa using hfirst⟩, hrest⟩, _, _, ?_, .text layout (point - 1), ?_⟩
  · simp [Literal.chars]
  · rw [Literal.value_mul_zpow]
    congr 2
    simp only [List.length_cons]
    omega

theorem Layout.isWritten_write (layout : Layout) (h : IsDigits ds) (point : ℤ) :
    IsWritten ds point (layout.write ds point) := by
  rw [Layout.write]
  split
  · next hpoint =>
    have hzeros := isWritten_zeros h (-point).toNat
    rwa [Int.toNat_of_nonneg (by omega), neg_neg] at hzeros
  · split
    · next hpoint =>
      obtain ⟨n, rfl⟩ : ∃ n : ℕ, point = n := ⟨point.toNat, by omega⟩
      simp only [Int.toNat_natCast]
      split
      · next hshort =>
        have hfilled := isWritten_filled h (n - ds.length)
        rwa [← Nat.cast_add, Nat.add_sub_cancel' hshort] at hfilled
      · next hlong => exact isWritten_cut h (by omega) (by omega)
    · exact isWritten_power layout h point

end

namespace Binary64

theorem scaleOf_units {m s : ℕ} (h : Canonical m s) (hm : m ≠ 0) : scaleOf (m <<< s) one = s := by
  have hunits : m <<< s * one / one = m <<< s := Nat.mul_div_cancel _ (by decide)
  have hlt : m.log2 < 53 := (Nat.log2_lt hm).2 h.mantissa_lt
  have hshift : (m <<< s).log2 = m.log2 + s := by
    rw [Nat.shiftLeft_eq, Nat.log2_eq_iff (Nat.mul_pos (Nat.pos_of_ne_zero hm) (Nat.two_pow_pos s)).ne',
      Nat.add_right_comm, Nat.pow_add, Nat.pow_add]
    exact ⟨Nat.mul_le_mul_right _ (Nat.log2_self_le hm),
      Nat.mul_lt_mul_of_pos_right Nat.lt_log2_self (Nat.two_pow_pos s)⟩
  rw [scaleOf, hunits, hshift]
  by_cases hs : s = 0
  · omega
  · have hle : 52 ≤ m.log2 := (Nat.le_log2 hm).2 (h.fractions_le hs)
    omega

theorem nearestBits_units {m s : ℕ} (h : Canonical m s) (hm : m ≠ 0) :
    nearestBits (m <<< s) one = magnitudeBits m s := by
  have hmantissa : mantissaOf (m <<< s) one = m := by
    have hproduct : m <<< s * one = m * one <<< s := by
      rw [Nat.shiftLeft_eq, Nat.shiftLeft_eq, Nat.mul_assoc, Nat.mul_comm (2 ^ s)]
    have hpos : 0 < one <<< s := by
      rw [Nat.shiftLeft_eq]
      exact Nat.mul_pos (by decide) (Nat.two_pow_pos s)
    rw [mantissaOf, scaleOf_units h hm, hproduct, roundHalfEven_mul_self m hpos]
  rw [nearestBits_eq, hmantissa, scaleOf_units h hm, min_eq_left h.magnitudeBits_lt.le]

end Binary64

namespace Scientific

open Binary64

theorem exists_bits_eq (d : Scientific) : ∃ num den : ℕ, 0 < den ∧
    (num : ℚ) / den = d.coefficient * 10 ^ d.exponent ∧ d.bits = nearestBits num den := by
  rw [bits]
  split
  · next hexponent =>
    refine ⟨_, _, Nat.one_pos, ?_, rfl⟩
    obtain ⟨k, hk⟩ := Int.eq_ofNat_of_zero_le hexponent
    rw [hk, Nat.cast_one, div_one, Nat.cast_mul, cast_tenTo]
    rfl
  · next hexponent =>
    refine ⟨_, _, tenTo_pos _, ?_, rfl⟩
    obtain ⟨k, hk⟩ : ∃ k : ℕ, d.exponent = -k := ⟨(-d.exponent).toNat, by omega⟩
    rw [hk, cast_tenTo, neg_neg, Int.toNat_natCast, zpow_neg, zpow_natCast, div_eq_mul_inv]

theorem bits_mul_five_pow (units : ℕ) {n : ℕ} (hn : (one : ℚ) = 2 ^ n) :
    bits ⟨units * Nat.pow 5 n, -n⟩ = nearestBits units one := by
  obtain ⟨num, den, hden, hvalue, hbits⟩ := exists_bits_eq ⟨units * Nat.pow 5 n, -n⟩
  have hten : (10 : ℚ) ^ n = 5 ^ n * 2 ^ n := by
    rw [← mul_pow]
    norm_num
  rw [hbits]
  refine nearestBits_congr hden (by decide) (hvalue.trans ?_)
  rw [hn, Nat.pow_eq, Nat.cast_mul, Nat.cast_pow, Nat.cast_ofNat, zpow_neg, zpow_natCast, hten]
  field_simp

theorem bits_shortest {m s : ℕ} (h : Canonical m s) (hm : m ≠ 0) :
    (shortest (m <<< s) (magnitudeBits m s)).bits = magnitudeBits m s := by
  rw [shortest]
  cases hfind : ((List.range 20).map fun (i : Nat) => top (m <<< s) - i).findSome? fun e =>
      (neighbours (m <<< s) (magnitudeBits m s) e).head? with
  | some d =>
    obtain ⟨e, -, hhead⟩ := List.exists_of_findSome?_eq_some hfind
    rw [Option.getD_some]
    simpa using (List.mem_filter.1 (List.mem_of_mem_head? hhead)).2
  | none =>
    obtain ⟨n, hn, hone⟩ : ∃ n : ℕ, 1074 = n ∧ (one : ℚ) = 2 ^ n := ⟨1074, rfl, cast_one⟩
    have he : (-1074 : ℤ) = -n := by omega
    rw [Option.getD_none, he, hn, bits_mul_five_pow _ hone, nearestBits_units h hm]

end Scientific

namespace Binary64

variable {x : Float} {negative : Bool}

theorem eq_nearest_of_ofFloat {m s : ℕ} {num den : ℕ} (hx : ofFloat x = .finite negative m s)
    (h : nearestBits num den = magnitudeBits m s) : nearest negative num den = x := by
  obtain ⟨-, hbits⟩ := ofBits_eq_finite x.toBits.toNat_lt hx
  rw [nearest, h, ← hbits, UInt64.ofNat_toNat, Float.ofBits_toBits]

theorem eq_infinity_of_ofFloat (hx : ofFloat x = .infinite negative) : infinity negative = x := by
  have hbits := ofBits_eq_infinite x.toBits.toNat_lt hx
  rw [infinity, ← hbits, UInt64.ofNat_toNat, Float.ofBits_toBits]

end Binary64

open Binary64

theorem IsWritten.toFloat_ofString? {x : Float} {negative : Bool} {m s : ℕ} {ds cs : List Char} {point : ℤ}
    (h : IsWritten ds point cs) (hx : ofFloat x = .finite negative m s) {num den : ℕ} (hden : 0 < den)
    (hvalue : (num : ℚ) / den = digitsValue ds * 10 ^ (point - ds.length))
    (hbits : nearestBits num den = magnitudeBits m s) :
    (Numeral.ofString? (String.ofList (sign negative ++ cs))).map Numeral.toFloat = some x := by
  obtain ⟨l, tail, e, rfl, htail, hwritten⟩ := h
  rw [l.toFloat_ofString?_append negative htail hden (hvalue.trans hwritten.symm),
    eq_nearest_of_ofFloat hx hbits]

theorem toFloat_ofString?_of_finite {x : Float} {negative : Bool} {m s : ℕ}
    (hx : ofFloat x = .finite negative m s) :
    (Numeral.ofString? (shortest x)).map Numeral.toFloat = some x := by
  have hcanonical := canonical_of_ofFloat hx
  rw [shortest, hx, toShortest]
  split
  · next hm =>
    subst hm
    have hs : s = 0 := by
      by_contra hs
      exact absurd (hcanonical.fractions_le hs) (by decide)
    subst hs
    refine (isWritten_filled Json.isDigits_zero 0).toFloat_ofString? hx Nat.one_pos ?_
      (Scientific.nearestBits_zero (by decide))
    rw [show digitsValue ['0'] = 0 by decide]
    norm_num
  · next hm =>
    obtain ⟨num, den, hden, hvalue, hbits⟩ :=
      (Scientific.shortest (m <<< s) (magnitudeBits m s)).exists_bits_eq
    rw [Scientific.bits_shortest hcanonical hm] at hbits
    refine (layout.isWritten_write (isDigits_digits _) _).toFloat_ofString? hx hden ?_ hbits.symm
    rw [hvalue, digitsValue_digits, add_sub_cancel_left]

theorem toFloat_ofString?_shortest (x : Float) :
    (Numeral.ofString? (shortest x)).map Numeral.toFloat = some x := by
  cases hx : ofFloat x with
  | finite negative m s => exact toFloat_ofString?_of_finite hx
  | infinite negative =>
    have hread : Numeral.ofString? (String.ofList (infinite negative).toShortest) = some (.infinite negative) := by
      cases negative <;> decide
    rw [shortest, hx, hread, Option.map_some, Numeral.toFloat, eq_infinity_of_ofFloat hx]
  | nan =>
    have hread : Numeral.ofString? (String.ofList nan.toShortest) = some .nan := by decide
    rw [shortest, hx, hread, Option.map_some, Numeral.toFloat, eq_ofBits_of_nan hx]

end InfixCalc.Decimal
