import InfixCalc.Decimal.Places
import InfixCalc.Proofs.Decimal.Value
import InfixCalc.Proofs.Json.Number

namespace InfixCalc.Decimal

open Binary64

theorem digitsValue_digits (n : ℕ) : digitsValue (digits n) = n := Nat.ofDigitChars_ten_toDigits

theorem digitsValue_leftpad (n : ℕ) (ds : List Char) : digitsValue (ds.leftpad n '0') = digitsValue ds := by
  rw [digitsValue, List.leftpad, Nat.ofDigitChars_append, Nat.ofDigitChars_replicate_zero, Nat.mul_zero]
  rfl

theorem length_digits_le {n places : ℕ} (hplaces : places ≠ 0) (h : n < 10 ^ places) :
    (digits n).length ≤ places :=
  (Nat.length_toDigits_le_iff (by decide) (Nat.pos_of_ne_zero hplaces)).2 h

theorem isInteger_digits (n : ℕ) : Json.IsInteger (digits n) := by
  by_cases h : n = 0
  · rw [h]
    exact .zero
  · obtain ⟨d, ds, hdigits, hd⟩ := exists_digits_eq_cons h
    obtain ⟨hfirst, hrest⟩ := List.forall_mem_cons.1 (hdigits ▸ (isDigits_digits n).2)
    exact hdigits ▸ .digits hfirst hd hrest

def fixed (places n : ℕ) : Literal where
  whole := digits (n / tenTo places)
  fraction := if places = 0 then [] else (digits (n % tenTo places)).leftpad places '0'
  isDigits_whole := isDigits_digits _
  isDigit_of_mem_fraction := by
    split
    · exact List.forall_mem_nil _
    · exact (Json.isDigits_zeros_append (isDigits_digits _) _).2

theorem whole_fixed (places n : ℕ) : (fixed places n).whole = digits (n / tenTo places) := rfl

theorem fraction_fixed (places n : ℕ) : (fixed places n).fraction =
    if places = 0 then [] else (digits (n % tenTo places)).leftpad places '0' := rfl

theorem length_fraction_fixed (places n : ℕ) : (fixed places n).fraction.length = places := by
  rw [fraction_fixed]
  by_cases h : places = 0
  · rw [if_pos h, h, List.length_nil]
  · have hlength := length_digits_le h (Nat.mod_lt n (tenTo_pos places))
    rw [if_neg h, List.length_leftpad]
    exact max_eq_left hlength

theorem chars_fixed (places n : ℕ) : (fixed places n).chars = pointed places n := by
  have hlength := length_fraction_fixed places n
  rw [Literal.chars, pointed, whole_fixed]
  by_cases h : places = 0
  · have hnil : (fixed places n).fraction = [] := List.length_eq_zero_iff.1 (hlength.trans h)
    rw [if_pos hnil, if_pos h, List.append_nil, h, tenTo]
    exact congrArg digits (Nat.div_one n)
  · have hcons : (fixed places n).fraction ≠ [] := fun hnil => h (by rw [← hlength, hnil, List.length_nil])
    rw [if_neg hcons, if_neg h, fraction_fixed, if_neg h]

theorem digitsValue_fraction_fixed (places n : ℕ) :
    digitsValue (fixed places n).fraction = n % tenTo places := by
  rw [fraction_fixed]
  by_cases h : places = 0
  · rw [if_pos h, h, tenTo]
    exact (Nat.mod_one n).symm
  · rw [if_neg h, digitsValue_leftpad, digitsValue_digits]

theorem value_fixed (places n : ℕ) : (fixed places n).value = n / 10 ^ places := by
  have hn : (n : ℚ) = (n / tenTo places : ℕ) * 10 ^ places + (n % tenTo places : ℕ) := by
    rw [← cast_tenTo]
    exact_mod_cast (Nat.div_add_mod' n (tenTo places)).symm
  have hpow : (10 : ℚ) ^ places ≠ 0 := by positivity
  rw [Literal.value, whole_fixed, digitsValue_digits, digitsValue_fraction_fixed, length_fraction_fixed,
    eq_div_iff hpow, hn, add_mul, div_mul_cancel₀ _ hpow]

theorem pointed_zero {places : ℕ} (h : places ≠ 0) :
    pointed places 0 = '0' :: '.' :: List.replicate places '0' := by
  obtain ⟨n, rfl⟩ := Nat.exists_eq_succ_of_ne_zero h
  rw [pointed, if_neg h, Nat.zero_div, Nat.zero_mod, List.replicate_succ']
  rfl

theorem toList_pushn (s : String) (c : Char) (n : ℕ) : (s.pushn c n).toList = s.toList ++ List.replicate n c := by
  rw [String.pushn_eq_repeat_push]
  induction n with
  | zero => exact (List.append_nil _).symm
  | succ n ih => rw [Nat.repeat, String.toList_push, ih, List.append_assoc, List.replicate_succ']

theorem Literal.value_congr {l l' : Literal} (h : l.chars = l'.chars) : l.value = l'.value := by
  have hread := l.ofString?_eq
  rw [h, l'.ofString?_eq, Option.some_inj] at hread
  injection hread with _ hdigits hlength
  rw [l.value_eq, l'.value_eq, hdigits, Nat.cast_inj.1 (neg_inj.1 hlength)]

namespace FiniteFloat

def signBit (x : FiniteFloat) : Bool := x.1.toBits.toNat.testBit 63

theorem negative_ofFloat (x : FiniteFloat) : (ofFloat x.1).negative = x.signBit := by
  have hnegative : (ofBits x.1.toBits.toNat).isFinite →
      (ofBits x.1.toBits.toNat).negative = decide (x.1.toBits.toNat / minus % 2 = 1) := by
    rw [ofBits]
    split
    · split <;> rintro ⟨⟩
    · split <;> exact fun _ => rfl
  rw [ofFloat, hnegative x.2, signBit, Nat.testBit_eq_decide_div_mod_eq]
  rfl

section
variable {x : FiniteFloat} {negative : Bool} {m s : ℕ}

theorem value_of_ofFloat (hx : ofFloat x.1 = .finite negative m s) :
    x.value = signed negative (m * 2 ^ s / one) := by
  rw [value, exact, hx, units, signed, signed]
  split
  · rw [neg_div]
  · rfl

theorem abs_value_of_ofFloat (hx : ofFloat x.1 = .finite negative m s) : |x.value| = m * 2 ^ s / one := by
  have hnonneg : (0 : ℚ) ≤ m * 2 ^ s / one := by positivity
  rw [value_of_ofFloat hx, signed]
  split
  · rw [abs_neg, abs_of_nonneg hnonneg]
  · rw [abs_of_nonneg hnonneg]

theorem abs_value_eq_div (hx : ofFloat x.1 = .finite negative m s) : |x.value| = (m <<< s : ℕ) / (one : ℕ) := by
  rw [abs_value_of_ofFloat hx, cast_shiftLeft]

end

theorem abs_value_lt (x : FiniteFloat) : |x.value| < 10 ^ 309 := by
  obtain ⟨negative, m, s, hx, hcanonical⟩ := x.exists_eq_finite
  have hmantissa : (m : ℚ) < 2 ^ 53 := by exact_mod_cast hcanonical.mantissa_lt
  have hscale : (2 : ℚ) ^ s ≤ 2 ^ 2045 :=
    pow_le_pow_right₀ (by norm_num) (Nat.le_of_lt_succ hcanonical.scale_lt)
  have hpow : (2 : ℚ) ^ 93 ≤ 10 ^ 28 := by norm_num
  rw [abs_value_of_ofFloat hx, div_lt_iff₀ cast_one_pos, cast_one]
  calc
    (m : ℚ) * 2 ^ s ≤ m * 2 ^ 2045 := mul_le_mul_of_nonneg_left hscale (Nat.cast_nonneg m)
    _ < 2 ^ 53 * 2 ^ 2045 := mul_lt_mul_of_pos_right hmantissa (pow_pos two_pos _)
    _ = 2 * (2 ^ 93) ^ 11 * 2 ^ 1074 := by rw [← pow_mul, ← pow_add, ← pow_succ', ← pow_add]
    _ ≤ 10 * (10 ^ 28) ^ 11 * 2 ^ 1074 := by gcongr; norm_num
    _ = 10 ^ 309 * 2 ^ 1074 := by rw [← pow_mul, ← pow_succ']

/-- Whether the digits of a finite float are within the limit down to its last place, or need not be: it is a
whole number of at most fifteen digits. -/
def IsCounted (places : ℕ) (x : FiniteFloat) : Prop :=
  |x.value| < 10 ^ (placesLimit - places) ∨ (∃ n : ℤ, x.value = n) ∧ |x.value| < 10 ^ 15

theorem isCounted_of_add_le (x : FiniteFloat) {places : ℕ} (h : places + 309 ≤ placesLimit) :
    x.IsCounted places :=
  .inl (x.abs_value_lt.trans_le (pow_le_pow_right₀ (by norm_num) (Nat.le_sub_of_add_le' h)))

theorem one_le_of_not_isCounted {places : ℕ} {x : FiniteFloat} (h : ¬x.IsCounted places) : 1 ≤ |x.value| :=
  (one_le_pow₀ (by norm_num)).trans (not_lt.1 fun hlt => h (.inl hlt))

section
variable {x : FiniteFloat} {negative : Bool} {m s : ℕ} (hx : ofFloat x.1 = .finite negative m s)
include hx

theorem div_one_lt_iff (k : ℕ) : m <<< s / one < k ↔ |x.value| < k := by
  rw [abs_value_eq_div hx, Nat.div_lt_iff_lt_mul (by decide), div_lt_iff₀ cast_one_pos]
  exact_mod_cast Iff.rfl

theorem lt_one_iff : m <<< s < one ↔ |x.value| < 1 := by
  rw [← Nat.cast_one, ← div_one_lt_iff hx, Nat.lt_one_iff, Nat.div_eq_zero_iff_lt (by decide)]

theorem mod_one_eq_zero_iff : m <<< s % one = 0 ↔ ∃ n : ℤ, x.value = n := by
  have hsize := abs_value_eq_div hx
  constructor
  · intro hmod
    rw [← Nat.cast_div (Nat.dvd_of_mod_eq_zero hmod) cast_one_pos.ne'] at hsize
    rcases (abs_eq (Nat.cast_nonneg _)).1 hsize with hvalue | hvalue
    · exact ⟨(m <<< s / one : ℕ), by rw [hvalue, Int.cast_natCast]⟩
    · exact ⟨-(m <<< s / one : ℕ), by rw [hvalue, Int.cast_neg, Int.cast_natCast]⟩
  · rintro ⟨n, hn⟩
    rw [hn, eq_div_iff cast_one_pos.ne'] at hsize
    have hproduct : ((m <<< s : ℕ) : ℤ) = one * |n| := by
      rw [← Int.cast_inj (α := ℚ), Int.cast_mul, Int.cast_abs, Int.cast_natCast, Int.cast_natCast, mul_comm]
      exact hsize.symm
    have hdvd : ((one : ℕ) : ℤ) ∣ (m <<< s : ℕ) := ⟨|n|, hproduct⟩
    exact Nat.mod_eq_zero_of_dvd (Int.natCast_dvd_natCast.1 hdvd)

variable {places : ℕ} (h : places ≤ placesLimit)
include h

theorem length_digits_add_le_iff :
    m <<< s < one ∨ (digits (m <<< s / one)).length + places ≤ placesLimit ↔
      |x.value| < 10 ^ (placesLimit - places) := by
  rw [lt_one_iff hx]
  by_cases hplaces : placesLimit - places = 0
  · have hpositive : 0 < (digits (m <<< s / one)).length := List.length_pos_of_ne_nil (isDigits_digits _).1
    rw [hplaces, pow_zero]
    exact or_iff_left (by omega)
  · have hdigits : (digits (m <<< s / one)).length ≤ placesLimit - places ↔
        |x.value| < 10 ^ (placesLimit - places) := by
      rw [digits, Nat.length_toDigits_le_iff (by decide) (Nat.pos_of_ne_zero hplaces), div_one_lt_iff hx,
        Nat.cast_pow, Nat.cast_ofNat]
    rw [← Nat.le_sub_iff_add_le h, hdigits]
    exact or_iff_right_of_imp fun hless => hless.trans_le (one_le_pow₀ (by norm_num))

theorem isCounted_iff : Binary64.isCounted places (m <<< s) ↔ x.IsCounted places := by
  have hshort : m <<< s / one < tenTo 15 ↔ |x.value| < 10 ^ 15 := by rw [div_one_lt_iff hx, cast_tenTo]
  rw [IsCounted, ← length_digits_add_le_iff hx h, ← mod_one_eq_zero_iff hx, ← hshort]
  simp only [Binary64.isCounted, Bool.or_eq_true, Bool.and_eq_true, decide_eq_true_eq]
  exact or_right_comm

end

theorem value_eq_signed (x : FiniteFloat) : x.value = signed x.signBit |x.value| := by
  rw [← negative_ofFloat]
  obtain ⟨negative, m, s, hx, -⟩ := x.exists_eq_finite
  rw [abs_value_of_ofFloat hx, value_of_ofFloat hx, hx]
  rfl

def lastPlaces (places : ℕ) (x : FiniteFloat) : ℕ :=
  match ofFloat x.1 with
  | .finite _ mantissa scale =>
    if Binary64.isCounted places (mantissa <<< scale) then
      roundHalfEven ((mantissa <<< scale) * tenTo places) one
    else 0
  | .infinite _ | .nan => 0

def shown (places : ℕ) (x : FiniteFloat) : Literal := fixed places (x.lastPlaces places)

section
variable {places : ℕ} {x : FiniteFloat} (h : places ≤ placesLimit)
include h

theorem lastPlaces_of_not_isCounted (hx : ¬x.IsCounted places) : x.lastPlaces places = 0 := by
  obtain ⟨negative, m, s, hfinite, -⟩ := x.exists_eq_finite
  simp only [lastPlaces, hfinite, if_neg (mt (isCounted_iff hfinite h).1 hx)]

theorem isNearest_lastPlaces (hx : x.IsCounted places) :
    IsNearest (fun k : ℤ => (k : ℚ)) Even (|x.value| * 10 ^ places) (x.lastPlaces places : ℤ) := by
  obtain ⟨negative, m, s, hfinite, -⟩ := x.exists_eq_finite
  have hnearest := isNearest_roundHalfEven (m <<< s * tenTo places) (show 0 < one by decide)
  rw [Nat.cast_mul, cast_tenTo, mul_div_right_comm, ← abs_value_eq_div hfinite] at hnearest
  simpa only [lastPlaces, hfinite, if_pos ((isCounted_iff hfinite h).2 hx)] using hnearest

theorem toPlaces_ofFloat (x : FiniteFloat) :
    (ofFloat x.1).toPlaces places = String.ofList (sign x.signBit ++ (x.shown places).chars) := by
  rw [← negative_ofFloat, shown, chars_fixed]
  obtain ⟨negative, m, s, hfinite, -⟩ := x.exists_eq_finite
  simp only [lastPlaces, hfinite, Binary64.toPlaces, Binary64.negative]
  split
  · rfl
  · next hcounted =>
    have hplaces : places ≠ 0 := by
      rintro rfl
      exact hcounted ((isCounted_iff hfinite h).2 (x.isCounted_of_add_le (by decide)))
    rw [pointed_zero hplaces, ← String.toList_inj, toList_pushn]
    simp

theorem toPlaces_eq_shown (x : FiniteFloat) :
    Decimal.toPlaces places x.1 = .ok (String.ofList (sign x.signBit ++ (x.shown places).chars)) := by
  have hplaces : places? places = .ok places := places?_eq_ok_iff.2 ⟨by omega, by omega, rfl⟩
  rw [Decimal.toPlaces, hplaces, ← toPlaces_ofFloat h x]
  rfl

end

theorem value_shown (places : ℕ) (x : FiniteFloat) :
    (x.shown places).value = x.lastPlaces places / 10 ^ places := value_fixed _ _

def shownValue (places : ℕ) (x : FiniteFloat) : ℚ := signed x.signBit (x.shown places).value

section
variable {places : ℕ} {x y : FiniteFloat} (h : places ≤ placesLimit)
include h

theorem value_shown_of_not_isCounted (hx : ¬x.IsCounted places) : (x.shown places).value = 0 := by
  rw [value_shown, lastPlaces_of_not_isCounted h hx, Nat.cast_zero, zero_div]

theorem exists_value_shown_eq (hx : x.IsCounted places) : ∃ n : ℤ,
    (x.shown places).value = n / 10 ^ places ∧
      IsNearest (fun k : ℤ => (k / 10 ^ places : ℚ)) Even |x.value| n := by
  have hpow : (0 : ℚ) < 10 ^ places := by positivity
  have hnearest := (isNearest_lastPlaces h hx).mul (inv_pos.2 hpow)
  rw [mul_inv_cancel_right₀ hpow.ne'] at hnearest
  simp only [← div_eq_mul_inv] at hnearest
  exact ⟨x.lastPlaces places, by rw [value_shown, Int.cast_natCast], hnearest⟩

theorem exists_shownValue_eq (hx : x.IsCounted places) : ∃ n : ℤ,
    x.shownValue places = n / 10 ^ places ∧ IsNearest (fun k : ℤ => (k : ℚ)) Even (x.value * 10 ^ places) n := by
  have hnearest := isNearest_lastPlaces h hx
  rw [shownValue, value_shown, x.value_eq_signed, signed, signed]
  split
  · refine ⟨-x.lastPlaces places, by rw [Int.cast_neg, neg_div, Int.cast_natCast], ?_⟩
    rw [neg_mul]
    exact hnearest.neg
  · exact ⟨x.lastPlaces places, by rw [Int.cast_natCast], hnearest⟩

theorem abs_shownValue_sub_le (hx : x.IsCounted places) : |x.shownValue places - x.value| ≤ 1 / 2 / 10 ^ places := by
  obtain ⟨n, hvalue, hnearest⟩ := exists_shownValue_eq h hx
  have hpow : (0 : ℚ) < 10 ^ places := by positivity
  have hscale : n / 10 ^ places - x.value = (n - x.value * 10 ^ places) / 10 ^ places := by
    rw [sub_div, mul_div_cancel_right₀ _ hpow.ne']
  rw [hvalue, hscale, abs_div, abs_of_pos hpow]
  exact div_le_div_of_nonneg_right hnearest.abs_sub_le_half hpow.le

theorem shownValue_mono (hx : x.IsCounted places) (hy : y.IsCounted places) (hle : x.value ≤ y.value) :
    x.shownValue places ≤ y.shownValue places := by
  obtain ⟨n, hvalue, hnearest⟩ := exists_shownValue_eq h hx
  obtain ⟨n', hvalue', hnearest'⟩ := exists_shownValue_eq h hy
  have hpow : (0 : ℚ) < 10 ^ places := by positivity
  have hle' : n ≤ n' := hnearest.mono hnearest' (mul_le_mul_of_nonneg_right hle hpow.le)
  rw [hvalue, hvalue']
  exact div_le_div_of_nonneg_right (by exact_mod_cast hle') hpow.le

end

end FiniteFloat

/-- A finite float is shown with a minus if its sign bit is set, and then, if its digits are counted, as the
multiple of `10 ^ -places` nearest to its size, of two equally near the one with even last digit. So it is at
most half a last place off, and a greater float is never shown as a smaller number. A float whose digits are
too many is shown as zero; there is none unless the places are within 309 of the limit. -/
theorem toPlaces_nearest {places : ℕ} (h : places ≤ placesLimit) :
    (∃ shown : FiniteFloat → Literal,
      (∀ x : FiniteFloat,
        toPlaces places x.1 = .ok (String.ofList (sign x.signBit ++ (shown x).chars)) ∧
        Json.IsInteger (shown x).whole ∧ (shown x).fraction.length = places ∧
        (x.IsCounted places →
          (∃ n : ℤ, (shown x).value = n / 10 ^ places ∧
            IsNearest (fun k : ℤ => (k / 10 ^ places : ℚ)) Even |x.value| n) ∧
          |signed x.signBit (shown x).value - x.value| ≤ 1 / 2 / 10 ^ places) ∧
        (¬x.IsCounted places → (shown x).value = 0 ∧ 1 ≤ |x.value|)) ∧
      ∀ x y : FiniteFloat, x.IsCounted places → y.IsCounted places → x.value ≤ y.value →
        signed x.signBit (shown x).value ≤ signed y.signBit (shown y).value) ∧
    (places + 309 ≤ placesLimit → ∀ x : FiniteFloat, x.IsCounted places) := by
  refine ⟨⟨FiniteFloat.shown places, fun x => ⟨FiniteFloat.toPlaces_eq_shown h x, isInteger_digits _,
    length_fraction_fixed _ _, fun hx => ?_, fun hx => ?_⟩, fun x y hx hy hle => ?_⟩, fun hfew x => ?_⟩
  · exact ⟨FiniteFloat.exists_value_shown_eq h hx, FiniteFloat.abs_shownValue_sub_le h hx⟩
  · exact ⟨FiniteFloat.value_shown_of_not_isCounted h hx, FiniteFloat.one_le_of_not_isCounted hx⟩
  · exact FiniteFloat.shownValue_mono h hx hy hle
  · exact x.isCounted_of_add_le hfew

theorem toPlaces_nearest_neg_one_eighth : 2 ≤ placesLimit ∧ ∃ (x : FiniteFloat) (l : Literal),
    x.value = -(1 / 8) ∧ toPlaces 2 x.1 = .ok (String.ofList ('-' :: l.chars)) ∧ l.value = 12 / 100 := by
  have hbits : ofFloat (Float.ofBits (UInt64.ofNat 0xBFC0000000000000)) = .finite true fractions 1019 :=
    ofFloat_ofBits (by decide) (by decide)
  let x : FiniteFloat := ⟨_, by rw [hbits]; rfl⟩
  have hsize : (fractions : ℚ) * 2 ^ 1019 / one = 1 / 8 := by
    have hfractions : (fractions : ℚ) = 2 ^ 52 := by norm_num [fractions]
    have hone : (one : ℚ) = 8 * (2 ^ 52 * 2 ^ 1019) := by
      rw [cast_one, ← pow_add, show (8 : ℚ) = 2 ^ 3 by norm_num, ← pow_add]
    rw [hone, hfractions, div_mul_cancel_right₀ (by positivity), one_div]
  have hvalue : x.value = -(1 / 8) := by
    rw [FiniteFloat.value_of_ofFloat (x := x) hbits, hsize]
    rfl
  obtain ⟨⟨shown, hshown, -⟩, hcounted⟩ := toPlaces_nearest (show 2 ≤ placesLimit by decide)
  obtain ⟨htext, -, -, hrounded, -⟩ := hshown x
  obtain ⟨⟨n, hn, hnearest⟩, -⟩ := hrounded (hcounted (by decide) x)
  refine ⟨by decide, x, shown x, hvalue, ?_, ?_⟩
  · rw [← x.negative_ofFloat, hbits] at htext
    exact htext
  · rw [hvalue, abs_neg, abs_of_pos (by norm_num)] at hnearest
    obtain ⟨hlower, hupper⟩ := abs_le.1 (hnearest.le 12)
    norm_num at hlower hupper
    have hleft : (12 : ℚ) ≤ n := by linarith
    have hright : (n : ℚ) ≤ 13 := by linarith
    norm_cast at hleft hright
    obtain rfl | rfl : n = 12 ∨ n = 13 := by omega
    · exact hn.trans (by norm_num)
    · rcases hnearest.even 12 (by norm_num) with heq | heven
      · norm_num at heq
      · exact absurd heven (by decide)

/-- At the limit of places one and a half is shown as zero. -/
theorem not_forall_toPlaces_nearest : ¬∀ places ≤ placesLimit, ∃ shown : FiniteFloat → Literal,
    (∀ x : FiniteFloat,
      toPlaces places x.1 = .ok (String.ofList (sign x.signBit ++ (shown x).chars)) ∧
      Json.IsInteger (shown x).whole ∧ (shown x).fraction.length = places ∧
      (∃ n : ℤ, (shown x).value = n / 10 ^ places ∧
        IsNearest (fun k : ℤ => (k / 10 ^ places : ℚ)) Even |x.value| n) ∧
      |signed x.signBit (shown x).value - x.value| ≤ 1 / 2 / 10 ^ places) ∧
    ∀ x y : FiniteFloat, x.value ≤ y.value →
      signed x.signBit (shown x).value ≤ signed y.signBit (shown y).value := by
  intro h
  have hbits : ofFloat (Float.ofBits (UInt64.ofNat 0x3FF8000000000000)) = .finite false (3 * 2 ^ 51) 1022 :=
    ofFloat_ofBits (by decide) (by decide)
  let x : FiniteFloat := ⟨_, by rw [hbits]; rfl⟩
  have hvalue : x.value = 3 / 2 := by
    have hone : (one : ℚ) = 2 * (2 ^ 51 * 2 ^ 1022) := by rw [cast_one, ← pow_add, ← pow_succ']
    rw [FiniteFloat.value_of_ofFloat (x := x) hbits, hone, Nat.cast_mul, Nat.cast_pow, Nat.cast_ofNat, Nat.cast_ofNat,
      mul_assoc, mul_div_mul_right _ _ (by positivity)]
    rfl
  have hcounted : ¬x.IsCounted placesLimit := by
    rintro (hlt | ⟨⟨n, hn⟩, -⟩)
    · rw [hvalue, Nat.sub_self] at hlt
      norm_num at hlt
    · have hodd : (3 : ℚ) = 2 * n := by linarith
      norm_cast at hodd
      omega
  obtain ⟨shown, hshown, -⟩ := h placesLimit le_rfl
  obtain ⟨htext, -, -, -, hnear⟩ := hshown x
  rw [FiniteFloat.toPlaces_eq_shown le_rfl x, Except.ok.injEq, String.ofList_inj, List.append_cancel_left_eq] at htext
  have hzero : (shown x).value = 0 := by
    rw [← Literal.value_congr htext, FiniteFloat.value_shown_of_not_isCounted le_rfl hcounted]
  have hhalf : (1 : ℚ) / 2 / 10 ^ placesLimit ≤ 1 / 2 := div_le_self (by norm_num) (one_le_pow₀ (by norm_num))
  have hsigned : signed x.signBit 0 = 0 := by rw [signed, neg_zero, ite_self]
  rw [hzero, hsigned, hvalue, zero_sub, abs_neg, abs_of_pos (by norm_num)] at hnear
  linarith

end InfixCalc.Decimal
