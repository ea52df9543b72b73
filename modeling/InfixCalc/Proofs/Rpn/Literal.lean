import InfixCalc.Proofs.Decimal.Value
import InfixCalc.Rpn.Value

namespace InfixCalc

open Decimal Binary64

namespace Decimal.Literal

def token (l : Literal) (position : Int) : Token := ⟨.number, String.ofList l.chars, position⟩

def toFloat (l : Literal) : Float := nearest false (digitsValue (l.whole ++ l.fraction)) (tenTo l.fraction.length)

theorem value_eq_div (l : Literal) :
    ((digitsValue (l.whole ++ l.fraction) : ℕ) : ℚ) / (tenTo l.fraction.length : ℕ) = l.value := by
  rw [value_eq, cast_tenTo]

theorem value_token (l : Literal) (position : Int) : (l.token position).value = .ok l.toFloat := by
  have hvalue : ((digitsValue (l.whole ++ l.fraction) : ℕ) : ℚ) / (tenTo l.fraction.length : ℕ) =
      digitsValue (l.whole ++ l.fraction) * 10 ^ (-l.fraction.length : ℤ) := by
    rw [cast_tenTo, zpow_neg, zpow_natCast, div_eq_mul_inv]
  have hread : Numeral.ofString? (l.token position).text = _ := l.ofString?_eq
  rw [Token.value, hread]
  exact congrArg Except.ok (Numeral.toFloat_finite false (tenTo_pos _) hvalue)

theorem toFloat_congr {l l' : Literal} (h : l.value = l'.value) : l.toFloat = l'.toFloat := by
  refine Numeral.nearest_congr false (nearestBits_congr (tenTo_pos _) (tenTo_pos _) ?_)
  rw [value_eq_div, value_eq_div, h]

theorem exists_nearest_of_lt {l : Literal} (h : l.value < 2 ^ 1024 - 2 ^ 970) :
    ∃ x : FiniteFloat, x.1 = l.toFloat ∧ (ofFloat x.1).negative = false ∧
      IsNearest FiniteFloat.value FiniteFloat.IsEven l.value x := by
  rw [← l.value_eq_div] at h ⊢
  have hden := tenTo_pos l.fraction.length
  exact exists_nearest _ false hden ((nearestBits_lt_infinityBits_iff _ hden).2 h)

theorem isFinite_toFloat_iff (l : Literal) :
    (ofFloat l.toFloat).isFinite ↔ l.value < 2 ^ 1024 - 2 ^ 970 := by
  constructor
  · intro hfinite
    by_contra hlimit
    rw [not_lt, ← l.value_eq_div, ← nearestBits_eq_infinityBits_iff _ (tenTo_pos _)] at hlimit
    rw [toFloat, ← infinity_eq_nearest _ false hlimit, ofFloat_infinity] at hfinite
    cases hfinite
  · intro h
    obtain ⟨x, hx, -⟩ := exists_nearest_of_lt h
    rw [← hx]
    exact x.2

end Decimal.Literal

namespace Rpn

/-- A literal is refused from `2 ^ 1024 - 2 ^ 970` on, whatever else the yard holds. Below that it is let
through, and the operand it stands for is the float nearest to its value, of two equally near the even
one. So its value alone decides, and no zeros at its ends. -/
theorem literal_nearest (l : Literal) (position : Int) :
    (∀ y : Yard, y.accept (l.token position) =
      if 2 ^ 1024 - 2 ^ 970 ≤ l.value then .error (.error (.unknownToken (l.token position)))
      else .ok { y with output := l.token position :: y.output }) ∧
    ofTokens [l.token position] =
      (if 2 ^ 1024 - 2 ^ 970 ≤ l.value then .error (.error (.unknownToken (l.token position)))
      else .ok [l.token position]) ∧
    (l.value < 2 ^ 1024 - 2 ^ 970 → ∃ x : FiniteFloat, (ofFloat x.1).negative = false ∧
      IsNearest FiniteFloat.value FiniteFloat.IsEven l.value x ∧
      ∀ operands place, step operands place (l.token position) = .ok (x.1 :: operands)) ∧
    ∀ (l' : Literal) (position' : Int), l'.value = l.value →
      (l'.token position').value = (l.token position).value := by
  have haccept (y : Yard) : y.accept (l.token position) =
      if 2 ^ 1024 - 2 ^ 970 ≤ l.value then .error (.error (.unknownToken (l.token position)))
      else .ok { y with output := l.token position :: y.output } := by
    have hkind : (l.token position).kind = .number := rfl
    simp only [Yard.accept, hkind, l.value_token position, l.isFinite_toFloat_iff]
    by_cases h : l.value < 2 ^ 1024 - 2 ^ 970
    · rw [if_pos h, if_neg (not_le.2 h)]
    · rw [if_neg h, if_pos (not_lt.1 h)]
  refine ⟨haccept, ?_, fun h => ?_, fun l' position' hvalue => ?_⟩
  · rw [ofTokens, List.foldlM_cons, haccept]
    split <;> rfl
  · obtain ⟨x, hx, hsign, hnearest⟩ := Literal.exists_nearest_of_lt h
    refine ⟨x, hsign, hnearest, fun operands place => ?_⟩
    have hkind : (l.token position).kind = .number := rfl
    simp only [step, hkind, l.value_token position, hx]
  · rw [l.value_token, l'.value_token, Literal.toFloat_congr hvalue]

theorem literal_nearest_of_tie : ∃ l : Literal,
    String.ofList l.chars = "9007199254740993" ∧ l.value < 2 ^ 1024 - 2 ^ 970 ∧
    ∃ x : FiniteFloat, IsNearest FiniteFloat.value FiniteFloat.IsEven l.value x ∧
      ofTokens [l.token 1] = .ok [l.token 1] ∧ step [] 0 (l.token 1) = .ok [x.1] := by
  have hdigits : IsDigits "9007199254740993".toList := ⟨by decide, List.all_eq_true.1 (by decide)⟩
  let l : Literal := ⟨_, [], hdigits, List.forall_mem_nil _⟩
  have hvalue : l.value = 2 ^ 53 + 1 := by
    have hwhole : digitsValue l.whole = 9007199254740993 := rfl
    rw [Literal.value, hwhole]
    norm_num [l, digitsValue]
  have hlimit : l.value < 2 ^ 1024 - 2 ^ 970 := by
    have hpow : (2 : ℚ) ^ 1024 = 2 ^ 54 * 2 ^ 970 := by rw [← pow_add]
    have hone : (1 : ℚ) ≤ 2 ^ 970 := one_le_pow₀ (by norm_num)
    rw [hvalue, hpow]
    generalize (2 : ℚ) ^ 970 = limit at hone ⊢
    linarith only [hone]
  obtain ⟨-, hyard, hnearest, -⟩ := literal_nearest l 1
  obtain ⟨x, -, hx, hstep⟩ := hnearest hlimit
  rw [if_neg (not_le.2 hlimit)] at hyard
  exact ⟨l, rfl, hlimit, x, hx, hyard, hstep [] 0⟩

end Rpn
end InfixCalc
