import InfixCalc.Json
import InfixCalc.Proofs.Json.Grammar

namespace InfixCalc

namespace Decimal

theorem isDigits_digits (n : Nat) : IsDigits (digits n) := by
  refine ⟨Nat.toDigits_ne_nil, fun c hc => ?_⟩
  have hdigit := Nat.isDigit_of_mem_toDigits (by decide) (by decide) hc
  simp only [Char.isDigit, Bool.and_eq_true, decide_eq_true_eq] at hdigit
  simpa [isDigit, Char.le_def] using hdigit

theorem exists_digits_eq_cons {n : Nat} (hn : n ≠ 0) : ∃ d ds, digits n = d :: ds ∧ d ≠ '0' := by
  induction n using Nat.strong_induction_on with
  | _ n ih =>
    rw [digits, Nat.toDigits_eq_if (by decide)]
    split
    · next hlt =>
      have hall : ∀ n < 10, n ≠ 0 → n.digitChar ≠ '0' := by decide
      exact ⟨_, [], rfl, hall n hlt hn⟩
    · obtain ⟨d, ds, hdigits, hd⟩ := ih (n / 10) (by omega) (by omega)
      exact ⟨d, ds ++ [(n % 10).digitChar], by rw [← digits, hdigits]; rfl, hd⟩

namespace Scientific

theorem roundHalfEven_zero {den : Nat} (h : 0 < den) : roundHalfEven 0 den = 0 := by
  simpa using roundHalfEven_mul_self 0 h

theorem nearestBits_zero {den : Nat} (h : 0 < den) : Binary64.nearestBits 0 den = 0 := by
  have hscale : (0 * Binary64.one / den).log2 - 52 = 0 := by
    rw [Nat.zero_mul, Nat.zero_div]
    rfl
  rw [Binary64.nearestBits, hscale, Nat.zero_mul, Nat.shiftLeft_zero, roundHalfEven_zero h,
    Binary64.magnitudeBits]
  rfl

theorem bits_of_coefficient_eq_zero {d : Scientific} (h : d.coefficient = 0) : d.bits = 0 := by
  rw [bits, h]
  split
  · rw [Nat.zero_mul]
    exact nearestBits_zero (by decide)
  · exact nearestBits_zero (tenTo_pos _)

theorem coefficient_shortest_ne_zero {units bits : Nat} (hunits : units ≠ 0) (hbits : bits ≠ 0) :
    (shortest units bits).coefficient ≠ 0 := by
  have hfallback (n : Nat) : units * Nat.pow 5 n ≠ 0 := Nat.mul_ne_zero hunits (Nat.pow_pos (by decide)).ne'
  rw [shortest]
  cases hfind : ((List.range 20).map fun (i : Nat) => top units - i).findSome? fun e =>
      (neighbours units bits e).head? with
  | none =>
    rw [Option.getD_none]
    generalize 1074 = n
    exact hfallback n
  | some d =>
    obtain ⟨e, -, hhead⟩ := List.exists_of_findSome?_eq_some hfind
    have hreads : d.bits = bits := by
      simpa using (List.mem_filter.1 (List.mem_of_mem_head? hhead)).2
    intro hzero
    exact hbits (hreads ▸ bits_of_coefficient_eq_zero hzero)

end Scientific
end Decimal

namespace Json

open Decimal

theorem isDigit_of_mem_zeros {n : Nat} : ∀ c ∈ List.replicate n '0', isDigit c := fun c hc => by
  rw [List.eq_of_mem_replicate hc]
  decide

theorem isDigits_zero : IsDigits ['0'] := ⟨List.cons_ne_nil _ _, List.forall_mem_singleton.2 (by decide)⟩

theorem isDigits_zeros_append {ds : List Char} (h : IsDigits ds) (n : Nat) :
    IsDigits (List.replicate n '0' ++ ds) :=
  ⟨by simp [h.1], List.forall_mem_append.2 ⟨isDigit_of_mem_zeros, h.2⟩⟩

theorem isExponent_exponentText (l : Layout) (e : Int) : IsExponent (exponentText l e) := by
  have hdigits : IsDigits ((digits e.natAbs).leftpad l.exponentWidth '0') :=
    isDigits_zeros_append (isDigits_digits _) _
  rw [exponentText]
  split
  · exact .signed (by decide) (show ['-'] ∈ _ by decide) hdigits
  · exact .signed (by decide) (show ['+'] ∈ _ by decide) hdigits

theorem isUnsigned_write (l : Layout) {d : Char} {ds : List Char} (hd : d ≠ '0') (hds : IsDigits (d :: ds))
    (point : Int) : IsUnsigned (l.write (d :: ds) point) := by
  obtain ⟨hfirst, hrest⟩ := List.forall_mem_cons.1 hds.2
  have integer {es : List Char} (hes : ∀ c ∈ es, isDigit c) : IsInteger (d :: es) := .digits hfirst hd hes
  have hzero : IsFraction ['.', '0'] := .point isDigits_zero
  rw [Layout.write]
  split
  · simpa using IsUnsigned.intro .zero (.point (isDigits_zeros_append hds _)) .nil
  · split
    · next hpoint =>
      obtain ⟨n, hn⟩ : ∃ n, point.toNat = n + 1 := ⟨point.toNat - 1, by omega⟩
      simp only [hn]
      split
      · have hes : ∀ c ∈ ds ++ List.replicate (n + 1 - (d :: ds).length) '0', isDigit c :=
          List.forall_mem_append.2 ⟨hrest, isDigit_of_mem_zeros⟩
        simpa using IsUnsigned.intro (integer hes) hzero .nil
      · next hlong =>
        have hlength : n < ds.length := by
          rw [List.length_cons] at hlong
          omega
        have hbefore : ∀ c ∈ ds.take n, isDigit c := fun c hc => hrest c (List.mem_of_mem_take hc)
        have hbehind : IsDigits (ds.drop n) :=
          ⟨by simpa using hlength, fun c hc => hrest c (List.mem_of_mem_drop hc)⟩
        simpa using IsUnsigned.intro (integer hbefore) (.point hbehind) .nil
    · have hfraction : IsFraction (if (d :: ds).length = 1 then [] else '.' :: ds) := by
        split
        · exact .nil
        · next hlength => exact .point ⟨by rintro rfl; exact hlength rfl, hrest⟩
      simpa using IsUnsigned.intro (integer (List.forall_mem_nil _)) hfraction
        (isExponent_exponentText l (point - 1))

theorem isNumber_toShortest (negative : Bool) (mantissa scale : Nat) :
    IsNumber (Binary64.finite negative mantissa scale).toShortest := by
  rw [Binary64.toShortest]
  split
  · exact .intro negative (.intro .zero (.point isDigits_zero) .nil)
  · next hmantissa =>
    have hunits : mantissa <<< scale ≠ 0 := by
      rw [Nat.shiftLeft_eq]
      exact Nat.mul_ne_zero hmantissa (Nat.pow_pos (by decide)).ne'
    have hbits : Binary64.magnitudeBits mantissa scale ≠ 0 := by
      rw [Binary64.magnitudeBits]
      omega
    have hcoefficient := Scientific.coefficient_shortest_ne_zero hunits hbits
    obtain ⟨d, ds, hdigits, hd⟩ := exists_digits_eq_cons hcoefficient
    simp only [hdigits]
    exact .intro negative (isUnsigned_write layout hd (hdigits ▸ isDigits_digits _) _)

theorem isNumber_number_of_isFinite {x : Float} (h : (Binary64.ofFloat x).isFinite) :
    IsNumber (number x) := by
  rw [number]
  cases hx : Binary64.ofFloat x with
  | finite negative mantissa scale => exact isNumber_toShortest negative mantissa scale
  | infinite | nan =>
    rw [hx] at h
    cases h

theorem exists_mem_number_of_not_isFinite {x : Float} (h : ¬(Binary64.ofFloat x).isFinite) :
    '"' ∉ number x ∧ ∃ c ∈ number x, c ∉ letters := by
  rw [number]
  cases hx : Binary64.ofFloat x with
  | finite negative mantissa scale => exact absurd (by rw [hx]; rfl) h
  | infinite negative => cases negative <;> exact ⟨by decide, 'I', by decide, by decide⟩
  | nan => exact ⟨by decide, 'N', by decide, by decide⟩

theorem isNumber_number_iff {x : Float} : IsNumber (number x) ↔ (Binary64.ofFloat x).isFinite := by
  refine ⟨fun hnumber => ?_, isNumber_number_of_isFinite⟩
  by_contra hnot
  obtain ⟨hquote, c, hc, hletter⟩ := exists_mem_number_of_not_isFinite hnot
  have hall := (Lettered.of_isNumber hnumber).mem_letters
  rw [unquoted_eq_self hquote] at hall
  exact hletter (hall c hc)

end Json
end InfixCalc
