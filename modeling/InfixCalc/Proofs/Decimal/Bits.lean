import InfixCalc.Decimal.Binary64
import Mathlib

namespace InfixCalc.Decimal.Binary64

open Float.Model (Format)
open Float.Model.UnpackedFloat

theorem toNat_unpackExponent (b : BitVec Format.binary64.numBits) :
    (unpackExponent b).toNat = b.toNat / 2 ^ 52 % 2048 := by
  change (b.extractLsb 62 52).toNat = _
  rw [BitVec.extractLsb_toNat, Nat.shiftRight_eq_div_pow]

theorem toNat_unpackMantissa (b : BitVec Format.binary64.numBits) :
    (unpackMantissa b).toNat = b.toNat % 2 ^ 52 := by
  change (b.extractLsb 51 0).toNat = _
  rw [BitVec.extractLsb_toNat, Nat.shiftRight_zero]

theorem toBits_ofBits {b : UInt64} (h : ofBits b.toNat ≠ .nan) : (Float.ofBits b).toBits = b := by
  have hvalid : Format.binary64.Valid b.toBitVec := by
    refine ⟨fun he hm => absurd ?_ h⟩
    have hexponent : b.toNat / fractions % 2048 = 2047 :=
      (toNat_unpackExponent b.toBitVec).symm.trans (congrArg BitVec.toNat he)
    have hfraction : b.toNat % fractions ≠ 0 := fun hzero =>
      hm (BitVec.eq_of_toNat_eq ((toNat_unpackMantissa b.toBitVec).trans hzero))
    rw [ofBits, if_pos hexponent, if_neg hfraction]
  exact UInt64.toBitVec_inj.1 (pack_unpack_of_valid hvalid)

section
variable (negative : Bool) {n : Nat}

theorem signBit_add_div_minus (h : n < infinityBits) :
    decide ((signBit negative + n) / minus % 2 = 1) = negative := by
  have hn : n < minus := Nat.lt_trans h (by decide)
  cases negative with
  | false =>
    refine decide_eq_false ?_
    rw [signBit, if_neg Bool.false_ne_true, Nat.zero_add, Nat.div_eq_of_lt hn]
    decide
  | true =>
    refine decide_eq_true ?_
    rw [signBit, if_pos rfl, Nat.add_div_left n (by decide), Nat.div_eq_of_lt hn]

theorem signBit_add_div_fractions (h : n < infinityBits) :
    (signBit negative + n) / fractions % 2048 = n / fractions := by
  simp only [infinityBits] at h
  cases negative <;> simp only [signBit, minus, fractions, Bool.false_eq_true, if_true, if_false] <;> omega

theorem signBit_add_mod_fractions : (signBit negative + n) % fractions = n % fractions := by
  cases negative <;> simp only [signBit, minus, fractions, Bool.false_eq_true, if_true, if_false] <;> omega

theorem ofBits_signBit_add (h : n < infinityBits) :
    ofBits (signBit negative + n) =
      if n < fractions then .finite negative n 0
      else .finite negative (fractions + n % fractions) (n / fractions - 1) := by
  have hfinite : n / fractions ≠ 2047 := by
    simp only [fractions, infinityBits] at *
    omega
  simp only [ofBits, signBit_add_div_minus negative h, signBit_add_div_fractions negative h,
    signBit_add_mod_fractions]
  rw [if_neg hfinite]
  by_cases hsmall : n < fractions
  · rw [if_pos (Nat.div_eq_of_lt hsmall), if_pos hsmall, Nat.mod_eq_of_lt hsmall]
  · have hzero : n / fractions ≠ 0 := by
      simp only [fractions] at *
      omega
    rw [if_neg hzero, if_neg hsmall]

theorem ofBits_infinity : ofBits (signBit negative + infinityBits) = .infinite negative := by
  cases negative <;> decide +kernel

end

/-- How the finite numbers are written: a mantissa without a leading one belongs to the smallest scale. -/
structure Canonical (mantissa scale : Nat) : Prop where
  mantissa_lt : mantissa < 2 * fractions
  scale_lt : scale < 2046
  fractions_le : scale ≠ 0 → fractions ≤ mantissa

variable {negative : Bool} {b m s : Nat}

theorem Canonical.magnitudeBits_lt (h : Canonical m s) : magnitudeBits m s < infinityBits := by
  have := h.mantissa_lt
  have := h.scale_lt
  simp only [magnitudeBits, infinityBits, fractions] at *
  omega

theorem Canonical.ofBits_eq (h : Canonical m s) (negative : Bool) :
    ofBits (signBit negative + magnitudeBits m s) = .finite negative m s := by
  have hm := h.mantissa_lt
  rw [ofBits_signBit_add negative h.magnitudeBits_lt]
  by_cases hs : s = 0
  · subst hs
    by_cases hsmall : m < fractions
    · rw [magnitudeBits, Nat.zero_mul, Nat.add_zero, if_pos hsmall]
    · rw [magnitudeBits, Nat.zero_mul, Nat.add_zero, if_neg hsmall]
      simp only [fractions] at *
      congr 1 <;> omega
  · have hfractions := h.fractions_le hs
    have hlarge : ¬magnitudeBits m s < fractions := by
      rw [magnitudeBits]
      omega
    rw [if_neg hlarge]
    simp only [magnitudeBits, fractions] at *
    congr 1 <;> omega

theorem signBit_div_minus (hb : b < 2 * minus) : signBit (decide (b / minus % 2 = 1)) = b / minus * minus := by
  have hquotient : b / minus = 0 ∨ b / minus = 1 := by
    simp only [minus] at *
    omega
  rcases hquotient with hquotient | hquotient <;> rw [hquotient] <;> rfl

theorem ofBits_eq_finite (hb : b < 2 * minus) (h : ofBits b = .finite negative m s) :
    Canonical m s ∧ b = signBit negative + magnitudeBits m s := by
  have hfraction : b % fractions < fractions := Nat.mod_lt _ (by decide)
  have hsign := signBit_div_minus hb
  simp only [ofBits] at h
  split at h
  · split at h <;> cases h
  · next hlast =>
    split at h
    · next hzero =>
      cases h
      refine ⟨⟨by omega, by decide, fun h => absurd rfl h⟩, ?_⟩
      rw [hsign, magnitudeBits]
      simp only [fractions, minus] at *
      omega
    · next hzero =>
      cases h
      refine ⟨⟨by omega, by omega, fun _ => by omega⟩, ?_⟩
      rw [hsign, magnitudeBits]
      simp only [fractions, minus] at *
      omega

theorem ofBits_eq_infinite (hb : b < 2 * minus) (h : ofBits b = .infinite negative) :
    b = signBit negative + infinityBits := by
  have hsign := signBit_div_minus hb
  simp only [ofBits] at h
  split at h
  · next hlast =>
    split at h
    · next hzero =>
      cases h
      rw [hsign, infinityBits]
      simp only [fractions, minus] at *
      omega
    · cases h
  · split at h <;> cases h

theorem ofBits_eq_nan (h : ofBits b = .nan) : b / fractions % 2048 = 2047 ∧ b % fractions ≠ 0 := by
  simp only [ofBits] at h
  split at h
  · next hlast =>
    split at h
    · cases h
    · next hfraction => exact ⟨hlast, hfraction⟩
  · split at h <;> cases h

theorem eq_ofBits_of_nan {x : Float} (h : ofBits x.toBits.toNat = .nan) : Float.ofBits 0x7FF8000000000000 = x := by
  obtain ⟨hexponent, hfraction⟩ := ofBits_eq_nan h
  have hnan : x.toBits.toBitVec = packedNaN .binary64 := by
    refine x.toModel.valid.eq_packedNaN ?_ fun hzero => hfraction ?_
    · exact BitVec.eq_of_toNat_eq ((toNat_unpackExponent _).trans hexponent)
    · exact (toNat_unpackMantissa _).symm.trans (congrArg BitVec.toNat hzero)
  have hbits : x.toBits = 0x7FF8000000000000 := UInt64.toBitVec_inj.1 hnan
  rw [← hbits, Float.ofBits_toBits]

theorem exists_canonical (hm : m ≤ 2 * fractions) (hs : s ≠ 0 → fractions ≤ m)
    (h : magnitudeBits m s < infinityBits) :
    ∃ m' s', Canonical m' s' ∧ magnitudeBits m' s' = magnitudeBits m s ∧ m' <<< s' = m <<< s ∧
      (Even m → Even m') := by
  by_cases hlong : m = 2 * fractions
  · refine ⟨fractions, s + 1, ⟨by decide, ?_, fun _ => Nat.le_refl _⟩, ?_, ?_, fun _ => by decide⟩
    · simp only [magnitudeBits, fractions, infinityBits] at *
      omega
    · simp only [magnitudeBits, fractions] at *
      omega
    · rw [hlong, Nat.shiftLeft_succ, Nat.shiftLeft_eq, Nat.shiftLeft_eq, Nat.mul_assoc]
  · refine ⟨m, s, ⟨by omega, ?_, hs⟩, rfl, rfl, id⟩
    simp only [magnitudeBits, fractions, infinityBits] at *
    omega

end InfixCalc.Decimal.Binary64
