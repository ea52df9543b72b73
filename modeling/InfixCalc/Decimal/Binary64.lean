import InfixCalc.Decimal.Rounding

/-!
Binary64 numbers as integers. The unit is `2 ^ -1074`, the smallest positive number: every finite one is
a whole number of units, and the bits of a positive one are `mantissa + scale · 2 ^ 52` for
`mantissa <<< scale` units.
-/

namespace InfixCalc.Decimal

inductive Binary64
  | finite (negative : Bool) (mantissa scale : Nat)
  | infinite (negative : Bool)
  | nan
  deriving DecidableEq, Repr

namespace Binary64

def one : Nat := 1 <<< 1074

def fractions : Nat := 0x10000000000000

def minus : Nat := 0x8000000000000000

def infinityBits : Nat := 0x7FF0000000000000

def ofBits (bits : Nat) : Binary64 :=
  let negative := bits / minus % 2 = 1
  let exponent := bits / fractions % 2048
  let fraction := bits % fractions
  if exponent = 2047 then (if fraction = 0 then .infinite negative else .nan)
  else if exponent = 0 then .finite negative fraction 0
  else .finite negative (fractions + fraction) (exponent - 1)

def ofFloat (x : Float) : Binary64 := ofBits x.toBits.toNat

def isFinite : Binary64 → Bool
  | .finite .. => true
  | _ => false

def magnitudeBits (mantissa scale : Nat) : Nat := mantissa + scale * fractions

/-- The bits of the number nearest to `num / den`, of two equally near the one with even mantissa; all
that rounds to `2 ^ 1024` or beyond is infinite. -/
def nearestBits (num den : Nat) : Nat :=
  let scale := (num * one / den).log2 - 52
  min (magnitudeBits (roundHalfEven (num * one) (den <<< scale)) scale) infinityBits

def signBit (negative : Bool) : Nat := if negative then minus else 0

def nearest (negative : Bool) (num den : Nat) : Float :=
  Float.ofBits (UInt64.ofNat (signBit negative + nearestBits num den))

def infinity (negative : Bool) : Float :=
  Float.ofBits (UInt64.ofNat (signBit negative + infinityBits))

end Binary64
end InfixCalc.Decimal
