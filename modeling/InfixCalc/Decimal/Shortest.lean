import InfixCalc.Decimal.Places

namespace InfixCalc.Decimal

structure Scientific where
  coefficient : Nat
  exponent : Int
  deriving DecidableEq, Repr

namespace Scientific

def bits (d : Scientific) : Nat :=
  if 0 ≤ d.exponent then Binary64.nearestBits (d.coefficient * tenTo d.exponent.toNat) 1
  else Binary64.nearestBits d.coefficient (tenTo (-d.exponent).toNat)

def onGrid (units : Nat) (exponent : Int) : Nat × Nat :=
  if 0 ≤ exponent then (units, Binary64.one * tenTo exponent.toNat)
  else (units * tenTo (-exponent).toNat, Binary64.one)

/-- Of the two multiples of `10 ^ exponent` around a number those that read back, the nearest first. -/
def neighbours (units : Nat) (bits : Nat) (exponent : Int) : List Scientific :=
  let (num, den) := onGrid units exponent
  let below := num / den
  let near := roundHalfEven num den
  let far := if near = below then below + 1 else below
  [⟨near, exponent⟩, ⟨far, exponent⟩].filter (·.bits = bits)

def top (units : Nat) : Int := ((units.log2 : Int) - 1073) * 30103 / 100000 + 1

def shortest (units bits : Nat) : Scientific :=
  let grids := (List.range 20).map fun (i : Nat) => top units - i
  (grids.findSome? fun e => (neighbours units bits e).head?).getD ⟨units * Nat.pow 5 1074, -1074⟩

end Scientific

/-- Where the shortest digits are written without an exponent: the point stands after at most `whole`
digits, and at most `zeros` zeros stand behind it before the first digit. -/
structure Layout where
  whole : Int
  zeros : Int
  exponentWidth : Nat

def layout : Layout := ⟨16, 3, 2⟩

def exponentText (l : Layout) (e : Int) : List Char :=
  'e' :: (if e < 0 then '-' else '+') :: (digits e.natAbs).leftpad l.exponentWidth '0'

def Layout.write (l : Layout) (ds : List Char) (point : Int) : List Char :=
  if point ≤ 0 ∧ -l.zeros ≤ point then '0' :: '.' :: List.replicate (-point).toNat '0' ++ ds
  else if 0 < point ∧ point ≤ l.whole then
    let n := point.toNat
    if ds.length ≤ n then ds ++ List.replicate (n - ds.length) '0' ++ ['.', '0']
    else ds.take n ++ '.' :: ds.drop n
  else
    ds.take 1 ++ (if ds.length = 1 then [] else '.' :: ds.drop 1) ++ exponentText l (point - 1)

def Binary64.toShortest : Binary64 → List Char
  | .nan => ['n', 'a', 'n']
  | .infinite negative => sign negative ++ ['i', 'n', 'f']
  | .finite negative mantissa scale =>
    if mantissa = 0 then sign negative ++ ['0', '.', '0']
    else
      let d := Scientific.shortest (mantissa <<< scale) (magnitudeBits mantissa scale)
      let ds := digits d.coefficient
      sign negative ++ layout.write ds (ds.length + d.exponent)

def shortest (x : Float) : String := String.ofList (Binary64.ofFloat x).toShortest

end InfixCalc.Decimal
