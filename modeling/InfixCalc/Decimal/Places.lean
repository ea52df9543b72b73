import InfixCalc.Decimal.Binary64

/-!
Numbers with a fixed count of decimal places, rounded exactly: the multiple of `10 ^ -places` nearest to
the number itself, the even one of two equally near. The digits are counted beforehand, and of a number that
has too many of them none is shown.
-/

namespace InfixCalc.Decimal

inductive PlacesFault
  | negative
  | tooBig
  | tooManyDigits
  deriving DecidableEq, Repr

def placesLimit : Nat := 2147483647

def wordLimit : Nat := 9223372036854775807

def places? (places : Int) : Except PlacesFault Nat :=
  if places < 0 then .error .negative
  else if wordLimit < places then .error .tooManyDigits
  else if placesLimit < places then .error .tooBig
  else .ok places.toNat

theorem places?_eq_ok_iff {places : Int} {n : Nat} :
    places? places = .ok n ↔ 0 ≤ places ∧ places ≤ placesLimit ∧ n = places.toNat := by
  have hw : placesLimit < wordLimit := by decide
  unfold places?
  by_cases h : places < 0
  · simp only [if_pos h, reduceCtorEq, false_iff]
    omega
  · by_cases h' : (wordLimit : Int) < places
    · simp only [if_neg h, if_pos h', reduceCtorEq, false_iff]
      omega
    · by_cases h'' : (placesLimit : Int) < places
      · simp only [if_neg h, if_neg h', if_pos h'', reduceCtorEq, false_iff]
        omega
      · simp only [if_neg h, if_neg h', if_neg h'', Except.ok.injEq]
        omega

def digits (n : Nat) : List Char := Nat.toDigits 10 n

def pointed (places n : Nat) : List Char :=
  if places = 0 then digits n
  else digits (n / tenTo places) ++ '.' :: (digits (n % tenTo places)).leftpad places '0'

def sign (negative : Bool) : List Char := if negative then ['-'] else []

/-- Whether the digits of so many units are within the limit, from the first to the last place. Nothing is
counted of what is less than one, nor of a whole number of at most fifteen digits. -/
def Binary64.isCounted (places units : Nat) : Bool :=
  units < one || units % one = 0 && units / one < tenTo 15
    || (digits (units / one)).length + places ≤ placesLimit

def Binary64.toPlaces (places : Nat) : Binary64 → String
  | .nan => "nan"
  | .infinite negative => String.ofList (sign negative ++ ['i', 'n', 'f'])
  | .finite negative mantissa scale =>
    let units := mantissa <<< scale
    if isCounted places units then
      String.ofList (sign negative ++ pointed places (roundHalfEven (units * tenTo places) one))
    else (String.ofList (sign negative ++ ['0', '.'])).pushn '0' places

def toPlaces (places : Int) (x : Float) : Except PlacesFault String :=
  (places? places).map fun p => (Binary64.ofFloat x).toPlaces p

end InfixCalc.Decimal
