import InfixCalc.Decimal.Binary64
import InfixCalc.Fault

namespace InfixCalc.Log

structure Date where
  year : Int
  month : Nat
  day : Nat
  deriving DecidableEq, Repr

/-- The date a number of days after 1970-01-01. Years are counted from March, so that a leap day ends
its year, in eras of 400 years. -/
def Date.ofDays (days : Int) : Date :=
  let shifted := days + 719468
  let era := shifted / 146097
  let dayOfEra := (shifted % 146097).toNat
  let yearOfEra := (dayOfEra - dayOfEra / 1460 + dayOfEra / 36524 - dayOfEra / 146096) / 365
  let dayOfYear := dayOfEra - (365 * yearOfEra + yearOfEra / 4 - yearOfEra / 100)
  let monthFromMarch := (5 * dayOfYear + 2) / 153
  let day := dayOfYear - (153 * monthFromMarch + 2) / 5 + 1
  let month := if monthFromMarch < 10 then monthFromMarch + 3 else monthFromMarch - 9
  ⟨era * 400 + yearOfEra + (if month ≤ 2 then 1 else 0), month, day⟩

def padded (width n : Nat) : String := String.ofList ((Nat.toDigits 10 n).leftpad width '0')

/-- Seconds are bounded by the extent of 64 bits as floats give it: the greatest word is no float, and the
float nearest to it is the bound itself. -/
def secondsLimit : Int := 0x8000000000000000

def yearsLimit : Int := 0x80000000

def clock? (t : Float) : Except Fault (Int × Nat) :=
  match Decimal.Binary64.ofFloat t with
  | .nan => .error .timeNotNumber
  | .infinite _ => .error .timeOutOfRange
  | .finite negative mantissa scale =>
    let units := mantissa <<< scale
    let whole := units / Decimal.Binary64.one
    let fraction := Decimal.Binary64.nearest false (units % Decimal.Binary64.one) Decimal.Binary64.one
    let micros :=
      match Decimal.Binary64.ofFloat (fraction * 1000000.0) with
      | .finite _ m s => Decimal.roundHalfEven (m <<< s) Decimal.Binary64.one
      | _ => 0
    let total : Int := whole * 1000000 + micros
    let total := if negative then -total else total
    let seconds := total / 1000000
    if -secondsLimit ≤ seconds ∧ seconds ≤ secondsLimit then .ok (seconds, (total % 1000000).toNat)
    else .error .timeOutOfRange

def dateOf (seconds : Int) : Except Fault Date :=
  let date := Date.ofDays (seconds / 86400)
  if date.year - 1900 < -yearsLimit ∨ yearsLimit ≤ date.year - 1900 then .error .timeTooFar
  else if 1 ≤ date.year ∧ date.year ≤ 9999 then .ok date
  else .error (.yearOutOfRange (date.year.bmod 0x100000000))

/-- The ISO 8601 text of a time, without the microseconds if there are none. The day before it has to be
within the calendar too. -/
def timestamp (t : Float) : Except Fault String := do
  let (seconds, micros) ← clock? t
  let date ← dateOf seconds
  let _ ← dateOf (seconds - 86400)
  let second := (seconds % 86400).toNat
  let day := padded 4 date.year.toNat ++ "-" ++ padded 2 date.month ++ "-" ++ padded 2 date.day
  let time := padded 2 (second / 3600) ++ ":" ++ padded 2 (second / 60 % 60) ++ ":" ++ padded 2 (second % 60)
  return day ++ "T" ++ time ++ (if micros = 0 then "" else "." ++ padded 6 micros)

end InfixCalc.Log
