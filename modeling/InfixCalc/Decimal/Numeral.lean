import InfixCalc.Decimal.Binary64
import InfixCalc.Text.Blank
import InfixCalc.Text.DecimalDigit

/-!
Reading numbers. White space around a number is dropped, the digits of every script count, and one
underscore may stand between two digits. A float is read from a text of any length: that a text of more than
`10 ^ 9` digits is refused is left out.
-/

namespace InfixCalc.Decimal

open Text

def isDigit (c : Char) : Bool := '0' ≤ c && c ≤ '9'

/-- A character as numbers are read: beyond ASCII a space becomes a blank, a digit its ASCII form, and
anything else a character that no number has. -/
def plainChar (c : Char) : Char :=
  if c.toNat < 0x7F then c
  else if isSpace c then ' '
  else ((digitValue? c).map fun d => Char.ofNat ('0'.toNat + d)).getD '?'

def plain (s : String) : List Char := strip isBlank (s.toList.map plainChar)

def separated (before : Char) : List Char → Bool
  | [] => before ≠ '_'
  | c :: cs => (if c = '_' then isDigit before else before ≠ '_' || isDigit c) && separated c cs

def digitsValue (ds : List Char) : Nat := Nat.ofDigitChars 10 ds 0

def splitSign : List Char → Bool × List Char
  | '-' :: cs => (true, cs)
  | '+' :: cs => (false, cs)
  | cs => (false, cs)

inductive Numeral
  | finite (negative : Bool) (coefficient : Nat) (exponent : Int)
  | infinite (negative : Bool)
  | nan
  deriving DecidableEq, Repr

namespace Numeral

def exponent? : List Char → Option Int
  | [] => some 0
  | e :: cs =>
    let (negative, ds) := splitSign cs
    if (e = 'e' ∨ e = 'E') ∧ ds ≠ [] ∧ ds.all isDigit then
      some (if negative then -(digitsValue ds : Int) else digitsValue ds)
    else none

def decimal? (negative : Bool) (cs : List Char) : Option Numeral :=
  let whole := cs.takeWhile isDigit
  let rest := cs.dropWhile isDigit
  let (fraction, tail) :=
    match rest with
    | '.' :: r => (r.takeWhile isDigit, r.dropWhile isDigit)
    | r => ([], r)
  if whole.isEmpty && fraction.isEmpty then none
  else (exponent? tail).map fun e =>
    .finite negative (digitsValue (whole ++ fraction)) (e - fraction.length)

def unsigned? (negative : Bool) (cs : List Char) : Option Numeral :=
  let word := cs.map Char.toLower
  if word = ['i', 'n', 'f'] ∨ word = ['i', 'n', 'f', 'i', 'n', 'i', 't', 'y'] then some (.infinite negative)
  else if word = ['n', 'a', 'n'] then some .nan
  else decimal? negative cs

def ofChars? (cs : List Char) : Option Numeral :=
  let (negative, rest) := splitSign (cs.filter (· ≠ '_'))
  if separated ' ' cs then unsigned? negative rest else none

def ofString? (s : String) : Option Numeral := ofChars? (plain s)

/-- The nearest float. The two early answers only spare the powers of ten that could not matter. -/
def toFloat : Numeral → Float
  | .nan => Float.ofBits 0x7FF8000000000000
  | .infinite negative => Binary64.infinity negative
  | .finite negative coefficient exponent =>
    if 400 < exponent ∧ coefficient ≠ 0 then Binary64.infinity negative
    else if exponent < -(400 + coefficient.log2 : Int) ∨ coefficient = 0 then Binary64.nearest negative 0 1
    else if 0 ≤ exponent then Binary64.nearest negative (coefficient * tenTo exponent.toNat) 1
    else Binary64.nearest negative coefficient (tenTo (-exponent).toNat)

end Numeral

inductive IntegerFault
  | malformed
  | tooLong (digits : Nat)
  deriving DecidableEq, Repr

def integerDigits : Nat := 4300

def integer? (s : String) : Except IntegerFault Int :=
  let (negative, body) := splitSign (plain s)
  let run := body.takeWhile fun c => isDigit c || c = '_'
  let digits := run.filter isDigit
  if !separated ' ' run then .error .malformed
  else if integerDigits < digits.length then .error (.tooLong digits.length)
  else if digits.isEmpty ∨ run ≠ body then .error .malformed
  else .ok (if negative then -(digitsValue digits : Int) else digitsValue digits)

end InfixCalc.Decimal
