import InfixCalc.Decimal.Numeral
import InfixCalc.Fault
import InfixCalc.Operator
import InfixCalc.Text.Blank

namespace InfixCalc

open Text Decimal

def Token.Kind.ofChar (c : Char) : Token.Kind :=
  if isDigit c then .number
  else if c = '(' then .opening
  else if c = ')' then .closing
  else if (Operator.ofSymbol? (String.singleton c)).isSome then .operator
  else .stray

def isStray (c : Char) : Bool := !isBlank c && Token.Kind.ofChar c = .stray

/-- How many of the characters after its first one belong to a number: its other digits, and a point with
the digits behind it. -/
def numberExtent (cs : List Char) : Nat :=
  let whole := (cs.takeWhile isDigit).length
  match cs.drop whole with
  | '.' :: d :: ds => if isDigit d then whole + 2 + (ds.takeWhile isDigit).length else whole
  | _ => whole

def Token.Kind.extent : Token.Kind → List Char → Nat
  | .number, cs => numberExtent cs
  | .stray, cs => (cs.takeWhile isStray).length
  | _, _ => 0

namespace Token

/-- The tokens of a text that starts at `position`, of which the first `covered` characters belong to the
token before it. -/
def scanFrom (covered position : Nat) : List Char → List Token
  | [] => []
  | c :: cs =>
    match covered with
    | n + 1 => scanFrom n (position + 1) cs
    | 0 =>
      if isBlank c then scanFrom 0 (position + 1) cs
      else
        let kind := Kind.ofChar c
        let n := kind.extent cs
        ⟨kind, String.ofList (c :: cs.take n), position⟩ :: scanFrom n (position + 1) cs

theorem scanFrom_covered (n position : Nat) (cs : List Char) :
    scanFrom n position cs = scanFrom 0 (position + n) (cs.drop n) := by
  induction cs generalizing n position with
  | nil => simp [scanFrom]
  | cons c cs ih =>
    cases n with
    | zero => rfl
    | succ n =>
      rw [scanFrom, ih, List.drop_succ_cons]
      congr 1
      omega

def scan (s : String) : List Token := scanFrom 0 0 s.toList

def ofString (strict : Bool) (s : String) : List Token :=
  if strict then scan s else (scan s).filter (·.kind ≠ .stray)

def value (t : Token) : Except Fault Float :=
  match Numeral.ofString? t.text with
  | some n => .ok n.toFloat
  | none => .error (.notNumber t.text)

end Token
end InfixCalc
