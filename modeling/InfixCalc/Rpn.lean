import InfixCalc.Token.Scan

/-!
Reverse Polish order. Tokens pass a yard from left to right: numbers leave it at once, operators wait
until one that binds less tightly, a closing parenthesis or the end lets them out.
-/

namespace InfixCalc.Rpn

/-- What has left the yard, the last first, and what waits in it, the innermost first. -/
structure Yard where
  output : List Token := []
  waiting : List Token := []
  deriving DecidableEq, Repr

namespace Yard

def precedes (rank : Nat) (t : Token) : Bool :=
  t.kind = .operator && (Operator.ofSymbol? t.text).any (rank ≤ ·.rank)

def release (p : Token → Bool) (y : Yard) : Yard :=
  ⟨(y.waiting.takeWhile p).reverse ++ y.output, y.waiting.dropWhile p⟩

def accept (y : Yard) (t : Token) : Except Failure Yard :=
  match t.kind with
  | .number =>
    match t.value with
    | .error f => .error (.fault f)
    | .ok x =>
      if (Decimal.Binary64.ofFloat x).isFinite then .ok { y with output := t :: y.output }
      else .error (.error (.unknownToken t))
  | .opening => .ok { y with waiting := t :: y.waiting }
  | .closing =>
    let y := y.release (·.kind ≠ .opening)
    match y.waiting with
    | [] => .error (.error (.unmatched .closing))
    | _ :: waiting => .ok { y with waiting }
  | .operator =>
    match Operator.ofSymbol? t.text with
    | none => .error (.error (.unknownToken t))
    | some o =>
      let y := y.release (precedes o.rank)
      .ok { y with waiting := t :: y.waiting }
  | .stray => .error (.error (.unknownToken t))

def finish (y : Yard) : Except Failure (List Token) :=
  if y.waiting.any (·.kind = .opening) then .error (.error (.unmatched .opening))
  else .ok (y.output.reverse ++ y.waiting)

end Yard

def ofTokens (ts : List Token) : Except Failure (List Token) :=
  ts.foldlM Yard.accept {} >>= Yard.finish

def text (ts : List Token) : String := " ".intercalate (ts.map (·.text))

end InfixCalc.Rpn
