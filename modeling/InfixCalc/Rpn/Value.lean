import InfixCalc.Rpn

namespace InfixCalc.Rpn

/-- The operands after the token at a one-based position, the last first. An operator takes the last as
its right operand and the one before it as its left one. -/
def step (operands : List Float) (position : Nat) (t : Token) : Except Failure (List Float) :=
  match t.kind with
  | .number =>
    match t.value with
    | .error f => .error (.fault f)
    | .ok x => .ok (x :: operands)
  | .operator =>
    match operands with
    | right :: left :: rest =>
      match Operator.applySymbol t.text left right with
      | .ok x => .ok (x :: rest)
      | .error .divisionByZero => .error (.error (.operatorFailed t.text .divisionByZero))
      | .error e => .error (.error e)
    | _ => .error (.error (.missingOperands t.text position))
  | _ => .error (.error (.malformed (.unexpected t.text position)))

def run (operands : List Float) (position : Nat) : List Token → Except Failure (List Float)
  | [] => .ok operands
  | t :: ts =>
    match step operands position t with
    | .ok operands => run operands (position + 1) ts
    | .error e => .error e

theorem run_append (operands : List Float) (position : Nat) (ts us : List Token) :
    run operands position (ts ++ us) =
      run operands position ts >>= fun operands => run operands (position + ts.length) us := by
  induction ts generalizing operands position with
  | nil => rfl
  | cons t ts ih =>
    simp only [List.cons_append, run]
    cases step operands position t with
    | error e => rfl
    | ok operands => simp [ih, Nat.add_assoc, Nat.add_comm 1]

def value (ts : List Token) : Except Failure Float :=
  match run [] 1 ts with
  | .ok [x] => .ok x
  | .ok _ => .error (.error (.malformed .operands))
  | .error e => .error e

end InfixCalc.Rpn
