import InfixCalc.Error

namespace InfixCalc

inductive Operator
  | add | sub | mul | div
  deriving DecidableEq, Repr

namespace Operator

def all : List Operator := [.add, .sub, .mul, .div]

def symbol : Operator → String
  | .add => "+"
  | .sub => "-"
  | .mul => "*"
  | .div => "/"

def ofSymbol? (s : String) : Option Operator := all.find? (·.symbol = s)

def rank : Operator → Nat
  | .add | .sub => 1
  | .mul | .div => 2

@[simp] theorem ofSymbol?_symbol (o : Operator) : ofSymbol? o.symbol = some o := by
  cases o <;> decide

theorem ofSymbol?_eq_some_iff {s : String} {o : Operator} : ofSymbol? s = some o ↔ s = o.symbol := by
  constructor
  · intro h
    unfold ofSymbol? at h
    have := List.find?_some h
    simp_all
  · rintro rfl
    exact ofSymbol?_symbol o

/-- Division refuses a zero of either sign; all else is binary64 arithmetic. -/
def apply (o : Operator) (a b : Float) : Except Error Float :=
  match o with
  | .add => .ok (a + b)
  | .sub => .ok (a - b)
  | .mul => .ok (a * b)
  | .div => if b == 0 then .error .divisionByZero else .ok (a / b)

def applySymbol (s : String) (a b : Float) : Except Error Float :=
  match ofSymbol? s with
  | none => .error (.malformed (.unsupported s))
  | some o => o.apply a b

end Operator
end InfixCalc
