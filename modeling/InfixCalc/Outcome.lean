import InfixCalc.Decimal.Shortest
import InfixCalc.Error.Message

namespace InfixCalc

structure Outcome where
  ok : Bool
  value : Option Float := none
  rpn : Option String := none
  error : Option String := none
  errorCode : Option String := none
  causeCode : Option String := none
  deriving DecidableEq

namespace Outcome

def success (value : Float) (rpn : String) : Outcome :=
  { ok := true, value := some value, rpn := some rpn }

def failure (e : Error) : Outcome :=
  { ok := false, error := some e.message, errorCode := some e.code, causeCode := e.causeCode? }

def failedWith (o : Outcome) (code : Option String) : Bool :=
  !o.ok && (code = o.errorCode || code = o.causeCode)

def orNone (write : α → String) (a : Option α) : String := (a.map write).getD "None"

def summary (o : Outcome) : String :=
  if o.ok then
    "EvalResult(ok=True, value=" ++ orNone Decimal.shortest o.value
      ++ ", postfix=" ++ orNone Text.quoted o.rpn ++ ")"
  else
    "EvalResult(ok=False, error_code=" ++ orNone Text.quoted o.errorCode
      ++ ", error=" ++ orNone Text.quoted o.error ++ ")"

end Outcome
end InfixCalc
