import InfixCalc.Log
import InfixCalc.Outcome
import InfixCalc.Rpn.Value
import InfixCalc.Settings

namespace InfixCalc.Calculator

def tokens (settings : Settings) (strict : Option Bool) (expression : String) : Except Error (List Token) :=
  let ts := Token.ofString (strict.getD settings.strict) expression
  if ts.isEmpty then .error (.noTokens expression) else .ok ts

def rpn (settings : Settings) (strict : Option Bool) (expression : String) :
    Except Failure (List Token) :=
  if settings.maxLength < expression.length then .error (.error (.tooLong settings.maxLength))
  else
    match tokens settings strict expression with
    | .error e => .error (.error e)
    | .ok ts => Rpn.ofTokens ts

def convert (settings : Settings) (strict : Option Bool) (expression : String) :
    Except Failure (List String) :=
  (rpn settings strict expression).map (·.map (·.text))

def report (answer : Error → α) : Except Failure α → Except Fault α
  | .ok a => .ok a
  | .error (.error e) => .ok (answer e)
  | .error (.fault f) => .error f

def evaluate (settings : Settings) (strict : Option Bool) (expression : String) : Except Fault Outcome :=
  report .failure do
    let ts ← rpn settings strict expression
    let value ← Rpn.value ts
    return .success value (Rpn.text ts)

def validate (settings : Settings) (strict : Option Bool) (expression : String) :
    Except Fault (Bool × Option String) :=
  report (fun e => (false, some e.message)) do
    let _ ← rpn settings strict expression
    return (true, none)

def records (expression : String) (o : Outcome) : List Log.Record :=
  if o.ok then []
  else [Log.debug "api"
    ("Evaluation of " ++ Text.quoted expression ++ " failed [" ++ o.errorCode.getD "None" ++ "]: "
      ++ o.error.getD "None")]

end InfixCalc.Calculator
