import InfixCalc.Token

namespace InfixCalc

inductive Unmatched
  | closing
  | opening
  | other (detail : String)
  deriving DecidableEq, Repr

def Unmatched.detail : Unmatched → String
  | .closing => "no matching opening parenthesis"
  | .opening => "no matching closing parenthesis"
  | .other detail => detail

inductive Malformed
  | operands
  | unexpected (text : String) (position : Nat)
  | unsupported (operator : String)
  | other (message : String)
  deriving DecidableEq, Repr

def Malformed.message : Malformed → String
  | .operands => "malformed expression: extra or missing operands"
  | .unexpected text position =>
    "malformed expression: unexpected token '" ++ text ++ "' at position " ++ toString position
  | .unsupported operator => "malformed expression: unsupported operator '" ++ operator ++ "'"
  | .other message => message

inductive Error
  | tooLong (limit : Int)
  | noTokens (expression : String)
  | unmatched (which : Unmatched)
  | unknownToken (token : Token)
  | unknownText (text : String)
  | missingOperands (operator : String) (position : Int)
  | divisionByZero
  | operatorFailed (operator : String) (cause : Error)
  | malformed (why : Malformed)
  | invalid (message : String) (code : String := "VALIDATION_ERROR")
  | general (message : String) (code : String := "CALCULATOR_ERROR")
  deriving DecidableEq, Repr

end InfixCalc
