import InfixCalc.Error
import InfixCalc.Text.Quoted

namespace InfixCalc.Error

def code : Error → String
  | .tooLong _ => "TOO_LONG"
  | .noTokens _ => "NO_TOKENS"
  | .unmatched _ => "UNMATCHED_PAREN"
  | .unknownToken _ | .unknownText _ => "UNKNOWN_TOKEN"
  | .missingOperands _ _ => "INSUFFICIENT_OPERANDS"
  | .divisionByZero => "DIVISION_BY_ZERO"
  | .operatorFailed _ _ => "OPERATOR_ERROR"
  | .malformed _ => "MALFORMED_EXPRESSION"
  | .invalid _ code | .general _ code => code

def causeCode? : Error → Option String
  | .operatorFailed _ cause => some cause.code
  | _ => none

def message : Error → String
  | .tooLong limit => "Input too long (max " ++ toString limit ++ " characters)"
  | .noTokens expression => "could not tokenize expression: " ++ Text.quoted expression
  | .unmatched which => "invalid expression: " ++ which.detail
  | .unknownToken token => "invalid token: " ++ token.text
  | .unknownText text => "invalid token: " ++ text
  | .missingOperands operator position =>
    "not enough operands for operator '" ++ operator ++ "' at position " ++ toString position
  | .divisionByZero => "division by zero is undefined"
  | .operatorFailed operator cause =>
    "error while applying operator '" ++ operator ++ "': " ++ cause.message
  | .malformed why => why.message
  | .invalid message _ | .general message _ => message

end InfixCalc.Error
