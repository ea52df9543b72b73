import InfixCalc.Decimal.Numeral
import InfixCalc.Decimal.Places
import InfixCalc.Error
import InfixCalc.Text.Quoted

namespace InfixCalc

/-- The failures that no report is made of: they end what was being done. -/
inductive Fault
  | notNumber (text : String)
  | notInteger (text : String) (why : Decimal.IntegerFault)
  | places (why : Decimal.PlacesFault)
  | noValue
  | noEntry
  | yearOutOfRange (year : Int)
  | timeNotNumber
  | timeOutOfRange
  | timeTooFar
  | unopened (path : String)
  | blankLevel
  | blankPrecision
  | blankExpression
  deriving DecidableEq, Repr

def Fault.integerWidth : Nat := 200

def Fault.message : Fault → String
  | .notNumber text => "could not convert string to float: " ++ Text.quoted text
  | .notInteger text .malformed =>
    "invalid literal for int() with base 10: " ++ Text.quotedWithin Fault.integerWidth text
  | .notInteger _ (.tooLong n) =>
    "Exceeds the limit (" ++ toString Decimal.integerDigits
      ++ " digits) for integer string conversion: value has " ++ toString n
      ++ " digits; use sys.set_int_max_str_digits() to increase the limit"
  | .places .negative => "Format specifier missing precision"
  | .places .tooBig => "precision too big"
  | .places .tooManyDigits => "Too many decimal digits in format string"
  | .noValue => "unsupported format string passed to NoneType.__format__"
  | .noEntry => "list index out of range"
  | .yearOutOfRange year => "year " ++ toString year ++ " is out of range"
  | .timeNotNumber => "Invalid value NaN (not a number)"
  | .timeOutOfRange => "timestamp out of range for platform time_t"
  | .timeTooFar => "[Errno 75] Value too large for defined data type"
  | .unopened path => "[Errno 2] No such file or directory: " ++ Text.quoted path
  | .blankLevel => "'list' object has no attribute 'upper'"
  | .blankPrecision => "'>=' not supported between instances of 'list' and 'int'"
  | .blankExpression => "'list' object has no attribute 'strip'"

inductive Failure
  | error (e : Error)
  | fault (f : Fault)
  deriving DecidableEq, Repr

end InfixCalc
