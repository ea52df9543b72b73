import InfixCalc.Fault
import InfixCalc.Text.LetterCase

namespace InfixCalc

structure Settings where
  maxLength : Int := 10000
  places : Int := 2
  strict : Bool := false
  clearScreen : Bool := true
  deriving DecidableEq, Repr

namespace Settings

def integer (s : String) : Except Fault Int :=
  (Decimal.integer? s).mapError (.notInteger s)

def isTrue (s : String) : Bool := Text.lower s = "true"

def ofEnvironment (lookup : String → Option String) : Except Fault Settings := do
  let maxLength ← integer ((lookup "RPNKALK_MAX_INPUT_LENGTH").getD "10000")
  let places ← integer ((lookup "RPNKALK_DISPLAY_PRECISION").getD "2")
  return {
    maxLength
    places := max 0 places
    strict := isTrue ((lookup "RPNKALK_STRICT_TOKENS").getD "false")
    clearScreen := isTrue ((lookup "RPNKALK_CLEAR_SCREEN").getD "true") }

end Settings
end InfixCalc
