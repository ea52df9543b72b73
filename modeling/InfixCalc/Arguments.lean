import InfixCalc.Log.Level
import InfixCalc.Outcome.Display

namespace InfixCalc

/-- What was given for an option: a value, or `--`, which fills its place without being one. -/
inductive Arguments.Given (α : Type)
  | absent
  | blank
  | value (a : α)
  deriving DecidableEq, Repr

def Arguments.Given.getD (g : Given α) (a : α) : α :=
  match g with
  | .value b => b
  | _ => a

structure Arguments where
  expression : Arguments.Given String := .absent
  format : Arguments.Given Format := .absent
  precision : Arguments.Given Int := .absent
  showRpn : Bool := false
  strict : Bool := false
  version : Bool := false
  logLevel : Arguments.Given Log.Level := .absent
  logFile : Arguments.Given String := .absent
  selfCheck : Bool := false
  deriving DecidableEq, Repr

inductive Arguments.Stop
  | help
  | refused (message : String)
  deriving DecidableEq, Repr

end InfixCalc
