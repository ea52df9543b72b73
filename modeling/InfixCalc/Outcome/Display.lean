import InfixCalc.Fault
import InfixCalc.Json
import InfixCalc.Outcome

namespace InfixCalc

inductive Format
  | human | json
  deriving DecidableEq, Repr

structure Style where
  format : Format := .human
  showRpn : Bool := false
  deriving DecidableEq, Repr

structure Printout where
  text : String
  fault : Option Fault := none
  deriving DecidableEq

namespace Outcome

def members (o : Outcome) : List (String × Json.Scalar) :=
  ("ok", .bool o.ok) ::
    [o.value.map fun x => ("result", Json.Scalar.number x),
      o.rpn.map fun s => ("postfix", .string s),
      o.error.map fun s => ("error", .string s),
      o.errorCode.map fun s => ("error_code", .string s),
      o.causeCode.map fun s => ("cause_code", .string s)].reduceOption

def toJson (o : Outcome) : String := String.ofList (Json.object o.members)

def shownValue (places : Int) (o : Outcome) : Except Fault String :=
  match o.value with
  | none => .error .noValue
  | some x => (Decimal.toPlaces places x).mapError .places

def print (places : Int) (style : Style) (o : Outcome) : Printout :=
  match style.format with
  | .json => ⟨o.toJson ++ "\n", none⟩
  | .human =>
    if o.ok then
      let before := if style.showRpn then "Postfix: " ++ o.rpn.getD "None" ++ "\n" else ""
      match o.shownValue places with
      | .ok s => ⟨before ++ "Result: " ++ s ++ "\n", none⟩
      | .error f => ⟨before, some f⟩
    else ⟨"Error: " ++ o.error.getD "None" ++ "\n", none⟩

end Outcome
end InfixCalc
