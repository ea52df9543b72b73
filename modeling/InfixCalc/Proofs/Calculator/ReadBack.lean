import InfixCalc.Outcome.Display
import InfixCalc.Proofs.Json.ReadBack

namespace InfixCalc

namespace Json.Value

def bool? : Value → Option Bool
  | .bool b => some b
  | _ => none

def number? : Value → Option Float
  | .number x => some x
  | _ => none

def string? : Value → Option String
  | .string s => some s
  | _ => none

end Json.Value

namespace Outcome

open Json

def ofJson? : Value → Option Outcome
  | .object members => ((members.lookup "ok").bind Value.bool?).map fun ok =>
    { ok
      value := (members.lookup "result").bind Value.number?
      rpn := (members.lookup "postfix").bind Value.string?
      error := (members.lookup "error").bind Value.string?
      errorCode := (members.lookup "error_code").bind Value.string?
      causeCode := (members.lookup "cause_code").bind Value.string? }
  | _ => none

theorem ofJson?_members (o : Outcome) : ofJson? (.object (o.members.map toMember)) = some o := by
  obtain ⟨ok, _ | x, _ | rpn, _ | error, _ | errorCode, _ | causeCode⟩ := o <;> rfl

/-- Whatever an outcome holds, its JSON form is printed, is read as an object of its members in their order,
and from these the outcome is found again. -/
theorem read_print_json (o : Outcome) (places : ℤ) (showRpn : Bool) :
    ∃ text, o.print places ⟨.json, showRpn⟩ = ⟨text, none⟩ ∧
      read text = some (.object (o.members.map toMember)) ∧
      (read text).bind ofJson? = some o := by
  have hread : read (o.toJson ++ "\n") = some (.object (o.members.map toMember)) := by
    have hspace : IsSpace ['\n'] := rfl
    have htext : o.toJson ++ "\n" = String.ofList (object o.members ++ ['\n']) := by
      rw [String.ofList_append]
      rfl
    rw [htext, read_object o.members hspace]
  refine ⟨_, rfl, hread, ?_⟩
  rw [hread]
  exact o.ofJson?_members

end Outcome
end InfixCalc
