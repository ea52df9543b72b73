import InfixCalc.Decimal.Places
import InfixCalc.Fault
import InfixCalc.Text.Blank

namespace InfixCalc

structure History.Entry where
  expression : String
  value : Float
  deriving DecidableEq

structure History where
  entries : List History.Entry := []
  deriving DecidableEq

namespace History

def Entry.line (places : Int) (e : Entry) : Except Fault String :=
  match Decimal.toPlaces places e.value with
  | .ok s => .ok (e.expression ++ " = " ++ s)
  | .error f => .error (.places f)

def Entry.of (expression : String) (value : Float) : Entry := ⟨Text.squeeze expression, value⟩

def size (h : History) : Nat := h.entries.length

def record (h : History) (expression : String) (value : Float) : History :=
  ⟨h.entries ++ [.of expression value]⟩

def lines (places : Int) (h : History) : Except Fault (List String) := h.entries.mapM (·.line places)

@[simp] theorem entries_record (h : History) (expression : String) (value : Float) :
    (h.record expression value).entries = h.entries ++ [.of expression value] := rfl

structure Cursor where
  rest : List Entry
  deriving DecidableEq

def cursor (h : History) : Cursor := ⟨h.entries⟩

def Cursor.next (c : Cursor) : Option Entry × Cursor := (c.rest.head?, ⟨c.rest.tail⟩)

end History
end InfixCalc
