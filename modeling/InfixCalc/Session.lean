import InfixCalc.Calculator
import InfixCalc.History
import InfixCalc.Outcome.Display
import InfixCalc.Screen
import InfixCalc.Session.Command

/-!
A session answers one event after the other. It ends with an exit command, an interrupt, the end of the
input or a fault; a failed expression does not end it.
-/

namespace InfixCalc

inductive Session.Event
  | line (s : String)
  | interrupt
  | endOfInput
  deriving DecidableEq, Repr

structure Session where
  settings : Settings := {}
  style : Style := {}
  screen : Screen := .redirected

structure Session.Turn where
  out : List Piece := []
  records : List Log.Record := []
  history : History
  fault : Option Fault := none
  stops : Bool := false
  deriving DecidableEq

namespace Session

def Turn.isLast (t : Turn) : Bool := t.stops || t.fault.isSome

def greeting : String :=
  "Type 'help' or 'h' to list the available commands\n\nEnter an expression (or 'exit' / 'q' to quit):\n"

def prompt : String := "> "

def clearing (s : Session) : List Piece × List Log.Record :=
  if s.settings.clearScreen then
    match s.screen with
    | .redirected => ([], [])
    | .terminal => ([.clear], [])
    | .stuck => ([], [Log.debug "cli" "Could not clear console: [Errno 2] No such file or directory: 'clear'"])
  else ([], [])

def listing (places : Int) (h : History) : Printout :=
  if h.entries.isEmpty then ⟨"History is empty\n", none⟩
  else
    let title := "Calculation history:\n"
    match h.lines places with
    | .ok ls => ⟨title ++ String.join (ls.map (· ++ "\n")), none⟩
    | .error f => ⟨title, some f⟩

def perform (s : Session) (h : History) (c : Command) : Turn :=
  let named := Log.debug "cli" ("REPL command: " ++ c.name)
  let (cleared, noted) := s.clearing
  match c with
  | .help =>
    { out := cleared ++ [.text Command.helpText], records := named :: noted, history := h }
  | .show =>
    let p := listing s.settings.places h
    { out := cleared ++ [.text p.text], records := named :: noted, history := h, fault := p.fault }
  | .exit =>
    { out := [.text "Exiting the calculator\n"], records := [named], history := h, stops := true }

def calculate (s : Session) (h : History) (expression : String) : Turn :=
  match Calculator.evaluate s.settings none expression with
  | .error f => { history := h, fault := some f }
  | .ok o =>
    let p := o.print s.settings.places s.style
    let recorded :=
      match p.fault, o.ok, o.value with
      | none, true, some x => h.record expression x
      | _, _, _ => h
    { out := [.text p.text], records := Calculator.records expression o, history := recorded,
      fault := p.fault }

def turn (s : Session) (h : History) : Event → Turn
  | .interrupt | .endOfInput => { out := [.text "\nGoodbye.\n"], history := h, stops := true }
  | .line raw =>
    let line := Text.trim raw
    if line.isEmpty then { history := h }
    else
      match Command.ofLine? line with
      | some c => s.perform h c
      | none => s.calculate h line

/-- The turns of a session over a list of events, and the events after its end. Behind the list the input
has ended. -/
def run (s : Session) (h : History) : List Event → List Turn × List Event
  | [] => ([s.turn h .endOfInput], [])
  | e :: es =>
    let t := s.turn h e
    if t.isLast then ([t], es)
    else
      let (ts, unread) := s.run t.history es
      (t :: ts, unread)

def finalHistory (h : History) (ts : List Turn) : History := (ts.getLast?.map (·.history)).getD h

end Session
end InfixCalc
