import InfixCalc.Arguments.Read
import InfixCalc.Arguments.Usage
import InfixCalc.SelfCheck
import InfixCalc.Session

/-!
A run of the calculator on its arguments. Its settings and its log outlive it: a later run starts from
what an earlier one has set.
-/

namespace InfixCalc

structure Run.State where
  settings : Settings := {}
  log : Log := {}
  deriving DecidableEq

structure Run.Surroundings where
  screen : Screen := .redirected
  canOpen : String → Bool := fun _ => true
  reference : SelfCheck.Reference := ⟨"", fun _ => 0⟩

abbrev Run.End := Except Fault Nat

structure Run where
  state : Run.State
  opened : Option String := none
  out : List Piece := []
  complaint : String := ""
  records : List Log.Record := []
  ending : Run.End

namespace Run

inductive Task
  | version
  | selfCheck
  | evaluate (expression : Arguments.Given String)
  | session
  deriving DecidableEq, Repr

def Task.ofArguments (a : Arguments) : Task :=
  if a.version then .version
  else if a.selfCheck then .selfCheck
  else if a.expression = .absent then .session
  else .evaluate a.expression

structure Ready where
  state : State
  opened : Option String
  style : Style
  task : Task
  deriving DecidableEq

def stopped (s : State) : Arguments.Stop → Run
  | .help => { state := s, out := [.text Arguments.help], ending := .ok 0 }
  | .refused message => { state := s, complaint := Arguments.complaint message, ending := .ok 2 }

def Ready.broken (r : Ready) (f : Fault) : Run :=
  { state := r.state, opened := r.opened, ending := .error f }

def openLog (around : Surroundings) (a : Arguments) (l : Log) : Log × Option Fault :=
  match a.logLevel with
  | .blank => (l, some .blankLevel)
  | g => Log.setup around.canOpen (g.getD .warning).number (some (a.logFile.getD ""))

def adjust (a : Arguments) (s : Settings) : Except Fault Settings :=
  let strict := s.strict || a.strict
  match a.precision with
  | .blank => .error .blankPrecision
  | .value n => .ok { s with places := if 0 ≤ n then n else s.places, strict }
  | .absent => .ok { s with strict }

def openedFile (l : Log) : Option String :=
  l.sinks.findSome? fun
    | .file path => some path
    | .console => none

def setup (around : Surroundings) (s : State) (a : Arguments) : Except Run Ready :=
  let (log, failed) := openLog around a s.log
  let s := { s with log }
  let ready : Ready :=
    { state := s, opened := openedFile log, style := ⟨a.format.getD .human, a.showRpn⟩,
      task := .ofArguments a }
  match failed with
  | some f => .error (ready.broken f)
  | none =>
    match adjust a s.settings with
    | .error f => .error (ready.broken f)
    | .ok settings => .ok { ready with state := { s with settings } }

def start (around : Surroundings) (s : State) (arguments : List String) : Except Run Ready :=
  match Arguments.read arguments with
  | .error stop => .error (stopped s stop)
  | .ok a => setup around s a

def Ready.session (r : Ready) (screen : Screen) : Session := ⟨r.state.settings, r.style, screen⟩

def Ready.evaluate (r : Ready) (expression : String) : Run :=
  let line := Text.trim expression
  match Calculator.evaluate r.state.settings none line with
  | .error f => r.broken f
  | .ok o =>
    let p := o.print r.state.settings.places r.style
    { state := r.state, opened := r.opened, out := [.text p.text], records := Calculator.records line o,
      ending := match p.fault with
        | some f => .error f
        | none => .ok (if o.ok then 0 else 1) }

def Ready.selfCheck (r : Ready) (reference : SelfCheck.Reference) : Run :=
  match SelfCheck.run reference r.state.settings with
  | .error f => r.broken f
  | .ok report =>
    { state := r.state, opened := r.opened, out := [.text report.text], records := report.records,
      ending := .ok (if report.passed then 0 else 1) }

def Ready.interact (r : Ready) (screen : Screen) (events : List Session.Event) : Run :=
  let (turns, _) := (r.session screen).run {} events
  { state := r.state, opened := r.opened,
    out := .text Session.greeting :: turns.flatMap fun t => .text Session.prompt :: t.out,
    records := turns.flatMap (·.records),
    ending := match turns.findSome? (·.fault) with
      | some f => .error f
      | none => .ok 0 }

def Ready.finish (around : Surroundings) (events : List Session.Event) (r : Ready) : Run :=
  match r.task with
  | .version =>
    { state := r.state, opened := r.opened, out := [.text (version ++ "\n")], ending := .ok 0 }
  | .selfCheck => r.selfCheck around.reference
  | .evaluate (.value expression) => r.evaluate expression
  | .evaluate _ => r.broken .blankExpression
  | .session => r.interact around.screen events

def complete (around : Surroundings) (s : State) (arguments : List String)
    (events : List Session.Event) : Run :=
  match start around s arguments with
  | .error run => run
  | .ok ready => ready.finish around events

def deliveries (time : String) (r : Run) : List (Log.Sink × String) :=
  r.records.flatMap (r.state.log.deliver time)

def received (time : String) (r : Run) (sink : Log.Sink) : String :=
  String.join (((r.deliveries time).filter (·.1 = sink)).map (·.2))

def sequence (around : Surroundings) (s : State) : List (List String × List Session.Event) → List Run
  | [] => []
  | (arguments, events) :: rest =>
    let r := complete around s arguments events
    r :: sequence around r.state rest

end Run
end InfixCalc
