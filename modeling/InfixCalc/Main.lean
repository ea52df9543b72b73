import InfixCalc.Log.Timestamp
import InfixCalc.Run
import Std.Time.DateTime.Timestamp

namespace InfixCalc.Main

def reference : SelfCheck.Reference where
  version := "1.12"
  value s := ((SelfCheck.samples.zip [14, 20, 5, 1, 3.75, 7, 18.75]).lookup s).getD 0

def environment : IO (String → Option String) := do
  let names := ["RPNKALK_MAX_INPUT_LENGTH", "RPNKALK_DISPLAY_PRECISION", "RPNKALK_STRICT_TOKENS",
    "RPNKALK_CLEAR_SCREEN"]
  let values ← names.mapM fun name => do return (name, ← IO.getEnv name)
  return fun name => (values.lookup name).join

def now : IO String := do
  let t ← Std.Time.Timestamp.now
  match Log.timestamp (Float.ofInt t.toNanosecondsSinceUnixEpoch.val / 1e9) with
  | .ok s => return s
  | .error f => return f.message

def print (ps : List Piece) : IO Unit := do
  let out ← IO.getStdout
  out.putStr (Piece.renderAll "\x1b[H\x1b[2J\x1b[3J" ps)
  out.flush

def write (l : Log) (file : Option IO.FS.Handle) (rs : List Log.Record) : IO Unit := do
  for r in rs do
    for (sink, text) in l.deliver (← now) r do
      match sink, file with
      | .console, _ => IO.eprint text
      | .file _, some h =>
        h.putStr text
        h.flush
      | .file _, none => pure ()

def fail (f : Fault) : IO UInt32 := do
  IO.eprintln f.message
  return 1

def carryOut (file : Option IO.FS.Handle) (r : Run) : IO UInt32 := do
  print r.out
  IO.eprint r.complaint
  write r.state.log file r.records
  match r.ending with
  | .ok code => return code.toUInt32
  | .error f => fail f

partial def interact (l : Log) (file : Option IO.FS.Handle) (s : Session) (h : History)
    (pending : List String) : IO UInt32 := do
  match pending with
  | [] =>
    let chunk ← (← IO.getStdin).getLine
    if chunk.isEmpty then answer .endOfInput [] else interact l file s h (Text.lines chunk)
  | line :: pending => answer (.line line) pending
where
  answer (e : Session.Event) (pending : List String) : IO UInt32 := do
    let t := s.turn h e
    print t.out
    write l file t.records
    match t.fault with
    | some f => fail f
    | none =>
      if t.stops then return 0
      else
        print [.text Session.prompt]
        interact l file s t.history pending

def openFile (arguments : List String) : IO (Option IO.FS.Handle) := do
  match Arguments.read arguments with
  | .ok { logFile := .value path, .. } =>
    if path.isEmpty then return none
    else
      try return some (← IO.FS.Handle.mk path .append)
      catch _ => return none
  | _ => return none

def run (arguments : List String) : IO UInt32 := do
  match Settings.ofEnvironment (← environment) with
  | .error f => fail f
  | .ok settings =>
    let screen := if ← (← IO.getStdout).isTty then Screen.terminal else .redirected
    let file ← openFile arguments
    let around : Run.Surroundings := ⟨screen, fun _ => file.isSome, reference⟩
    match Run.start around ⟨settings, {}⟩ arguments with
    | .error r => carryOut file r
    | .ok ready =>
      match ready.task with
      | .session =>
        print [.text Session.greeting, .text Session.prompt]
        interact ready.state.log file (ready.session screen) {} []
      | _ => carryOut file (ready.finish around [])

end InfixCalc.Main

def main (arguments : List String) : IO UInt32 := InfixCalc.Main.run arguments
