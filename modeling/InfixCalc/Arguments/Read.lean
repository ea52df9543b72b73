import InfixCalc.Arguments.Word

namespace InfixCalc.Arguments

structure Bundle where
  before : List Flag := []
  last : Flag
  attached : Option String := none

def Bundle.ofAttached (f : Flag) (single : Bool) (cs : List Char) : Except Stop Bundle :=
  if f.takesValue then .ok ⟨[], f, some (String.ofList cs)⟩
  else
    let ignored := f.complain ("ignored explicit argument " ++ Text.quoted (String.ofList cs))
    match single, cs with
    | true, c :: cs =>
      match Flag.ofName? (String.ofList ['-', c]) with
      | none => .error ignored
      | some g =>
        if cs.isEmpty then .ok ⟨[f], g, none⟩
        else (ofAttached g true cs).map fun b => { b with before := f :: b.before }
    | _, _ => .error ignored

def Bundle.ofFlag (f : Flag) (name : String) : Option String → Except Stop Bundle
  | none => .ok { last := f }
  | some s => ofAttached f (name.length = 2) s.toList

structure Reading where
  arguments : Arguments := {}
  extras : List String := []
  awaiting : Option Bundle := none

namespace Reading

def complete (r : Reading) (b : Bundle) (text : Option String) : Except Stop Reading := do
  let a ← b.before.foldlM (fun a f => f.raise a) r.arguments
  let a ← match text with
    | some s => b.last.assign s a
    | none => b.last.raise a
  return { r with arguments := a, awaiting := none }

def extra (r : Reading) (s : String) : Reading := { r with extras := s :: r.extras }

def missing (b : Bundle) : Stop := b.last.complain "expected one argument"

def accept (r : Reading) (w : Word) : Except Stop Reading :=
  match r.awaiting, w with
  | some b, .plain s => r.complete b (some s)
  | some b, _ => .error (missing b)
  | none, .plain s | none, .unknown s => .ok (r.extra s)
  | none, .dashes => .ok (r.extra "--")
  | none, .flag f name attached => do
    let b ← Bundle.ofFlag f name attached
    if b.last.takesValue && b.attached.isNone then return { r with awaiting := some b }
    else r.complete b b.attached

def finish (r : Reading) : Except Stop Arguments :=
  match r.awaiting with
  | some b => .error (missing b)
  | none =>
    if r.extras.isEmpty then .ok r.arguments
    else .error (.refused ("unrecognized arguments: " ++ " ".intercalate r.extras.reverse))

end Reading

def read (ss : List String) : Except Stop Arguments := do
  (← (← Word.ofList ss).foldlM Reading.accept {}).finish

end InfixCalc.Arguments
