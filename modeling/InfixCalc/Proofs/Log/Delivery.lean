import InfixCalc.Log
import InfixCalc.Proofs.Machine
import Mathlib.Data.List.Induction

namespace InfixCalc.Log

theorem levelNumber_of_upper {s : String} {level : Level} (h : Text.upper s = level.name) :
    levelNumber s = level.number := by
  rw [levelNumber, h]
  cases level <;> rfl

theorem Level.number_pos (level : Level) : 0 < level.number := by
  cases level <;> decide

structure Setup where
  level : Level
  text : String
  upper_text : Text.upper text = level.name
  file : Option String := none
  canOpen : String → Bool := fun _ => true

def add (l : Log) (sink : Sink) : Log := { l with sinks := l.sinks ++ [sink] }

namespace Setup

/-- Sets up a log that is in use, one change after the other. A file that cannot be opened ends the set-up. -/
def perform (c : Setup) (l : Log) : Log × Option Fault :=
  let leveled := { l with level := levelNumber c.text }
  let cleared := { leveled with sinks := [] }
  let shown := cleared.add .console
  match c.file with
  | none => (shown, none)
  | some path =>
    if path.isEmpty then (shown, none)
    else if c.canOpen path then (shown.add (.file path), none)
    else (shown, some (.unopened path))

theorem perform_eq_setup (c : Setup) (l : Log) :
    c.perform l = setup c.canOpen (levelNumber c.text) c.file := by
  unfold perform setup
  cases c.file <;> rfl

def opened (c : Setup) : Option String := c.file.filter fun path => path ≠ "" ∧ c.canOpen path

def log (c : Setup) : Log := ⟨c.level.number, .console :: c.opened.toList.map .file⟩

theorem perform_fst (c : Setup) (l : Log) : (c.perform l).1 = c.log := by
  rw [perform_eq_setup, levelNumber_of_upper c.upper_text, log, opened]
  obtain ⟨level, -, -, _ | path, canOpen⟩ := c
  · rfl
  · by_cases hempty : path = ""
    · simp [Log.setup, hempty]
    · cases hopen : canOpen path <;> simp [Log.setup, Option.filter, hempty, hopen]

theorem count_console (c : Setup) : c.log.sinks.count .console = 1 := by
  rw [log, List.count_cons_self, List.count_eq_zero.2 (by simp)]

theorem count_file (c : Setup) (path : String) :
    c.log.sinks.count (.file path) = if c.opened = some path then 1 else 0 := by
  rw [log, List.count_cons_of_ne (by simp)]
  cases c.opened with
  | none => rfl
  | some opened => simp [List.count_singleton]

theorem perform_snd_eq_some_iff {c : Setup} {l : Log} {f : Fault} : (c.perform l).2 = some f ↔
    ∃ path, c.file = some path ∧ path ≠ "" ∧ c.canOpen path = false ∧ f = .unopened path := by
  rw [perform_eq_setup]
  cases hfile : c.file with
  | none => simp [Log.setup]
  | some path =>
    by_cases hempty : path = ""
    · simp [Log.setup, hempty]
    · cases hopen : c.canOpen path with
      | true => simp [Log.setup, hempty, hopen]
      | false =>
        simp only [Log.setup, String.isEmpty_iff, hempty, hopen]
        constructor
        · rintro ⟨⟩
          exact ⟨path, rfl, hempty, hopen, rfl⟩
        · rintro ⟨_, ⟨⟩, -, -, rfl⟩
          rfl

theorem log_of_fault {c : Setup} {l : Log} {f : Fault} (h : (c.perform l).2 = some f) :
    c.log = ⟨c.level.number, [.console]⟩ := by
  obtain ⟨path, hfile, -, hopen, -⟩ := perform_snd_eq_some_iff.1 h
  simp [log, opened, hfile, hopen, Option.filter]

end Setup

inductive Event
  | setup (c : Setup)
  | record (time name : String) (severity : Severity) (message : String) (exception : Option Exception)

def Event.setup? : Event → Option Setup
  | .setup c => some c
  | .record .. => none

def step (l : Log) : Event → Log × List (Sink × String)
  | .setup c => ((c.perform l).1, [])
  | .record time name severity message exception =>
    (l, l.deliver time ⟨severity, logger name, message, exception⟩)

def latest? (es : List Event) : Option Setup := (es.filterMap Event.setup?).getLast?

theorem after_eq_of_latest? {es : List Event} {c : Setup} (h : latest? es = some c) (l : Log) :
    Machine.after step l es = c.log := by
  induction es using List.reverseRecOn with
  | nil => cases h
  | append_singleton es e ih =>
    rw [Machine.after_append]
    cases e with
    | setup c' =>
      obtain rfl : c' = c := by simpa [latest?, Event.setup?] using h
      exact c'.perform_fst _
    | record => exact ih (by simpa [latest?, Event.setup?] using h)

theorem Setup.deliver_log (c : Setup) (time : String) (r : Record) : c.log.deliver time r =
    if c.level.number ≤ r.severity.number then c.log.sinks.map (·, r.entry time ++ "\n") else [] := by
  have hthreshold : c.log.threshold = c.level.number := if_neg (Nat.ne_of_gt c.level.number_pos)
  rw [deliver, admits, hthreshold]
  by_cases h : c.level.number ≤ r.severity.number <;> simp [h, log]

/-- However often a log is set up, a record that reaches the level of the latest set-up is written once to the
console, once to the file that this set-up has opened, and to no other; any other record is written nowhere. A
set-up that cannot open its file is in force with its level and the console. -/
theorem record_delivered_once (l : Log) (es : List Event) :
    (∀ i c time name severity message exception, latest? (es.take i) = some c →
      es[i]? = some (.record time name severity message exception) →
      ∃ written, (Machine.answers step l es)[i]? = some written ∧
        (c.level.number ≤ severity.number →
          (∀ w ∈ written, w.2 = entry time severity.name (logger name) (text message exception) ++ "\n") ∧
          (written.map (·.1)).count .console = 1 ∧
          ∀ path, (written.map (·.1)).count (.file path) = if c.opened = some path then 1 else 0) ∧
        (severity.number < c.level.number → written = [])) ∧
    ∀ i c, es[i]? = some (.setup c) →
      (Machine.answers step l es)[i]? = some [] ∧
      (∀ before, c.perform before = Log.setup c.canOpen (levelNumber c.text) c.file) ∧
      (∀ f, (c.perform (Machine.after step l (es.take i))).2 = some f ↔
        ∃ path, c.file = some path ∧ path ≠ "" ∧ c.canOpen path = false ∧ f = .unopened path) ∧
      ∀ f, (c.perform (Machine.after step l (es.take i))).2 = some f →
        Machine.after step l (es.take (i + 1)) = ⟨c.level.number, [.console]⟩ := by
  refine ⟨fun i c time name severity message exception hlatest he => ?_,
    fun i c he => ⟨?_, c.perform_eq_setup, fun f => Setup.perform_snd_eq_some_iff, fun f hf => ?_⟩⟩
  · let r : Record := ⟨severity, logger name, message, exception⟩
    refine ⟨c.log.deliver time r, ?_, fun hreaches => ?_, fun hbelow => ?_⟩
    · rw [Machine.getElem?_answers, he, after_eq_of_latest? hlatest]
      rfl
    · have hwritten : c.log.deliver time r = c.log.sinks.map (·, r.entry time ++ "\n") := by
        rw [c.deliver_log, if_pos hreaches]
      have hsinks : (c.log.deliver time r).map (·.1) = c.log.sinks := by
        rw [hwritten, List.map_map]
        exact List.map_id _
      rw [hsinks]
      refine ⟨fun w hw => ?_, c.count_console, c.count_file⟩
      obtain ⟨sink, -, rfl⟩ := List.mem_map.1 (hwritten ▸ hw)
      rfl
    · rw [c.deliver_log, if_neg (Int.not_le.2 hbelow)]
  · rw [Machine.getElem?_answers, he]
    rfl
  · rw [List.take_add_one, he, Machine.after_append, ← Setup.log_of_fault hf]
    exact c.perform_fst _

theorem record_delivered_once_reopened :
    let debug : Setup := ⟨.debug, "debug", by decide +kernel, some "calc.log", fun _ => true⟩
    let error : Setup := ⟨.error, "eRRor", by decide +kernel, some "calc.log", fun _ => true⟩
    let lost : Setup := ⟨.info, "Info", by decide +kernel, some "no/calc.log", fun _ => false⟩
    let es : List Event := [.setup debug, .setup error,
      .record "now" "api" Level.critical.severity "first" none,
      .record "now" "api" ⟨39, "Level 39"⟩ "second" none, .setup lost,
      .record "now" "cli" Level.info.severity "third" (some ⟨"", "OSError", "disk full"⟩)]
    let written := Machine.answers step {} es
    (∃ first, written[2]? = some first ∧ (first.map (·.1)).count .console = 1 ∧
      (first.map (·.1)).count (.file "calc.log") = 1) ∧
    written[3]? = some [] ∧
    (∃ third, written[5]? = some third ∧ (third.map (·.1)).count .console = 1 ∧
      (third.map (·.1)).count (.file "calc.log") = 0) ∧
    Machine.after step {} (es.take 5) = ⟨20, [.console]⟩ := by
  intro debug error lost es written
  obtain ⟨hrecords, hsetups⟩ := record_delivered_once {} es
  obtain ⟨first, hfirst, hreaches, -⟩ := hrecords 2 error "now" "api" _ "first" none rfl rfl
  obtain ⟨second, hsecond, -, hbelow⟩ := hrecords 3 error "now" "api" _ "second" none rfl rfl
  obtain ⟨third, hthird, hreaches', -⟩ := hrecords 5 lost "now" "cli" _ "third" _ rfl rfl
  obtain ⟨-, -, hfault, hfails⟩ := hsetups 4 lost rfl
  obtain ⟨-, hconsole, hfile⟩ := hreaches (by decide)
  obtain ⟨-, hconsole', hfile'⟩ := hreaches' (by decide)
  refine ⟨⟨first, hfirst, hconsole, hfile "calc.log"⟩, ?_, ⟨third, hthird, hconsole', hfile' "calc.log"⟩, ?_⟩
  · rw [← hbelow (by decide)]
    exact hsecond
  · exact hfails (.unopened "no/calc.log") ((hfault _).2 ⟨_, rfl, by decide, rfl, rfl⟩)

end InfixCalc.Log
