import InfixCalc.Proofs.Arguments.Options
import InfixCalc.Proofs.Run.Interactive

namespace InfixCalc.Run

structure Call where
  around : Surroundings := {}
  arguments : List String
  typed : List Session.Event := []

namespace Call

def run (c : Call) (s : State) : Run := complete c.around s c.arguments c.typed

/-- Whether the arguments of a run can be read and its log file, if there is one, opens. -/
structure Effective (c : Call) : Prop where
  reads : ∃ a, Arguments.read c.arguments = .ok a
  opens : ∀ path, Arguments.lastText? .logFile (Arguments.options c.arguments) = some path →
    path ≠ "" → path ≠ "--" → c.around.canOpen path

/-- Whether neither the level of the log nor the number of places has `--` in the place of a value. -/
def Filled (c : Call) : Prop :=
  Arguments.lastText? .logLevel (Arguments.options c.arguments) ≠ some "--" ∧
    Arguments.lastText? .precision (Arguments.options c.arguments) ≠ some "--"

def Starts (c : Call) : Prop := c.Effective ∧ c.Filled

def GivesStrict (c : Call) : Prop := (.strict, none) ∈ Arguments.options c.arguments

instance (c : Call) : Decidable c.GivesStrict := inferInstanceAs (Decidable (_ ∈ _))

def places? (c : Call) : Option Int :=
  (Arguments.lastText? .precision (Arguments.options c.arguments)).bind fun text =>
    (Decimal.integer? text).toOption.filter (0 ≤ ·)

def adjusted (c : Call) (s : Settings) : Settings :=
  { s with places := c.places?.getD s.places, strict := s.strict || decide c.GivesStrict }

end Call

def after (s : State) (cs : List Call) : State := cs.foldl (fun s c => (c.run s).state) s

theorem Ready.state_finish (r : Ready) (around : Surroundings) (events : List Session.Event) :
    (r.finish around events).state = r.state := by
  rw [finish]
  split
  · rfl
  · rw [selfCheck]
    split <;> rfl
  · rw [evaluate]
    split <;> rfl
  · rfl
  · rfl

theorem state_complete {around : Surroundings} {s : State} {arguments : List String} {ready : Ready}
    (h : start around s arguments = .ok ready) (events : List Session.Event) :
    (complete around s arguments events).state = ready.state := by
  rw [complete, h]
  exact ready.state_finish around events

theorem openLog_fault_eq_none_iff (around : Surroundings) (a : Arguments) (l : Log) :
    (openLog around a l).2 = none ↔
      a.logLevel ≠ .blank ∧ ∀ path, a.logFile = .value path → path ≠ "" → around.canOpen path := by
  have hsetup (level : Nat) : (Log.setup around.canOpen level (some (a.logFile.getD ""))).2 = none ↔
      ∀ path, a.logFile = .value path → path ≠ "" → around.canOpen path := by
    cases a.logFile with
    | absent | blank => simp [Log.setup, Arguments.Given.getD]
    | value path =>
      by_cases hempty : path = ""
      · simp [Log.setup, Arguments.Given.getD, hempty]
      · cases hopen : around.canOpen path <;> simp [Log.setup, Arguments.Given.getD, hempty, hopen]
  cases hlevel : a.logLevel with
  | blank => simp [openLog, hlevel]
  | absent | value => simpa [openLog, hlevel] using hsetup _

theorem settings_of_setup_eq_error {around : Surroundings} {s : State} {a : Arguments} {run : Run}
    (h : setup around s a = .error run) : run.state.settings = s.settings := by
  rw [setup] at h
  rcases hlog : openLog around a s.log with ⟨log, _ | f⟩
  · rw [hlog] at h
    cases hadjust : adjust a s.settings with
    | ok settings => simp [hadjust] at h
    | error f =>
      simp only [hadjust] at h
      cases h
      rfl
  · rw [hlog] at h
    cases h
    rfl

namespace Call

variable {c : Call} {a : Arguments}

theorem places?_eq_some_iff (h : Arguments.read c.arguments = .ok a) {n : Int} :
    c.places? = some n ↔ a.precision = .value n ∧ 0 ≤ n := by
  rw [(Arguments.precision_iff h).2 n, places?, Option.bind_eq_some_iff]
  simp only [Option.filter_eq_some_iff, toOption_eq_some_iff, decide_eq_true_eq, exists_and_right, ← and_assoc]

theorem adjust_eq (h : Arguments.read c.arguments = .ok a) (hplaces : a.precision ≠ .blank) (s : Settings) :
    adjust a s = .ok (c.adjusted s) := by
  have hstrict : decide c.GivesStrict = a.strict := by
    rw [Bool.eq_iff_iff, decide_eq_true_iff]
    exact (Arguments.strict_iff h).symm
  rw [adjusted, hstrict, adjust]
  cases hp : a.precision with
  | blank => exact absurd hp hplaces
  | absent =>
    have hnone : c.places? = none := Option.eq_none_iff_forall_ne_some.2 fun n hn => by
      cases hp.symm.trans ((places?_eq_some_iff h).1 hn).1
    simp only [hnone, Option.getD_none]
  | value n =>
    by_cases hn : 0 ≤ n
    · simp only [(places?_eq_some_iff h).2 ⟨hp, hn⟩, if_pos hn, Option.getD_some]
    · have hnone : c.places? = none := Option.eq_none_iff_forall_ne_some.2 fun m hm => by
        obtain ⟨hm, hnonneg⟩ := (places?_eq_some_iff h).1 hm
        cases hp.symm.trans hm
        exact hn hnonneg
      simp only [hnone, if_neg hn, Option.getD_none]

theorem start_cases (c : Call) (s : State) :
    (c.Starts ∧
      ∃ ready, start c.around s c.arguments = .ok ready ∧ ready.state.settings = c.adjusted s.settings) ∨
    (¬c.Starts ∧
      ∃ run, start c.around s c.arguments = .error run ∧ run.state.settings = s.settings) := by
  rw [start]
  cases hread : Arguments.read c.arguments with
  | error stop =>
    refine .inr ⟨fun hstarts => ?_, stopped s stop, rfl, by cases stop <;> rfl⟩
    obtain ⟨a, ha⟩ := hstarts.1.reads
    cases hread.symm.trans ha
  | ok a =>
    have hlevel := Arguments.logLevel_eq_blank_iff hread
    have hplaces := (Arguments.precision_iff hread).1
    have hfile := Arguments.logFile_eq_value_iff hread
    have hopens := openLog_fault_eq_none_iff c.around a s.log
    cases hsetup : setup c.around s a with
    | ok ready =>
      obtain ⟨log, settings, hopen, hadjust, rfl⟩ := setup_eq_ok_iff.1 hsetup
      obtain ⟨hblank, hopen⟩ := hopens.1 (congrArg Prod.snd hopen)
      have hne : a.precision ≠ .blank := fun hp => by
        rw [adjust, hp] at hadjust
        cases hadjust
      refine .inl ⟨⟨⟨⟨a, hread⟩, fun path hlast hempty hdashes => ?_⟩, mt hlevel.2 hblank, mt hplaces.2 hne⟩,
        _, hsetup, ?_⟩
      · exact hopen path ((hfile path).2 ⟨hlast, hdashes⟩) hempty
      · exact Except.ok.inj (hadjust.symm.trans (adjust_eq hread hne s.settings))
    | error run =>
      refine .inr ⟨fun hstarts => ?_, run, hsetup, settings_of_setup_eq_error hsetup⟩
      obtain ⟨he, hf⟩ := hstarts
      have hopen : (openLog c.around a s.log).2 = none := hopens.2 ⟨mt hlevel.1 hf.1, fun path hpath hempty =>
        he.opens path ((hfile path).1 hpath).1 hempty ((hfile path).1 hpath).2⟩
      have hadjust := adjust_eq hread (mt hplaces.1 hf.2) s.settings
      cases hsetup.symm.trans (setup_eq_ok_iff.2 ⟨_, _, Prod.ext rfl hopen, hadjust, rfl⟩)

theorem settings_run_of_starts {c : Call} (h : c.Starts) (s : State) :
    (c.run s).state.settings = c.adjusted s.settings := by
  rcases c.start_cases s with ⟨-, ready, hstart, hready⟩ | ⟨hnot, -⟩
  · rw [run, state_complete hstart, hready]
  · exact absurd h hnot

theorem settings_run_of_not_starts {c : Call} (h : ¬c.Starts) (s : State) :
    (c.run s).state.settings = s.settings := by
  rcases c.start_cases s with ⟨hstarts, -⟩ | ⟨-, run, hstart, hrun⟩
  · exact absurd hstarts h
  · rw [Call.run, complete, hstart]
    exact hrun

end Call

theorem after_cons (s : State) (c : Call) (cs : List Call) : after s (c :: cs) = after (c.run s).state cs := rfl

theorem after_append_singleton (s : State) (cs : List Call) (c : Call) :
    after s (cs ++ [c]) = (c.run (after s cs)).state := by
  simp [after]

theorem after_map_eq (around : Surroundings) (s : State) (rs : List (List String × List Session.Event)) :
    after s (rs.map fun r => ⟨around, r.1, r.2⟩) = ((sequence around s rs).getLast?.map (·.state)).getD s := by
  induction rs generalizing s with
  | nil => rfl
  | cons r rs ih =>
    rw [List.map_cons, after_cons, ih, Call.run, sequence, List.getLast?_cons]
    cases (sequence around (complete around s r.1 r.2).state rs).getLast? <;> rfl

theorem limits_after (s : State) (cs : List Call) : (after s cs).settings.maxLength = s.settings.maxLength ∧
    (after s cs).settings.clearScreen = s.settings.clearScreen := by
  induction cs generalizing s with
  | nil => exact ⟨rfl, rfl⟩
  | cons c cs ih =>
    obtain ⟨hlength, hclear⟩ := ih (c.run s).state
    rw [after_cons, hlength, hclear]
    by_cases hc : c.Starts
    · rw [Call.settings_run_of_starts hc]
      exact ⟨rfl, rfl⟩
    · rw [Call.settings_run_of_not_starts hc]
      exact ⟨rfl, rfl⟩

theorem strict_after_iff (s : State) (cs : List Call) : (after s cs).settings.strict ↔
    s.settings.strict ∨ ∃ c ∈ cs, c.Starts ∧ c.GivesStrict := by
  induction cs generalizing s with
  | nil => simp [after]
  | cons c cs ih =>
    rw [after_cons, ih]
    by_cases hc : c.Starts
    · simp [Call.settings_run_of_starts hc, Call.adjusted, hc, or_assoc]
    · simp [Call.settings_run_of_not_starts hc, hc]

theorem places_after_cases (s : State) (cs : List Call) :
    (∃ before c later, cs = before ++ c :: later ∧ c.Starts ∧ c.places? = some (after s cs).settings.places ∧
      ∀ d ∈ later, d.Starts → d.places? = none) ∨
    (∀ c ∈ cs, c.Starts → c.places? = none) ∧ (after s cs).settings.places = s.settings.places := by
  induction cs generalizing s with
  | nil => exact .inr ⟨by simp, rfl⟩
  | cons c cs ih =>
    rw [after_cons]
    rcases ih (c.run s).state with ⟨before, d, later, rfl, hd, hplaces, hlater⟩ | ⟨hnone, hplaces⟩
    · exact .inl ⟨c :: before, d, later, rfl, hd, hplaces, hlater⟩
    · rw [hplaces]
      by_cases hc : c.Starts
      · rw [Call.settings_run_of_starts hc, Call.adjusted]
        cases hn : c.places? with
        | some n => exact .inl ⟨[], c, cs, rfl, hc, hn, hnone⟩
        | none => exact .inr ⟨List.forall_mem_cons.2 ⟨fun _ => hn, hnone⟩, rfl⟩
      · rw [Call.settings_run_of_not_starts hc]
        exact .inr ⟨List.forall_mem_cons.2 ⟨fun h => absurd h hc, hnone⟩, rfl⟩

theorem Call.places?_nonneg {c : Call} {n : Int} (h : c.places? = some n) : 0 ≤ n := by
  obtain ⟨text, -, hn⟩ := Option.bind_eq_some_iff.1 h
  exact of_decide_eq_true (Option.filter_eq_some_iff.1 hn).2

/-- After any runs the settings are strict if they were so at first or a run that got to work was told to be
strict, and the number of places is the last that such a run was given; nothing else of them changes. A run
that does not get to work changes none of them, and neither does anything that a run does at its work. -/
theorem settings_after (lookup : String → Option String) (settings : Settings)
    (hset : Settings.ofEnvironment lookup = .ok settings) (log : Log) (cs : List Call) :
    let initial : State := ⟨settings, log⟩
    let final := (after initial cs).settings
    (final.strict ↔ settings.strict ∨ ∃ c ∈ cs, c.Starts ∧ c.GivesStrict) ∧
    ((∃ before c later, cs = before ++ c :: later ∧ c.Starts ∧ c.places? = some final.places ∧
        ∀ d ∈ later, d.Starts → d.places? = none) ∨
      (∀ c ∈ cs, c.Starts → c.places? = none) ∧ final.places = settings.places) ∧
    0 ≤ final.places ∧ final.maxLength = settings.maxLength ∧ final.clearScreen = settings.clearScreen ∧
    ∀ before c later, cs = before ++ c :: later →
      (¬c.Starts → (after initial (before ++ [c])).settings = (after initial before).settings) ∧
      ∀ ready, start c.around (after initial before) c.arguments = .ok ready →
        after initial (before ++ [c]) = ready.state := by
  intro initial final
  have hplaces := places_after_cases initial cs
  obtain ⟨hlength, hclear⟩ := limits_after initial cs
  refine ⟨strict_after_iff initial cs, hplaces, ?_, hlength, hclear, fun before c later _ => ?_⟩
  · rcases hplaces with ⟨before, c, later, -, -, hc, -⟩ | ⟨-, hsame⟩
    · exact Call.places?_nonneg hc
    · exact hsame ▸ Settings.places_nonneg hset
  · rw [after_append_singleton]
    exact ⟨fun hc => Call.settings_run_of_not_starts hc _, fun ready hready => state_complete hready c.typed⟩

theorem settings_after_unopened :
    let cs : List Call := [{ arguments := ["--strict", "-p", "3", "-p5", "--eval=1"] },
      { around := { canOpen := fun _ => false }, arguments := ["--precision", "7", "--log-file=calc.log"] }]
    (after {} cs).settings.strict ∧ (after {} cs).settings.places = 5 := by
  intro cs
  have hset : Settings.ofEnvironment (fun _ => none) = .ok {} := by decide +kernel
  obtain ⟨hstrict, hplaces, -⟩ := settings_after _ {} hset {} cs
  have hread : Arguments.read ["--strict", "-p", "3", "-p5", "--eval=1"] =
      .ok { strict := true, precision := .value 5, expression := .value "1" } := by decide +kernel
  have hfirst : cs[0].Starts := ⟨⟨⟨_, hread⟩, fun _ _ _ _ => rfl⟩, by decide +kernel, by decide +kernel⟩
  have hsecond : ¬cs[1].Starts := fun ⟨he, _⟩ => by
    cases he.opens "calc.log" (by decide +kernel) (by decide) (by decide)
  have hgives : cs[0].GivesStrict := by decide +kernel
  refine ⟨hstrict.2 (.inr ⟨_, List.getElem_mem _, hfirst, hgives⟩), ?_⟩
  have hfive : cs[0].places? = some 5 := by decide +kernel
  rcases hplaces with ⟨before, c, later, hcs, hc, hlast, -⟩ | ⟨hnone, -⟩
  · have hmem : c ∈ cs := by simp [hcs]
    rcases List.mem_pair.1 hmem with rfl | rfl
    · exact Option.some.inj (hlast.symm.trans hfive)
    · exact absurd hc hsecond
  · cases hfive.symm.trans (hnone _ (List.getElem_mem _) hfirst)

theorem not_forall_strict_after_iff :
    ¬∀ (lookup : String → Option String) (settings : Settings), Settings.ofEnvironment lookup = .ok settings →
      ∀ (log : Log) (cs : List Call), (after ⟨settings, log⟩ cs).settings.strict ↔
        settings.strict ∨ ∃ c ∈ cs, c.Effective ∧ c.GivesStrict := by
  intro h
  have hset : Settings.ofEnvironment (fun _ => none) = .ok {} := by decide +kernel
  let c : Call := { arguments := ["--strict", "--precision=--"] }
  have he : c.Effective := ⟨⟨{ strict := true, precision := .blank }, by decide +kernel⟩, fun _ _ _ _ => rfl⟩
  have hstrict : c.GivesStrict := by decide +kernel
  have hafter := (h _ {} hset {} [c]).2 (.inr ⟨c, List.mem_singleton_self c, he, hstrict⟩)
  exact absurd hafter (by decide +kernel)

end InfixCalc.Run
