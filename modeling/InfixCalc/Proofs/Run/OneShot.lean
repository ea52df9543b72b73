import InfixCalc.Proofs.Run.Configuration

namespace InfixCalc.Run

open Session

theorem Ready.evaluate_agrees (r : Ready) (screen : Screen) (h : History) (expression : String)
    (hplaces : Decimal.Showable r.state.settings.places) :
    let t := (r.session screen).calculate h (Text.trim expression)
    t.out = (r.evaluate expression).out ∧
      (((r.evaluate expression).ending = .ok 0 ∧ ∃ x, t.history = h.record (Text.trim expression) x) ∨
        (r.evaluate expression).ending = .ok 1 ∧ t.history = h) := by
  intro t
  rcases Calculator.evaluate_cases r.state.settings none (Text.trim expression) with
    ⟨x, rpn, -, heval⟩ | ⟨e, -, heval⟩
  · have hprint : ((Outcome.success x rpn).print r.state.settings.places r.style).fault = none :=
      print_success_fault (fun _ => hplaces) x rpn
    refine ⟨?_, .inl ⟨?_, x, ?_⟩⟩
    · simp only [t, session, calculate, evaluate, heval]
    · simp only [evaluate, heval, hprint]
      rfl
    · simp only [t, session, calculate, heval, hprint]
      rfl
  · have hprint := print_failure_fault r.state.settings.places r.style e
    refine ⟨?_, .inr ⟨?_, ?_⟩⟩
    · simp only [t, session, calculate, evaluate, heval]
    · simp only [evaluate, heval, hprint]
      rfl
    · simp only [t, session, calculate, heval, hprint]
      rfl

theorem setup_expression {around : Surroundings} {s : State} {a : Arguments} {ready : Ready}
    (h : setup around s a = .ok ready) (g : Arguments.Given String) : ready.task = .ofArguments a ∧
      setup around s { a with expression := g } =
        .ok { ready with task := .ofArguments { a with expression := g } } := by
  obtain ⟨log, settings, hopen, hadjust, rfl⟩ := setup_eq_ok_iff.1 h
  exact ⟨rfl, setup_eq_ok_iff.2 ⟨log, settings, hopen, hadjust, rfl⟩⟩

namespace Call

def fed (c : Call) (lines : List String) : Call :=
  { c with typed := (Text.lines (String.join (lines.map (· ++ "\n")))).map .line }

def oneShot (c : Call) (line : String) : Call :=
  { c with arguments := c.arguments ++ ["--eval=" ++ line] }

/-- Whether a run gets to work and has nothing else to do than a session. -/
structure Interactive (c : Call) : Prop where
  starts : c.Starts
  only : ∀ o ∈ Arguments.options c.arguments, o.1 ≠ .version ∧ o.1 ≠ .selfCheck ∧ o.1 ≠ .eval

theorem interactive_of_options {c : Call} (hread : ∃ a, Arguments.read c.arguments = .ok a)
    (hos : ∀ o ∈ Arguments.options c.arguments, o.1 ∈ [.format, .rpn, .strict, .precision])
    (hplaces : Arguments.lastText? .precision (Arguments.options c.arguments) ≠ some "--") :
    c.Interactive := by
  have hlast {f : Arguments.Flag} {text : String}
      (h : Arguments.lastText? f (Arguments.options c.arguments) = some text) :
      f ∈ [.format, .rpn, .strict, .precision] := hos _ (Arguments.mem_of_lastText? h)
  refine ⟨⟨⟨hread, fun path h => ?_⟩, fun h => ?_, hplaces⟩, fun o ho => ?_⟩
  · exact absurd (hlast h) (by decide)
  · exact absurd (hlast h) (by decide)
  · have ho := hos o ho
    refine ⟨?_, ?_, ?_⟩ <;> intro heq <;> simp [heq] at ho

theorem read_oneShot {c : Call} {a : Arguments} (h : Arguments.read c.arguments = .ok a) (line : String) :
    Arguments.read (c.oneShot line).arguments =
      .ok { a with expression := if line = "--" then .blank else .value line } := by
  have heval : "--eval=" ++ line = "--eval" ++ "=" ++ line := rfl
  rw [oneShot, heval, Arguments.read_append h (f := .eval) rfl rfl, Arguments.Flag.assign, Arguments.Flag.given]
  split <;> rfl

theorem Interactive.exists_start {c : Call} (hc : c.Interactive) (s : State) :
    ∃ ready, start c.around s c.arguments = .ok ready ∧ ready.task = .session ∧
      ready.state.settings = c.adjusted s.settings ∧
      ∀ line, start c.around s (c.oneShot line).arguments =
        .ok { ready with task := .evaluate (if line = "--" then .blank else .value line) } := by
  rcases c.start_cases s with ⟨-, ready, hstart, hsettings⟩ | ⟨hnot, -⟩
  · obtain ⟨a, hread⟩ := hc.starts.1.reads
    obtain ⟨hversion, hselfCheck, hexpression⟩ :=
      Arguments.foldlM_follow_task (Arguments.foldlM_options hread) hc.only
    have htask (g : Arguments.Given String) :
        Task.ofArguments { a with expression := g } = if g = .absent then .session else .evaluate g := by
      simp [Task.ofArguments, hversion, hselfCheck]
    have hsetup := hstart
    rw [start, hread] at hsetup
    refine ⟨ready, hstart, ?_, hsettings, fun line => ?_⟩
    · rw [(setup_expression hsetup .absent).1]
      exact (htask a.expression).trans (if_pos hexpression)
    · rw [start, read_oneShot hread line]
      change setup c.around s _ = _
      rw [(setup_expression hsetup _).2, htask, if_neg (by split <;> simp)]
  · exact absurd hc.starts hnot

end Call

/-- Lines typed into a session are answered each as if it were the only one, and as a run answers that has
the same arguments and evaluates this line: that run prints the same, and its exit code tells whether the
session adds an entry to its history. The one exception is the line `--`, which such a run does not take for
an expression. -/
theorem fed_agrees_with_oneShot (c : Call) (s : State) (hc : c.Interactive)
    (hplaces : 0 ≤ (c.adjusted s.settings).places ∧ (c.adjusted s.settings).places ≤ 2147483647)
    (lines : List String) (hlines : ∀ l ∈ lines, ('\n' ∉ l.toList ∧ '\r' ∉ l.toList) ∧ Text.trim l ≠ "" ∧
      Command.ofLine? l = none) :
    ∃ ready, start c.around s c.arguments = .ok ready ∧ ready.task = .session ∧
      let session := ready.session c.around.screen
      let run := (c.fed lines).run s
      let turns := (session.run {} (c.fed lines).typed).1
      run.ending = .ok 0 ∧
      run.out = .text greeting :: turns.flatMap (fun t => .text prompt :: t.out) ∧
      turns.map (·.out) =
        lines.map (fun l => (session.turn {} (.line l)).out) ++ [[.text "\nGoodbye.\n"]] ∧
      ∀ i l t, lines[i]? = some l → turns[i]? = some t →
        let single := (c.oneShot l).run s
        let before := finalHistory {} (turns.take i)
        (l ≠ "--" → t.out = single.out ∧
          ((single.ending = .ok 0 ∧ ∃ x, t.history = before.record (Text.trim l) x) ∨
            single.ending = .ok 1 ∧ t.history = before)) ∧
        (l = "--" → single.ending = .error .blankExpression) := by
  obtain ⟨ready, hstart, htask, hsettings, honeShot⟩ := hc.exists_start s
  refine ⟨ready, hstart, htask, ?_⟩
  intro session run turns
  have hshowable : Decimal.Showable ready.state.settings.places := hsettings ▸ hplaces
  have htyped : (c.fed lines).typed = lines.map .line :=
    congrArg (List.map Event.line) (Text.lines_join fun l hl => (hlines l hl).1)
  have hs : session.Unbroken {} (c.fed lines).typed := session.unbroken_of_showable hshowable {} _
  have hrun : run = ready.interact c.around.screen (c.fed lines).typed := complete_of_session hstart htask _
  have hturns : turns = (session.run {} (lines.map .line)).1 := congrArg (fun es => (session.run {} es).1) htyped
  obtain ⟨hout, hanswers⟩ := session.run_expressions hshowable fun l hl => (hlines l hl).2
  rw [← hturns] at hout hanswers
  refine ⟨hrun ▸ Ready.interact_of_unbroken hs, hrun ▸ rfl, hout, fun i l t hl ht => ?_⟩
  intro single before
  have hsingle : single =
      Ready.finish c.around c.typed { ready with task := .evaluate (if l = "--" then .blank else .value l) } := by
    rw [show single = complete c.around s (c.oneShot l).arguments c.typed from rfl, complete, honeShot]
  refine ⟨fun hne => ?_, fun hdashes => ?_⟩
  · rw [if_neg hne] at hsingle
    rw [hanswers i l t hl ht, hsingle]
    exact Ready.evaluate_agrees { ready with task := .evaluate (.value l) } c.around.screen before l hshowable
  · rw [hsingle, if_pos hdashes]
    rfl

theorem fed_agrees_with_oneShot_product :
    let c : Call := { arguments := ["--rpn", "--strict", "-p", "3"] }
    let lines := [" 1 + 2", "1/0", "2*3 "]
    ((c.fed lines).run {}).ending = .ok 0 ∧
      ∃ ready, start {} {} c.arguments = .ok ready ∧
        ∀ t, ((ready.session .redirected).run {} (c.fed lines).typed).1[2]? = some t →
          t.out = [.text "Postfix: 2 3 *\nResult: 6.000\n"] := by
  intro c lines
  have hread : Arguments.read c.arguments = .ok { showRpn := true, strict := true, precision := .value 3 } := by
    decide +kernel
  have hc : c.Interactive :=
    Call.interactive_of_options ⟨_, hread⟩ (by decide +kernel) (by decide +kernel)
  have hplaces : (c.adjusted {}).places = 3 := by decide +kernel
  have hlines : ∀ l ∈ lines, ('\n' ∉ l.toList ∧ '\r' ∉ l.toList) ∧ Text.trim l ≠ "" ∧
      Command.ofLine? l = none := by decide +kernel
  obtain ⟨ready, hstart, -, hending, -, -, hanswers⟩ :=
    fed_agrees_with_oneShot c {} hc (by rw [hplaces]; decide) lines hlines
  refine ⟨hending, ready, hstart, fun t ht => ?_⟩
  have hsingle : ((c.oneShot "2*3 ").run {}).out = [.text "Postfix: 2 3 *\nResult: 6.000\n"] := by decide +kernel
  exact ((hanswers 2 "2*3 " t rfl ht).1 (by decide)).1.trans hsingle

theorem not_forall_fed_agrees_with_oneShot :
    ¬∀ (c : Call) (s : State), c.Interactive →
      0 ≤ (c.adjusted s.settings).places ∧ (c.adjusted s.settings).places ≤ 2147483647 → ∀ l : String,
      ('\n' ∉ l.toList ∧ '\r' ∉ l.toList) ∧ Text.trim l ≠ "" ∧ Command.ofLine? l = none →
      ((c.fed [l]).run s).out = .text greeting :: .text prompt ::
          (((c.oneShot l).run s).out ++ [.text prompt, .text "\nGoodbye.\n"]) ∧
        (((c.oneShot l).run s).ending = .ok 0 ∨ ((c.oneShot l).run s).ending = .ok 1) := by
  intro h
  let c : Call := { arguments := [] }
  have hc : c.Interactive :=
    Call.interactive_of_options ⟨{}, by decide +kernel⟩ (by decide +kernel) (by decide +kernel)
  obtain ⟨-, hending⟩ := h c {} hc (by decide +kernel) "--" (by decide +kernel)
  have hbreaks : ((c.oneShot "--").run {}).ending = .error .blankExpression := by decide +kernel
  rw [hbreaks] at hending
  rcases hending with hending | hending <;> cases hending

end InfixCalc.Run
