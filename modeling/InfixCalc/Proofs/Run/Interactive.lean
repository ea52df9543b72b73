import InfixCalc.Proofs.Session.Run
import InfixCalc.Run

namespace InfixCalc

open Session

theorem Settings.places_nonneg {lookup : String → Option String} {settings : Settings}
    (h : ofEnvironment lookup = .ok settings) : 0 ≤ settings.places := by
  rw [ofEnvironment] at h
  obtain ⟨maxLength, -, h⟩ := exists_of_bind_eq_ok h
  obtain ⟨places, -, h⟩ := exists_of_bind_eq_ok h
  cases h
  exact le_max_left 0 places

namespace Run

theorem places_nonneg_of_adjust {a : Arguments} {s s' : Settings} (h : adjust a s = .ok s')
    (hs : 0 ≤ s.places) : 0 ≤ s'.places := by
  rw [adjust] at h
  cases hp : a.precision with
  | blank => simp [hp] at h
  | value n =>
    rw [hp] at h
    cases h
    by_cases hn : 0 ≤ n
    · simp [hn]
    · simpa [hn] using hs
  | absent =>
    rw [hp] at h
    cases h
    exact hs

theorem setup_eq_ok_iff {around : Surroundings} {s : State} {a : Arguments} {ready : Ready} :
    setup around s a = .ok ready ↔ ∃ log settings, openLog around a s.log = (log, none) ∧
      adjust a s.settings = .ok settings ∧
      ready = ⟨⟨settings, log⟩, openedFile log, ⟨a.format.getD .human, a.showRpn⟩, .ofArguments a⟩ := by
  rw [setup]
  rcases openLog around a s.log with ⟨log, _ | f⟩
  · cases hadjust : adjust a s.settings <;> simp [hadjust, eq_comm]
  · simp

theorem places_nonneg_of_setup {around : Surroundings} {s : State} {a : Arguments} {ready : Ready}
    (h : setup around s a = .ok ready) (hs : 0 ≤ s.settings.places) : 0 ≤ ready.state.settings.places := by
  obtain ⟨log, settings, -, hadjust, rfl⟩ := setup_eq_ok_iff.1 h
  exact places_nonneg_of_adjust hadjust hs

theorem places_nonneg_of_start {around : Surroundings} {s : State} {arguments : List String}
    {ready : Ready} (h : start around s arguments = .ok ready) (hs : 0 ≤ s.settings.places) :
    0 ≤ ready.state.settings.places := by
  rw [start] at h
  cases hread : Arguments.read arguments with
  | error stop => simp [hread] at h
  | ok a =>
    rw [hread] at h
    exact places_nonneg_of_setup h hs

theorem complete_of_session {around : Surroundings} {s : State} {arguments : List String} {ready : Ready}
    (h : start around s arguments = .ok ready) (htask : ready.task = .session) (events : List Event) :
    complete around s arguments events = ready.interact around.screen events := by
  rw [complete, h]
  simp only [Ready.finish, htask]

theorem Ready.interact_of_unbroken {r : Ready} {screen : Screen} {events : List Event}
    (h : (r.session screen).Unbroken {} events) : (r.interact screen events).ending = .ok 0 := by
  have hnone : ((r.session screen).run {} events).1.findSome? (·.fault) = none :=
    List.findSome?_eq_none_iff.2 ((course_run h).fault h)
  simp only [Ready.interact, hnone]

theorem Ready.interact_of_broken {r : Ready} {screen : Screen} {events : List Event}
    (h : ¬(r.session screen).Unbroken {} events) :
    ∃ why, (r.interact screen events).ending = .error (.places why) := by
  rcases (r.session screen).run_cases {} events with ⟨hunbroken, -⟩ | ⟨-, why, hwhy⟩
  · exact absurd hunbroken h
  · exact ⟨why, by simp only [Ready.interact, hwhy]⟩

end Run

theorem Session.unbroken_iff {s : Session} (hplaces : 0 ≤ s.settings.places) {h : History}
    {es : List Event} : s.Unbroken h es ↔ ¬(2147483647 < s.settings.places ∧
      ∃ before e after, es.takeWhile (!·.stops) = before ++ e :: after ∧ s.Shows (s.after h before) e) := by
  constructor
  · rintro hs ⟨hlarge, before, e, after, hsplit, hshows⟩
    have hsmall : s.settings.places ≤ 2147483647 := (hs before e after hsplit hshows).2
    omega
  · intro hs before e after hsplit hshows
    refine ⟨hplaces, ?_⟩
    by_contra hlarge
    have hlarge : ¬s.settings.places ≤ 2147483647 := hlarge
    exact hs ⟨by omega, before, e, after, hsplit, hshows⟩

namespace Run

/-- An interactive run ends well unless a value or an entry of the history is to be shown to more than
2147483647 places. If it ends well, it has answered the events up to the first that stops a session;
otherwise it ends with the fault of the number of places. -/
theorem complete_session (lookup : String → Option String) (settings : Settings)
    (hset : Settings.ofEnvironment lookup = .ok settings) (around : Surroundings) (log : Log)
    (arguments : List String) (ready : Ready) (hstart : start around ⟨settings, log⟩ arguments = .ok ready)
    (htask : ready.task = .session) (events : List Event) :
    let s := ready.session around.screen
    let run := complete around ⟨settings, log⟩ arguments events
    let breaks := 2147483647 < s.settings.places ∧ ∃ before e after,
      events.takeWhile (!·.stops) = before ++ e :: after ∧ s.Shows (s.after {} before) e
    (run.ending = .ok 0 ↔ ¬breaks) ∧
    (breaks → ∃ why, run.ending = .error (.places why)) ∧
    (¬breaks → (∀ t ∈ (s.run {} events).1, t.fault = none) ∧
      (s.run {} events).1.length = (events.takeWhile (!·.stops)).length + 1 ∧
      ∀ t ∈ (s.run {} events).1.getLast?, t.stops) := by
  intro s run breaks
  have hrun : run = ready.interact around.screen events := complete_of_session hstart htask events
  have hplaces : 0 ≤ s.settings.places := places_nonneg_of_start hstart (Settings.places_nonneg hset)
  have hunbroken : s.Unbroken {} events ↔ ¬breaks := unbroken_iff hplaces
  rw [← hunbroken, hrun]
  refine ⟨⟨fun hending => ?_, Ready.interact_of_unbroken⟩, fun hbreaks => ?_, fun h => ?_⟩
  · by_contra hbroken
    obtain ⟨why, hwhy⟩ := Ready.interact_of_broken hbroken
    cases hending.symm.trans hwhy
  · exact Ready.interact_of_broken fun h => hunbroken.1 h hbreaks
  · have hcourse := course_run h
    exact ⟨hcourse.fault h, hcourse.length, hcourse.stops_getLast⟩

theorem complete_session_json :
    (complete {} {} ["-p", "2147483648", "--format", "json"] [.line "1+2"]).ending = .ok 0 := by
  have hset : Settings.ofEnvironment (fun _ => none) = .ok {} := by decide +kernel
  have hstart : start {} ⟨{}, {}⟩ ["-p", "2147483648", "--format", "json"] =
      .ok ⟨⟨{ places := 2147483648 }, ⟨30, [.console]⟩⟩, none, ⟨.json, false⟩, .session⟩ :=
    toOption_eq_some_iff.1 (by decide +kernel)
  refine (complete_session _ {} hset {} {} _ _ hstart rfl [.line "1+2"]).1.2 ?_
  rintro ⟨-, before, e, after, hsplit, hshows⟩
  have hmem : e ∈ [Event.line "1+2"].takeWhile (!·.stops) := by simp [hsplit]
  obtain rfl := List.mem_singleton.1 ((List.takeWhile_prefix _).subset hmem)
  rcases hshows with ⟨hhuman, -⟩ | ⟨hlists, -⟩
  · cases hhuman
  · exact absurd hlists (by decide +kernel)

theorem not_forall_complete_session_ok :
    ¬∀ (lookup : String → Option String) (settings : Settings) (around : Surroundings) (log : Log)
      (arguments : List String) (ready : Ready) (events : List Event),
      Settings.ofEnvironment lookup = .ok settings → start around ⟨settings, log⟩ arguments = .ok ready →
        ready.task = .session → (complete around ⟨settings, log⟩ arguments events).ending = .ok 0 := by
  intro h
  have hset : Settings.ofEnvironment (fun _ => none) = .ok {} := by decide +kernel
  have hstart : start {} ⟨{}, {}⟩ ["-p", "2147483648"] =
      .ok ⟨⟨{ places := 2147483648 }, ⟨30, [.console]⟩⟩, none, ⟨.human, false⟩, .session⟩ :=
    toOption_eq_some_iff.1 (by decide +kernel)
  have hends := h _ {} {} {} _ _ [.line "1"] hset hstart rfl
  have hbreaks : (complete {} ⟨{}, {}⟩ ["-p", "2147483648"] [.line "1"]).ending =
      .error (.places .tooBig) := by decide +kernel
  cases hbreaks.symm.trans hends

end Run
end InfixCalc
