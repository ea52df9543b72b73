import InfixCalc.Proofs.Session.Turn

namespace InfixCalc.Session

/-- The turns of a session over some events, and the events that it leaves unread. -/
inductive Course (s : Session) : History → List Event → List Turn → List Event → Prop
  | finish (h : History) : Course s h [] [s.turn h .endOfInput] []
  | stop (h : History) {e : Event} (es : List Event) : e.stops = true → Course s h (e :: es) [s.turn h e] es
  | step {h : History} {e : Event} {es : List Event} {ts : List Turn} {unread : List Event} :
    e.stops = false → Course s (s.after h [e]) es ts unread →
    Course s h (e :: es) (s.turn h e :: ts) unread

theorem finalHistory_cons (h : History) (t : Turn) (ts : List Turn) :
    finalHistory h (t :: ts) = finalHistory t.history ts := by
  rw [finalHistory, finalHistory, List.getLast?_cons, Option.map_some, Option.getD_some]
  cases ts.getLast? <;> rfl

theorem not_shows_of_stops {s : Session} {h : History} {e : Event} (he : e.stops) : ¬s.Shows h e := by
  cases e with
  | interrupt | endOfInput => rintro (⟨-, hsome⟩ | ⟨hlists, -⟩) <;> contradiction
  | line raw =>
    have hexit := Event.stops_line_iff.1 he
    exact not_shows_of_silent (recorded_of_stops he) (by simp [hexit]) h

theorem answers_of_stops {s : Session} {h : History} {e : Event} (he : e.stops) :
    s.Answers h e (s.turn h e) :=
  answers_turn fun hshows => absurd hshows (not_shows_of_stops he)

def Unbroken (s : Session) (h : History) (es : List Event) : Prop :=
  ∀ before e after, es.takeWhile (!·.stops) = before ++ e :: after →
    s.Shows (s.after h before) e → Decimal.Showable s.settings.places

theorem unbroken_of_showable {s : Session} (hplaces : Decimal.Showable s.settings.places) (h : History)
    (es : List Event) : s.Unbroken h es := fun _ _ _ _ _ => hplaces

theorem unbroken_of_takeWhile_eq_nil {s : Session} {h : History} {es : List Event}
    (hnil : es.takeWhile (!·.stops) = []) : s.Unbroken h es := by
  intro before e after hsplit
  simp [hnil] at hsplit

theorem unbroken_cons_iff {s : Session} {h : History} {e : Event} (he : e.stops = false)
    (es : List Event) : s.Unbroken h (e :: es) ↔
      (s.Shows h e → Decimal.Showable s.settings.places) ∧ s.Unbroken (s.after h [e]) es := by
  have htake : (e :: es).takeWhile (!·.stops) = e :: es.takeWhile (!·.stops) := by simp [he]
  rw [Unbroken, htake]
  constructor
  · intro hall
    refine ⟨fun hshows => hall [] e _ rfl (by rwa [after_nil]), fun before d after hsplit hshows => ?_⟩
    exact hall (e :: before) d after (by rw [hsplit]; rfl) (by rwa [← after_cons])
  · rintro ⟨hfirst, hrest⟩ before d after hsplit hshows
    cases before with
    | nil =>
      cases hsplit
      exact hfirst (by rwa [after_nil] at hshows)
    | cons b before =>
      obtain ⟨rfl, htail⟩ := List.cons.inj hsplit
      exact hrest before d after htail (by rwa [after_cons])

section

variable {s : Session}

theorem run_cases (s : Session) (h : History) (es : List Event) :
    (s.Unbroken h es ∧ s.Course h es (s.run h es).1 (s.run h es).2) ∨
      ¬s.Unbroken h es ∧ ∃ why, (s.run h es).1.findSome? (·.fault) = some (.places why) := by
  induction es generalizing h with
  | nil => exact .inl ⟨unbroken_of_takeWhile_eq_nil rfl, .finish h⟩
  | cons e es ih =>
    cases he : e.stops with
    | true =>
      have hturn := answers_of_stops (s := s) (h := h) he
      have hlast : (s.turn h e).isLast = true := by rw [Turn.isLast, hturn.stops, he, Bool.true_or]
      rw [run, hlast]
      exact .inl ⟨unbroken_of_takeWhile_eq_nil (by simp [he]), .stop h es he⟩
    | false =>
      rw [unbroken_cons_iff he]
      by_cases hshows : s.Shows h e → Decimal.Showable s.settings.places
      · have hturn := answers_turn hshows
        have hlast : (s.turn h e).isLast = false := by
          rw [Turn.isLast, hturn.stops, hturn.fault, he]
          rfl
        rw [run, hlast]
        rcases ih (s.after h [e]) with ⟨hrest, hcourse⟩ | ⟨hrest, why, hfault⟩
        · exact .inl ⟨⟨hshows, hrest⟩, .step he (hturn.history ▸ hcourse)⟩
        · refine .inr ⟨fun hall => hrest hall.2, why, ?_⟩
          rw [← hturn.history] at hfault
          simp [hturn.fault, hfault]
      · obtain ⟨hsome, hplaces⟩ := Classical.not_imp.1 hshows
        obtain ⟨why, hfault⟩ := exists_turn_fault hsome hplaces
        have hlast : (s.turn h e).isLast = true := by
          rw [Turn.isLast, hfault, Option.isSome_some, Bool.or_true]
        refine .inr ⟨fun hall => hshows hall.1, why, ?_⟩
        rw [run, hlast]
        simp [hfault]

theorem course_run {h : History} {es : List Event} (hs : s.Unbroken h es) :
    s.Course h es (s.run h es).1 (s.run h es).2 := by
  rcases s.run_cases h es with ⟨-, hcourse⟩ | ⟨hbroken, -⟩
  · exact hcourse
  · exact absurd hs hbroken

theorem Course.fault {h : History} {es unread : List Event} {ts : List Turn} (hc : s.Course h es ts unread)
    (hs : s.Unbroken h es) : ∀ t ∈ ts, t.fault = none := by
  induction hc with
  | finish h => simpa using (answers_of_stops rfl).fault
  | stop h es he => simpa using (answers_of_stops he).fault
  | step he hc ih =>
    obtain ⟨hshows, hs⟩ := (unbroken_cons_iff he _).1 hs
    exact List.forall_mem_cons.2 ⟨(answers_turn hshows).fault, ih hs⟩

theorem Course.finalHistory {h : History} {es unread : List Event} {ts : List Turn}
    (hc : s.Course h es ts unread) (hs : s.Unbroken h es) :
    finalHistory h ts = s.after h (es.takeWhile (!·.stops)) := by
  induction hc with
  | finish h => exact ((answers_of_stops rfl).history).trans rfl
  | @stop h e es he =>
    rw [List.takeWhile_cons, he, finalHistory_cons, (answers_of_stops he).history,
      after_singleton_of_none (recorded_of_stops he)]
    exact (after_nil s h).symm
  | @step h e es ts unread he hc ih =>
    obtain ⟨hshows, hs⟩ := (unbroken_cons_iff he _).1 hs
    rw [List.takeWhile_cons, he, finalHistory_cons, (answers_turn hshows).history, ih hs, after_cons]
    rfl

theorem Course.finalHistory_take {h : History} {es unread : List Event} {ts : List Turn}
    (hc : s.Course h es ts unread) (hs : s.Unbroken h es) {i : Nat}
    (hi : i ≤ (es.takeWhile (!·.stops)).length) :
    Session.finalHistory h (ts.take i) = s.after h (es.take i) := by
  induction hc generalizing i with
  | finish h =>
    obtain rfl := Nat.le_zero.1 hi
    exact (after_nil s h).symm
  | @stop h e es he =>
    obtain rfl : i = 0 := by simpa [he] using hi
    exact (after_nil s h).symm
  | @step h e es ts unread he hc ih =>
    obtain ⟨hshows, hs⟩ := (unbroken_cons_iff he _).1 hs
    cases i with
    | zero => exact (after_nil s h).symm
    | succ i =>
      rw [List.take_succ_cons, List.take_succ_cons, finalHistory_cons, (answers_turn hshows).history,
        ih hs (by simpa [he] using hi), after_cons]

end

theorem Course.length {s : Session} {h : History} {es unread : List Event} {ts : List Turn}
    (hc : s.Course h es ts unread) : ts.length = (es.takeWhile (!·.stops)).length + 1 := by
  induction hc with
  | finish h => rfl
  | stop h es he => simp [he]
  | step he hc ih => simp [he, ih]

theorem Course.ne_nil {s : Session} {h : History} {es unread : List Event} {ts : List Turn}
    (hc : s.Course h es ts unread) : ts ≠ [] := by
  cases hc <;> exact List.cons_ne_nil _ _

theorem Course.stops_getLast {s : Session} {h : History} {es unread : List Event} {ts : List Turn}
    (hc : s.Course h es ts unread) : ∀ t ∈ ts.getLast?, t.stops := by
  induction hc with
  | finish h => simp [turn]
  | stop h es he => simp [(answers_of_stops he).stops, he]
  | step he hc ih => rwa [List.getLast?_cons_of_ne_nil hc.ne_nil]

theorem Course.unread {s : Session} {h : History} {es unread : List Event} {ts : List Turn}
    (hc : s.Course h es ts unread) : unread = es.drop ((es.takeWhile (!·.stops)).length + 1) := by
  induction hc with
  | finish h => rfl
  | stop h es he => simp [he]
  | step he hc ih => simp [he, ← ih]

theorem Course.turn_eq {s : Session} {h : History} {es unread : List Event} {ts : List Turn}
    (hc : s.Course h es ts unread) {i : Nat} {e : Event} {t : Turn}
    (he : (es ++ [.endOfInput])[i]? = some e) (ht : ts[i]? = some t) :
    t = s.turn (s.after h (es.take i)) e := by
  induction hc generalizing i with
  | finish h =>
    cases i with
    | zero =>
      cases he
      exact (Option.some.inj ht).symm.trans (by rw [List.take_nil, after_nil])
    | succ i => cases ht
  | stop h es hstops =>
    cases i with
    | zero =>
      cases he
      exact (Option.some.inj ht).symm.trans (by rw [List.take_zero, after_nil])
    | succ i => cases ht
  | step hstops hc ih =>
    cases i with
    | zero =>
      cases he
      exact (Option.some.inj ht).symm.trans (by rw [List.take_zero, after_nil])
    | succ i =>
      rw [List.take_succ_cons, ← after_cons]
      exact ih he ht

theorem Course.map_out {s : Session} {h : History} {es unread : List Event} {ts : List Turn}
    (hc : s.Course h es ts unread) (hgoes : ∀ e ∈ es, e.stops = false) (answer : Event → List Piece)
    (hanswer : ∀ e ∈ es ++ [Event.endOfInput], ∀ h, (s.turn h e).out = answer e) :
    ts.map (·.out) = (es ++ [Event.endOfInput]).map answer := by
  induction hc with
  | finish h => simpa using hanswer _ List.mem_cons_self h
  | stop h es he => cases he.symm.trans (hgoes _ List.mem_cons_self)
  | step he hc ih =>
    obtain ⟨-, hgoes⟩ := List.forall_mem_cons.1 hgoes
    obtain ⟨hfirst, hanswer⟩ := List.forall_mem_cons.1 hanswer
    rw [List.map_cons, List.cons_append, List.map_cons, hfirst, ih hgoes hanswer]

theorem run_expressions (s : Session) (hplaces : Decimal.Showable s.settings.places)
    {ls : List String} (hls : ∀ l ∈ ls, Text.trim l ≠ "" ∧ Command.ofLine? l = none) :
    (s.run {} (ls.map .line)).1.map (·.out) =
      ls.map (fun l => (s.turn {} (.line l)).out) ++ [[.text "\nGoodbye.\n"]] ∧
    ∀ i l t, ls[i]? = some l → (s.run {} (ls.map .line)).1[i]? = some t →
      t = s.calculate (finalHistory {} ((s.run {} (ls.map .line)).1.take i)) (Text.trim l) := by
  have hturn {l : String} (hl : l ∈ ls) (h : History) : s.turn h (.line l) = s.calculate h (Text.trim l) :=
    s.turn_line_eq_calculate h (hls l hl).1 (hls l hl).2
  have hgoes : ∀ e ∈ ls.map Event.line, e.stops = false :=
    List.forall_mem_map.2 fun l hl => Event.stops_line_of_ne (by simp [(hls l hl).2])
  have hs := s.unbroken_of_showable hplaces {} (ls.map .line)
  have hcourse := course_run hs
  constructor
  · rw [hcourse.map_out hgoes fun e => (s.turn {} e).out, List.map_append, List.map_map]
    · rfl
    · simp only [List.forall_mem_append, List.forall_mem_map, List.forall_mem_singleton]
      refine ⟨fun l hl h => ?_, fun h => rfl⟩
      rw [hturn hl, hturn hl]
      exact s.out_calculate_congr h {} _
  · intro i l t hl ht
    have hi : i < ls.length := (List.getElem?_eq_some_iff.1 hl).1
    have htake : (ls.map Event.line).takeWhile (!·.stops) = ls.map .line :=
      List.takeWhile_eq_self_iff.2 (by simpa using hgoes)
    have hline : (ls.map Event.line ++ [.endOfInput])[i]? = some (.line l) := by
      rw [List.getElem?_append_left (by simpa using hi), List.getElem?_map, hl]
      rfl
    rw [hcourse.finalHistory_take hs (by simpa [htake] using hi.le), hcourse.turn_eq hline ht,
      hturn (List.mem_of_getElem? hl)]

/-- A session over any events never breaks off. It ends with the first event that stops it and reads no
further. Its history gains the entries of the lines that have a value, in their order and nothing else;
whoever asks for it on the way gets what it has gained so far. A line that has a value is no command. -/
theorem run_folds_lines (s : Session) (hplaces : 0 ≤ s.settings.places ∧ s.settings.places ≤ 2147483647)
    (h : History) (es : List Event) :
    (∀ t ∈ (s.run h es).1, t.fault = none) ∧
    (s.run h es).1.length = (es.takeWhile (!·.stops)).length + 1 ∧
    (s.run h es).2 = es.drop ((es.takeWhile (!·.stops)).length + 1) ∧
    (finalHistory h (s.run h es).1).entries = h.entries ++ (es.takeWhile (!·.stops)).filterMap s.recorded ∧
    (∀ i e t, (es ++ [.endOfInput])[i]? = some e → (s.run h es).1[i]? = some t →
      t = s.turn ⟨h.entries ++ (es.take i).filterMap s.recorded⟩ e ∧
      (e.lists → t.out = s.clearing.1 ++ [.text (listingText s.settings.places.toNat
        (h.entries ++ (es.take i).filterMap s.recorded))])) ∧
    ∀ strict raw o, Calculator.evaluate s.settings strict (Text.trim raw) = .ok o → o.ok →
      Command.ofLine? raw = none := by
  have hs := s.unbroken_of_showable hplaces h es
  have hcourse := course_run hs
  refine ⟨hcourse.fault hs, hcourse.length, hcourse.unread, ?_, fun i e t he ht => ?_,
    fun strict raw o heval hok => ?_⟩
  · rw [hcourse.finalHistory hs]
    rfl
  · obtain rfl := hcourse.turn_eq he ht
    exact ⟨rfl, (answers_turn fun _ => hplaces).out⟩
  · cases hc : Command.ofLine? raw with
    | none => rfl
    | some c =>
      obtain ⟨e, hfails⟩ := Command.evaluate_of_ofLine? hc s.settings strict
      cases hfails.symm.trans heval
      cases hok

theorem run_folds_lines_sum :
    let es : List Event := [.line " 1 + 2", .line "Show ", .line "1/0", .interrupt, .line "3"]
    (finalHistory {} (run {} {} es).1).entries = [⟨"1+2", 3⟩] ∧ (run {} {} es).2 = [.line "3"] ∧
      ∀ t, (run {} {} es).1[1]? = some t → t.out = [.text "Calculation history:\n1+2 = 3.00\n"] := by
  intro es
  obtain ⟨-, -, hunread, hentries, hturns, -⟩ := run_folds_lines {} ⟨by decide, by decide⟩ {} es
  have hrecorded : (es.takeWhile (!·.stops)).filterMap (recorded {}) = [⟨"1+2", 3⟩] := by decide +kernel
  have hbefore : (es.take 1).filterMap (recorded {}) = [⟨"1+2", 3⟩] := by decide +kernel
  have hlisting : listingText 2 [⟨"1+2", 3⟩] = "Calculation history:\n1+2 = 3.00\n" := by decide +kernel
  refine ⟨by rw [hentries, hrecorded]; rfl, by rw [hunread]; decide +kernel, fun t ht => ?_⟩
  rw [(hturns 1 (.line "Show ") t rfl ht).2 (by decide +kernel), hbefore]
  exact congrArg (fun text => [Piece.text text]) hlisting

end InfixCalc.Session
