import InfixCalc.Proofs.Calculator.WellFormed
import InfixCalc.Proofs.Session.Command
import InfixCalc.Session

namespace InfixCalc

namespace Decimal

def Showable (places : Int) : Prop := 0 ≤ places ∧ places ≤ placesLimit

theorem toPlaces_eq_ok {places : Int} (h : Showable places) (x : Float) :
    toPlaces places x = .ok ((Binary64.ofFloat x).toPlaces places.toNat) := by
  rw [toPlaces, places?_eq_ok_iff.2 ⟨h.1, h.2, rfl⟩]
  rfl

theorem exists_toPlaces_eq_error {places : Int} (h : ¬Showable places) (x : Float) :
    ∃ why, toPlaces places x = .error why := by
  rw [toPlaces]
  cases hp : places? places with
  | ok n =>
    obtain ⟨hlow, hhigh, -⟩ := places?_eq_ok_iff.1 hp
    exact absurd ⟨hlow, hhigh⟩ h
  | error why => exact ⟨why, rfl⟩

end Decimal

open Decimal

namespace History

def Entry.shown (places : Nat) (e : Entry) : String :=
  e.expression ++ " = " ++ (Decimal.Binary64.ofFloat e.value).toPlaces places

theorem lines_eq_ok {places : Int} (h : Showable places) (hs : History) :
    hs.lines places = .ok (hs.entries.map (·.shown places.toNat)) := by
  have hline : Entry.line places = fun e => pure (e.shown places.toNat) := by
    funext e
    rw [Entry.line, toPlaces_eq_ok h]
    rfl
  rw [lines, hline]
  exact List.mapM_pure

theorem exists_lines_eq_error {places : Int} (h : ¬Showable places) {hs : History} (hne : hs.entries ≠ []) :
    ∃ why, hs.lines places = .error (.places why) := by
  obtain ⟨e, es, hes⟩ := List.exists_cons_of_ne_nil hne
  obtain ⟨why, hwhy⟩ := exists_toPlaces_eq_error h e.value
  refine ⟨why, ?_⟩
  rw [lines, hes, List.mapM_cons, Entry.line, hwhy]
  rfl

end History

namespace Session

def listingText (places : Nat) (entries : List History.Entry) : String :=
  if entries = [] then "History is empty\n"
  else "Calculation history:\n" ++ String.join (entries.map fun e => e.shown places ++ "\n")

theorem listing_eq {places : Int} {hs : History} (h : hs.entries ≠ [] → Showable places) :
    listing places hs = ⟨listingText places.toNat hs.entries, none⟩ := by
  rw [listing, listingText]
  by_cases hnil : hs.entries = []
  · simp [hnil]
  · rw [if_neg (by simpa using hnil), if_neg hnil, History.lines_eq_ok (h hnil)]
    simp [Function.comp_def]

theorem exists_listing_fault {places : Int} (h : ¬Showable places) {hs : History} (hne : hs.entries ≠ []) :
    ∃ why, (listing places hs).fault = some (.places why) := by
  obtain ⟨why, hlines⟩ := History.exists_lines_eq_error h hne
  exact ⟨why, by simp [listing, hne, hlines]⟩

theorem print_success_fault {places : Int} {style : Style} (h : style.format = .human → Showable places)
    (x : Float) (rpn : String) : ((Outcome.success x rpn).print places style).fault = none := by
  unfold Outcome.print Outcome.shownValue
  cases hf : style.format with
  | json => rfl
  | human => simp [Outcome.success, toPlaces_eq_ok (h hf), Except.mapError]

theorem exists_print_success_fault {places : Int} (h : ¬Showable places) {style : Style}
    (hf : style.format = .human) (x : Float) (rpn : String) :
    ∃ why, ((Outcome.success x rpn).print places style).fault = some (.places why) := by
  obtain ⟨why, hwhy⟩ := exists_toPlaces_eq_error h x
  exact ⟨why, by simp [Outcome.print, Outcome.shownValue, Outcome.success, hf, hwhy, Except.mapError]⟩

theorem print_failure_fault (places : Int) (style : Style) (e : Error) :
    ((Outcome.failure e).print places style).fault = none := by
  unfold Outcome.print
  cases style.format <;> rfl

def Event.stops : Event → Bool
  | .line raw => ["exit", "quit", "q"].contains (Text.lower (Text.trim raw))
  | .interrupt | .endOfInput => true

def Event.lists : Event → Bool
  | .line raw => ["show", "s"].contains (Text.lower (Text.trim raw))
  | .interrupt | .endOfInput => false

theorem Event.stops_line_iff {raw : String} :
    (Event.line raw).stops ↔ Command.ofLine? raw = some .exit := by
  simp [Event.stops, Command.ofLine?_eq_some_iff, Command.words]

theorem Event.stops_line_of_ne {raw : String} (h : Command.ofLine? raw ≠ some .exit) :
    (Event.line raw).stops = false := by
  rwa [← Bool.not_eq_true, stops_line_iff]

theorem Event.lists_line_iff {raw : String} :
    (Event.line raw).lists ↔ Command.ofLine? raw = some .show := by
  simp [Event.lists, Command.ofLine?_eq_some_iff, Command.words]

def recorded (s : Session) : Event → Option History.Entry
  | .line raw =>
    match Calculator.evaluate s.settings none (Text.trim raw) with
    | .ok o => if o.ok then o.value.map fun x => ⟨Text.squeeze (Text.trim raw), x⟩ else none
    | .error _ => none
  | .interrupt | .endOfInput => none

theorem recorded_of_isStray {s : Session} {raw : String} (h : ∀ c ∈ (Text.trim raw).toList, isStray c) :
    s.recorded (.line raw) = none := by
  obtain ⟨e, he⟩ := Calculator.evaluate_of_isStray h s.settings none
  simp [recorded, he, Outcome.failure]

theorem recorded_of_stops {s : Session} {e : Event} (h : e.stops) : s.recorded e = none := by
  cases e with
  | line raw => exact recorded_of_isStray (Command.isStray_of_ofLine? (Event.stops_line_iff.1 h))
  | interrupt | endOfInput => rfl

def after (s : Session) (h : History) (es : List Event) : History := ⟨h.entries ++ es.filterMap s.recorded⟩

theorem after_nil (s : Session) (h : History) : s.after h [] = h := by
  simp [after]

theorem after_cons (s : Session) (h : History) (e : Event) (es : List Event) :
    s.after (s.after h [e]) es = s.after h (e :: es) := by
  simp only [after, List.append_assoc, ← List.filterMap_append, List.singleton_append]

theorem after_singleton_of_none {s : Session} {e : Event} (he : s.recorded e = none) (h : History) :
    s.after h [e] = h := by
  simp [after, he]

structure Answers (s : Session) (h : History) (e : Event) (t : Turn) : Prop where
  fault : t.fault = none
  stops : t.stops = e.stops
  history : t.history = s.after h [e]
  out : e.lists → t.out = s.clearing.1 ++ [.text (listingText s.settings.places.toNat h.entries)]

theorem Answers.of_silent {s : Session} {h : History} {raw : String} {t : Turn} (hfault : t.fault = none)
    (hstops : t.stops = false) (hhistory : t.history = s.after h [.line raw])
    (hexit : Command.ofLine? raw ≠ some .exit) (hshow : Command.ofLine? raw ≠ some .show) :
    s.Answers h (.line raw) t where
  fault := hfault
  stops := hstops.trans (Event.stops_line_of_ne hexit).symm
  history := hhistory
  out hlists := absurd (Event.lists_line_iff.1 hlists) hshow

def Shows (s : Session) (h : History) (e : Event) : Prop :=
  (s.style.format = .human ∧ (s.recorded e).isSome) ∨ (e.lists ∧ h.entries ≠ [])

theorem recorded_of_success {s : Session} {raw : String} {x : Float} {rpn : String}
    (heval : Calculator.evaluate s.settings none (Text.trim raw) = .ok (.success x rpn)) :
    s.recorded (.line raw) = some (.of (Text.trim raw) x) := by
  simp [recorded, heval, Outcome.success, History.Entry.of]

theorem not_shows_of_silent {s : Session} {raw : String} (hrec : s.recorded (.line raw) = none)
    (hshow : Command.ofLine? raw ≠ some .show) (h : History) : ¬s.Shows h (.line raw) := by
  rintro (⟨-, hsome⟩ | ⟨hlists, -⟩)
  · simp [hrec] at hsome
  · exact hshow (Event.lists_line_iff.1 hlists)

section

variable {s : Session} {h : History}

theorem answers_perform {raw : String} {c : Command} (hc : Command.ofLine? raw = some c)
    (hshows : s.Shows h (.line raw) → Showable s.settings.places) :
    s.Answers h (.line raw) (s.perform h c) := by
  have hnone : s.after h [.line raw] = h :=
    after_singleton_of_none (recorded_of_isStray (Command.isStray_of_ofLine? hc)) h
  cases c with
  | help => exact .of_silent rfl rfl hnone.symm (by simp [hc]) (by simp [hc])
  | «show» =>
    have hlisting : listing s.settings.places h = _ :=
      listing_eq fun hne => hshows (.inr ⟨Event.lists_line_iff.2 hc, hne⟩)
    refine ⟨?_, (Event.stops_line_of_ne (by simp [hc])).symm, hnone.symm, fun _ => ?_⟩
    · simp only [perform, hlisting]
    · simp only [perform, hlisting]
  | exit =>
    refine ⟨rfl, (Event.stops_line_iff.2 hc).symm, hnone.symm, fun hlists => ?_⟩
    cases hc.symm.trans (Event.lists_line_iff.1 hlists)

theorem answers_calculate {raw : String} (hc : Command.ofLine? raw = none)
    (hshows : s.Shows h (.line raw) → Showable s.settings.places) :
    s.Answers h (.line raw) (s.calculate h (Text.trim raw)) := by
  rcases Calculator.evaluate_cases s.settings none (Text.trim raw) with ⟨x, rpn, -, heval⟩ | ⟨e, -, heval⟩
  · have hrec := recorded_of_success heval
    have hprint := print_success_fault (fun hf => hshows (.inl ⟨hf, by simp [hrec]⟩)) x rpn
    refine .of_silent ?_ ?_ ?_ (by simp [hc]) (by simp [hc])
    · simp only [calculate, heval, hprint]
    · simp only [calculate, heval]
    · simp only [calculate, heval, hprint]
      simp [after, hrec, Outcome.success, History.record]
  · have hprint := print_failure_fault s.settings.places s.style e
    refine .of_silent ?_ ?_ ?_ (by simp [hc]) (by simp [hc])
    · simp only [calculate, heval, hprint]
    · simp only [calculate, heval]
    · simp only [calculate, heval, hprint]
      simp [after, recorded, heval, Outcome.failure]

theorem silent_of_isEmpty {raw : String} (hempty : (Text.trim raw).isEmpty) (s : Session) :
    s.recorded (.line raw) = none ∧ ∀ c, Command.ofLine? raw ≠ some c := by
  rw [String.isEmpty_iff] at hempty
  refine ⟨recorded_of_isStray (by simp [hempty]), fun c => ?_⟩
  rw [ne_eq, Command.ofLine?_eq_some_iff, hempty]
  cases c <;> decide +kernel

theorem answers_turn {e : Event} (hshows : s.Shows h e → Showable s.settings.places) :
    s.Answers h e (s.turn h e) := by
  cases e with
  | interrupt | endOfInput =>
    exact ⟨rfl, rfl, (after_singleton_of_none rfl h).symm, nofun⟩
  | line raw =>
    rw [turn]
    split
    · next hempty =>
      obtain ⟨hrec, hc⟩ := silent_of_isEmpty hempty s
      exact .of_silent rfl rfl (after_singleton_of_none hrec h).symm (hc _) (hc _)
    · rw [Command.ofLine?_trim]
      split
      · next hc => exact answers_perform hc hshows
      · next hc => exact answers_calculate hc hshows

theorem exists_turn_fault {e : Event} (hshows : s.Shows h e) (hplaces : ¬Showable s.settings.places) :
    ∃ why, (s.turn h e).fault = some (.places why) := by
  cases e with
  | interrupt | endOfInput => rcases hshows with ⟨-, hsome⟩ | ⟨hlists, -⟩ <;> contradiction
  | line raw =>
    rw [turn]
    split
    · next hempty =>
      obtain ⟨hrec, hc⟩ := silent_of_isEmpty hempty s
      exact absurd hshows (not_shows_of_silent hrec (hc _) h)
    · rw [Command.ofLine?_trim]
      rcases hshows with ⟨hf, hsome⟩ | ⟨hlists, hne⟩
      · have hc : Command.ofLine? raw = none := by
          rw [← Option.not_isSome_iff_eq_none, Option.isSome_iff_exists]
          rintro ⟨c, hc⟩
          simp [recorded_of_isStray (Command.isStray_of_ofLine? hc)] at hsome
        rcases Calculator.evaluate_cases s.settings none (Text.trim raw) with ⟨x, rpn, -, heval⟩ |
          ⟨e, -, heval⟩
        · obtain ⟨why, hprint⟩ := exists_print_success_fault hplaces hf x rpn
          exact ⟨why, by simp only [hc, calculate, heval, hprint]⟩
        · simp [recorded, heval, Outcome.failure] at hsome
      · obtain ⟨why, hlisting⟩ := exists_listing_fault hplaces hne
        exact ⟨why, by simp only [Event.lists_line_iff.1 hlists, perform, hlisting]⟩

end

theorem turn_line_eq_calculate (s : Session) (h : History) {raw : String} (hne : Text.trim raw ≠ "")
    (hc : Command.ofLine? raw = none) : s.turn h (.line raw) = s.calculate h (Text.trim raw) := by
  have hempty : ¬(Text.trim raw).isEmpty := by simpa using hne
  rw [turn, if_neg hempty, Command.ofLine?_trim, hc]

theorem out_calculate_congr (s : Session) (h h' : History) (expression : String) :
    (s.calculate h expression).out = (s.calculate h' expression).out := by
  rw [calculate, calculate]
  split <;> rfl

end Session
end InfixCalc
