import InfixCalc.History.Notebook
import InfixCalc.Proofs.Machine
import InfixCalc.Proofs.Session.Turn
import Mathlib.Data.List.Induction

namespace InfixCalc.Notebook

def recorded (s : Settings) : Request → Option History.Entry
  | .record expression value => some (.of expression value)
  | .evaluate expression =>
    match Calculator.evaluate s none expression with
    | .ok o => if o.ok then o.value.map (.of expression) else none
    | .error _ => none
  | _ => none

def Reply.succeeds : Reply → Bool
  | .entry _ => true
  | .outcome o => o.ok
  | _ => false

def Request.places? : Request → Option Int
  | .setPlaces n => some n
  | _ => none

def placesAfter (b : Notebook) (rs : List Request) : Int :=
  (rs.filterMap Request.places?).getLast?.getD b.settings.places

def advances (b : Notebook) (n : Nat) : Request → Bool
  | .next cursor => place? b.cursors.length cursor = some n
  | _ => false

def shown (n : Nat) (b : Notebook) : List Request → List Reply
  | [] => []
  | r :: rs =>
    if b.advances n r then (b.answer r).2 :: shown n (b.answer r).1 rs else shown n (b.answer r).1 rs

theorem recorded_places (s : Settings) (n : Int) : recorded { s with places := n } = recorded s := rfl

theorem evaluate_cases (b : Notebook) (expression : String) :
    (∃ x o, b.evaluate expression = ({ b with history := b.history.record expression x }, .outcome o) ∧
      o.ok = true ∧ recorded b.settings (.evaluate expression) = some (.of expression x)) ∨
    ∃ o, b.evaluate expression = (b, .outcome o) ∧ o.ok = false ∧
      recorded b.settings (.evaluate expression) = none := by
  rcases Calculator.evaluate_cases b.settings none expression with ⟨x, rpn, -, heval⟩ | ⟨e, -, heval⟩
  · exact .inl ⟨x, .success x rpn, by simp only [evaluate, heval]; rfl, rfl, by simp only [recorded, heval]; rfl⟩
  · exact .inr ⟨.failure e, by simp only [evaluate, heval]; rfl, rfl, by simp only [recorded, heval]; rfl⟩

structure Follows (b : Notebook) (r : Request) : Prop where
  entries : (b.answer r).1.history.entries = b.history.entries ++ (recorded b.settings r).toList
  settings : (b.answer r).1.settings = { b.settings with places := r.places?.getD b.settings.places }
  succeeds : (recorded b.settings r).isSome = (b.answer r).2.succeeds

theorem Follows.of_unchanged {b : Notebook} {r : Request} (hhistory : (b.answer r).1.history = b.history)
    (hsettings : (b.answer r).1.settings = b.settings) (hrecorded : recorded b.settings r = none)
    (hplaces : r.places? = none) (hreply : (b.answer r).2.succeeds = false) : b.Follows r where
  entries := by rw [hhistory, hrecorded, Option.toList_none, List.append_nil]
  settings := by rw [hsettings, hplaces, Option.getD_none]
  succeeds := by rw [hrecorded, hreply, Option.isSome_none]

theorem succeeds_reply {make : α → Reply} (hmake : ∀ a, (make a).succeeds = false) (e : Except Fault α) :
    (reply make e).succeeds = false := by
  cases e with
  | error f => rfl
  | ok a => exact hmake a

theorem next_eq {b : Notebook} {cursor : Int} {i : Nat} {c : History.Cursor}
    (hi : place? b.cursors.length cursor = some i) (hc : b.cursors[i]? = some c) :
    b.next cursor = ({ b with cursors := b.cursors.set i c.next.2 }, .next c.next.1) := by
  simp only [next, hi, hc]

theorem next_cases (b : Notebook) (cursor : Int) : b.next cursor = (b, .fault .noEntry) ∨
    ∃ i c, place? b.cursors.length cursor = some i ∧ b.cursors[i]? = some c := by
  unfold next
  cases place? b.cursors.length cursor with
  | none => exact .inl rfl
  | some i =>
    cases hc : b.cursors[i]? with
    | none => exact .inl (by simp only [hc])
    | some c => exact .inr ⟨i, c, rfl, hc⟩

theorem follows (b : Notebook) (r : Request) : b.Follows r := by
  cases r with
  | record expression value => exact ⟨rfl, rfl, rfl⟩
  | evaluate expression =>
    rcases b.evaluate_cases expression with ⟨x, o, heval, hok, hrecorded⟩ | ⟨o, heval, hok, hrecorded⟩ <;>
      constructor <;> simp [answer, heval, hrecorded, hok, Request.places?, Reply.succeeds]
  | lines places => exact .of_unchanged rfl rfl rfl rfl (succeeds_reply (fun _ => rfl) _)
  | line index places => exact .of_unchanged rfl rfl rfl rfl (succeeds_reply (fun _ => rfl) _)
  | entries | iterate => exact .of_unchanged rfl rfl rfl rfl rfl
  | next cursor =>
    have hnext : (b.next cursor).1.history = b.history ∧ (b.next cursor).1.settings = b.settings ∧
        (b.next cursor).2.succeeds = false := by
      rcases b.next_cases cursor with hfault | ⟨i, c, hi, hc⟩
      · rw [hfault]
        exact ⟨rfl, rfl, rfl⟩
      · rw [next_eq hi hc]
        exact ⟨rfl, rfl, rfl⟩
    exact .of_unchanged hnext.1 hnext.2.1 rfl rfl hnext.2.2
  | setPlaces n => exact ⟨(List.append_nil _).symm, rfl, rfl⟩

theorem answer_of_fault {b : Notebook} {r : Request} {f : Fault} (h : (b.answer r).2 = .fault f) :
    (b.answer r).1 = b := by
  cases r with
  | record expression value => cases h
  | evaluate expression =>
    rcases b.evaluate_cases expression with ⟨x, o, heval, -⟩ | ⟨o, heval, -⟩
    · rw [answer, heval] at h
      cases h
    · rw [answer, heval]
  | lines places | line index places => rfl
  | entries => rfl
  | iterate => cases h
  | next cursor =>
    rcases b.next_cases cursor with hfault | ⟨i, c, hi, hc⟩
    · rw [answer, hfault]
    · rw [answer, next_eq hi hc] at h
      cases h
  | setPlaces n => cases h

section

variable {b : Notebook} {n : Nat} {c : History.Cursor} {r : Request}

theorem answer_of_advances (hc : b.cursors[n]? = some c) (h : b.advances n r) :
    (b.answer r).2 = .next c.rest.head? ∧ (b.answer r).1.cursors[n]? = some ⟨c.rest.tail⟩ := by
  cases r with
  | next cursor =>
    have hnext := next_eq (of_decide_eq_true h) hc
    rw [answer, hnext]
    exact ⟨rfl, List.getElem?_set_self (List.getElem?_eq_some_iff.1 hc).1⟩
  | _ => cases h

theorem cursors_of_not_advances (hc : b.cursors[n]? = some c) (h : b.advances n r = false) :
    (b.answer r).1.cursors[n]? = some c := by
  cases r with
  | evaluate expression =>
    rcases b.evaluate_cases expression with ⟨x, o, heval, -⟩ | ⟨o, heval, -⟩ <;> rwa [answer, heval]
  | iterate => exact List.getElem?_append_left (List.getElem?_eq_some_iff.1 hc).1 ▸ hc
  | next cursor =>
    rcases b.next_cases cursor with hfault | ⟨i, c', hi, hc'⟩
    · rwa [answer, hfault]
    · have hne : i ≠ n := fun heq => of_decide_eq_false h (heq ▸ hi)
      rw [answer, next_eq hi hc', List.getElem?_set_ne hne]
      exact hc
  | _ => exact hc

theorem eq_next_of_getElem?_shown (hc : b.cursors[n]? = some c) {rs : List Request} {k : Nat} {reply : Reply}
    (h : (shown n b rs)[k]? = some reply) : reply = .next c.rest[k]? := by
  induction rs generalizing b c k with
  | nil => cases h
  | cons r rs ih =>
    rw [shown] at h
    by_cases hr : b.advances n r
    · obtain ⟨hreply, hrest⟩ := answer_of_advances hc hr
      rw [if_pos hr] at h
      cases k with
      | zero =>
        rw [← Option.some.inj h, hreply, List.head?_eq_getElem?]
      | succ k =>
        rw [ih hrest h, List.getElem?_tail]
    · rw [if_neg hr] at h
      exact ih (cursors_of_not_advances hc (by simpa using hr)) h

theorem exists_cursor_answer (hc : b.cursors[n]? = some c) (r : Request) :
    ∃ c', (b.answer r).1.cursors[n]? = some c' := by
  cases hr : b.advances n r with
  | true => exact ⟨_, (answer_of_advances hc hr).2⟩
  | false => exact ⟨c, cursors_of_not_advances hc hr⟩

theorem advances_after (hc : b.cursors[n]? = some c) (rs : List Request) :
    (Machine.after answer b rs).advances n (.next n) := by
  induction rs generalizing b c with
  | nil =>
    have hn : n < b.cursors.length := (List.getElem?_eq_some_iff.1 hc).1
    have hplace : place? b.cursors.length n = some n := by
      rw [place?, if_neg (Int.not_lt.2 (Int.natCast_nonneg n)), if_pos ⟨by omega, by omega⟩, Int.toNat_natCast]
    exact decide_eq_true hplace
  | cons r rs ih =>
    obtain ⟨c', hc'⟩ := exists_cursor_answer hc r
    exact ih hc'

end

theorem placesAfter_append_singleton (b : Notebook) (rs : List Request) (r : Request) :
    b.placesAfter (rs ++ [r]) = r.places?.getD (b.placesAfter rs) := by
  cases hr : r.places? <;> simp [placesAfter, hr]

theorem settings_eq (b : Notebook) (rs : List Request) :
    (Machine.after answer b rs).settings = { b.settings with places := b.placesAfter rs } := by
  induction rs using List.reverseRecOn with
  | nil => rfl
  | append_singleton rs r ih =>
    have hstep := ((Machine.after answer b rs).follows r).settings
    rw [Machine.after_append, Machine.after_cons, Machine.after_nil, hstep, ih, placesAfter_append_singleton]

theorem recorded_after (b : Notebook) (rs : List Request) :
    recorded (Machine.after answer b rs).settings = recorded b.settings := by
  rw [settings_eq, recorded_places]

theorem entries_eq (b : Notebook) (rs : List Request) : (Machine.after answer b rs).history.entries =
    b.history.entries ++ rs.filterMap (recorded b.settings) := by
  induction rs using List.reverseRecOn with
  | nil => exact (List.append_nil _).symm
  | append_singleton rs r ih =>
    have hstep := ((Machine.after answer b rs).follows r).entries
    rw [recorded_after, ih] at hstep
    rw [Machine.after_append, Machine.after_cons, Machine.after_nil, hstep, List.filterMap_append,
      List.append_assoc]
    cases hr : recorded b.settings r <;> simp [hr]

theorem countP_succeeds (b : Notebook) (rs : List Request) :
    (Machine.answers answer b rs).countP (·.succeeds) = (rs.filterMap (recorded b.settings)).length := by
  induction rs generalizing b with
  | nil => rfl
  | cons r rs ih =>
    have hsettings : recorded (b.answer r).1.settings = recorded b.settings := b.recorded_after [r]
    have hr := (b.follows r).succeeds
    rw [Machine.answers_cons, List.countP_cons, ← hr, ih, hsettings]
    cases hrec : recorded b.settings r <;> simp [hrec]

theorem entries_prefix (b : Notebook) (rs later : List Request) :
    (Machine.after answer b rs).history.entries <+: (Machine.after answer b (rs ++ later)).history.entries := by
  rw [entries_eq, entries_eq, List.filterMap_append, ← List.append_assoc]
  exact List.prefix_append _ _

section

variable {b : Notebook} {places : Option Int}

theorem answer_lines_of_showable (h : b.history.entries ≠ [] → Decimal.Showable (places.getD b.settings.places)) :
    (b.answer (.lines places)).2 =
      .lines (b.history.entries.map (·.shown (places.getD b.settings.places).toNat)) := by
  rw [answer]
  by_cases hnil : b.history.entries = []
  · rw [History.lines, hnil]
    rfl
  · rw [History.lines_eq_ok (h hnil)]
    rfl

theorem exists_answer_lines_fault (h : ¬Decimal.Showable (places.getD b.settings.places))
    (hne : b.history.entries ≠ []) : ∃ why, (b.answer (.lines places)).2 = .fault (.places why) := by
  obtain ⟨why, hlines⟩ := History.exists_lines_eq_error h hne
  exact ⟨why, by rw [answer, hlines]; rfl⟩

theorem eq_of_answer_lines {ls : List String} (h : (b.answer (.lines places)).2 = .lines ls) :
    ls = b.history.entries.map (·.shown (places.getD b.settings.places).toNat) := by
  by_cases hs : b.history.entries ≠ [] → Decimal.Showable (places.getD b.settings.places)
  · cases h.symm.trans (answer_lines_of_showable hs)
    rfl
  · obtain ⟨hne, hplaces⟩ := Classical.not_imp.1 hs
    obtain ⟨why, hfault⟩ := exists_answer_lines_fault hplaces hne
    cases h.symm.trans hfault

end

/-- Whatever is asked for, also where it fails, a history gains one entry for each calculation that succeeds,
behind those it has, and loses none. An iteration shows the entries of the time when it began one after the
other and then none, whatever else is asked for in between. Lines show all entries to the places that are given
or else set by then, if numbers can be shown to so many places; so the lines for some places begin with all
earlier lines for the same places. -/
theorem history_only_grows (b : Notebook) (rs later : List Request) :
    let here := Machine.after answer b rs
    let there := Machine.after answer b (rs ++ later)
    here.history.entries = b.history.entries ++ rs.filterMap (recorded b.settings) ∧
    here.history.size = b.history.size + (Machine.answers answer b rs).countP (·.succeeds) ∧
    here.history.entries <+: there.history.entries ∧
    (∀ r f, (here.answer r).2 = .fault f → (here.answer r).1 = here) ∧
    (∃ n, (here.answer .iterate).2 = .cursor n ∧
      (Machine.after answer (here.answer .iterate).1 later).advances n (.next n) ∧
      ∀ (k : Nat) reply, (shown n (here.answer .iterate).1 later)[k]? = some reply →
        reply = .next here.history.entries[k]?) ∧
    (∀ (places : Option Int) (n : Int), places.getD (b.placesAfter rs) = n →
      (Decimal.Showable n ∨ here.history.entries = [] →
        (here.answer (.lines places)).2 = .lines (here.history.entries.map (·.shown n.toNat))) ∧
      (¬Decimal.Showable n → here.history.entries ≠ [] →
        ∃ why, (here.answer (.lines places)).2 = .fault (.places why))) ∧
    ∀ places places' ls ls', places.getD (b.placesAfter rs) = places'.getD (b.placesAfter (rs ++ later)) →
      (here.answer (.lines places)).2 = .lines ls → (there.answer (.lines places')).2 = .lines ls' → ls <+: ls' := by
  intro here there
  have hentries : here.history.entries = _ := b.entries_eq rs
  have hplaces : here.settings.places = b.placesAfter rs := congrArg Settings.places (b.settings_eq rs)
  have hplaces' : there.settings.places = b.placesAfter (rs ++ later) :=
    congrArg Settings.places (b.settings_eq (rs ++ later))
  have hprefix : here.history.entries <+: there.history.entries := b.entries_prefix rs later
  have hcursor : (here.answer .iterate).1.cursors[here.cursors.length]? = some here.history.cursor :=
    List.getElem?_concat_length
  refine ⟨hentries, ?_, hprefix, fun r f => answer_of_fault,
    ⟨_, rfl, advances_after hcursor later, fun k reply => eq_next_of_getElem?_shown hcursor⟩,
    fun places n hn => ?_, fun places places' ls ls' hsame hls hls' => ?_⟩
  · rw [History.size, hentries, List.length_append, b.countP_succeeds]
    rfl
  · rw [← hplaces] at hn
    subst hn
    exact ⟨fun h => answer_lines_of_showable fun hne => h.resolve_right hne, exists_answer_lines_fault⟩
  · rw [eq_of_answer_lines hls, eq_of_answer_lines hls', hplaces, hplaces', ← hsame]
    exact hprefix.map _

theorem history_only_grows_mixed :
    let rs : List Request := [.record "1 + 2" 3, .setPlaces (-1), .lines none, .evaluate "1/0", .setPlaces 2]
    let later : List Request := [.next 0, .evaluate "1/8", .setPlaces 7, .next (-1), .next 0, .setPlaces 2]
    let here := Machine.after answer {} rs
    let there := Machine.after answer {} (rs ++ later)
    let replies := shown 0 (here.answer .iterate).1 later
    replies[0]? = some (.next (some ⟨"1+2", 3⟩)) ∧ replies[1]? = some (.next none) ∧
      replies[2]? = some (.next none) ∧
      ∃ ls ls', (here.answer (.lines none)).2 = .lines ls ∧ (there.answer (.lines none)).2 = .lines ls' ∧
        ls = ["1+2 = 3.00"] ∧ ls <+: ls' := by
  intro rs later here there replies
  obtain ⟨hentries, -, -, -, ⟨n, hn, -, hshown⟩, hlines, hsame⟩ := history_only_grows {} rs later
  obtain ⟨-, -, -, -, -, hlines', -⟩ := history_only_grows {} (rs ++ later) []
  have hnumber : here.cursors.length = 0 := by decide +kernel
  obtain rfl : n = 0 := (Reply.cursor.inj hn).symm.trans hnumber
  have hrecorded : rs.filterMap (recorded {}) = [⟨"1+2", 3⟩] := by decide +kernel
  have hlength : replies.length = 3 := by decide +kernel
  have hreply (k : Nat) (hk : k < 3) : replies[k]? = some (.next here.history.entries[k]?) := by
    have hsome : replies[k]? = some _ := List.getElem?_eq_getElem (hlength ▸ hk)
    rw [hsome, hshown k _ hsome]
  rw [hrecorded] at hentries
  have hplaces : (none : Option Int).getD (placesAfter {} rs) = 2 := rfl
  have hplaces' : (none : Option Int).getD (placesAfter {} (rs ++ later)) = 2 := rfl
  have hshowable : Decimal.Showable 2 := ⟨by decide, by decide⟩
  have hhere := (hlines none 2 hplaces).1 (.inl hshowable)
  have hthere := (hlines' none 2 hplaces').1 (.inl hshowable)
  refine ⟨?_, ?_, ?_, _, _, hhere, hthere, ?_, hsame none none _ _ (hplaces.trans hplaces'.symm) hhere hthere⟩
  · rw [hreply 0 (by decide), hentries]
    rfl
  · rw [hreply 1 (by decide), hentries]
    rfl
  · rw [hreply 2 (by decide), hentries]
    rfl
  · rw [hentries]
    decide +kernel

end InfixCalc.Notebook
