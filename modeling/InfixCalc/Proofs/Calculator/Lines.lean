import InfixCalc.Log.Timestamp
import InfixCalc.Outcome.Display
import InfixCalc.Proofs.Calculator.Outcome
import InfixCalc.Proofs.Decimal.Places
import InfixCalc.Proofs.Rpn.RoundTrip
import InfixCalc.Proofs.Text.Line

namespace InfixCalc

open Text

theorem Token.Written.isLine {t : Token} (h : t.Written) : IsLine t.text :=
  isLine_of_isBlank_eq_false fun _ hc => Token.Kind.Shape.isBlank_eq_false h hc

theorem Rpn.isLine_text {us : List Token} (h : ∀ t ∈ us, IsLine t.text) : IsLine (text us) := by
  induction us with
  | nil => decide
  | cons t us ih =>
    obtain ⟨ht, hus⟩ := List.forall_mem_cons.1 h
    cases us with
    | nil => simpa [text] using ht
    | cons u us =>
      have htext : text (t :: u :: us) = t.text ++ (" " ++ text (u :: us)) := by
        rw [← String.toList_inj, toList_text_cons_cons, String.toList_append, String.toList_append]
        rfl
      rw [htext]
      exact ht.append (IsLine.append (by decide) (ih hus))

structure Error.OnLine (e : Error) : Prop where
  message : IsLine e.message
  code : IsLine e.code

namespace Error

theorem onLine_tooLong (limit : ℤ) : (tooLong limit).OnLine where
  message := (IsLine.append (by decide) (isLine_toString_int limit)).append (by decide)
  code := show IsLine "TOO_LONG" by decide

theorem onLine_noTokens (expression : String) : (noTokens expression).OnLine where
  message := IsLine.append (by decide) (isLine_quoted expression)
  code := show IsLine "NO_TOKENS" by decide

theorem onLine_unknownToken {t : Token} (h : IsLine t.text) : (unknownToken t).OnLine where
  message := IsLine.append (by decide) h
  code := show IsLine "UNKNOWN_TOKEN" by decide

end Error

namespace Rpn

def LineFailure (f : Failure) : Prop := ∀ e, f = .error e → e.OnLine

theorem lineFailure_error {e : Error} (h : e.OnLine) : LineFailure (.error e) := by
  rintro _ ⟨⟩
  exact h

theorem Yard.accept_failsOnly_line {t : Token} (ht : IsLine t.text) (y : Yard) :
    FailsOnly LineFailure (y.accept t) := by
  have hunknown := lineFailure_error (Error.onLine_unknownToken ht)
  unfold accept
  cases t.kind with
  | number =>
    simp only
    split
    · exact .error nofun
    · split
      · exact .ok _
      · exact .error hunknown
  | opening => exact .ok _
  | closing =>
    simp only
    split
    · exact .error (lineFailure_error ⟨by decide, by decide⟩)
    · exact .ok _
  | operator =>
    simp only
    split
    · exact .error hunknown
    · exact .ok _
  | stray => exact .error hunknown

theorem ofTokens_failsOnly_line {ts : List Token} (hts : ∀ t ∈ ts, IsLine t.text) :
    FailsOnly LineFailure (ofTokens ts) := by
  refine .bind ?_ fun y _ => ?_
  · generalize ({} : Yard) = y
    induction ts generalizing y with
    | nil => exact .ok _
    | cons t ts ih =>
      obtain ⟨ht, hts⟩ := List.forall_mem_cons.1 hts
      rw [List.foldlM_cons]
      exact .bind (y.accept_failsOnly_line ht) fun y' _ => ih hts y'
  · unfold Yard.finish
    split
    · exact .error (lineFailure_error ⟨by decide, by decide⟩)
    · exact .ok _

theorem ValueFailure.onLine {e : Error} (h : ValueFailure (.error e)) : e.OnLine := by
  have hsymbol (o : Operator) : IsLine o.symbol := by cases o <;> decide
  cases h with
  | missing o position =>
    refine ⟨?_, show IsLine "INSUFFICIENT_OPERANDS" by decide⟩
    exact ((IsLine.append (by decide) (hsymbol o)).append (by decide)).append (isLine_toString_int position)
  | division =>
    refine ⟨?_, by decide⟩
    exact ((IsLine.append (by decide) (hsymbol .div)).append (by decide)).append
      (show IsLine "division by zero is undefined" by decide)
  | operands => exact ⟨by decide, by decide⟩

end Rpn

namespace Calculator

theorem evaluate_cases_of_line (settings : Settings) (strict : Option Bool) (s : String) :
    (∃ x text, IsLine text ∧ evaluate settings strict s = .ok (.success x text)) ∨
      ∃ e : Error, e.OnLine ∧ evaluate settings strict s = .ok (.failure e) := by
  have hwritten : ∀ t ∈ Token.ofString (strict.getD settings.strict) s, t.Written := fun t ht =>
    Token.written_of_mem_ofString ht
  rw [evaluate_eq]
  split
  · exact .inr ⟨_, Error.onLine_tooLong _, rfl⟩
  · split
    · exact .inr ⟨_, Error.onLine_noTokens _, rfl⟩
    · rcases outcome_stages fun t ht => (hwritten t ht).readable with ⟨us, x, hconv, -, hout⟩ |
        ⟨e, hconv, -, hout⟩ | ⟨us, e, -, -, he, hout⟩
      · have hus := Rpn.written_of_mem_ofTokens hconv
        exact .inl ⟨x, _, Rpn.isLine_text fun t ht => (hus t ht).isLine, hout⟩
      · have hfails := Rpn.ofTokens_failsOnly_line fun t ht => (hwritten t ht).isLine
        exact .inr ⟨e, hfails _ hconv e rfl, hout⟩
      · exact .inr ⟨e, he.onLine, hout⟩

end Calculator

theorem IsLiteral.isLine {cs : List Char} (h : IsLiteral cs) : IsLine (String.ofList cs) := by
  have hp : literalChars.all fun c => c ≠ '\n' ∧ c ≠ '\r' := by decide
  rw [isLine_iff, String.toList_ofList]
  simpa using h.forall_mem hp

theorem Decimal.Binary64.isLine_toPlaces (places : ℕ) (b : Binary64) : IsLine (b.toPlaces places) := by
  have hsign (negative : Bool) : IsLine (String.ofList (sign negative)) := by cases negative <;> decide
  cases b with
  | nan => exact show IsLine "nan" by decide
  | infinite negative =>
    rw [toPlaces, String.ofList_append]
    exact (hsign negative).append (by decide)
  | finite negative mantissa scale =>
    rw [toPlaces]
    split
    · rw [← chars_fixed, String.ofList_append]
      exact (hsign negative).append (Literal.isLiteral_iff.2 ⟨_, rfl⟩).isLine
    · have hhead : IsLine (String.ofList (sign negative ++ ['0', '.'])) := by cases negative <;> decide
      rw [isLine_iff, toList_pushn]
      refine List.forall_mem_append.2 ⟨isLine_iff.1 hhead, fun c hc => ?_⟩
      rw [List.eq_of_mem_replicate hc]
      decide

theorem Decimal.exists_toPlaces {places : ℕ} (h : places ≤ placesLimit) (x : Float) :
    ∃ shown, toPlaces places x = .ok shown ∧ IsLine shown := by
  have hplaces : places? places = .ok places := places?_eq_ok_iff.2 ⟨by omega, by omega, rfl⟩
  refine ⟨_, ?_, (Binary64.ofFloat x).isLine_toPlaces places⟩
  rw [toPlaces, hplaces]
  rfl

namespace Log

theorem isLine_padded (width n : ℕ) : IsLine (padded width n) := by
  rw [isLine_iff, padded, String.toList_ofList]
  exact ne_of_mem_leftpad (ne_of_mem_toDigits (by decide) (by decide)) width

theorem isLine_parts {mark : String} (hmark : IsLine mark) (width a b c : ℕ) :
    IsLine (padded width a ++ mark ++ padded 2 b ++ mark ++ padded 2 c) :=
  (((isLine_padded width a).append hmark).append (isLine_padded 2 b)).append hmark |>.append (isLine_padded 2 c)

theorem isLine_of_timestamp {t : Float} {time : String} (h : timestamp t = .ok time) : IsLine time := by
  obtain ⟨⟨seconds, micros⟩, -, h⟩ := exists_of_bind_eq_ok h
  obtain ⟨date, -, h⟩ := exists_of_bind_eq_ok h
  obtain ⟨-, -, h⟩ := exists_of_bind_eq_ok h
  rw [← Except.ok.inj h]
  have hmicros : IsLine (if micros = 0 then "" else "." ++ padded 6 micros) := by
    split
    · decide
    · exact IsLine.append (by decide) (isLine_padded 6 micros)
  have hday := (isLine_parts (by decide : IsLine "-") 4 date.year.toNat date.month date.day).append
    (by decide : IsLine "T")
  exact (hday.append (isLine_parts (by decide) 2 _ _ _)).append hmicros

theorem isLine_entry {time : String} (htime : IsLine time) (r : Record) (hname : IsLine r.severity.name)
    (hlogger : IsLine r.logger) (htext : IsLine r.text) : IsLine (r.entry time) :=
  (((((htime.append (by decide)).append hname).append (by decide)).append hlogger).append (by decide)).append htext

theorem exists_line_of_mem_deliver {log : Log} {time : String} {r : Record} (hentry : IsLine (r.entry time))
    (htext : IsLine r.text) {p : Sink × String} (hp : p ∈ log.deliver time r) :
    ∃ l, IsLine l ∧ p.2 = unlines [l] := by
  rw [deliver] at hp
  split at hp
  · cases hp
  · split at hp
    · rw [List.mem_singleton.1 hp]
      exact ⟨_, htext, rfl⟩
    · obtain ⟨sink, -, rfl⟩ := List.mem_map.1 hp
      exact ⟨_, hentry, rfl⟩

end Log

def Outcome.PrintsLines (o : Outcome) (places : ℤ) (showRpn : Bool) (ls : List String) : Prop :=
  (∀ l ∈ ls, IsLine l) ∧ o.print places ⟨.human, showRpn⟩ = ⟨unlines ls, none⟩

theorem Outcome.printsLines_success (x : Float) {rpn shown : String} (hrpn : IsLine rpn) (hshown : IsLine shown)
    {places : ℤ} (hplaces : Decimal.toPlaces places x = .ok shown) (showRpn : Bool) :
    (success x rpn).PrintsLines places showRpn
      ((if showRpn then ["Postfix: " ++ rpn] else []) ++ ["Result: " ++ shown]) := by
  have hresult : IsLine ("Result: " ++ shown) := IsLine.append (by decide) hshown
  have hvalue : (success x rpn).shownValue places = .ok shown := congrArg (Except.mapError Fault.places) hplaces
  have hprint : (success x rpn).print places ⟨.human, showRpn⟩ =
      ⟨(if showRpn then "Postfix: " ++ rpn ++ "\n" else "") ++ "Result: " ++ shown ++ "\n", none⟩ := by
    simp only [print, hvalue]
    rfl
  cases showRpn with
  | false => exact ⟨List.forall_mem_singleton.2 hresult, hprint⟩
  | true =>
    have hform : IsLine ("Postfix: " ++ rpn) := IsLine.append (by decide) hrpn
    refine ⟨List.forall_mem_cons.2 ⟨hform, List.forall_mem_singleton.2 hresult⟩, hprint.trans ?_⟩
    congr 1
    rw [← String.toList_inj]
    simp [unlines]

theorem Outcome.printsLines_failure {e : Error} (he : IsLine e.message) (places : ℤ) (showRpn : Bool) :
    (failure e).PrintsLines places showRpn ["Error: " ++ e.message] :=
  ⟨List.forall_mem_singleton.2 (IsLine.append (by decide) he), rfl⟩

namespace Calculator

theorem exists_records_failure (s : String) {e : Error} (he : e.OnLine) :
    ∃ r, records s (.failure e) = [r] ∧ r.severity = Log.Level.debug.severity ∧ IsLine r.logger ∧ IsLine r.text := by
  refine ⟨_, rfl, rfl, (by decide : IsLine (Log.logger "api")), ?_⟩
  exact (((IsLine.append (by decide) (isLine_quoted s)).append (by decide)).append he.code).append (by decide)
    |>.append he.message

/-- No expression can break a line. Its form, or else the message of its failure, is free of line breaks; so
the result is printed on one line, behind one line with the form if that is asked for and there is one, and a
failure leaves one record, of which every entry is one line. -/
theorem evaluate_on_lines (settings : Settings) (strict : Option Bool) (s : String) :
    (∃ x rpn, evaluate settings strict s = .ok (.success x rpn) ∧ IsLine rpn ∧
      (∀ (places : ℕ) (showRpn : Bool), places ≤ Decimal.placesLimit →
        ∃ shown, Decimal.toPlaces places x = .ok shown ∧
          (Outcome.success x rpn).PrintsLines places showRpn
            ((if showRpn then ["Postfix: " ++ rpn] else []) ++ ["Result: " ++ shown])) ∧
      records s (.success x rpn) = []) ∨
    ∃ e, evaluate settings strict s = .ok (.failure e) ∧ IsLine e.message ∧
      (∀ (places : ℤ) (showRpn : Bool),
        (Outcome.failure e).PrintsLines places showRpn ["Error: " ++ e.message]) ∧
      ∃ r, records s (.failure e) = [r] ∧ r.severity = Log.Level.debug.severity ∧
        ∀ (t : Float) (time : String), Log.timestamp t = .ok time → IsLine (r.entry time) ∧
          ∀ (log : Log), ∀ p ∈ log.deliver time r, ∃ l, IsLine l ∧ p.2 = unlines [l] := by
  rcases evaluate_cases_of_line settings strict s with ⟨x, rpn, hrpn, heval⟩ | ⟨e, he, heval⟩
  · refine .inl ⟨x, rpn, heval, hrpn, fun places showRpn h => ?_, rfl⟩
    obtain ⟨shown, hplaces, hshown⟩ := Decimal.exists_toPlaces h x
    exact ⟨shown, hplaces, Outcome.printsLines_success x hrpn hshown hplaces showRpn⟩
  · obtain ⟨r, hrecords, hseverity, hlogger, htext⟩ := exists_records_failure s he
    refine .inr ⟨e, heval, he.message, fun places showRpn => Outcome.printsLines_failure he.message places showRpn, r,
      hrecords, hseverity, fun t time htime => ?_⟩
    have hname : IsLine r.severity.name := hseverity ▸ (by decide : IsLine Log.Level.debug.severity.name)
    have hentry := Log.isLine_entry (Log.isLine_of_timestamp htime) r hname hlogger htext
    exact ⟨hentry, fun log p hp => Log.exists_line_of_mem_deliver hentry htext hp⟩

theorem evaluate_on_lines_of_breaks :
    (2 ≤ Decimal.placesLimit ∧ ∃ x rpn shown, evaluate {} none "1\n+\r2" = .ok (.success x rpn) ∧
      (Outcome.success x rpn).PrintsLines (2 : ℕ) true ["Postfix: " ++ rpn, "Result: " ++ shown]) ∧
    Log.timestamp (Float.ofBits 0) = .ok "1970-01-01T00:00:00" ∧
      ∃ e r, evaluate {} (some true) "2\n$" = .ok (.failure e) ∧ records "2\n$" (.failure e) = [r] ∧
        IsLine (r.entry "1970-01-01T00:00:00") := by
  have htime : Log.timestamp (Float.ofBits 0) = .ok "1970-01-01T00:00:00" := by decide +kernel
  refine ⟨⟨by decide, ?_⟩, htime, ?_⟩
  · have hsum : (evaluate {} none "1\n+\r2").toOption.map (·.ok) = some true := by decide +kernel
    rcases evaluate_on_lines {} none "1\n+\r2" with ⟨x, rpn, heval, -, hprints, -⟩ | ⟨e, heval, -⟩
    · obtain ⟨shown, -, hlines⟩ := hprints 2 true (by decide)
      exact ⟨x, rpn, shown, heval, hlines⟩
    · rw [heval] at hsum
      cases hsum
  · have hstray : (evaluate {} (some true) "2\n$").toOption.map (·.ok) = some false := by decide +kernel
    rcases evaluate_on_lines {} (some true) "2\n$" with ⟨x, rpn, heval, -⟩ | ⟨e, heval, -, -, r, hr, -, hentry⟩
    · rw [heval] at hstray
      cases hstray
    · exact ⟨e, r, heval, hr, (hentry _ _ htime).1⟩

end Calculator
end InfixCalc
