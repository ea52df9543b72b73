import InfixCalc.Proofs.Infix.Conversion

namespace InfixCalc

def Token.unplaced (t : Token) : Token := { t with position := 0 }

theorem Token.map_unplaced_eq {ts us : List Token} (h : ts.map Token.word = us.map Token.word) :
    ts.map Token.unplaced = us.map Token.unplaced := by
  have hcomp : Token.unplaced = (fun w => ⟨w.1, w.2, 0⟩) ∘ Token.word := rfl
  rw [hcomp, ← List.map_map, h, List.map_map]

def Failure.map (f : Token → Token) : Failure → Failure
  | .error (.unknownToken t) => .error (.unknownToken (f t))
  | e => e

namespace Rpn

def Yard.map (f : Token → Token) (y : Yard) : Yard := ⟨y.output.map f, y.waiting.map f⟩

theorem Yard.release_map {f : Token → Token} {p : Token → Bool} (hp : ∀ t, p (f t) = p t) (y : Yard) :
    (y.map f).release p = (y.release p).map f := by
  have hcomp : p ∘ f = p := funext hp
  simp [release, map, List.takeWhile_map, List.dropWhile_map, hcomp]

section

variable {f : Token → Token} (hf : ∀ t, (f t).word = t.word)
include hf

theorem Yard.accept_map (y : Yard) (t : Token) : (y.map f).accept (f t) =
    ((y.accept t).mapError (Failure.map f)).map (Yard.map f) := by
  have hkind (t : Token) : (f t).kind = t.kind := congrArg Prod.fst (hf t)
  have htext (t : Token) : (f t).text = t.text := congrArg Prod.snd (hf t)
  have hvalue : (f t).value = t.value := by rw [Token.value, Token.value, htext]
  unfold accept
  rw [hkind, hvalue, htext]
  cases t.kind with
  | number =>
    cases t.value with
    | error f => rfl
    | ok x =>
      simp only
      split <;> rfl
  | opening => rfl
  | closing =>
    simp only [y.release_map (p := (·.kind ≠ .opening)) fun t => by rw [hkind]]
    obtain ⟨output, _ | ⟨l, waiting⟩⟩ := y.release (·.kind ≠ .opening) <;> rfl
  | operator =>
    cases Operator.ofSymbol? t.text with
    | none => rfl
    | some o =>
      have hp (t : Token) : precedes o.rank (f t) = precedes o.rank t := by
        unfold precedes
        rw [hkind, htext]
      simp only [y.release_map hp]
      rfl
  | stray => rfl

theorem Yard.finish_map (y : Yard) : (y.map f).finish = y.finish.map (·.map f) := by
  have hany : (y.waiting.map f).any (·.kind = .opening) = y.waiting.any (·.kind = .opening) := by
    have hkind (t : Token) : (f t).kind = t.kind := congrArg Prod.fst (hf t)
    simp [Function.comp_def, hkind]
  unfold finish
  simp only [Yard.map, hany]
  split <;> simp [Except.map]

theorem ofTokens_map (ts : List Token) : ofTokens (ts.map f) =
    ((ofTokens ts).mapError (Failure.map f)).map (·.map f) := by
  have hfold (y : Yard) : (ts.map f).foldlM Yard.accept (y.map f) =
      ((ts.foldlM Yard.accept y).mapError (Failure.map f)).map (Yard.map f) := by
    induction ts generalizing y with
    | nil => rfl
    | cons t ts ih =>
      rw [List.map_cons, List.foldlM_cons, List.foldlM_cons, Yard.accept_map hf]
      cases y.accept t with
      | error e => rfl
      | ok y => exact ih y
  have hstart := hfold {}
  rw [show Yard.map f {} = {} from rfl] at hstart
  rw [ofTokens, ofTokens, hstart]
  cases ts.foldlM Yard.accept {} with
  | error e => rfl
  | ok y =>
    change (y.map f).finish = (y.finish.mapError (Failure.map f)).map _
    rw [Yard.finish_map hf]
    unfold Yard.finish
    split <;> rfl

end

theorem ofTokens_unplaced (ts : List Token) : ofTokens (ts.map Token.unplaced) =
    ((ofTokens ts).mapError (Failure.map Token.unplaced)).map (·.map Token.unplaced) :=
  ofTokens_map (f := Token.unplaced) (fun _ => rfl) ts

theorem exists_ofTokens_of_map_word {ts ts' us : List Token} (h : ts'.map Token.word = ts.map Token.word)
    (hus : ofTokens ts = .ok us) : ∃ us', ofTokens ts' = .ok us' := by
  have hunplaced := ofTokens_unplaced ts'
  rw [Token.map_unplaced_eq h, ofTokens_unplaced, hus] at hunplaced
  cases hus' : ofTokens ts' with
  | error e =>
    rw [hus'] at hunplaced
    cases hunplaced
  | ok us' => exact ⟨us', rfl⟩

theorem value_unplaced (ts : List Token) : value (ts.map Token.unplaced) = value ts := by
  have hrun (operands : List Float) (position : Nat) :
      run operands position (ts.map Token.unplaced) = run operands position ts := by
    induction ts generalizing operands position with
    | nil => rfl
    | cons t ts ih =>
      rw [List.map_cons, run, run, show step operands position t.unplaced = step operands position t from rfl]
      cases step operands position t with
      | error e => rfl
      | ok operands => exact ih operands _
  rw [value, value, hrun]

theorem text_unplaced (ts : List Token) : text (ts.map Token.unplaced) = text ts := by
  rw [text, text, List.map_map]
  rfl

theorem value_congr {ts us : List Token} (h : ts.map Token.word = us.map Token.word) :
    value ts = value us := by
  rw [← value_unplaced, Token.map_unplaced_eq h, value_unplaced]

end Rpn
end InfixCalc
