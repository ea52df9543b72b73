import InfixCalc.Calculator
import InfixCalc.Proofs.Infix.Reading
import InfixCalc.Proofs.Rpn.Word

namespace InfixCalc.Rpn

theorem toList_text_cons_cons (t u : Token) (us : List Token) :
    (text (t :: u :: us)).toList = t.text.toList ++ ' ' :: (text (u :: us)).toList := by
  simp [text]

theorem map_word_scanFrom_text {us : List Token} (h : ∀ t ∈ us, t.Written) (position : Nat) :
    (Token.scanFrom 0 position (text us).toList).map Token.word = us.map Token.word := by
  induction us generalizing position with
  | nil => rfl
  | cons t us ih =>
    have ht : t.Written := h t (by simp)
    cases us with
    | nil =>
      have hend : Breaks [] := breaks_of_isBlank (by simp)
      have hscan := ht.scanFrom_append (fun _ => hend) position
      rw [List.append_nil] at hscan
      rw [text, List.map_singleton, String.intercalate_singleton, hscan]
      rfl
    | cons u us =>
      have hblank : Text.isBlank ' ' := by decide
      have hbreaks : Breaks (' ' :: (text (u :: us)).toList) := breaks_of_isBlank (by simpa using hblank)
      rw [toList_text_cons_cons, ht.scanFrom_append fun _ => hbreaks,
        Token.scanFrom_cons_of_isBlank hblank, List.map_cons, ih fun v hv => h v (by simp [hv])]
      rfl

theorem written_of_mem_ofTokens {strict : Bool} {s : String} {us : List Token}
    (h : ofTokens (Token.ofString strict s) = .ok us) : ∀ t ∈ us, t.Written := by
  obtain ⟨-, a, ha, rfl⟩ := Infix.ofTokens_eq_ok_iff.1 h
  intro t ht
  have hmem := (a.mem_yield_of_mem_postorder ht).1
  rw [ha] at hmem
  exact Token.written_of_mem_ofString hmem

/-- The text of a list that an expression was put into is read as the same tokens, with the same value
or the same failure. -/
theorem tokens_text {settings : Settings} {strict : Option Bool} {expression : String} {ts us : List Token}
    (hts : Calculator.tokens settings strict expression = .ok ts) (hus : ofTokens ts = .ok us)
    (hne : us ≠ []) :
    ∃ vs, Calculator.tokens settings (some true) (text us) = .ok vs ∧
      vs.map Token.word = us.map Token.word ∧ value vs = value us := by
  unfold Calculator.tokens at hts
  dsimp only at hts
  split at hts
  · cases hts
  cases hts
  have hword : (Token.ofString true (text us)).map Token.word = us.map Token.word :=
    map_word_scanFrom_text (written_of_mem_ofTokens hus) 0
  refine ⟨Token.ofString true (text us), ?_, hword, value_congr hword⟩
  have hvs : Token.ofString true (text us) ≠ [] := by
    intro hnil
    rw [hnil] at hword
    exact hne (List.map_eq_nil_iff.1 hword.symm)
  rw [Calculator.tokens, Option.getD_some, if_neg (by simpa using hvs)]

theorem tokens_text_product_of_sum :
    let us : List Token := [⟨.number, "1.5", 1⟩, ⟨.number, "2", 6⟩, ⟨.operator, "+", 4⟩,
      ⟨.number, "3", 10⟩, ⟨.operator, "*", 8⟩]
    ∃ vs, Calculator.tokens {} (some true) "1.5 2 + 3 *" = .ok vs ∧
      vs.map Token.word = us.map Token.word ∧ value vs = value us := by
  intro us
  let ts : List Token := [⟨.opening, "(", 0⟩, ⟨.number, "1.5", 1⟩, ⟨.operator, "+", 4⟩,
    ⟨.number, "2", 6⟩, ⟨.closing, ")", 7⟩, ⟨.operator, "*", 8⟩, ⟨.opening, "(", 9⟩,
    ⟨.number, "3", 10⟩, ⟨.closing, ")", 11⟩]
  have hts : Calculator.tokens {} (some false) "(1.5+x2)*(3)" = .ok ts := by decide +kernel
  have hus : ofTokens ts = .ok us := by decide +kernel
  exact tokens_text hts hus (by decide)

end InfixCalc.Rpn
