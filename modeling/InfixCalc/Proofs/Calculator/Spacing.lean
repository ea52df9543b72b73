import InfixCalc.Proofs.Calculator.Outcome
import InfixCalc.Proofs.Token.Boundary
import InfixCalc.Proofs.Token.Skip

namespace InfixCalc.Calculator

open Token

theorem evaluate_congr_word {settings : Settings} {strict : Option Bool} {s s' : String}
    (hword : (ofString (strict.getD settings.strict) s).map word =
      (ofString (strict.getD settings.strict) s').map word) (hlen : s.length ≤ settings.maxLength)
    (hlen' : s'.length ≤ settings.maxLength) (hne : ofString (strict.getD settings.strict) s' ≠ []) :
    evaluate settings strict s = evaluate settings strict s' := by
  have hne' : ofString (strict.getD settings.strict) s ≠ [] := by
    intro hnil
    rw [hnil] at hword
    exact hne (List.map_eq_nil_iff.1 hword.symm)
  rw [evaluate_of_outcome hlen hne', evaluate_of_outcome hlen' hne, outcome_congr hword]

theorem evaluate_congr {settings : Settings} {strict : Option Bool} {s s' : String}
    (hword : (scan s).map word = (scan s').map word) (hlen : s.length ≤ settings.maxLength)
    (hlen' : s'.length ≤ settings.maxLength) (hne : ofString (strict.getD settings.strict) s' ≠ []) :
    evaluate settings strict s = evaluate settings strict s' :=
  evaluate_congr_word (map_word_ofString_congr hword _) hlen hlen' hne

theorem evaluate_squeeze {settings : Settings} {strict : Option Bool} {s : String}
    (hlen : s.length ≤ settings.maxLength) (hne : ofString (strict.getD settings.strict) s ≠ [])
    (hchain : (ofString (strict.getD settings.strict) s).IsChain Apart) :
    evaluate settings strict (Text.squeeze s) = evaluate settings strict s := by
  have hle : (Text.squeeze s).length ≤ s.length := by
    rw [← String.length_toList, ← String.length_toList, Text.toList_squeeze]
    exact List.length_filter_le _ _
  exact evaluate_congr_word (map_word_ofString_squeeze hchain) (by omega) hlen hne

/-- Blanks that are put into a text keep the kinds and texts of its tokens just where no token goes
across. There they only move what stands behind them, and the outcome is the same in either mode. -/
theorem evaluate_insert_blanks (a w b : String) (hne : w ≠ "") (hw : ∀ c ∈ w.toList, Text.isBlank c) :
    ((ofString true (a ++ w ++ b)).map word = (ofString true (a ++ b)).map word ↔
      ¬∃ t ∈ ofString true (a ++ b), t.position < a.length ∧ a.length < t.stop) ∧
    ((¬∃ t ∈ ofString true (a ++ b), t.position < a.length ∧ a.length < t.stop) →
      ofString true (a ++ w ++ b) = (ofString true (a ++ b)).map (fun t : Token =>
        if a.length ≤ t.position then { t with position := t.position + w.length } else t) ∧
      ∀ (settings : Settings) (strict : Option Bool), (a ++ w ++ b).length ≤ settings.maxLength →
        ofString (strict.getD settings.strict) (a ++ b) ≠ [] →
        evaluate settings strict (a ++ w ++ b) = evaluate settings strict (a ++ b)) := by
  have hborder : (¬∃ t ∈ ofString true (a ++ b), t.position < a.length ∧ a.length < t.stop) ↔
      ∀ t ∈ scan (a ++ b), ¬t.Straddles a.length :=
    ⟨fun h t ht hacross => h ⟨t, ht, hacross⟩, fun h ⟨t, ht, hacross⟩ => h t ht hacross⟩
  have hwords : (scan (a ++ w ++ b)).map word = (scan (a ++ b)).map word ↔
      ∀ t ∈ scan (a ++ b), ¬t.Straddles a.length := map_word_scan_insert_iff hne hw
  rw [hborder]
  refine ⟨hwords, fun h => ⟨scan_insert_eq_map hne hw h, fun settings strict hlen hne => ?_⟩⟩
  have hlen' : (a ++ b).length ≤ settings.maxLength := by
    simp only [String.length_append] at hlen ⊢
    omega
  exact evaluate_congr (hwords.2 h) hlen hlen' hne

theorem evaluate_insert_blanks_behind_point :
    evaluate {} (some false) ("3." ++ " \n" ++ "*(0.5)") = evaluate {} (some false) ("3." ++ "*(0.5)") ∧
      (ofString true ("3." ++ " \n" ++ "5")).map word ≠ (ofString true ("3." ++ "5")).map word := by
  have hblank : ∀ c ∈ " \n".toList, Text.isBlank c := List.all_eq_true.1 (by decide)
  have hapart : ¬∃ t ∈ ofString true ("3." ++ "*(0.5)"),
      t.position < ("3.".length : Int) ∧ ("3.".length : Int) < t.stop := by decide +kernel
  have hacross : ∃ t ∈ ofString true ("3." ++ "5"),
      t.position < ("3.".length : Int) ∧ ("3.".length : Int) < t.stop := by decide +kernel
  constructor
  · exact ((evaluate_insert_blanks "3." " \n" "*(0.5)" (by decide) hblank).2 hapart).2 {} (some false)
      (by decide) (by decide +kernel)
  · intro h
    exact (evaluate_insert_blanks "3." " \n" "5" (by decide) hblank).1.1 h hacross

end InfixCalc.Calculator
