import InfixCalc.Proofs.Calculator.Strictness
import InfixCalc.Session.Command
import Mathlib.Data.List.DropRight

namespace InfixCalc

namespace Text

theorem strip_strip (p : Char → Bool) (cs : List Char) : strip p (strip p cs) = strip p cs := by
  have heq (cs : List Char) : strip p cs = (cs.dropWhile p).rdropWhile p := rfl
  have hfront : ((cs.dropWhile p).rdropWhile p).dropWhile p = (cs.dropWhile p).rdropWhile p := by
    obtain ⟨r, hr⟩ := List.rdropWhile_prefix p (l := cs.dropWhile p)
    have hfirst := List.head?_dropWhile_not p cs
    generalize (cs.dropWhile p).rdropWhile p = l at hr
    cases l with
    | nil => rfl
    | cons d l =>
      rw [← hr] at hfirst
      exact List.dropWhile_cons_of_neg (by simpa using hfirst)
  rw [heq, heq, hfront, List.rdropWhile_idempotent]

@[simp] theorem trim_trim (s : String) : trim (trim s) = trim s := by
  rw [trim, trim, String.toList_ofList, strip_strip]

end Text

namespace Command

open Text

def letters : List Char := words.flatMap (·.1.toList)

theorem isStray_of_toLower_mem {c : Char} (h : c.toLower ∈ letters) : isStray c := by
  have hall : (blanks ++ digitChars ++ operatorChars ++ ['(', ')']).all (·.toLower ∉ letters) := by decide
  have hnot : c ∉ blanks ++ digitChars ++ operatorChars ++ ['(', ')'] := fun hc =>
    of_decide_eq_true (List.all_eq_true.1 hall c hc) h
  simp only [List.mem_append, List.mem_cons, List.not_mem_nil, or_false, not_or] at hnot
  obtain ⟨⟨⟨hblank, hdigit⟩, hoperator⟩, hopening, hclosing⟩ := hnot
  rw [isStray_iff]
  exact ⟨by simpa [isBlank] using hblank, fun hd => hdigit (mem_digitChars hd), hoperator, hopening, hclosing⟩

@[simp] theorem ofLine?_trim (line : String) : ofLine? (trim line) = ofLine? line := by
  rw [ofLine?, trim_trim, ofLine?]

theorem ofLine?_eq_some_iff {line : String} {c : Command} :
    ofLine? line = some c ↔ (lower (trim line), c) ∈ words := by
  rw [ofLine?]
  constructor
  · intro h
    obtain ⟨before, after, hwords, -⟩ := List.lookup_eq_some_iff.1 h
    rw [hwords]
    simp
  · have hall : ∀ w ∈ words, words.lookup w.1 = some w.2 := by decide
    exact hall _

theorem isStray_of_ofLine? {line : String} {c : Command} (h : ofLine? line = some c) :
    ∀ d ∈ (trim line).toList, isStray d := by
  intro d hd
  refine isStray_of_toLower_mem (List.mem_flatMap.2 ⟨_, ofLine?_eq_some_iff.1 h, ?_⟩)
  rw [lower, String.toList_map]
  exact List.mem_map_of_mem hd

theorem evaluate_of_ofLine? {line : String} {c : Command} (h : ofLine? line = some c)
    (settings : Settings) (strict : Option Bool) :
    ∃ e, Calculator.evaluate settings strict (trim line) = .ok (.failure e) :=
  Calculator.evaluate_of_isStray (isStray_of_ofLine? h) settings strict

end Command
end InfixCalc
