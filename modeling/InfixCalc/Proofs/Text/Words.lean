import InfixCalc.Text.Blank

namespace InfixCalc.Text

def words (s : String) : List String :=
  ((s.toList.splitOnP isSpace).filter (· ≠ [])).map String.ofList

def IsWord (w : String) : Prop := w ≠ "" ∧ ∀ c ∈ w.toList, isSpace c = false

theorem words_of_isWord {w : String} (h : IsWord w) : words w = [w] := by
  have hne : w.toList ≠ [] := fun hnil => h.1 (String.toList_eq_nil_iff.1 hnil)
  rw [words, List.splitOnP_eq_singleton h.2]
  simp [hne]

theorem words_append_space (s t : String) : words (s ++ " " ++ t) = words s ++ words t := by
  have hspace : isSpace ' ' = true := by decide
  rw [words, String.append_assoc, String.toList_append, String.toList_append]
  change List.map _ (List.filter _ (List.splitOnP isSpace (s.toList ++ ' ' :: t.toList))) = _
  rw [List.splitOnP_append_cons _ _ hspace, List.filter_append, List.map_append]
  rfl

theorem words_intercalate {ws : List String} (h : ∀ w ∈ ws, IsWord w) :
    words (" ".intercalate ws) = ws := by
  induction ws with
  | nil => rfl
  | cons w ws ih =>
    have hw : words w = [w] := words_of_isWord (h w (by simp))
    cases ws with
    | nil => exact hw
    | cons v ws =>
      rw [String.intercalate_cons_cons, words_append_space, hw, ih fun u hu => h u (by simp [hu])]
      rfl

end InfixCalc.Text
