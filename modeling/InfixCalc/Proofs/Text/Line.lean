import InfixCalc.Proofs.Decimal.Literal
import InfixCalc.Text.Quoted

namespace InfixCalc.Text

def IsLine (s : String) : Prop := '\n' ∉ s.toList ∧ '\r' ∉ s.toList

instance (s : String) : Decidable (IsLine s) := inferInstanceAs (Decidable ('\n' ∉ s.toList ∧ '\r' ∉ s.toList))

def unlines (ls : List String) : String := String.join (ls.map (· ++ "\n"))

theorem IsLine.append {s t : String} (h : IsLine s) (h' : IsLine t) : IsLine (s ++ t) := by
  rw [IsLine, String.toList_append, List.mem_append, List.mem_append, not_or, not_or]
  exact ⟨⟨h.1, h'.1⟩, h.2, h'.2⟩

theorem isLine_iff {s : String} : IsLine s ↔ ∀ c ∈ s.toList, c ≠ '\n' ∧ c ≠ '\r' := by
  refine ⟨fun h c hc => ⟨?_, ?_⟩, fun h => ⟨fun hc => (h _ hc).1 rfl, fun hc => (h _ hc).2 rfl⟩⟩
  · rintro rfl
    exact h.1 hc
  · rintro rfl
    exact h.2 hc

theorem isLine_of_isBlank_eq_false {s : String} (h : ∀ c ∈ s.toList, isBlank c = false) : IsLine s := by
  refine ⟨fun hc => ?_, fun hc => ?_⟩
  · exact absurd (h _ hc) (by decide)
  · exact absurd (h _ hc) (by decide)

theorem exists_digitChar_of_mem_toDigits {base n : ℕ} (hbase : 1 < base) {c : Char}
    (hc : c ∈ Nat.toDigits base n) : ∃ d < base, c = d.digitChar := by
  induction n using Nat.strong_induction_on with
  | _ n ih =>
    rw [Nat.toDigits_eq_if hbase] at hc
    split at hc
    · next hlt => exact ⟨n, hlt, List.mem_singleton.1 hc⟩
    · next hle =>
      rcases List.mem_append.1 hc with hc | hc
      · exact ih (n / base) (Nat.div_lt_self (by omega) hbase) hc
      · exact ⟨n % base, Nat.mod_lt _ (by omega), List.mem_singleton.1 hc⟩

theorem ne_of_mem_toDigits {base n : ℕ} (hbase : 1 < base) (hle : base ≤ 16) :
    ∀ c ∈ Nat.toDigits base n, c ≠ '\n' ∧ c ≠ '\r' := by
  have hall : ∀ d < 16, d.digitChar ≠ '\n' ∧ d.digitChar ≠ '\r' := by decide
  intro c hc
  obtain ⟨d, hd, rfl⟩ := exists_digitChar_of_mem_toDigits hbase hc
  exact hall d (by omega)

theorem ne_of_mem_leftpad {cs : List Char} (h : ∀ c ∈ cs, c ≠ '\n' ∧ c ≠ '\r') (width : ℕ) :
    ∀ c ∈ cs.leftpad width '0', c ≠ '\n' ∧ c ≠ '\r' := by
  refine List.forall_mem_append.2 ⟨fun c hc => ?_, h⟩
  rw [List.eq_of_mem_replicate hc]
  decide

theorem isLine_toString_nat (n : ℕ) : IsLine (toString n) := by
  have htext : toString n = String.ofList (Nat.toDigits 10 n) := rfl
  rw [isLine_iff, htext, String.toList_ofList]
  exact ne_of_mem_toDigits (by decide) (by decide)

theorem isLine_toString_int (n : ℤ) : IsLine (toString n) := by
  cases n with
  | ofNat n => exact isLine_toString_nat n
  | negSucc n => exact IsLine.append (by decide : IsLine "-") (isLine_toString_nat (n + 1))

theorem ne_of_mem_hex {letter : Char} (hletter : letter ≠ '\n' ∧ letter ≠ '\r') (width n : ℕ) :
    ∀ c ∈ '\\' :: letter :: hex width n, c ≠ '\n' ∧ c ≠ '\r' := by
  have hdigits := ne_of_mem_leftpad (ne_of_mem_toDigits (n := n) (by decide) (by decide : 16 ≤ 16)) width
  exact List.forall_mem_cons.2 ⟨by decide, List.forall_mem_cons.2 ⟨hletter, hdigits⟩⟩

theorem ne_of_mem_escape {mark : Char} (hmark : mark ≠ '\n' ∧ mark ≠ '\r') (c : Char) :
    ∀ d ∈ escape mark c, d ≠ '\n' ∧ d ≠ '\r' := by
  by_cases hc : c = mark ∨ c = '\\'
  · have hne : c ≠ '\n' ∧ c ≠ '\r' := by
      rcases hc with rfl | rfl
      · exact hmark
      · decide
    rw [escape, if_pos hc]
    simpa using hne
  · rw [escape, if_neg hc]
    split
    · simp
    · next hn =>
      split
      · simp
      · next hr =>
        split
        · simp
        · split
          · simpa using ⟨hn, hr⟩
          · split
            · exact ne_of_mem_hex (by decide) _ _
            · split <;> exact ne_of_mem_hex (by decide) _ _

theorem isLine_quoted (s : String) : IsLine (quoted s) := by
  have hmark : quotationMark s.toList ≠ '\n' ∧ quotationMark s.toList ≠ '\r' := by
    rw [quotationMark]
    split <;> decide
  rw [isLine_iff, quoted, String.toList_ofList]
  refine List.forall_mem_append.2 ⟨List.forall_mem_cons.2 ⟨hmark, fun c hc => ?_⟩, by simpa using hmark⟩
  obtain ⟨d, -, hd⟩ := List.mem_flatMap.1 hc
  exact ne_of_mem_escape hmark d c hd

end InfixCalc.Text
