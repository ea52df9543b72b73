import InfixCalc.Decimal.Numeral
import InfixCalc.Decimal.Places
import Mathlib.Data.List.Basic
import Mathlib.Data.List.TakeWhile
import Mathlib.Tactic.IntervalCases

namespace InfixCalc

open Text Decimal

def IsDigits (cs : List Char) : Prop := cs ≠ [] ∧ ∀ c ∈ cs, isDigit c

inductive IsLiteral : List Char → Prop
  | whole {ds} : IsDigits ds → IsLiteral ds
  | pointed {ds fs} : IsDigits ds → IsDigits fs → IsLiteral (ds ++ '.' :: fs)

theorem isDigits_takeWhile {d : Char} {ds : List Char} (h : isDigit d) :
    IsDigits (d :: ds.takeWhile isDigit) := by
  refine ⟨by simp, fun c hc => ?_⟩
  rcases List.mem_cons.1 hc with rfl | hc
  · exact h
  · exact List.mem_takeWhile_imp hc

theorem IsLiteral.exists_cons {cs : List Char} (h : IsLiteral cs) : ∃ d w, cs = d :: w ∧ isDigit d := by
  cases h with
  | whole h =>
    cases cs with
    | nil => exact absurd rfl h.1
    | cons d w => exact ⟨d, w, rfl, h.2 d (by simp)⟩
  | @pointed ds fs h _ =>
    cases ds with
    | nil => exact absurd rfl h.1
    | cons d w => exact ⟨d, w ++ '.' :: fs, rfl, h.2 d (by simp)⟩

theorem IsLiteral.isDigit_getLast {cs : List Char} (h : IsLiteral cs) : ∀ c ∈ cs.getLast?, isDigit c := by
  have hlast {ds : List Char} (h : IsDigits ds) : ∀ c ∈ ds.getLast?, isDigit c := fun c hc =>
    h.2 c (List.mem_of_mem_getLast? hc)
  cases h with
  | whole h => exact hlast h
  | pointed _ h' =>
    rw [List.append_cons, List.getLast?_append_of_ne_nil _ h'.1]
    exact hlast h'

def digitChars : List Char := ['0', '1', '2', '3', '4', '5', '6', '7', '8', '9']

theorem mem_digitChars {c : Char} (h : isDigit c) : c ∈ digitChars := by
  simp only [isDigit, Bool.and_eq_true, decide_eq_true_eq, Char.le_def, UInt32.le_iff_toNat_le] at h
  have h0 : 48 ≤ c.toNat := h.1
  have h9 : c.toNat ≤ 57 := h.2
  rw [← Char.ofNat_toNat c]
  interval_cases c.toNat <;> decide

theorem forall_isDigit {p : Char → Bool} (hp : digitChars.all p) {c : Char} (h : isDigit c) : p c :=
  List.all_eq_true.1 hp c (mem_digitChars h)

theorem isBlank_of_isDigit {c : Char} (h : isDigit c) : isBlank c = false := by
  have hp : digitChars.all fun d => !isBlank d := by decide
  simpa using forall_isDigit hp h

def literalChars : List Char := '.' :: digitChars

theorem IsLiteral.mem_literalChars {cs : List Char} (h : IsLiteral cs) {c : Char} (hc : c ∈ cs) :
    c ∈ literalChars := by
  have digit {ds} (h : IsDigits ds) (hc : c ∈ ds) : c ∈ literalChars :=
    List.mem_cons_of_mem _ (mem_digitChars (h.2 c hc))
  cases h with
  | whole h => exact digit h hc
  | pointed h h' =>
    rcases List.mem_append.1 hc with hc | hc
    · exact digit h hc
    · rcases List.mem_cons.1 hc with rfl | hc
      · exact List.mem_cons_self
      · exact digit h' hc

theorem IsLiteral.forall_mem {p : Char → Bool} (hp : literalChars.all p) {cs : List Char}
    (h : IsLiteral cs) : ∀ c ∈ cs, p c := fun c hc =>
  List.all_eq_true.1 hp c (h.mem_literalChars hc)

theorem strip_eq_self {p : Char → Bool} {cs : List Char} (h : ∀ c ∈ cs, p c = false) :
    strip p cs = cs := by
  have drop (ds : List Char) (hd : ∀ c ∈ ds, p c = false) : ds.dropWhile p = ds := by
    cases ds with
    | nil => rfl
    | cons d ds => simp [hd d (by simp)]
  rw [strip, drop cs h, drop _ fun c hc => h c (List.mem_reverse.1 hc), List.reverse_reverse]

def numberChars : List Char := ['e', '-', '+'] ++ literalChars

theorem mem_numberChars_of_isDigit {c : Char} (h : isDigit c) : c ∈ numberChars :=
  List.mem_append_right _ (List.mem_cons_of_mem _ (mem_digitChars h))

theorem IsLiteral.mem_numberChars {cs : List Char} (h : IsLiteral cs) : ∀ c ∈ cs, c ∈ numberChars :=
  fun _ hc => List.mem_append_right _ (h.mem_literalChars hc)

theorem forall_mem_numberChars {p : Char → Bool} (hp : numberChars.all p) {cs : List Char}
    (h : ∀ c ∈ cs, c ∈ numberChars) : ∀ c ∈ cs, p c := fun c hc => List.all_eq_true.1 hp c (h c hc)

theorem plain_eq_of_mem_numberChars {cs : List Char} (h : ∀ c ∈ cs, c ∈ numberChars) :
    plain (String.ofList cs) = cs := by
  have hplain : ∀ c ∈ cs, plainChar c = id c := by
    have hp : numberChars.all fun c => plainChar c = c := by decide
    simpa using forall_mem_numberChars hp h
  have hblank : ∀ c ∈ cs, isBlank c = false := by
    have hp : numberChars.all fun c => !isBlank c := by decide
    simpa using forall_mem_numberChars hp h
  rw [plain, String.toList_ofList, List.map_congr_left hplain, List.map_id]
  exact strip_eq_self hblank

theorem IsLiteral.plain_eq {cs : List Char} (h : IsLiteral cs) : plain (String.ofList cs) = cs :=
  plain_eq_of_mem_numberChars h.mem_numberChars

theorem separated_of_forall_ne {cs : List Char} (h : ∀ c ∈ cs, c ≠ '_') {before : Char}
    (hb : before ≠ '_') : separated before cs := by
  induction cs generalizing before with
  | nil => simp [separated, hb]
  | cons c cs ih =>
    have hc : c ≠ '_' := h c (by simp)
    simp [separated, hb, hc, ih (fun d hd => h d (by simp [hd])) hc]

theorem ofChars?_sign_append (negative : Bool) {d : Char} {cs : List Char} (hd : isDigit d)
    (h : ∀ c ∈ d :: cs, c ∈ numberChars) :
    Numeral.ofChars? (sign negative ++ d :: cs) = Numeral.decimal? negative (d :: cs) := by
  have hne : ∀ c ∈ sign negative ++ d :: cs, c ≠ '_' := by
    have hp : numberChars.all fun c => c ≠ '_' := by decide
    refine List.forall_mem_append.2 ⟨by cases negative <;> simp [sign], ?_⟩
    simpa using forall_mem_numberChars hp h
  have hfilter : (sign negative ++ d :: cs).filter (· ≠ '_') = sign negative ++ d :: cs :=
    List.filter_eq_self.2 (by simpa using hne)
  have hsign : splitSign (sign negative ++ d :: cs) = (negative, d :: cs) := by
    cases negative with
    | true => rfl
    | false =>
      have hp : digitChars.all fun d => d ≠ '-' ∧ d ≠ '+' := by decide
      have := forall_isDigit hp hd
      change splitSign (d :: cs) = _
      unfold splitSign
      split <;> simp_all
  have hword : d.toLower ≠ 'i' ∧ d.toLower ≠ 'n' := by
    have hp : digitChars.all fun d => d.toLower ≠ 'i' ∧ d.toLower ≠ 'n' := by decide
    simpa using forall_isDigit hp hd
  have hseparated : separated ' ' (sign negative ++ d :: cs) = true := separated_of_forall_ne hne (by decide)
  rw [Numeral.ofChars?, hfilter, hsign, hseparated]
  simp [Numeral.unsigned?, hword]

theorem IsLiteral.ofChars?_eq {cs : List Char} (h : IsLiteral cs) :
    Numeral.ofChars? cs = Numeral.decimal? false cs := by
  obtain ⟨d, w, rfl, hd⟩ := h.exists_cons
  exact ofChars?_sign_append false hd h.mem_numberChars

theorem takeWhile_isDigit_append {ds tail : List Char} (h : ∀ c ∈ ds, isDigit c)
    (htail : ∀ c ∈ tail.head?, isDigit c = false) :
    (ds ++ tail).takeWhile isDigit = ds ∧ (ds ++ tail).dropWhile isDigit = tail := by
  rw [List.takeWhile_append_of_pos h, List.dropWhile_append_of_pos h]
  cases tail with
  | nil => simp
  | cons c cs => simp [htail c (by simp)]

section
variable (negative : Bool) {ds fs tail : List Char}

theorem IsDigits.decimal?_append (h : IsDigits ds)
    (htail : ∀ c ∈ tail.head?, isDigit c = false ∧ c ≠ '.') :
    Numeral.decimal? negative (ds ++ tail) =
      (Numeral.exponent? tail).map fun e => .finite negative (digitsValue ds) e := by
  obtain ⟨htake, hdrop⟩ := takeWhile_isDigit_append h.2 fun c hc => (htail c hc).1
  simp only [Numeral.decimal?, htake, hdrop]
  split
  · exact absurd rfl (htail '.' rfl).2
  · simp [h.1]

theorem IsDigits.decimal?_pointed_append (h : IsDigits ds) (hfs : IsDigits fs)
    (htail : ∀ c ∈ tail.head?, isDigit c = false) :
    Numeral.decimal? negative (ds ++ '.' :: (fs ++ tail)) =
      (Numeral.exponent? tail).map fun e => .finite negative (digitsValue (ds ++ fs)) (e - fs.length) := by
  have hpoint : ∀ c ∈ ('.' :: (fs ++ tail)).head?, isDigit c = false := by
    simp only [List.head?_cons, Option.mem_some_iff, forall_eq']
    decide
  obtain ⟨htake, hdrop⟩ := takeWhile_isDigit_append h.2 hpoint
  obtain ⟨htake', hdrop'⟩ := takeWhile_isDigit_append hfs.2 htail
  simp [Numeral.decimal?, htake, hdrop, htake', hdrop', h.1]

end

theorem IsDigits.decimal?_eq {ds : List Char} (h : IsDigits ds) :
    Numeral.decimal? false ds = some (.finite false (digitsValue ds) 0) := by
  have htail : ∀ c ∈ ([] : List Char).head?, isDigit c = false ∧ c ≠ '.' := by simp
  simpa [Numeral.exponent?] using h.decimal?_append false htail

theorem IsDigits.decimal?_pointed {ds fs : List Char} (h : IsDigits ds) (hfs : IsDigits fs) :
    Numeral.decimal? false (ds ++ '.' :: fs) =
      some (.finite false (digitsValue (ds ++ fs)) (-fs.length)) := by
  have htail : ∀ c ∈ ([] : List Char).head?, isDigit c = false := by simp
  simpa [Numeral.exponent?] using h.decimal?_pointed_append false hfs htail

theorem IsLiteral.exists_numeral {cs : List Char} (h : IsLiteral cs) :
    ∃ n, Numeral.ofString? (String.ofList cs) = some n := by
  rw [Numeral.ofString?, h.plain_eq, h.ofChars?_eq]
  cases h with
  | whole h => exact ⟨_, h.decimal?_eq⟩
  | pointed h h' => exact ⟨_, h.decimal?_pointed h'⟩

end InfixCalc
