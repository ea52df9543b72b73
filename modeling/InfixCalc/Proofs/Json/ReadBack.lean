import InfixCalc.Proofs.Decimal.ReadBack
import InfixCalc.Proofs.Json.Reader
import InfixCalc.Proofs.Json.Write

namespace InfixCalc.Json

open Decimal Binary64

theorem readUnit_append {ds : List Char} (h : ds.length = 4) (rest : List Char) :
    readUnit (ds ++ rest) = (hexNumber? ds).map (·, rest) := by
  match ds, h with
  | [_, _, _, _], _ => rfl

theorem readUnicode_control {n : ℕ} (h : n < 0x20) (rest : List Char) :
    readUnicode ((Nat.toDigits 16 n).leftpad 4 '0' ++ rest) = some (Char.ofNat n, rest) := by
  have hall : (List.range 0x20).all fun n => ((Nat.toDigits 16 n).leftpad 4 '0').length = 4 ∧
      hexNumber? ((Nat.toDigits 16 n).leftpad 4 '0') = some n := by decide
  obtain ⟨hlength, hnumber⟩ := of_decide_eq_true (List.all_eq_true.1 hall n (List.mem_range.2 h))
  rw [readUnicode, readUnit_append hlength, hnumber]
  have hplain : n < 0xD800 ∨ 0xE000 ≤ n := by omega
  simp [hplain]

theorem readChar_escape (c : Char) (rest : List Char) : readChar (escape c ++ rest) = some (c, rest) := by
  unfold escape
  split
  case h_8 hquote hslash _ _ _ _ _ =>
    split
    · next hlow =>
      have hread := readUnicode_control hlow rest
      rw [Char.ofNat_toNat] at hread
      exact hread
    · next hlow =>
      rw [List.singleton_append, readChar, if_neg (not_or.2 ⟨hquote, not_or.2 ⟨hslash, hlow⟩⟩)]
      · exact fun _ h => absurd h hslash
      · exact fun _ _ h => absurd h hslash
  all_goals rfl

theorem readChars_flatMap (cs rest : List Char) {n : ℕ} (h : cs.length < n) :
    readChars n (cs.flatMap escape ++ '"' :: rest) = some (cs, rest) := by
  induction cs generalizing n with
  | nil =>
    obtain ⟨n, rfl⟩ := Nat.exists_eq_add_one_of_ne_zero (Nat.ne_zero_of_lt h)
    have hquote : readChar ('"' :: rest) = none := rfl
    rw [List.flatMap_nil, List.nil_append, readChars, hquote]
    rfl
  | cons c cs ih =>
    obtain ⟨n, rfl⟩ := Nat.exists_eq_add_one_of_ne_zero (Nat.ne_zero_of_lt h)
    rw [List.flatMap_cons, List.append_assoc, readChars, readChar_escape]
    simp only [ih (Nat.lt_of_succ_lt_succ h), Option.map_some]

theorem length_le_length_flatMap (cs : List Char) : cs.length ≤ (cs.flatMap escape).length := by
  have hlength (c : Char) : 1 ≤ (escape c).length := by
    unfold escape
    repeat' split
    all_goals simp
  induction cs with
  | nil => exact Nat.le_refl _
  | cons c cs ih =>
    rw [List.flatMap_cons, List.length_append, List.length_cons]
    have := hlength c
    omega

theorem readString_string (s : String) (rest : List Char) : readString (string s ++ rest) = some (s, rest) := by
  have hquote : ['"'].isPrefixOf? (string s ++ rest) = some (s.toList.flatMap escape ++ '"' :: rest) := by
    rw [string, List.cons_append, List.cons_append, List.append_assoc]
    rfl
  have hlength : s.toList.length < (s.toList.flatMap escape ++ '"' :: rest).length := by
    have := length_le_length_flatMap s.toList
    simp only [List.length_append, List.length_cons]
    omega
  simp only [readString, hquote, Option.bind_eq_bind, Option.bind_some, readChars_flatMap _ rest hlength,
    String.ofList_toList]

def Ends (rest : List Char) : Prop := ∀ c ∈ rest.head?, isDigit c = false ∧ c ∉ ['.', 'e', 'E']

theorem IsInteger.isDigits {i : List Char} (h : IsInteger i) : IsDigits i := by
  cases h with
  | zero => exact isDigits_zero
  | digits hd _ hds => exact ⟨List.cons_ne_nil _ _, List.forall_mem_cons.2 ⟨hd, hds⟩⟩

theorem spanInteger_append {i rest : List Char} (h : IsInteger i) (hrest : ∀ c ∈ rest.head?, isDigit c = false) :
    spanInteger (i ++ rest) = some (i, rest) := by
  cases h with
  | zero => rfl
  | digits hd hne hds =>
    obtain ⟨htake, hdrop⟩ := takeWhile_isDigit_append hds hrest
    rw [List.cons_append, spanInteger, if_neg hne, if_pos hd, htake, hdrop]

theorem spanMark_append {marks s cs : List Char} (hs : s = [] ∨ ∃ c ∈ marks, s = [c])
    (hcs : ∀ c ∈ cs.head?, c ∉ marks) : spanMark marks (s ++ cs) = (s, cs) := by
  rcases hs with rfl | ⟨c, hc, rfl⟩
  · cases cs with
    | nil => rfl
    | cons c cs => exact if_neg (hcs c rfl)
  · exact if_pos hc

theorem spanBehind_append (mark : List Char) {ds rest : List Char} (h : IsDigits ds)
    (hrest : ∀ c ∈ rest.head?, isDigit c = false) : spanBehind mark (ds ++ rest) = some (mark ++ ds, rest) := by
  obtain ⟨htake, hdrop⟩ := takeWhile_isDigit_append h.2 hrest
  simp only [spanBehind, htake, hdrop, if_neg h.1]

theorem spanFraction_append {f rest : List Char} (h : IsFraction f)
    (hrest : ∀ c ∈ rest.head?, isDigit c = false ∧ c ≠ '.') : spanFraction (f ++ rest) = (f, rest) := by
  cases h with
  | nil =>
    have hmark : spanMark ['.'] rest = ([], rest) :=
      spanMark_append (.inl rfl) fun c hc => by simpa using (hrest c hc).2
    simp only [List.nil_append, spanFraction, hmark, if_true]
  | point hds =>
    have hmark (cs : List Char) : spanMark ['.'] ('.' :: cs) = (['.'], cs) := rfl
    simp only [List.cons_append, spanFraction, hmark, spanBehind_append ['.'] hds fun c hc => (hrest c hc).1]
    rfl

theorem not_mem_of_mem_head? {marks ds : List Char} (hmarks : marks.all (!isDigit ·)) (h : IsDigits ds)
    (rest : List Char) : ∀ c ∈ (ds ++ rest).head?, c ∉ marks := by
  obtain ⟨d, fs, rfl⟩ := List.exists_cons_of_ne_nil h.1
  simp only [List.cons_append, List.head?_cons, Option.mem_some_iff, forall_eq']
  intro hmem
  have hmark := List.all_eq_true.1 hmarks d hmem
  rw [h.2 d List.mem_cons_self] at hmark
  cases hmark

theorem spanExponent_append {e rest : List Char} (h : IsExponent e) (hrest : Ends rest) :
    spanExponent (e ++ rest) = (e, rest) := by
  cases h with
  | nil =>
    have hmark : spanMark ['e', 'E'] rest = ([], rest) :=
      spanMark_append (.inl rfl) fun c hc hmem => (hrest c hc).2 (List.mem_cons_of_mem _ hmem)
    simp only [List.nil_append, spanExponent, hmark, if_true]
  | @signed e s ds he hs hds =>
    have hmark : spanMark ['e', 'E'] (e :: (s ++ (ds ++ rest))) = ([e], s ++ (ds ++ rest)) := if_pos he
    have hsign : spanMark ['-', '+'] (s ++ (ds ++ rest)) = (s, ds ++ rest) :=
      spanMark_append (by simpa using hs) (not_mem_of_mem_head? (by decide) hds rest)
    have hbehind := spanBehind_append (e :: s) hds fun c hc => (hrest c hc).1
    simp only [List.cons_append, List.append_assoc, spanExponent, hmark, hsign, List.nil_append, hbehind]
    rfl

theorem IsExponent.head?_append {e rest : List Char} (h : IsExponent e) (hrest : Ends rest) :
    ∀ c ∈ (e ++ rest).head?, isDigit c = false ∧ c ≠ '.' := by
  cases h with
  | nil => exact fun c hc => ⟨(hrest c hc).1, fun hpoint => (hrest c hc).2 (hpoint ▸ List.mem_cons_self)⟩
  | signed he =>
    simp only [List.cons_append, List.head?_cons, Option.mem_some_iff, forall_eq']
    simp only [List.mem_cons, List.not_mem_nil, or_false] at he
    rcases he with rfl | rfl <;> decide

theorem IsFraction.head?_append {f rest : List Char} (h : IsFraction f)
    (hrest : ∀ c ∈ rest.head?, isDigit c = false) : ∀ c ∈ (f ++ rest).head?, isDigit c = false := by
  cases h with
  | nil => exact hrest
  | point =>
    simp only [List.cons_append, List.head?_cons, Option.mem_some_iff, forall_eq']
    decide

theorem spanNumber_append {cs rest : List Char} (h : IsNumber cs) (hrest : Ends rest) :
    spanNumber (cs ++ rest) = some (cs, rest) := by
  obtain ⟨negative, ⟨hi, hf, he⟩⟩ := h
  rename_i i f e
  have hexponent := he.head?_append hrest
  have hfraction := hf.head?_append fun c hc => (hexponent c hc).1
  have hsign : spanMark ['-'] (sign negative ++ (i ++ (f ++ (e ++ rest)))) =
      (sign negative, i ++ (f ++ (e ++ rest))) :=
    spanMark_append (by cases negative <;> simp [sign]) (not_mem_of_mem_head? (by decide) hi.isDigits _)
  simp only [List.append_assoc, spanNumber, hsign, spanInteger_append hi hfraction,
    spanFraction_append hf hexponent, spanExponent_append he hrest, Option.bind_eq_bind, Option.bind_some]

theorem number_of_isFinite {x : Float} (h : (Binary64.ofFloat x).isFinite) :
    String.ofList (number x) = shortest x := by
  rw [number, shortest]
  split
  · next hx => rw [hx] at h; cases h
  · next hx => rw [hx] at h; cases h
  · rfl

theorem readNumber_number {x : Float} (h : (Binary64.ofFloat x).isFinite) {rest : List Char} (hrest : Ends rest) :
    readNumber (number x ++ rest) = some (.number x, rest) := by
  obtain ⟨n, hread, hvalue⟩ := Option.map_eq_some_iff.1 (toFloat_ofString?_shortest x)
  rw [← number_of_isFinite h] at hread
  simp only [readNumber, spanNumber_append (isNumber_number_of_isFinite h) hrest, Option.bind_eq_bind,
    Option.bind_some, hread, hvalue]

def Scalar.toValue : Scalar → Value
  | .bool b => .bool b
  | .number x => .number x
  | .string s => .string s

theorem readPlain_write (v : Scalar) {rest : List Char} (hrest : Ends rest) :
    readPlain (v.write ++ rest) = some (v.toValue, rest) := by
  cases v with
  | bool b => cases b <;> rfl
  | string s =>
    have hnumber : readNumber (string s ++ rest) = none := rfl
    rw [Scalar.write, readPlain, hnumber, readString_string]
    rfl
  | number x =>
    by_cases h : (Binary64.ofFloat x).isFinite
    · rw [Scalar.write, readPlain, readNumber_number h hrest]
      rfl
    · cases hx : ofFloat x with
      | finite => exact absurd (by rw [hx]; rfl) h
      | infinite negative =>
        rw [Scalar.write, number, hx, Scalar.toValue, ← eq_infinity_of_ofFloat hx]
        cases negative <;> rfl
      | nan =>
        rw [Scalar.write, number, hx, Scalar.toValue, ← eq_ofBits_of_nan hx]
        rfl

theorem skip_of_readPlain {cs : List Char} {p : Value × List Char} (h : readPlain cs = some p) : skip cs = cs := by
  cases cs with
  | nil => rfl
  | cons c cs =>
    by_cases hc : c ∈ spaces
    · simp only [spaces, List.mem_cons, List.not_mem_nil, or_false] at hc
      rcases hc with rfl | rfl | rfl | rfl <;> cases h
    · simp [skip, hc]

theorem readValue_of_readPlain {cs : List Char} {p : Value × List Char} (h : readPlain cs = some p) (depth : ℕ) :
    readValue depth cs = some p := by
  cases depth with
  | zero => exact h
  | succ depth =>
    rw [readValue]
    · exact h
    · rintro cs rfl
      cases h
    · rintro cs rfl
      cases h

theorem ends_separator (rest : List Char) : Ends (separator ++ rest) := by
  intro c hc
  cases hc
  decide

theorem ends_newline (rest : List Char) : Ends ('\n' :: rest) := by
  intro c hc
  cases hc
  decide

def toMember (m : String × Scalar) : String × Value := (m.1, m.2.toValue)

theorem readMember_member (depth : ℕ) (m : String × Scalar) {rest : List Char} (hrest : Ends rest) :
    readMember (readValue depth) (member m ++ rest) = some (toMember m, rest) := by
  have hplain := readPlain_write m.2 hrest
  have hcolon (cs : List Char) : [':'].isPrefixOf? (skip (':' :: cs)) = some cs := rfl
  have hskip : skip (' ' :: (m.2.write ++ rest)) = m.2.write ++ rest := skip_of_readPlain hplain
  simp only [readMember, member, List.append_assoc, List.cons_append, readString_string, Option.bind_eq_bind,
    Option.bind_some, hcolon, hskip, readValue_of_readPlain hplain]
  rfl

def listed (ms : List (String × Scalar)) (rest : List Char) : List Char :=
  separator.intercalate (ms.map member) ++ '\n' :: '}' :: rest

section
variable (m : String × Scalar) (ms : List (String × Scalar)) (rest : List Char)

theorem listed_singleton : listed [m] rest = member m ++ '\n' :: '}' :: rest := by
  rw [listed, List.map_singleton, List.intercalate_singleton]

theorem listed_cons_cons (m' : String × Scalar) :
    listed (m :: m' :: ms) rest = member m ++ (separator ++ listed (m' :: ms) rest) := by
  rw [listed, List.map_cons, List.map_cons, List.intercalate_cons_cons, ← List.map_cons, List.append_assoc,
    List.append_assoc]
  rfl

theorem exists_listed_eq : ∃ cs, listed (m :: ms) rest = '"' :: cs := by
  cases ms with
  | nil =>
    rw [listed_singleton]
    exact ⟨_, rfl⟩
  | cons m' ms =>
    rw [listed_cons_cons]
    exact ⟨_, rfl⟩

theorem skip_listed : skip ('\n' :: ' ' :: ' ' :: listed (m :: ms) rest) = listed (m :: ms) rest := by
  obtain ⟨cs, hcs⟩ := exists_listed_eq m ms rest
  rw [hcs]
  rfl

theorem length_le_length_listed : ms.length ≤ (listed ms rest).length := by
  induction ms with
  | nil => exact Nat.zero_le _
  | cons m ms ih =>
    cases ms with
    | nil =>
      rw [listed_singleton]
      exact Nat.succ_pos _
    | cons m' ms =>
      rw [listed_cons_cons, List.length_append, List.length_append, List.length_cons]
      have : separator.length = 4 := rfl
      omega

end

theorem readItems_listed (depth : ℕ) {ms : List (String × Scalar)} (hne : ms ≠ []) (rest : List Char) {n : ℕ}
    (h : ms.length ≤ n) :
    readItems (readMember (readValue depth)) '}' n (listed ms rest) = some (ms.map toMember, rest) := by
  induction ms generalizing n with
  | nil => exact absurd rfl hne
  | cons m ms ih =>
    obtain ⟨n, rfl⟩ := Nat.exists_eq_add_one_of_ne_zero (Nat.ne_zero_of_lt h)
    cases ms with
    | nil =>
      rw [listed_singleton, readItems, readMember_member depth m (ends_newline ('}' :: rest))]
      rfl
    | cons m' ms =>
      have hitems := ih (List.cons_ne_nil _ _) (Nat.le_of_succ_le_succ h)
      have hmark (cs : List Char) : skip (separator ++ cs) = ',' :: '\n' :: ' ' :: ' ' :: cs := rfl
      rw [listed_cons_cons, readItems, readMember_member depth m (ends_separator _)]
      simp only [Option.bind_eq_bind, Option.bind_some, hmark, skip_listed, hitems, Option.map_some]
      rfl

theorem readBracketed_listed (depth : ℕ) (m : String × Scalar) (ms : List (String × Scalar)) (rest : List Char) :
    readBracketed (readMember (readValue depth)) '}' ('\n' :: ' ' :: ' ' :: listed (m :: ms) rest) =
      some ((m :: ms).map toMember, rest) := by
  have hclose : ['}'].isPrefixOf? (listed (m :: ms) rest) = none := by
    obtain ⟨cs, hcs⟩ := exists_listed_eq m ms rest
    rw [hcs]
    rfl
  have hlength := length_le_length_listed (m :: ms) rest
  simp only [readBracketed, skip_listed, hclose]
  refine readItems_listed depth (List.cons_ne_nil m ms) rest (hlength.trans ?_)
  simp only [List.length_cons]
  omega

theorem readValue_object (depth : ℕ) (ms : List (String × Scalar)) (rest : List Char) :
    readValue (depth + 1) (object ms ++ rest) = some (.object (ms.map toMember), rest) := by
  cases ms with
  | nil => rfl
  | cons m ms =>
    rw [object_eq (List.cons_ne_nil _ _), List.append_assoc, List.append_assoc]
    exact congrArg (Option.map _) (readBracketed_listed depth m ms rest)

theorem exists_object_eq (ms : List (String × Scalar)) : ∃ cs, object ms = '{' :: cs := by
  by_cases hne : ms = []
  · subst hne
    exact ⟨_, rfl⟩
  · exact ⟨_, object_eq hne⟩

theorem read_object (ms : List (String × Scalar)) {b : List Char} (hb : IsSpace b) :
    read (String.ofList (object ms ++ b)) = some (.object (ms.map toMember)) := by
  have hspace : skip b = [] := List.dropWhile_eq_nil_iff.2 (List.all_eq_true.1 hb)
  obtain ⟨cs, hcs⟩ := exists_object_eq ms
  have hopen : skip (object ms ++ b) = object ms ++ b := by
    rw [hcs]
    rfl
  have hdepth : (object ms ++ b).length = (cs ++ b).length + 1 := by
    rw [hcs]
    rfl
  simp only [read, String.toList_ofList, hopen, hdepth, readValue_object, Option.bind_eq_bind, Option.bind_some,
    hspace, if_true]

end InfixCalc.Json
