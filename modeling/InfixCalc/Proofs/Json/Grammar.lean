import InfixCalc.Decimal.Places
import InfixCalc.Proofs.Decimal.Literal

/-!
The grammar of JSON texts of RFC 8259. Outside the strings of a text there are only its marks, its white
space, and the letters of its numbers and of `true`, `false` and `null`.
-/

namespace InfixCalc.Json

open Decimal

inductive IsInteger : List Char → Prop
  | zero : IsInteger ['0']
  | digits {d ds} : isDigit d → d ≠ '0' → (∀ c ∈ ds, isDigit c) → IsInteger (d :: ds)

inductive IsFraction : List Char → Prop
  | nil : IsFraction []
  | point {ds} : IsDigits ds → IsFraction ('.' :: ds)

inductive IsExponent : List Char → Prop
  | nil : IsExponent []
  | signed {e s ds} : e ∈ ['e', 'E'] → s ∈ [[], ['-'], ['+']] → IsDigits ds → IsExponent (e :: (s ++ ds))

inductive IsUnsigned : List Char → Prop
  | intro {i f e} : IsInteger i → IsFraction f → IsExponent e → IsUnsigned (i ++ (f ++ e))

inductive IsNumber : List Char → Prop
  | intro {cs} (negative : Bool) : IsUnsigned cs → IsNumber (sign negative ++ cs)

def hexDigits : List Char := digitChars ++ ['a', 'b', 'c', 'd', 'e', 'f', 'A', 'B', 'C', 'D', 'E', 'F']

inductive IsChar : List Char → Prop
  | unescaped {c : Char} : 0x20 ≤ c.toNat → c ≠ '"' → c ≠ '\\' → IsChar [c]
  | escaped {c} : c ∈ ['"', '\\', '/', 'b', 'f', 'n', 'r', 't'] → IsChar ['\\', c]
  | unicode {ds} : ds.length = 4 → (∀ d ∈ ds, d ∈ hexDigits) → IsChar ('\\' :: 'u' :: ds)

inductive IsChars : List Char → Prop
  | nil : IsChars []
  | append {p cs} : IsChar p → IsChars cs → IsChars (p ++ cs)

inductive IsString : List Char → Prop
  | quoted {cs} : IsChars cs → IsString ('"' :: (cs ++ ['"']))

def spaces : List Char := [' ', '\t', '\n', '\r']

def IsSpace (cs : List Char) : Prop := cs.all (spaces.contains ·)

theorem isSpace_nil : IsSpace [] := rfl

inductive IsMark (c : Char) : List Char → Prop
  | intro {a b} : IsSpace a → IsSpace b → IsMark c (a ++ c :: b)

inductive Part
  | value | member | members | elements

inductive Derives : Part → List Char → Prop
  | word {w : String} : w ∈ ["true", "false", "null"] → Derives .value w.toList
  | number {cs} : IsNumber cs → Derives .value cs
  | string {cs} : IsString cs → Derives .value cs
  | emptyObject {l r} : IsMark '{' l → IsMark '}' r → Derives .value (l ++ r)
  | object {l ms r} : IsMark '{' l → Derives .members ms → IsMark '}' r → Derives .value (l ++ (ms ++ r))
  | emptyArray {l r} : IsMark '[' l → IsMark ']' r → Derives .value (l ++ r)
  | array {l es r} : IsMark '[' l → Derives .elements es → IsMark ']' r → Derives .value (l ++ (es ++ r))
  | member {k m v} : IsString k → IsMark ':' m → Derives .value v → Derives .member (k ++ (m ++ v))
  | lastMember {m} : Derives .member m → Derives .members m
  | moreMembers {m s ms} : Derives .member m → IsMark ',' s → Derives .members ms →
      Derives .members (m ++ (s ++ ms))
  | lastElement {v} : Derives .value v → Derives .elements v
  | moreElements {v s es} : Derives .value v → IsMark ',' s → Derives .elements es →
      Derives .elements (v ++ (s ++ es))

inductive IsText : List Char → Prop
  | intro {a v b} : IsSpace a → Derives .value v → IsSpace b → IsText (a ++ (v ++ b))

/-- The characters of a text that stand outside its strings; the flag tells whether it starts within
one. -/
def unquoted : Bool → List Char → List Char
  | _, [] => []
  | false, '"' :: cs => unquoted true cs
  | false, c :: cs => c :: unquoted false cs
  | true, '\\' :: _ :: cs => unquoted true cs
  | true, '"' :: cs => unquoted false cs
  | true, _ :: cs => unquoted true cs

theorem unquoted_false_cons {c : Char} (hc : c ≠ '"') (cs : List Char) :
    unquoted false (c :: cs) = c :: unquoted false cs := by
  rw [unquoted]
  exact hc

theorem unquoted_true_cons {c : Char} (hquote : c ≠ '"') (hslash : c ≠ '\\') (cs : List Char) :
    unquoted true (c :: cs) = unquoted true cs := by
  rw [unquoted]
  · exact fun _ _ h => absurd h hslash
  · exact hquote

theorem IsChar.unquoted_append {p : List Char} (h : IsChar p) (cs : List Char) :
    unquoted true (p ++ cs) = unquoted true cs := by
  cases h with
  | unescaped _ hquote hslash => exact unquoted_true_cons hquote hslash cs
  | escaped => rfl
  | @unicode ds hlength hhex =>
    clear hlength
    have hplain : hexDigits.all fun d => d ≠ '"' ∧ d ≠ '\\' := by decide
    change unquoted true (ds ++ cs) = unquoted true cs
    induction ds with
    | nil => rfl
    | cons d ds ih =>
      obtain ⟨hd, hhex⟩ := List.forall_mem_cons.1 hhex
      obtain ⟨hquote, hslash⟩ := of_decide_eq_true (List.all_eq_true.1 hplain d hd)
      rw [List.cons_append, unquoted_true_cons hquote hslash, ih hhex]

theorem IsChars.unquoted_append {cs : List Char} (h : IsChars cs) (rest : List Char) :
    unquoted true (cs ++ rest) = unquoted true rest := by
  induction h with
  | nil => rfl
  | append hp _ ih => rw [List.append_assoc, hp.unquoted_append, ih]

def Closed (cs : List Char) : Prop :=
  ∀ rest, unquoted false (cs ++ rest) = unquoted false cs ++ unquoted false rest

theorem Closed.append {cs ds : List Char} (h : Closed cs) (h' : Closed ds) : Closed (cs ++ ds) := by
  intro rest
  rw [List.append_assoc, h, h', h, List.append_assoc]

theorem IsString.unquoted_append {cs : List Char} (h : IsString cs) (rest : List Char) :
    unquoted false (cs ++ rest) = unquoted false rest := by
  obtain ⟨h⟩ := h
  change unquoted true (_ ++ ['"'] ++ rest) = _
  rw [List.append_assoc, h.unquoted_append]
  rfl

theorem IsString.unquoted_eq_nil {cs : List Char} (h : IsString cs) : unquoted false cs = [] := by
  have := h.unquoted_append []
  rwa [List.append_nil] at this

theorem IsString.closed {cs : List Char} (h : IsString cs) : Closed cs := fun rest => by
  rw [h.unquoted_append, h.unquoted_eq_nil, List.nil_append]

theorem unquoted_append_of_not_mem {cs : List Char} (h : '"' ∉ cs) (rest : List Char) :
    unquoted false (cs ++ rest) = cs ++ unquoted false rest := by
  induction cs with
  | nil => rfl
  | cons c cs ih =>
    rw [List.mem_cons, not_or] at h
    obtain ⟨hc, h⟩ := h
    rw [List.cons_append, unquoted_false_cons (Ne.symm hc), ih h, List.cons_append]

theorem unquoted_eq_self {cs : List Char} (h : '"' ∉ cs) : unquoted false cs = cs := by
  have := unquoted_append_of_not_mem h []
  rwa [List.append_nil, unquoted, List.append_nil] at this

theorem closed_of_not_mem {cs : List Char} (h : '"' ∉ cs) : Closed cs := fun rest => by
  rw [unquoted_append_of_not_mem h, unquoted_eq_self h]

def letters : List Char :=
  spaces ++ ['{', '}', '[', ']', ':', ',', '-', '+', '.', 'E'] ++ "truefalsn".toList ++ digitChars

structure Lettered (cs : List Char) : Prop where
  closed : Closed cs
  mem_letters : ∀ c ∈ unquoted false cs, c ∈ letters

namespace Lettered

theorem append {cs ds : List Char} (h : Lettered cs) (h' : Lettered ds) : Lettered (cs ++ ds) where
  closed := h.closed.append h'.closed
  mem_letters c hc := by
    rw [h.closed] at hc
    exact (List.mem_append.1 hc).elim (h.mem_letters c) (h'.mem_letters c)

theorem of_forall {cs : List Char} (h : ∀ c ∈ cs, c ∈ letters) : Lettered cs := by
  have hletter : '"' ∉ letters := by decide
  have hquote : '"' ∉ cs := fun hc => hletter (h '"' hc)
  exact ⟨closed_of_not_mem hquote, by rwa [unquoted_eq_self hquote]⟩

theorem of_all {cs : List Char} (h : cs.all (letters.contains ·)) : Lettered cs :=
  of_forall (by simpa using h)

theorem of_isString {cs : List Char} (h : IsString cs) : Lettered cs :=
  ⟨h.closed, by simp [h.unquoted_eq_nil]⟩

theorem of_isSpace {cs : List Char} (h : IsSpace cs) : Lettered cs := by
  have hall : spaces.all (letters.contains ·) := by decide
  refine of_all (List.all_eq_true.2 fun c hc => ?_)
  exact List.all_eq_true.1 hall c (List.contains_iff_mem.1 (List.all_eq_true.1 h c hc))

theorem of_isMark {c : Char} {cs : List Char} (h : IsMark c cs) (hc : Lettered [c]) : Lettered cs := by
  obtain ⟨ha, hb⟩ := h
  exact (of_isSpace ha).append (hc.append (of_isSpace hb))

theorem of_digits {cs : List Char} (h : ∀ c ∈ cs, isDigit c) : Lettered cs :=
  of_forall fun c hc => List.mem_append_right _ (mem_digitChars (h c hc))

theorem of_isNumber {cs : List Char} (h : IsNumber cs) : Lettered cs := by
  obtain ⟨negative, ⟨hi, hf, he⟩⟩ := h
  refine .append (by cases negative <;> exact of_all (by decide)) (.append ?_ (.append ?_ ?_))
  · cases hi with
    | zero => exact of_all (by decide)
    | digits hd _ hds => exact of_digits (List.forall_mem_cons.2 ⟨hd, hds⟩)
  · cases hf with
    | nil => exact of_all (by decide)
    | point hds => exact .append (of_all (show ['.'].all _ by decide)) (of_digits hds.2)
  · cases he with
    | nil => exact of_all (by decide)
    | @signed e s ds he hs hds =>
      simp only [List.mem_cons, List.not_mem_nil, or_false] at he hs
      have hletter : Lettered [e] := by rcases he with rfl | rfl <;> exact of_all (by decide)
      have hsign : Lettered s := by rcases hs with rfl | rfl | rfl <;> exact of_all (by decide)
      exact .append hletter (.append hsign (of_digits hds.2))

theorem of_derives {p : Part} {cs : List Char} (h : Derives p cs) : Lettered cs := by
  induction h with
  | @word w h =>
    simp only [List.mem_cons, List.not_mem_nil, or_false] at h
    rcases h with rfl | rfl | rfl <;> exact of_all (by decide)
  | number h => exact of_isNumber h
  | string h => exact of_isString h
  | emptyObject hl hr | emptyArray hl hr =>
    exact .append (of_isMark hl (of_all (by decide))) (of_isMark hr (of_all (by decide)))
  | object hl _ hr ih | array hl _ hr ih =>
    exact .append (of_isMark hl (of_all (by decide))) (.append ih (of_isMark hr (of_all (by decide))))
  | member hk hm _ ih => exact .append (of_isString hk) (.append (of_isMark hm (of_all (by decide))) ih)
  | lastMember _ ih | lastElement _ ih => exact ih
  | moreMembers _ hs _ ih ih' | moreElements _ hs _ ih ih' =>
    exact .append ih (.append (of_isMark hs (of_all (by decide))) ih')

theorem of_isText {cs : List Char} (h : IsText cs) : Lettered cs := by
  obtain ⟨ha, hv, hb⟩ := h
  exact (of_isSpace ha).append (.append (of_derives hv) (of_isSpace hb))

end Lettered
end InfixCalc.Json
