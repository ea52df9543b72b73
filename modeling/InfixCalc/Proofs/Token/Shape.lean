import InfixCalc.Proofs.Decimal.Literal
import InfixCalc.Token.Scan

namespace InfixCalc

open Text Decimal

def operatorChars : List Char := ['+', '-', '*', '/']

namespace Token.Kind

def Starts : Kind → Char → Prop
  | .number, c => isDigit c
  | .operator, c => c ∈ operatorChars
  | .opening, c => c = '('
  | .closing, c => c = ')'
  | .stray, c => ¬isBlank c ∧ ¬isDigit c ∧ c ∉ operatorChars ∧ c ≠ '(' ∧ c ≠ ')'

def Shape : Kind → List Char → Prop
  | .number, cs => IsLiteral cs
  | .operator, cs => ∃ c ∈ operatorChars, cs = [c]
  | .opening, cs => cs = ['(']
  | .closing, cs => cs = [')']
  | .stray, cs => cs ≠ [] ∧ ∀ c ∈ cs, Starts .stray c

def Grows (k : Kind) : Prop := k = .number ∨ k = .stray

end Token.Kind

theorem ofSymbol?_singleton_isSome {c : Char} :
    (Operator.ofSymbol? (String.singleton c)).isSome ↔ c ∈ operatorChars := by
  constructor
  · rw [Option.isSome_iff_exists]
    rintro ⟨o, h⟩
    have hc : [c] = o.symbol.toList := by
      rw [← Operator.ofSymbol?_eq_some_iff.1 h, String.toList_singleton]
    cases o <;> simp_all [Operator.symbol, operatorChars]
  · have hall : operatorChars.all fun c => (Operator.ofSymbol? (String.singleton c)).isSome := by decide
    exact List.all_eq_true.1 hall c

namespace Token.Kind

theorem starts_iff {k : Kind} {c : Char} : k.Starts c ↔ isBlank c = false ∧ ofChar c = k := by
  have ho : c ∈ operatorChars → isBlank c = false ∧ isDigit c = false ∧ c ≠ '(' ∧ c ≠ ')' := by
    have hall : operatorChars.all fun c =>
        isBlank c = false ∧ isDigit c = false ∧ c ≠ '(' ∧ c ≠ ')' := by decide
    simpa using List.all_eq_true.1 hall c
  have hp : c = '(' ∨ c = ')' → isBlank c = false ∧ isDigit c = false := by
    rintro (rfl | rfl) <;> decide
  have hd := @isBlank_of_isDigit c
  have hs := @ofSymbol?_singleton_isSome c
  unfold ofChar
  cases k <;> simp only [Starts] <;> grind

end Token.Kind

theorem isStray_iff {c : Char} : isStray c ↔ Token.Kind.Starts .stray c := by
  rw [Token.Kind.starts_iff]
  simp [isStray]

namespace Token.Kind

theorem Shape.exists_cons {k : Kind} {cs : List Char} (h : k.Shape cs) :
    ∃ c w, cs = c :: w ∧ k.Starts c ∧ (w = [] ∨ k.Grows) := by
  cases k with
  | number =>
    obtain ⟨d, w, rfl, hd⟩ := IsLiteral.exists_cons h
    exact ⟨d, w, rfl, hd, .inr (.inl rfl)⟩
  | operator =>
    obtain ⟨c, hc, rfl⟩ := h
    exact ⟨c, [], rfl, hc, .inl rfl⟩
  | opening => exact ⟨'(', [], h, rfl, .inl rfl⟩
  | closing => exact ⟨')', [], h, rfl, .inl rfl⟩
  | stray =>
    cases cs with
    | nil => exact absurd rfl h.1
    | cons c w => exact ⟨c, w, rfl, h.2 c (by simp), .inr (.inr rfl)⟩

theorem Shape.mem {k : Kind} (hk : k.Grows) {cs : List Char} (h : k.Shape cs) {c : Char} (hc : c ∈ cs) :
    isDigit c ∨ isStray c := by
  rcases hk with rfl | rfl
  · cases h with
    | whole h => exact .inl (h.2 c hc)
    | pointed h h' =>
      rw [List.mem_append, List.mem_cons] at hc
      rcases hc with hc | rfl | hc
      · exact .inl (h.2 c hc)
      · exact .inr (by decide)
      · exact .inl (h'.2 c hc)
  · exact .inr (isStray_iff.2 (h.2 c hc))

theorem Shape.isBlank_eq_false {k : Kind} {cs : List Char} (h : k.Shape cs) {c : Char} (hc : c ∈ cs) :
    isBlank c = false := by
  obtain ⟨d, w, rfl, hstart, rfl | hg⟩ := h.exists_cons
  · rw [List.mem_singleton.1 hc]
    exact (starts_iff.1 hstart).1
  · rcases h.mem hg hc with hd | hs
    · exact isBlank_of_isDigit hd
    · exact (starts_iff.1 (isStray_iff.1 hs)).1

end Token.Kind

def Breaks (cs : List Char) : Prop := ∀ c ∈ cs.head?, isDigit c = false ∧ isStray c = false

theorem breaks_of_isBlank {cs : List Char} (h : ∀ c ∈ cs.head?, isBlank c) : Breaks cs := by
  intro c hc
  have hb : isBlank c = true := h c hc
  refine ⟨?_, by simp [isStray, hb]⟩
  rw [← Bool.not_eq_true]
  intro hd
  rw [isBlank_of_isDigit hd] at hb
  contradiction

theorem breaks_of_starts {k : Token.Kind} (hk : ¬k.Grows) {c : Char} (hc : k.Starts c)
    (cs : List Char) : Breaks (c :: cs) := by
  obtain ⟨-, rfl⟩ := Token.Kind.starts_iff.1 hc
  intro d hd
  obtain rfl : c = d := by simpa using hd
  rw [← Bool.not_eq_true, ← Bool.not_eq_true]
  refine ⟨fun hd => hk (.inl ?_), fun hs => hk (.inr ?_)⟩
  · exact (Token.Kind.starts_iff.1 (show Token.Kind.Starts .number c from hd)).2
  · exact (Token.Kind.starts_iff.1 (isStray_iff.1 hs)).2

def fractionExtent : List Char → Nat
  | '.' :: d :: ds => if isDigit d then 2 + (ds.takeWhile isDigit).length else 0
  | _ => 0

theorem numberExtent_eq (cs : List Char) : numberExtent cs =
    (cs.takeWhile isDigit).length + fractionExtent (cs.dropWhile isDigit) := by
  have hdrop : (cs.takeWhile isDigit ++ cs.dropWhile isDigit).drop (cs.takeWhile isDigit).length =
      cs.dropWhile isDigit := List.drop_left
  rw [List.takeWhile_append_dropWhile] at hdrop
  simp only [numberExtent, hdrop]
  split
  · next d ds h =>
    rw [h, fractionExtent]
    split <;> omega
  · next h =>
    unfold fractionExtent
    split
    · next d ds h' => exact absurd h' (h d ds)
    · rfl

theorem fractionExtent_cases (cs : List Char) : fractionExtent cs = 0 ∨
    ∃ fs, IsDigits fs ∧ fractionExtent cs = fs.length + 1 ∧ '.' :: fs <+: cs := by
  unfold fractionExtent
  split
  · next d ds =>
    split
    · next h =>
      refine .inr ⟨d :: ds.takeWhile isDigit, isDigits_takeWhile h, by simp; omega, ?_⟩
      simp [List.takeWhile_prefix]
    · exact .inl rfl
  · exact .inl rfl

theorem le_fractionExtent {fs : List Char} (h : IsDigits fs) (rest : List Char) :
    fs.length + 1 ≤ fractionExtent ('.' :: (fs ++ rest)) := by
  cases fs with
  | nil => exact absurd rfl h.1
  | cons d ds =>
    have hd : isDigit d := h.2 d (by simp)
    have hds : ∀ c ∈ ds, isDigit c := fun c hc => h.2 c (by simp [hc])
    simp only [List.cons_append, fractionExtent, hd, if_true, List.takeWhile_append_of_pos hds,
      List.length_append, List.length_cons]
    omega

theorem isLiteral_take_numberExtent {c : Char} (hc : isDigit c) (cs : List Char) :
    IsLiteral (c :: cs.take (numberExtent cs)) := by
  have hds : IsDigits (c :: cs.takeWhile isDigit) := isDigits_takeWhile hc
  have htake (n : Nat) : cs.take ((cs.takeWhile isDigit).length + n) =
      cs.takeWhile isDigit ++ (cs.dropWhile isDigit).take n := by
    rw [← List.take_length_add_append, List.takeWhile_append_dropWhile]
  rw [numberExtent_eq, htake]
  rcases fractionExtent_cases (cs.dropWhile isDigit) with h | ⟨fs, hfs, hn, hpre⟩
  · simpa [h] using .whole hds
  · rw [hn, ← List.length_cons, ← List.prefix_iff_eq_take.1 hpre]
    exact .pointed hds hfs

theorem IsLiteral.length_le_numberExtent {c : Char} {w cs : List Char} (h : IsLiteral (c :: w))
    (hw : w <+: cs) : w.length ≤ numberExtent cs := by
  obtain ⟨rest, rfl⟩ := hw
  rw [numberExtent_eq]
  generalize hl : c :: w = l at h
  cases h with
  | whole h =>
    subst hl
    rw [List.takeWhile_append_of_pos fun d hd => h.2 d (by simp [hd]), List.length_append]
    omega
  | @pointed ds fs h hfs =>
    cases ds with
    | nil => exact absurd rfl h.1
    | cons d ds =>
      obtain ⟨rfl, rfl⟩ := List.cons.inj hl
      have hds : ∀ e ∈ ds, isDigit e := fun e he => h.2 e (by simp [he])
      have hpoint : isDigit '.' = false := by decide
      have hfraction := le_fractionExtent hfs rest
      change (ds ++ '.' :: fs).length ≤ ((ds ++ '.' :: fs ++ rest).takeWhile isDigit).length +
        fractionExtent ((ds ++ '.' :: fs ++ rest).dropWhile isDigit)
      rw [List.append_assoc, List.takeWhile_append_of_pos hds, List.dropWhile_append_of_pos hds,
        List.cons_append, List.takeWhile_cons, List.dropWhile_cons, hpoint]
      simp only [Bool.false_eq_true, if_false, List.append_nil, List.length_append, List.length_cons]
      omega

namespace Token.Kind

theorem extent_le (k : Kind) (cs : List Char) : k.extent cs ≤ cs.length := by
  cases k with
  | number =>
    have hlen := congrArg List.length (List.takeWhile_append_dropWhile (p := isDigit) (l := cs))
    rw [List.length_append] at hlen
    rw [extent, numberExtent_eq]
    rcases fractionExtent_cases (cs.dropWhile isDigit) with h | ⟨fs, -, hn, hpre⟩
    · omega
    · have := hpre.length_le
      rw [List.length_cons] at this
      omega
  | stray => exact (List.takeWhile_prefix _).length_le
  | operator | opening | closing => exact Nat.zero_le _

theorem shape_take_extent {c : Char} (hc : isBlank c = false) (cs : List Char) :
    (ofChar c).Shape (c :: cs.take ((ofChar c).extent cs)) := by
  have hs : (ofChar c).Starts c := starts_iff.2 ⟨hc, rfl⟩
  generalize ofChar c = k at hs
  cases k with
  | number => exact isLiteral_take_numberExtent hs cs
  | operator => exact ⟨c, hs, rfl⟩
  | opening => exact congrArg (· :: []) hs
  | closing => exact congrArg (· :: []) hs
  | stray =>
    refine ⟨List.cons_ne_nil _ _, fun d hd => ?_⟩
    rw [extent, ← List.prefix_iff_eq_take.1 (List.takeWhile_prefix _)] at hd
    rcases List.mem_cons.1 hd with rfl | hd
    · exact hs
    · exact isStray_iff.1 (List.mem_takeWhile_imp hd)

theorem Shape.length_le_extent {k : Kind} {c : Char} {w cs : List Char} (h : k.Shape (c :: w))
    (hw : w <+: cs) : w.length ≤ k.extent cs := by
  cases k with
  | number => exact IsLiteral.length_le_numberExtent h hw
  | stray =>
    obtain ⟨rest, rfl⟩ := hw
    rw [extent, List.takeWhile_append_of_pos fun d hd => isStray_iff.2 (h.2 d (by simp [hd])),
      List.length_append]
    omega
  | operator =>
    obtain ⟨d, -, hd⟩ := h
    simp [(List.cons.inj hd).2]
  | opening | closing => simp [(List.cons.inj h).2]

theorem Shape.extent_append_of_forall {k : Kind} {c : Char} {w cs : List Char} (h : k.Shape (c :: w))
    (hmax : ∀ x, x <+: cs → k.Shape (c :: (w ++ x)) → x = []) : k.extent (w ++ cs) = w.length := by
  obtain ⟨d, w', hcons, hstart, -⟩ := h.exists_cons
  obtain ⟨rfl, rfl⟩ := List.cons.inj hcons
  obtain ⟨hb, rfl⟩ := starts_iff.1 hstart
  have hle := h.length_le_extent (List.prefix_append w cs)
  have hlen := (ofChar c).extent_le (w ++ cs)
  have hshape := shape_take_extent hb (w ++ cs)
  generalize (ofChar c).extent (w ++ cs) = n at hle hlen hshape
  rw [List.take_append, List.take_of_length_le hle] at hshape
  have hnil := congrArg List.length (hmax _ (List.take_prefix _ cs) hshape)
  rw [List.length_take, List.length_nil] at hnil
  rw [List.length_append] at hlen
  omega

theorem Shape.extent_append {k : Kind} {c : Char} {w cs : List Char} (h : k.Shape (c :: w))
    (hcs : k.Grows → Breaks cs) :
    k.extent (w ++ cs) = w.length := by
  refine h.extent_append_of_forall fun x hx hlonger => ?_
  cases x with
  | nil => rfl
  | cons e x =>
    obtain ⟨rest, rfl⟩ := hx
    have hgrows : k.Grows := by
      obtain ⟨_, w', hcons, -, hw' | hg⟩ := hlonger.exists_cons
      · simp [← (List.cons.inj hcons).2] at hw'
      · exact hg
    have := hlonger.mem hgrows (show e ∈ c :: (w ++ e :: x) by simp)
    simp [hcs hgrows e (by simp)] at this

end Token.Kind

namespace Token

theorem scanFrom_cons_of_isBlank {c : Char} (hc : isBlank c) (position : Nat) (cs : List Char) :
    scanFrom 0 position (c :: cs) = scanFrom 0 (position + 1) cs := by
  rw [scanFrom, if_pos hc]

theorem scanFrom_cons {c : Char} (hc : isBlank c = false) (position : Nat) (cs : List Char) :
    scanFrom 0 position (c :: cs) =
      ⟨.ofChar c, String.ofList (c :: cs.take ((Kind.ofChar c).extent cs)), position⟩ ::
        scanFrom 0 (position + 1 + (Kind.ofChar c).extent cs) (cs.drop ((Kind.ofChar c).extent cs)) := by
  rw [← scanFrom_covered]
  simp [scanFrom, hc]

theorem scan_induction {motive : Nat → List Char → Prop} (nil : ∀ position, motive position [])
    (blank : ∀ position c cs, isBlank c → motive (position + 1) cs → motive position (c :: cs))
    (token : ∀ position c cs, isBlank c = false →
      motive (position + 1 + (Kind.ofChar c).extent cs) (cs.drop ((Kind.ofChar c).extent cs)) →
      motive position (c :: cs)) (position : Nat) (cs : List Char) : motive position cs := by
  induction hn : cs.length using Nat.strong_induction_on generalizing position cs with
  | _ n ih =>
    cases cs with
    | nil => exact nil position
    | cons c cs =>
      rw [List.length_cons] at hn
      by_cases hc : isBlank c
      · exact blank position c cs hc (ih _ (by omega) _ cs rfl)
      · exact token position c cs (by simpa using hc) (ih _ (by rw [List.length_drop]; omega) _ _ rfl)

end Token
end InfixCalc
