import InfixCalc.Proofs.Token.Tokenization
import Mathlib.Data.List.Chain

namespace InfixCalc

open Text Decimal

namespace Token

def word (t : Token) : Kind × String := (t.kind, t.text)

def Written (t : Token) : Prop := t.kind.Shape t.text.toList

def Apart (t u : Token) : Prop := ¬(t.kind.Grows ∧ u.kind.Grows)

theorem fits_of_mem_ofString {strict : Bool} {s : String} {t : Token} (h : t ∈ ofString strict s) :
    t.Fits 0 s.toList := by
  have hscan : t ∈ scan s := by
    cases strict with
    | true => exact h
    | false => exact List.mem_of_mem_filter h
  exact (Tokenization.of_scanFrom 0 s.toList).fits t hscan

theorem written_of_mem_ofString {strict : Bool} {s : String} {t : Token} (h : t ∈ ofString strict s) :
    t.Written := (fits_of_mem_ofString h).shape

theorem scanFrom_gap {gap : List Char} (hgap : ∀ c ∈ gap, isBlank c) (position : Nat) (cs : List Char) :
    scanFrom 0 position (gap ++ cs) = scanFrom 0 (position + gap.length) cs := by
  induction gap generalizing position with
  | nil => rfl
  | cons c gap ih =>
    rw [List.cons_append, scanFrom_cons_of_isBlank (hgap c (by simp)),
      ih fun d hd => hgap d (by simp [hd]), List.length_cons]
    congr 1
    omega

theorem Written.scanFrom_append_of_extent {t : Token} (ht : t.Written) {cs : List Char}
    (hcs : ∀ c w, t.text.toList = c :: w → t.kind.extent (w ++ cs) = w.length) (position : Nat) :
    scanFrom 0 position (t.text.toList ++ cs) =
      ⟨t.kind, t.text, position⟩ :: scanFrom 0 (position + t.text.length) cs := by
  obtain ⟨c, w, htext, hstart, -⟩ := Kind.Shape.exists_cons ht
  obtain ⟨hblank, hkind⟩ := Kind.starts_iff.1 hstart
  rw [← String.length_toList, htext, List.cons_append, scanFrom_cons hblank, hkind, hcs c w htext,
    List.take_left, List.drop_left, ← htext, String.ofList_toList, htext, List.length_cons,
    Nat.add_right_comm, Nat.add_assoc]

theorem written_induction {motive : Nat → List Char → Prop} (nil : ∀ position, motive position [])
    (blank : ∀ position c cs, isBlank c → motive (position + 1) cs → motive position (c :: cs))
    (token : ∀ (t : Token) (position : Nat) cs, t.position = position → t.Written →
      (∀ c w, t.text.toList = c :: w → t.kind.extent (w ++ cs) = w.length) →
      motive (position + t.text.length) cs → motive position (t.text.toList ++ cs))
    (position : Nat) (cs : List Char) : motive position cs := by
  induction position, cs using scan_induction with
  | nil position => exact nil position
  | blank position c cs hc ih => exact blank position c cs hc ih
  | token position c cs hc ih =>
    have hshape := Kind.shape_take_extent hc cs
    have hle := (Kind.ofChar c).extent_le cs
    generalize hn : (Kind.ofChar c).extent cs = n at *
    have hend (d : Char) (w : List Char) (hw : c :: cs.take n = d :: w) :
        (Kind.ofChar c).extent (w ++ cs.drop n) = w.length := by
      obtain ⟨rfl, rfl⟩ := List.cons.inj hw
      rw [List.take_append_drop, List.length_take_of_le hle, hn]
    have hstep := token ⟨.ofChar c, String.ofList (c :: cs.take n), position⟩ position (cs.drop n) rfl
    simp only [Written, String.toList_ofList, String.length_ofList, List.length_cons,
      List.length_take_of_le hle, List.cons_append, List.take_append_drop] at hstep
    exact hstep hshape hend (by rwa [Nat.add_comm n 1, ← Nat.add_assoc])

theorem Written.scanFrom_append {t : Token} (ht : t.Written) {cs : List Char}
    (hcs : t.kind.Grows → Breaks cs) (position : Nat) :
    scanFrom 0 position (t.text.toList ++ cs) =
      ⟨t.kind, t.text, position⟩ :: scanFrom 0 (position + t.text.length) cs :=
  ht.scanFrom_append_of_extent (fun c w htext =>
    Kind.Shape.extent_append (htext ▸ ht : t.kind.Shape (c :: w)) hcs) position

end Token

/-- A text in which tokens are written one after the other, with any blanks before, between and behind
them. -/
inductive Spelled : List Token → List Char → Prop
  | nil {gap} : (∀ c ∈ gap, isBlank c) → Spelled [] gap
  | cons {gap t ts cs} : (∀ c ∈ gap, isBlank c) → Spelled ts cs →
      Spelled (t :: ts) (gap ++ (t.text.toList ++ cs))

namespace Spelled

variable {ts : List Token} {cs : List Char}

theorem blank {c : Char} (hc : isBlank c) (h : Spelled ts cs) : Spelled ts (c :: cs) := by
  cases h with
  | nil hgap => exact .nil (List.forall_mem_cons.2 ⟨hc, hgap⟩)
  | cons hgap h => exact .cons (List.forall_mem_cons.2 ⟨hc, hgap⟩) h

theorem of_scanFrom (position : Nat) (cs : List Char) : Spelled (Token.scanFrom 0 position cs) cs := by
  induction position, cs using Token.written_induction with
  | nil position => exact .nil (List.forall_mem_nil _)
  | blank position c cs hc ih =>
    rw [Token.scanFrom_cons_of_isBlank hc]
    exact ih.blank hc
  | token t position cs _ ht hend ih =>
    rw [ht.scanFrom_append_of_extent hend]
    exact .cons (List.forall_mem_nil _) ih

theorem of_scan (s : String) : Spelled (Token.scan s) s.toList := of_scanFrom 0 s.toList

theorem flatMap (ts : List Token) : Spelled ts (ts.flatMap (·.text.toList)) := by
  induction ts with
  | nil => exact .nil (List.forall_mem_nil _)
  | cons t ts ih =>
    rw [List.flatMap_cons]
    exact .cons (List.forall_mem_nil _) ih

theorem head_cases (h : Spelled ts cs) (hw : ∀ t ∈ ts, t.Written) {d : Char} (hd : d ∈ cs.head?) :
    isBlank d ∨ ∃ t ∈ ts.head?, t.kind.Starts d := by
  cases h with
  | nil hgap => exact .inl (hgap d (List.mem_of_mem_head? hd))
  | @cons gap t ts cs hgap h =>
    cases gap with
    | nil =>
      obtain ⟨c, w, htext, hstart, -⟩ := Token.Kind.Shape.exists_cons (hw t (by simp))
      simp only [htext, List.nil_append, List.cons_append, List.head?_cons, Option.mem_some_iff] at hd
      exact .inr ⟨t, by simp, hd ▸ hstart⟩
    | cons c gap =>
      simp only [List.cons_append, List.head?_cons, Option.mem_some_iff] at hd
      exact .inl (hd ▸ hgap c (by simp))

theorem map_word_scanFrom (h : Spelled ts cs) (hw : ∀ t ∈ ts, t.Written) (hts : ts.IsChain Token.Apart)
    (position : Nat) : (Token.scanFrom 0 position cs).map Token.word = ts.map Token.word := by
  induction h generalizing position with
  | nil hgap =>
    have := Token.scanFrom_gap hgap position []
    rw [List.append_nil] at this
    rw [this]
    rfl
  | @cons gap t ts cs hgap h ih =>
    have hts' := List.isChain_cons.1 hts
    have hw' : ∀ u ∈ ts, u.Written := fun u hu => hw u (by simp [hu])
    have hbreaks : t.kind.Grows → Breaks cs := fun ht d hd => by
      rcases h.head_cases hw' hd with hblank | ⟨u, hu, hstart⟩
      · exact breaks_of_isBlank (by simpa using hblank) d (List.head?_cons (l := []))
      · exact breaks_of_starts (fun hgrows => hts'.1 u hu ⟨ht, hgrows⟩) hstart [] d rfl
    rw [Token.scanFrom_gap hgap, (hw t (by simp)).scanFrom_append hbreaks, List.map_cons, List.map_cons,
      ih hw' hts'.2]
    rfl

theorem map_word_ofString {s : String} (h : Spelled ts s.toList) (hw : ∀ t ∈ ts, t.Written)
    (hts : ts.IsChain Token.Apart) (hstray : ∀ t ∈ ts, t.kind ≠ .stray) (strict : Bool) :
    (Token.ofString strict s).map Token.word = ts.map Token.word := by
  have hscan : (Token.scan s).map Token.word = ts.map Token.word := h.map_word_scanFrom hw hts 0
  have hkind : ∀ t ∈ Token.scan s, t.kind ≠ .stray := by
    intro t ht
    have hmem := List.mem_map_of_mem (f := Token.word) ht
    rw [hscan] at hmem
    obtain ⟨u, hu, hword⟩ := List.mem_map.1 hmem
    have hut : u.kind = t.kind := congrArg Prod.fst hword
    exact hut ▸ hstray u hu
  cases strict with
  | true => exact hscan
  | false =>
    rw [Token.ofString, if_neg (by simp), List.filter_eq_self.2 (by simpa using hkind), hscan]

end Spelled
end InfixCalc
