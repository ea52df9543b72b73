import InfixCalc.Proofs.Token.Spelling

namespace InfixCalc

open Text Decimal

def isSkipped (c : Char) : Bool := isBlank c || isStray c

theorem Token.Kind.Starts.isSkipped_iff {k : Kind} {c : Char} (h : k.Starts c) :
    isSkipped c ↔ k = .stray := by
  obtain ⟨hblank, rfl⟩ := starts_iff.1 h
  simp [isSkipped, isStray, hblank]

def EndsNumber (cs : List Char) : Prop := ∀ d ∈ (cs.dropWhile isSkipped).head?, isDigit d = false

theorem IsLiteral.extent_append {c : Char} {w cs : List Char} (h : IsLiteral (c :: w))
    (hcs : EndsNumber cs) : Token.Kind.number.extent (w ++ cs) = w.length := by
  have hshape : Token.Kind.number.Shape (c :: w) := h
  refine hshape.extent_append_of_forall fun x hx hlonger => ?_
  by_contra hne
  have hlast : isDigit (x.getLast hne) := by
    refine IsLiteral.isDigit_getLast hlonger _ ?_
    rw [← List.cons_append, List.getLast?_append_of_ne_nil _ hne, List.getLast?_eq_some_getLast hne]
    rfl
  have hkept {d : Char} (hd : isDigit d) : isSkipped d = false := by
    have hstarts : Token.Kind.number.Starts d := hd
    simpa using hstarts.isSkipped_iff
  cases hdrop : x.dropWhile isSkipped with
  | nil =>
    have hall := List.dropWhile_eq_nil_iff.1 hdrop _ (List.getLast_mem hne)
    rw [hkept hlast] at hall
    cases hall
  | cons d r =>
    obtain ⟨rest, rfl⟩ := hx
    have hd : d ∈ x := (List.dropWhile_suffix _).subset (hdrop ▸ List.mem_cons_self)
    have hnot : ¬isSkipped d := by simpa [hdrop] using List.head?_dropWhile_not isSkipped x
    have hdigit : isDigit d := by
      rcases hlonger.mem (.inl rfl) (show d ∈ c :: (w ++ x) by simp [hd]) with hd | hstray
      · exact hd
      · exact absurd (by simp [isSkipped, hstray]) hnot
    have := hcs d (by rw [List.dropWhile_append, hdrop]; rfl)
    rw [hdigit] at this
    cases this

namespace Token

def keptFrom (position : Nat) (cs : List Char) : List Token :=
  (scanFrom 0 position cs).filter (·.kind ≠ .stray)

theorem keptFrom_eq_drop (position : Nat) (cs : List Char) :
    keptFrom position cs =
      keptFrom (position + (cs.takeWhile isStray).length) (cs.drop (cs.takeWhile isStray).length) := by
  cases cs with
  | nil => rfl
  | cons c cs =>
    rw [List.takeWhile_cons]
    cases hc : isStray c with
    | false => rfl
    | true =>
      obtain ⟨hblank, hkind⟩ := Kind.starts_iff.1 (isStray_iff.1 hc)
      rw [if_pos rfl, List.length_cons, List.drop_succ_cons, keptFrom, scanFrom_cons hblank, hkind,
        List.filter_cons_of_neg (by simp), Kind.extent, Nat.add_right_comm]
      rfl

theorem keptFrom_cons_of_isSkipped {c : Char} (hc : isSkipped c) (position : Nat) (cs : List Char) :
    keptFrom position (c :: cs) = keptFrom (position + 1) cs := by
  rw [isSkipped, Bool.or_eq_true] at hc
  rcases hc with hblank | hstray
  · rw [keptFrom, scanFrom_cons_of_isBlank hblank]
    rfl
  · rw [keptFrom_eq_drop, List.takeWhile_cons, hstray, if_pos rfl, List.length_cons, List.drop_succ_cons,
      keptFrom_eq_drop (position + 1), Nat.add_right_comm, Nat.add_assoc]

theorem keptFrom_append_of_isSkipped {gap : List Char} (hgap : ∀ c ∈ gap, isSkipped c) (position : Nat)
    (cs : List Char) : keptFrom position (gap ++ cs) = keptFrom (position + gap.length) cs := by
  induction gap generalizing position with
  | nil => rfl
  | cons c gap ih =>
    rw [List.cons_append, keptFrom_cons_of_isSkipped (hgap c (by simp)),
      ih fun d hd => hgap d (by simp [hd]), List.length_cons, Nat.add_right_comm, Nat.add_assoc]

theorem isSkipped_of_isBlank {gap : List Char} (hgap : ∀ c ∈ gap, isBlank c) : ∀ c ∈ gap, isSkipped c :=
  fun c hc => by simp [isSkipped, hgap c hc]

theorem Written.isSkipped {t : Token} (ht : t.Written) (hstray : t.kind = .stray) :
    ∀ c ∈ t.text.toList, isSkipped c := fun c hc => by
  have hshape : Kind.stray.Shape t.text.toList := hstray ▸ ht
  exact (hshape.2 c hc).isSkipped_iff.2 rfl

theorem Written.keptFrom_append {t : Token} (ht : t.Written) (hkind : t.kind ≠ .stray) {cs : List Char}
    (hcs : t.kind.Grows → EndsNumber cs) (position : Nat) :
    keptFrom position (t.text.toList ++ cs) =
      ⟨t.kind, t.text, position⟩ :: keptFrom (position + t.text.length) cs := by
  rw [keptFrom, ht.scanFrom_append_of_extent, List.filter_cons_of_pos (by simpa using hkind)]
  · rfl
  · intro c w htext
    have hshape : t.kind.Shape (c :: w) := htext ▸ ht
    cases hk : t.kind with
    | number => exact IsLiteral.extent_append (hk ▸ hshape) (hcs (.inl hk))
    | stray => exact absurd hk hkind
    | operator | opening | closing => exact (hk ▸ hshape).extent_append (by simp [Kind.Grows])

end Token

namespace Spelled

variable {ts : List Token} {cs : List Char}

theorem head_dropWhile (h : Spelled ts cs) (hw : ∀ t ∈ ts, t.Written) :
    ∀ d ∈ (cs.dropWhile isSkipped).head?, ∃ t ∈ (ts.filter (·.kind ≠ .stray)).head?, t.kind.Starts d := by
  induction h with
  | nil hgap =>
    rw [List.dropWhile_eq_nil_iff.2 (Token.isSkipped_of_isBlank hgap)]
    exact fun d hd => nomatch hd
  | @cons gap t ts cs hgap h ih =>
    rw [List.dropWhile_append_of_pos (Token.isSkipped_of_isBlank hgap)]
    rw [List.forall_mem_cons] at hw
    by_cases hkind : t.kind = .stray
    · rw [List.dropWhile_append_of_pos (hw.1.isSkipped hkind), List.filter_cons_of_neg (by simpa using hkind)]
      exact ih hw.2
    · obtain ⟨c, w, htext, hstart, -⟩ := Token.Kind.Shape.exists_cons hw.1
      rw [htext, List.cons_append, List.dropWhile_cons_of_neg (by rwa [hstart.isSkipped_iff]),
        List.filter_cons_of_pos (by simpa using hkind)]
      intro d hd
      obtain rfl : c = d := by simpa using hd
      exact ⟨t, rfl, hstart⟩

theorem map_word_keptFrom (h : Spelled ts cs) (hw : ∀ t ∈ ts, t.Written)
    (hts : (ts.filter (·.kind ≠ .stray)).IsChain Token.Apart) (position : Nat) :
    (Token.keptFrom position cs).map Token.word = (ts.filter (·.kind ≠ .stray)).map Token.word := by
  induction h generalizing position with
  | nil hgap =>
    have := Token.keptFrom_append_of_isSkipped (Token.isSkipped_of_isBlank hgap) position []
    rw [List.append_nil] at this
    rw [this]
    rfl
  | @cons gap t ts cs hgap h ih =>
    rw [Token.keptFrom_append_of_isSkipped (Token.isSkipped_of_isBlank hgap)]
    rw [List.forall_mem_cons] at hw
    by_cases hkind : t.kind = .stray
    · rw [List.filter_cons_of_neg (by simpa using hkind)] at hts ⊢
      rw [Token.keptFrom_append_of_isSkipped (hw.1.isSkipped hkind)]
      exact ih hw.2 hts _
    · rw [List.filter_cons_of_pos (by simpa using hkind)] at hts ⊢
      obtain ⟨hnext, hts⟩ := List.isChain_cons.1 hts
      have hends : t.kind.Grows → EndsNumber cs := fun hgrows d hd => by
        obtain ⟨u, hu, hstart⟩ := h.head_dropWhile hw.2 d hd
        rw [← Bool.not_eq_true]
        intro hdigit
        have hnumber : Token.Kind.number.Starts d := hdigit
        refine hnext u hu ⟨hgrows, .inl ?_⟩
        rw [← (Token.Kind.starts_iff.1 hstart).2, (Token.Kind.starts_iff.1 hnumber).2]
      rw [hw.1.keptFrom_append hkind hends, List.map_cons, List.map_cons, ih hw.2 hts]
      rfl

theorem filter (h : Spelled ts cs) (hw : ∀ t ∈ ts, t.Written) {p : Char → Bool}
    (hp : ∀ c, p c = false → isBlank c) : Spelled ts (cs.filter p) := by
  induction h with
  | nil hgap => exact .nil fun c hc => hgap c (List.mem_of_mem_filter hc)
  | @cons gap t ts cs hgap h ih =>
    rw [List.forall_mem_cons] at hw
    have htext : t.text.toList.filter p = t.text.toList := by
      refine List.filter_eq_self.2 fun c hc => ?_
      rw [← Bool.not_eq_false]
      intro hdrop
      have hblank := hp c hdrop
      rw [Token.Kind.Shape.isBlank_eq_false hw.1 hc] at hblank
      cases hblank
    rw [List.filter_append, List.filter_append, htext]
    exact .cons (fun c hc => hgap c (List.mem_of_mem_filter hc)) (ih hw.2)

end Spelled

theorem Token.map_word_ofString_squeeze {strict : Bool} {s : String}
    (h : (ofString strict s).IsChain Apart) :
    (ofString strict (squeeze s)).map word = (ofString strict s).map word := by
  have hw : ∀ t ∈ ofString true s, t.Written := fun _ => written_of_mem_ofString
  have hspelled : Spelled (scan s) (squeeze s).toList := by
    rw [toList_squeeze]
    refine (Spelled.of_scan s).filter hw fun c hc => ?_
    obtain rfl : c = ' ' := by simpa using hc
    decide
  cases strict with
  | true => exact hspelled.map_word_scanFrom hw h 0
  | false => exact hspelled.map_word_keptFrom hw h 0

end InfixCalc
