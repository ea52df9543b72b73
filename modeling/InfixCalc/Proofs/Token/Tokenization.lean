import InfixCalc.Proofs.Token.Shape
import InfixCalc.Calculator

/-!
What the tokens of a text are, said without the scanner: slices in order, apart from each other, that
leave out the blanks and nothing else, each in the shape of its kind and as long as it can be. The
scanner finds the only such list.
-/

namespace InfixCalc

open Text Decimal

namespace Token

def stop (t : Token) : Int := t.position + t.text.length

def Covers (t : Token) (i : Int) : Prop := t.position ≤ i ∧ i < t.stop

/-- What each token satisfies by itself in a text whose first character is at `start`. -/
structure Fits (start : Nat) (cs : List Char) (t : Token) : Prop where
  ne_empty : t.text ≠ ""
  slice : ∃ before after, cs = before ++ (t.text.toList ++ after) ∧ t.position = start + before.length
  shape : t.kind.Shape t.text.toList
  longest : t.kind.Grows → ∀ before w after, cs = before ++ (w ++ after) →
    t.position = start + before.length → t.kind.Shape w → w.length ≤ t.text.length

end Token

structure Tokenization (start : Nat) (cs : List Char) (ts : List Token) : Prop where
  fits : ∀ t ∈ ts, t.Fits start cs
  ordered : ts.Pairwise fun t u => t.stop ≤ u.position
  covered : ∀ before c after, cs = before ++ c :: after →
    ((∃ t ∈ ts, t.Covers (start + before.length)) ↔ ¬isBlank c)

theorem exists_append_of_length_le {p cs before after : List Char} (h : p ++ cs = before ++ after)
    (hlen : p.length ≤ before.length) : ∃ r, before = p ++ r ∧ cs = r ++ after := by
  obtain ⟨r, rfl⟩ := List.prefix_of_prefix_length_le ⟨cs, h⟩ (List.prefix_append before after) hlen
  exact ⟨r, rfl, by simpa using h⟩

namespace Token.Fits

variable {start : Nat} {p cs : List Char} {t : Token}

theorem le_position (h : t.Fits start cs) : start ≤ t.position := by
  obtain ⟨before, after, -, hpos⟩ := h.slice
  omega

theorem position_lt_stop (h : t.Fits start cs) : t.position < t.stop := by
  have hlen : t.text.length ≠ 0 := by
    rw [← String.length_toList]
    simpa using h.ne_empty
  rw [Token.stop]
  omega

theorem append_iff (ht : start + p.length ≤ t.position) :
    t.Fits start (p ++ cs) ↔ t.Fits (start + p.length) cs := by
  constructor
  · rintro ⟨hne, ⟨before, after, hcs, hpos⟩, hshape, hlongest⟩
    obtain ⟨r, rfl, hr⟩ := exists_append_of_length_le hcs (by omega)
    refine ⟨hne, ⟨r, after, hr, by simp at hpos ⊢; omega⟩, hshape, fun hg before w after hw hpos => ?_⟩
    exact hlongest hg (p ++ before) w after (by simp [hw]) (by simp; omega)
  · rintro ⟨hne, ⟨before, after, hcs, hpos⟩, hshape, hlongest⟩
    refine ⟨hne, ⟨p ++ before, after, by simp [hcs], by simp; omega⟩, hshape,
      fun hg before w after hw hpos => ?_⟩
    obtain ⟨r, rfl, hr⟩ := exists_append_of_length_le hw (by omega)
    exact hlongest hg r w after hr (by simp at hpos ⊢; omega)

theorem eq_of_position_eq {c : Char} (h : t.Fits start (c :: cs)) (hpos : t.position = start) :
    isBlank c = false ∧
      t = ⟨.ofChar c, String.ofList (c :: cs.take ((Kind.ofChar c).extent cs)), start⟩ := by
  obtain ⟨before, after, hcs, hbefore⟩ := h.slice
  obtain rfl : before = [] := List.eq_nil_of_length_eq_zero (by omega)
  obtain ⟨d, w, htext, hstart, hgrows⟩ := h.shape.exists_cons
  rw [htext, List.nil_append, List.cons_append, List.cons.injEq] at hcs
  obtain ⟨rfl, rfl⟩ := hcs
  obtain ⟨hblank, hkind⟩ := Kind.starts_iff.1 hstart
  have hw : w.length ≤ t.kind.extent (w ++ after) :=
    (htext ▸ h.shape).length_le_extent (List.prefix_append w after)
  have hshape := Kind.shape_take_extent hblank (w ++ after)
  have hextent := t.kind.extent_le (w ++ after)
  rw [hkind] at hshape ⊢
  generalize t.kind.extent (w ++ after) = n at *
  have hn : n ≤ w.length := by
    obtain ⟨_, w', htake, -, hw' | hg⟩ := hshape.exists_cons
    · have := congrArg List.length ((List.cons.inj htake).2.trans hw')
      rw [List.length_take, List.length_nil] at this
      omega
    · have := h.longest hg [] _ ((w ++ after).drop n) (by simp) hpos hshape
      rw [← String.length_toList, htext, List.length_cons, List.length_cons,
        List.length_take_of_le hextent] at this
      omega
  obtain rfl : n = w.length := by omega
  refine ⟨hblank, ?_⟩
  cases t
  simp_all [← String.toList_inj]

theorem of_ofChar {c : Char} (hc : isBlank c = false) (start : Nat) (cs : List Char) :
    Fits start (c :: cs)
      ⟨.ofChar c, String.ofList (c :: cs.take ((Kind.ofChar c).extent cs)), start⟩ := by
  have hshape := Kind.shape_take_extent hc cs
  refine ⟨by simp [← String.toList_inj], ⟨[], cs.drop ((Kind.ofChar c).extent cs), by simp, by simp⟩,
    by simpa using hshape, fun _ before w after hcs hpos hw => ?_⟩
  obtain rfl : before = [] := List.eq_nil_of_length_eq_zero (by simpa using hpos)
  obtain ⟨d, w, rfl, -⟩ := hw.exists_cons
  rw [List.nil_append, List.cons_append, List.cons.injEq] at hcs
  obtain ⟨rfl, rfl⟩ := hcs
  have hle : w.length ≤ (Kind.ofChar c).extent (w ++ after) :=
    hw.length_le_extent (List.prefix_append w after)
  rw [String.length_ofList, List.length_cons, List.length_cons,
    List.length_take_of_le (Kind.extent_le _ _)]
  omega

end Token.Fits

namespace Tokenization

variable {start : Nat} {cs : List Char} {ts : List Token}

theorem nil_iff : Tokenization start [] ts ↔ ts = [] := by
  constructor
  · intro h
    cases ts with
    | nil => rfl
    | cons t ts =>
      obtain ⟨before, after, hcs, -⟩ := (h.fits t (by simp)).slice
      have := (h.fits t (by simp)).ne_empty
      simp_all
  · rintro rfl
    exact ⟨by simp, by simp, by simp⟩

theorem exists_covers_iff_left {us : List Token} {i : Int} (hus : ∀ u ∈ us, i < u.position) :
    (∃ t ∈ ts ++ us, t.Covers i) ↔ ∃ t ∈ ts, t.Covers i := by
  constructor
  · rintro ⟨t, ht, hcov⟩
    rcases List.mem_append.1 ht with ht | ht
    · exact ⟨t, ht, hcov⟩
    · exact absurd hcov.1 (by have := hus t ht; omega)
  · rintro ⟨t, ht, hcov⟩
    exact ⟨t, List.mem_append_left _ ht, hcov⟩

theorem exists_covers_iff_right {us : List Token} {i : Int} (hts : ∀ t ∈ ts, t.stop ≤ i) :
    (∃ t ∈ ts ++ us, t.Covers i) ↔ ∃ u ∈ us, u.Covers i := by
  constructor
  · rintro ⟨t, ht, hcov⟩
    rcases List.mem_append.1 ht with ht | ht
    · exact absurd hcov.2 (by have := hts t ht; omega)
    · exact ⟨t, ht, hcov⟩
  · rintro ⟨u, hu, hcov⟩
    exact ⟨u, List.mem_append_right _ hu, hcov⟩

theorem append_iff {p : List Char} {us : List Token}
    (hfits : ∀ t ∈ ts, t.Fits start (p ++ cs) ∧ t.stop ≤ start + p.length)
    (hordered : ts.Pairwise fun t u => t.stop ≤ u.position)
    (hcovered : ∀ before c after, p = before ++ c :: after →
      ((∃ t ∈ ts, t.Covers (start + before.length)) ↔ ¬isBlank c))
    (hus : ∀ u ∈ us, start + p.length ≤ u.position) :
    Tokenization start (p ++ cs) (ts ++ us) ↔ Tokenization (start + p.length) cs us := by
  have behind (n : Nat) : (∃ t ∈ ts ++ us, t.Covers (start + (p.length + n : Nat))) ↔
      ∃ u ∈ us, u.Covers ((start + p.length : Nat) + n) := by
    rw [exists_covers_iff_right fun t ht => by have := (hfits t ht).2; omega]
    simp [Int.add_assoc]
  have within {n : Nat} (hn : n < p.length) : (∃ t ∈ ts ++ us, t.Covers (start + n)) ↔
      ∃ t ∈ ts, t.Covers (start + n) :=
    exists_covers_iff_left fun u hu => by have := hus u hu; omega
  constructor
  · intro h
    refine ⟨fun u hu => (Token.Fits.append_iff (hus u hu)).1 (h.fits u (by simp [hu])),
      (List.pairwise_append.1 h.ordered).2.1, fun before c after hcs => ?_⟩
    rw [← h.covered (p ++ before) c after (by simp [hcs]), List.length_append, behind]
  · intro h
    refine ⟨fun t ht => ?_, ?_, fun before c after hcs => ?_⟩
    · rcases List.mem_append.1 ht with ht | ht
      · exact (hfits t ht).1
      · exact (Token.Fits.append_iff (hus t ht)).2 (h.fits t ht)
    · refine List.pairwise_append.2 ⟨hordered, h.ordered, fun t ht u hu => ?_⟩
      have := (hfits t ht).2
      have := hus u hu
      omega
    · by_cases hlen : p.length ≤ before.length
      · obtain ⟨r, rfl, hr⟩ := exists_append_of_length_le hcs hlen
        rw [← h.covered r c after hr, List.length_append, behind]
      · have hcs : before ++ [c] ++ after = p ++ cs := by simp [hcs]
        obtain ⟨r, rfl, -⟩ := exists_append_of_length_le hcs (by simp; omega)
        rw [← hcovered before c r (by simp), within (by omega)]

theorem blank_iff {c : Char} (hc : isBlank c) :
    Tokenization start (c :: cs) ts ↔ Tokenization (start + 1) cs ts := by
  have key (h : ∀ t ∈ ts, start + 1 ≤ t.position) :
      Tokenization start ([c] ++ cs) ([] ++ ts) ↔ Tokenization (start + 1) cs ts := by
    refine append_iff (by simp) (by simp) (fun before d after hcs => ?_) (by simpa using h)
    obtain ⟨rfl, hd⟩ := List.append_eq_singleton_iff.1 hcs.symm |>.resolve_right (by simp)
    simp_all
  constructor
  · intro h
    refine (key fun t ht => ?_).1 h
    have hne : t.position ≠ start := fun hpos => by
      simp [((h.fits t ht).eq_of_position_eq hpos).1] at hc
    have := (h.fits t ht).le_position
    omega
  · intro h
    refine (key fun t ht => ?_).2 h
    simpa using (h.fits t ht).le_position

theorem cons_iff {t : Token} (ht : t.Fits start (t.text.toList ++ cs)) (hpos : t.position = start)
    {us : List Token} (hus : ∀ u ∈ us, t.stop ≤ u.position) :
    Tokenization start (t.text.toList ++ cs) (t :: us) ↔
      Tokenization (start + t.text.toList.length) cs us := by
  have hstop : t.stop = start + t.text.toList.length := by rw [Token.stop, hpos, String.length_toList]
  change Tokenization start _ ([t] ++ us) ↔ _
  refine append_iff (by simp [ht, hstop]) (by simp) (fun before c after htext => ?_)
    (by simpa [hstop] using hus)
  have hc : isBlank c = false := ht.shape.isBlank_eq_false (by simp [htext])
  have hlt : before.length < t.text.toList.length := by simp [htext]
  simp only [List.mem_singleton, exists_eq_left, hc, Token.Covers]
  simp
  omega

theorem token_iff {c : Char} (hc : isBlank c = false) :
    Tokenization start (c :: cs) ts ↔ ∃ us,
      ts = ⟨.ofChar c, String.ofList (c :: cs.take ((Token.Kind.ofChar c).extent cs)), start⟩ :: us ∧
        Tokenization (start + 1 + (Token.Kind.ofChar c).extent cs)
          (cs.drop ((Token.Kind.ofChar c).extent cs)) us := by
  have hfits := Token.Fits.of_ofChar hc start cs
  have hextent := (Token.Kind.ofChar c).extent_le cs
  have honly {t : Token} (ht : t.Fits start (c :: cs)) (hpos : t.position = start) :=
    (ht.eq_of_position_eq hpos).2
  generalize (Token.Kind.ofChar c).extent cs = n at *
  generalize ht : (⟨.ofChar c, String.ofList (c :: cs.take n), start⟩ : Token) = t at *
  have hpos : t.position = start := by simp [← ht]
  have htext : t.text.toList ++ cs.drop n = c :: cs := by simp [← ht]
  have hlen : start + t.text.toList.length = start + 1 + n := by
    rw [← ht, String.toList_ofList, List.length_cons, List.length_take_of_le hextent]
    omega
  have hstop : t.stop = (start + 1 + n : Nat) := by rw [Token.stop, hpos, ← hlen, String.length_toList]; rfl
  rw [← htext] at hfits honly ⊢
  rw [← hlen]
  constructor
  · intro h
    obtain ⟨u, hu, hcov⟩ := (h.covered [] c cs htext).2 (by simp [hc])
    obtain rfl : u = t := by
      refine honly (h.fits u hu) ?_
      have := (h.fits u hu).le_position
      have := hcov.1
      simp at this
      omega
    cases ts with
    | nil => simp at hu
    | cons v us =>
      have hord := List.pairwise_cons.1 h.ordered
      rcases List.mem_cons.1 hu with rfl | hu
      · exact ⟨us, rfl, (cons_iff hfits hpos hord.1).1 h⟩
      · have := hord.1 u hu
        have := (h.fits v (by simp)).le_position
        have := (h.fits v (by simp)).position_lt_stop
        omega
  · rintro ⟨us, rfl, h⟩
    refine (cons_iff hfits hpos fun u hu => ?_).2 h
    have := (h.fits u hu).le_position
    omega

theorem iff_eq_scanFrom : Tokenization start cs ts ↔ ts = Token.scanFrom 0 start cs := by
  induction start, cs using Token.scan_induction generalizing ts with
  | nil start => exact nil_iff
  | blank start c cs hc ih =>
    rw [Token.scanFrom_cons_of_isBlank hc, blank_iff hc]
    exact ih
  | token start c cs hc ih =>
    rw [Token.scanFrom_cons hc, token_iff hc]
    simp only [ih]
    exact ⟨by rintro ⟨us, rfl, rfl⟩; rfl, fun h => ⟨_, h, rfl⟩⟩

theorem of_scanFrom (start : Nat) (cs : List Char) : Tokenization start cs (Token.scanFrom 0 start cs) :=
  iff_eq_scanFrom.2 rfl

end Tokenization

/-- The strict list is the only tokenization, the lenient one leaves the stray tokens out where they
stand, and a text without tokens is refused. -/
theorem tokenization_iff_eq_ofString (s : String) :
    (∀ ts, Tokenization 0 s.toList ts ↔ ts = Token.ofString true s) ∧
      Token.ofString false s = (Token.ofString true s).filter (·.kind ≠ .stray) ∧
      ∀ settings strict, Calculator.tokens settings strict s =
        if Token.ofString (strict.getD settings.strict) s = [] then .error (.noTokens s)
        else .ok (Token.ofString (strict.getD settings.strict) s) := by
  refine ⟨fun ts => Tokenization.iff_eq_scanFrom, rfl, fun settings strict => ?_⟩
  simp only [Calculator.tokens, List.isEmpty_iff]

end InfixCalc
