import InfixCalc.Arguments.Read
import InfixCalc.Proofs.Rpn.Failure

namespace InfixCalc.Arguments

def Bundle.options (b : Bundle) (text : Option String) : List (Flag × Option String) :=
  b.before.map (·, none) ++ [(b.last, text)]

def spelled (awaiting : Option Bundle) : List Word → List (Flag × Option String)
  | [] => []
  | w :: ws =>
    match awaiting, w with
    | some b, .plain s => b.options (some s) ++ spelled none ws
    | none, .flag f name attached =>
      match Bundle.ofFlag f name attached with
      | .ok b =>
        if b.last.takesValue && b.attached.isNone then spelled (some b) ws
        else b.options b.attached ++ spelled none ws
      | .error _ => spelled none ws
    | _, _ => spelled none ws

def options (arguments : List String) : List (Flag × Option String) :=
  match Word.ofList arguments with
  | .ok ws => spelled none ws
  | .error _ => []

def follow (a : Arguments) (o : Flag × Option String) : Except Stop Arguments :=
  match o.2 with
  | some text => o.1.assign text a
  | none => o.1.raise a

namespace Reading

theorem complete_eq (r : Reading) (b : Bundle) (text : Option String) : r.complete b text =
    ((b.options text).foldlM follow r.arguments).map fun a => { r with arguments := a, awaiting := none } := by
  rw [complete, Bundle.options, List.foldlM_append, List.foldlM_map]
  simp only [follow]
  cases b.before.foldlM (fun a f => f.raise a) r.arguments with
  | error stop => rfl
  | ok a =>
    cases text with
    | none => cases h : b.last.raise a <;> simp [h, follow, bind, Except.bind, Except.map, pure, Except.pure]
    | some text => cases h : b.last.assign text a <;> simp [h, follow, bind, Except.bind, Except.map, pure, Except.pure]

theorem exists_of_complete_eq_ok {r r' : Reading} {b : Bundle} {text : Option String}
    (h : r.complete b text = .ok r') : ∃ a, (b.options text).foldlM follow r.arguments = .ok a ∧
      r' = { r with arguments := a, awaiting := none } := by
  rw [complete_eq] at h
  cases hfollow : (b.options text).foldlM follow r.arguments with
  | error stop => rw [hfollow] at h; cases h
  | ok a =>
    rw [hfollow] at h
    exact ⟨a, rfl, (Except.ok.inj h).symm⟩

theorem finish_eq_ok_iff {r : Reading} {a : Arguments} : r.finish = .ok a ↔ r = { arguments := a } := by
  obtain ⟨arguments, extras, awaiting⟩ := r
  cases awaiting <;> cases extras <;> simp [finish]

theorem accept_cases {r r' : Reading} {w : Word} (h : r.accept w = .ok r') :
    (∃ b s, r.awaiting = some b ∧ w = .plain s ∧ r.complete b (some s) = .ok r') ∨
    (r.awaiting = none ∧ (∀ f name attached, w ≠ .flag f name attached) ∧ ∃ s, r' = r.extra s) ∨
    ∃ f name attached b, r.awaiting = none ∧ w = .flag f name attached ∧
      Bundle.ofFlag f name attached = .ok b ∧
      if b.last.takesValue && b.attached.isNone then r' = { r with awaiting := some b }
      else r.complete b b.attached = .ok r' := by
  obtain ⟨arguments, extras, awaiting⟩ := r
  cases awaiting with
  | some b =>
    cases w with
    | plain s => exact .inl ⟨b, s, rfl, rfl, h⟩
    | flag | unknown | dashes => cases h
  | none =>
    cases w with
    | plain s | unknown s => exact .inr (.inl ⟨rfl, nofun, s, (Except.ok.inj h).symm⟩)
    | dashes => exact .inr (.inl ⟨rfl, nofun, "--", (Except.ok.inj h).symm⟩)
    | flag f name attached =>
      obtain ⟨b, hb, h⟩ := exists_of_bind_eq_ok h
      refine .inr (.inr ⟨f, name, attached, b, rfl, rfl, hb, ?_⟩)
      split at h
      · next hawaits => rw [if_pos hawaits]; exact (Except.ok.inj h).symm
      · next hawaits => rw [if_neg hawaits]; exact h

theorem extras_of_foldlM {r r' : Reading} {ws : List Word} (h : ws.foldlM accept r = .ok r')
    (hr' : r'.extras = []) : r.extras = [] ∧ .dashes ∉ ws := by
  induction ws generalizing r with
  | nil =>
    cases h
    exact ⟨hr', List.not_mem_nil⟩
  | cons w ws ih =>
    rw [List.foldlM_cons] at h
    obtain ⟨r₁, haccept, h⟩ := exists_of_bind_eq_ok h
    obtain ⟨hextras, hdashes⟩ := ih h
    rw [List.mem_cons, not_or]
    rcases accept_cases haccept with ⟨b, s, -, rfl, hcomplete⟩ | ⟨-, -, s, rfl⟩ |
      ⟨f, name, attached, b, -, rfl, -, hflag⟩
    · obtain ⟨a, -, rfl⟩ := exists_of_complete_eq_ok hcomplete
      exact ⟨hextras, nofun, hdashes⟩
    · cases hextras
    · split at hflag
      · subst hflag
        exact ⟨hextras, nofun, hdashes⟩
      · obtain ⟨a, -, rfl⟩ := exists_of_complete_eq_ok hflag
        exact ⟨hextras, nofun, hdashes⟩

theorem foldlM_spelled {r : Reading} {ws : List Word} {a : Arguments}
    (h : ws.foldlM accept r = .ok { arguments := a }) :
    (spelled r.awaiting ws).foldlM follow r.arguments = .ok a := by
  induction ws generalizing r with
  | nil =>
    cases h
    rfl
  | cons w ws ih =>
    rw [List.foldlM_cons] at h
    obtain ⟨r₁, haccept, h⟩ := exists_of_bind_eq_ok h
    have hrest := ih h
    rcases accept_cases haccept with ⟨b, s, hawaiting, rfl, hcomplete⟩ | ⟨hawaiting, -, s, rfl⟩ |
      ⟨f, name, attached, b, hawaiting, rfl, hb, hflag⟩
    · obtain ⟨a₁, hfollow, rfl⟩ := exists_of_complete_eq_ok hcomplete
      rw [hawaiting, spelled, List.foldlM_append, hfollow]
      exact hrest
    · cases (extras_of_foldlM h rfl).1
    · rw [hawaiting, spelled, hb]
      split at hflag
      · next hawaits =>
        subst hflag
        simp only [if_pos hawaits]
        exact hrest
      · next hawaits =>
        obtain ⟨a₁, hfollow, rfl⟩ := exists_of_complete_eq_ok hflag
        simp only [if_neg hawaits]
        rw [List.foldlM_append, hfollow]
        exact hrest

end Reading

theorem foldlM_options {arguments : List String} {a : Arguments} (h : read arguments = .ok a) :
    (options arguments).foldlM follow {} = .ok a := by
  obtain ⟨ws, hws, h⟩ := exists_of_bind_eq_ok h
  obtain ⟨r, hr, hfinish⟩ := exists_of_bind_eq_ok h
  rw [Reading.finish_eq_ok_iff] at hfinish
  subst hfinish
  rw [options, hws]
  exact Reading.foldlM_spelled hr

def lastText? (f : Flag) (os : List (Flag × Option String)) : Option String :=
  (os.filterMap fun o => if o.1 = f then o.2 else none).getLast?

theorem mem_of_lastText? {f : Flag} {os : List (Flag × Option String)} {text : String}
    (h : lastText? f os = some text) : (f, some text) ∈ os := by
  obtain ⟨⟨g, t⟩, hmem, hsome⟩ := List.mem_filterMap.1 (List.mem_of_getLast? h)
  obtain ⟨rfl, rfl⟩ : g = f ∧ t = some text := by simpa using hsome
  exact hmem

theorem lastText?_cons (f : Flag) (o : Flag × Option String) (os : List (Flag × Option String)) :
    lastText? f (o :: os) = (lastText? f os).or (if o.1 = f then o.2 else none) := by
  rw [lastText?, lastText?, List.filterMap_cons]
  cases hfirst : if o.1 = f then o.2 else none with
  | none => simp
  | some text => cases hrest : (List.filterMap _ os).getLast? <;> simp [List.getLast?_cons, hrest]

theorem follow_frame {a a' : Arguments} {o : Flag × Option String} (h : follow a o = .ok a') :
    ((o.1 = .precision → o.2 = none) → a'.precision = a.precision) ∧
    ((o.1 = .logLevel → o.2 = none) → a'.logLevel = a.logLevel) ∧
    ((o.1 = .logFile → o.2 = none) → a'.logFile = a.logFile) ∧
    (a'.strict ↔ a.strict ∨ o = (.strict, none)) := by
  obtain ⟨f, _ | text⟩ := o
  · cases f <;> cases h <;> simp
  · cases f with
    | eval | format | precision | logLevel | logFile =>
      obtain ⟨g, -, h⟩ := exists_of_bind_eq_ok h
      cases h
      simp
    | help | rpn | strict | version | selfCheck =>
      cases h
      simp

section

variable {place : Arguments → Given α} {f : Flag} {reads : String → Except Stop (Given α)}

theorem given_lastText (hassign : ∀ text a a', f.assign text a = .ok a' → Flag.given text reads = .ok (place a'))
    (hkeep : ∀ o a a', follow a o = .ok a' → (o.1 = f → o.2 = none) → place a' = place a)
    {os : List (Flag × Option String)} {a a' : Arguments} (h : os.foldlM follow a = .ok a') :
    (∀ text, lastText? f os = some text → Flag.given text reads = .ok (place a')) ∧
    (lastText? f os = none → place a' = place a) := by
  induction os generalizing a with
  | nil =>
    cases h
    simp [lastText?]
  | cons o os ih =>
    rw [List.foldlM_cons] at h
    obtain ⟨a₁, hfollow, h⟩ := exists_of_bind_eq_ok h
    obtain ⟨hsome, hnone⟩ := ih h
    rw [lastText?_cons]
    cases hlast : lastText? f os with
    | some text => simpa [hlast] using hsome text hlast
    | none =>
      rw [hnone hlast, Option.none_or]
      by_cases hf : o.1 = f
      · obtain ⟨g, _ | text⟩ := o
        · simpa using hkeep _ _ _ hfollow fun _ => rfl
        · cases hf
          simpa using hassign text a a₁ hfollow
      · simpa [hf] using hkeep _ _ _ hfollow fun hf' => absurd hf' hf

theorem place_iff (hassign : ∀ text a a', f.assign text a = .ok a' → Flag.given text reads = .ok (place a'))
    (hkeep : ∀ o a a', follow a o = .ok a' → (o.1 = f → o.2 = none) → place a' = place a)
    (hreads : ∀ text, reads text ≠ .ok .blank) (habsent : place {} = .absent) {arguments : List String}
    {a : Arguments} (h : read arguments = .ok a) :
    (place a = .blank ↔ lastText? f (options arguments) = some "--") ∧
    ∀ v, place a = .value v ↔
      ∃ text, lastText? f (options arguments) = some text ∧ text ≠ "--" ∧ reads text = .ok (.value v) := by
  obtain ⟨hsome, hnone⟩ := given_lastText hassign hkeep (foldlM_options h)
  cases hlast : lastText? f (options arguments) with
  | none => simp [hnone hlast, habsent]
  | some text =>
    have hgiven := hsome text hlast
    rw [Flag.given] at hgiven
    split at hgiven
    · next hdashes => simp [← Except.ok.inj hgiven, hdashes]
    · next hdashes =>
      have hplace : place a ≠ .blank := fun hblank => hreads text (hblank ▸ hgiven)
      simp [hplace, hdashes, hgiven]

end

section

variable {arguments : List String} {a : Arguments}

theorem precision_iff (h : read arguments = .ok a) :
    (a.precision = .blank ↔ lastText? .precision (options arguments) = some "--") ∧
    ∀ n, a.precision = .value n ↔
      ∃ text, lastText? .precision (options arguments) = some text ∧ Decimal.integer? text = .ok n := by
  have hassign (text : String) (a a' : Arguments) (h : Flag.precision.assign text a = .ok a') :
      Flag.given text (Flag.integer .precision) = .ok a'.precision := by
    obtain ⟨g, hg, h⟩ := exists_of_bind_eq_ok h
    cases h
    exact hg
  have hreads (text : String) : Flag.integer .precision text ≠ .ok .blank ∧
      ∀ n, Flag.integer .precision text = .ok (.value n) ↔ Decimal.integer? text = .ok n := by
    rw [Flag.integer]
    cases Decimal.integer? text <;> simp
  obtain ⟨hblank, hvalue⟩ := place_iff hassign (fun o a a' hfollow => (follow_frame hfollow).1)
    (fun text => (hreads text).1) rfl h
  have hdashes : Decimal.integer? "--" = .error .malformed := by decide
  refine ⟨hblank, fun n => (hvalue n).trans (exists_congr fun text => and_congr_right fun _ => ?_)⟩
  rw [(hreads text).2]
  refine ⟨fun hn => hn.2, fun hn => ⟨?_, hn⟩⟩
  rintro rfl
  cases hdashes.symm.trans hn

theorem logLevel_eq_blank_iff (h : read arguments = .ok a) :
    a.logLevel = .blank ↔ lastText? .logLevel (options arguments) = some "--" := by
  have hassign (text : String) (a a' : Arguments) (h : Flag.logLevel.assign text a = .ok a') :
      Flag.given text (Flag.choose .logLevel Flag.levels) = .ok a'.logLevel := by
    obtain ⟨g, hg, h⟩ := exists_of_bind_eq_ok h
    cases h
    exact hg
  have hreads (text : String) : Flag.choose .logLevel Flag.levels text ≠ .ok .blank := by
    rw [Flag.choose]
    cases Flag.levels.lookup text <;> simp
  exact (place_iff hassign (fun o a a' hfollow => (follow_frame hfollow).2.1) hreads rfl h).1

theorem logFile_eq_value_iff (h : read arguments = .ok a) (path : String) :
    a.logFile = .value path ↔ lastText? .logFile (options arguments) = some path ∧ path ≠ "--" := by
  have hassign (text : String) (a a' : Arguments) (h : Flag.logFile.assign text a = .ok a') :
      Flag.given text (.ok <| .value ·) = .ok a'.logFile := by
    obtain ⟨g, hg, h⟩ := exists_of_bind_eq_ok h
    cases h
    exact hg
  simpa using (place_iff hassign (fun o a a' hfollow => (follow_frame hfollow).2.2.1) nofun rfl h).2 path

theorem strict_iff (h : read arguments = .ok a) : a.strict ↔ (.strict, none) ∈ options arguments := by
  have hstrict {os : List (Flag × Option String)} {a a' : Arguments} (h : os.foldlM follow a = .ok a') :
      a'.strict ↔ a.strict ∨ (.strict, none) ∈ os := by
    induction os generalizing a with
    | nil =>
      cases h
      simp
    | cons o os ih =>
      rw [List.foldlM_cons] at h
      obtain ⟨a₁, hfollow, h⟩ := exists_of_bind_eq_ok h
      rw [ih h, (follow_frame hfollow).2.2.2, List.mem_cons, or_assoc, eq_comm (a := o)]
  simpa using hstrict (foldlM_options h)

end

theorem follow_task {a a' : Arguments} {o : Flag × Option String} (h : follow a o = .ok a')
    (ho : o.1 ≠ .version ∧ o.1 ≠ .selfCheck ∧ o.1 ≠ .eval) :
    a'.version = a.version ∧ a'.selfCheck = a.selfCheck ∧ a'.expression = a.expression := by
  obtain ⟨f, _ | text⟩ := o
  · cases f <;> cases h <;> simp at ho ⊢
  · cases f with
    | format | precision | logLevel | logFile =>
      obtain ⟨g, -, h⟩ := exists_of_bind_eq_ok h
      cases h
      exact ⟨rfl, rfl, rfl⟩
    | eval => exact absurd rfl ho.2.2
    | help | rpn | strict | version | selfCheck =>
      cases h
      exact ⟨rfl, rfl, rfl⟩

theorem foldlM_follow_task {os : List (Flag × Option String)} {a a' : Arguments}
    (h : os.foldlM follow a = .ok a') (hos : ∀ o ∈ os, o.1 ≠ .version ∧ o.1 ≠ .selfCheck ∧ o.1 ≠ .eval) :
    a'.version = a.version ∧ a'.selfCheck = a.selfCheck ∧ a'.expression = a.expression := by
  induction os generalizing a with
  | nil =>
    cases h
    exact ⟨rfl, rfl, rfl⟩
  | cons o os ih =>
    rw [List.foldlM_cons] at h
    obtain ⟨a₁, hfollow, h⟩ := exists_of_bind_eq_ok h
    obtain ⟨ho, hos⟩ := List.forall_mem_cons.1 hos
    obtain ⟨hversion, hselfCheck, hexpression⟩ := follow_task hfollow ho
    rw [← hversion, ← hselfCheck, ← hexpression]
    exact ih h hos

theorem Word.cut?_append {name : String} (h : '=' ∉ name.toList) (value : String) :
    cut? (name ++ "=" ++ value) = some (name, value) := by
  have hname : ∀ c ∈ name.toList, decide (c ≠ '=') = true := fun c hc =>
    decide_eq_true fun hc' => h (hc' ▸ hc)
  have htext : (name ++ "=" ++ value).toList = name.toList ++ '=' :: value.toList := by simp
  simp only [cut?, htext, List.takeWhile_append_of_pos hname, List.dropWhile_append_of_pos hname]
  simp

theorem Word.ofString_append {name : String} {f : Flag} (h : Flag.ofName? name = some f) (value : String) :
    ofString (name ++ "=" ++ value) = .ok (.flag f name (some value)) := by
  have hnames : ∀ n ∈ Flag.names, n.1.toList.head? = some '-' ∧ '=' ∉ n.1.toList := by decide +kernel
  obtain ⟨before, after, hsplit, -⟩ := List.lookup_eq_some_iff.1 h
  obtain ⟨hhead, hequals⟩ := hnames (name, f) (by simp [hsplit])
  have hmem : '=' ∈ (name ++ "=" ++ value).toList := by simp
  have hnone : Flag.ofName? (name ++ "=" ++ value) = none := by
    rw [Flag.ofName?, List.lookup_eq_none_iff]
    intro n hn
    rw [bne_iff_ne]
    intro heq
    exact (hnames n hn).2 (heq ▸ hmem)
  have hhead' : (name ++ "=" ++ value).toList.head? = some '-' := by simp [hhead]
  have hdash : name ++ "=" ++ value ≠ "-" := fun heq => by simp [heq] at hmem
  rw [ofString, if_neg (not_not_intro hhead'), hnone]
  simp [hdash, cut?_append hequals, h]

theorem Word.ofList_append {ss : List String} {ws : List Word} (h : ofList ss = .ok ws) (hdashes : .dashes ∉ ws)
    {s : String} {w : Word} (hs : s ≠ "--") (hw : ofString s = .ok w) : ofList (ss ++ [s]) = .ok (ws ++ [w]) := by
  induction ss generalizing ws with
  | nil =>
    cases h
    simp [ofList, hs, hw, bind, Except.bind, pure, Except.pure]
  | cons t ss ih =>
    rw [ofList] at h
    split at h
    · cases h
      exact absurd List.mem_cons_self hdashes
    · next ht =>
      obtain ⟨v, hv, h⟩ := exists_of_bind_eq_ok h
      obtain ⟨vs, hvs, h⟩ := exists_of_bind_eq_ok h
      cases h
      rw [List.cons_append, ofList, if_neg ht, hv, ih hvs (List.not_mem_of_not_mem_cons hdashes)]
      rfl

theorem Reading.accept_attached (a : Arguments) {f : Flag} (htakes : f.takesValue) (name value : String) :
    accept { arguments := a } (.flag f name (some value)) =
      (f.assign value a).map fun a => { arguments := a } := by
  have hbundle : Bundle.ofFlag f name (some value) = .ok ⟨[], f, some value⟩ := by
    simp [Bundle.ofFlag, Bundle.ofAttached, htakes]
  have hcomplete : complete { arguments := a } ⟨[], f, some value⟩ (some value) =
      (f.assign value a).map fun a => { arguments := a } := by
    simp [complete_eq, Bundle.options, follow]
  simp [accept, hbundle, hcomplete, bind, Except.bind]

theorem read_append {arguments : List String} {a : Arguments} (h : read arguments = .ok a) {name : String}
    {f : Flag} (hname : Flag.ofName? name = some f) (htakes : f.takesValue) (value : String) :
    read (arguments ++ [name ++ "=" ++ value]) = f.assign value a := by
  obtain ⟨ws, hws, h⟩ := exists_of_bind_eq_ok h
  obtain ⟨r, hr, hfinish⟩ := exists_of_bind_eq_ok h
  rw [Reading.finish_eq_ok_iff] at hfinish
  subst hfinish
  have hdashes := (Reading.extras_of_foldlM hr rfl).2
  have hne : name ++ "=" ++ value ≠ "--" := fun heq => by
    have hmem : '=' ∈ (name ++ "=" ++ value).toList := by simp
    simp [heq] at hmem
  rw [read, Word.ofList_append hws hdashes hne (Word.ofString_append hname value)]
  change ((ws ++ [Word.flag f name (some value)]).foldlM Reading.accept {} >>= Reading.finish) = _
  rw [List.foldlM_append, hr]
  change (Reading.accept { arguments := a } (.flag f name (some value)) >>= pure) >>= Reading.finish = _
  rw [Reading.accept_attached a htakes]
  cases f.assign value a <;> rfl

end InfixCalc.Arguments
