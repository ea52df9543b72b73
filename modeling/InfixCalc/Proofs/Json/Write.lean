import InfixCalc.Proofs.Json.Number

namespace InfixCalc.Json

open Decimal

theorem isChar_unicode {c : Char} (hc : c.toNat < 0x20) :
    IsChar ('\\' :: 'u' :: (Nat.toDigits 16 c.toNat).leftpad 4 '0') := by
  have hall : (List.range 0x20).all fun n => ((Nat.toDigits 16 n).leftpad 4 '0').length = 4 ∧
      ((Nat.toDigits 16 n).leftpad 4 '0').all (hexDigits.contains ·) := by decide
  obtain ⟨hlength, hhex⟩ := of_decide_eq_true (List.all_eq_true.1 hall c.toNat (List.mem_range.2 hc))
  exact .unicode hlength fun d hd => List.contains_iff_mem.1 (List.all_eq_true.1 hhex d hd)

theorem isChar_escape (c : Char) : IsChar (escape c) := by
  unfold escape
  split
  case h_8 hquote hslash _ _ _ _ _ =>
    split
    · next hlow => exact isChar_unicode hlow
    · next hlow => exact .unescaped (by omega) hquote hslash
  all_goals exact .escaped (by decide)

theorem isChars_flatMap (cs : List Char) : IsChars (cs.flatMap escape) := by
  induction cs with
  | nil => exact .nil
  | cons c cs ih =>
    rw [List.flatMap_cons]
    exact .append (isChar_escape c) ih

theorem isString_string (s : String) : IsString (string s) := .quoted (isChars_flatMap s.toList)

def Scalar.Finite : Scalar → Prop
  | .number x => (Binary64.ofFloat x).isFinite
  | .bool _ | .string _ => True

theorem derives_write {v : Scalar} (h : v.Finite) : Derives .value v.write := by
  cases v with
  | bool b =>
    cases b with
    | true => exact .word (w := "true") (by decide)
    | false => exact .word (w := "false") (by decide)
  | number x => exact .number (isNumber_number_of_isFinite h)
  | string s => exact .string (isString_string s)

theorem derives_member {m : String × Scalar} (h : m.2.Finite) : Derives .member (member m) := by
  have hmark : IsMark ':' [':', ' '] := .intro isSpace_nil (show IsSpace [' '] from rfl)
  exact .member (isString_string m.1) hmark (derives_write h)

def separator : List Char := [',', '\n', ' ', ' ']

theorem derives_members {ms : List (String × Scalar)} (hne : ms ≠ []) (h : ∀ m ∈ ms, m.2.Finite) :
    Derives .members (separator.intercalate (ms.map member)) := by
  induction ms with
  | nil => exact absurd rfl hne
  | cons m ms ih =>
    obtain ⟨hm, hms⟩ := List.forall_mem_cons.1 h
    cases ms with
    | nil =>
      rw [List.map_singleton, List.intercalate_singleton]
      exact .lastMember (derives_member hm)
    | cons m' ms =>
      have hmark : IsMark ',' separator := .intro isSpace_nil (show IsSpace ['\n', ' ', ' '] from rfl)
      rw [List.map_cons, List.map_cons, List.intercalate_cons_cons, List.append_assoc]
      exact .moreMembers (derives_member hm) hmark (ih (List.cons_ne_nil _ _) hms)

theorem Closed.intercalate {sep : List Char} (hsep : Closed sep) {texts : List (List Char)}
    (h : ∀ t ∈ texts, Closed t) : Closed (sep.intercalate texts) ∧
      ∀ t ∈ texts, unquoted false t ⊆ unquoted false (sep.intercalate texts) := by
  induction texts with
  | nil => exact ⟨fun _ => rfl, List.forall_mem_nil _⟩
  | cons t texts ih =>
    obtain ⟨ht, htexts⟩ := List.forall_mem_cons.1 h
    obtain ⟨hclosed, hsubset⟩ := ih htexts
    cases texts with
    | nil =>
      rw [List.intercalate_singleton]
      exact ⟨ht, by simp⟩
    | cons t' texts =>
      rw [List.intercalate_cons_cons]
      refine ⟨(ht.append hsep).append hclosed, ?_⟩
      rw [ht.append hsep, ht]
      refine List.forall_mem_cons.2 ⟨by simp, fun u hu => ?_⟩
      exact List.subset_append_of_subset_right _ (hsubset u hu)

theorem closed_write (v : Scalar) :
    Closed v.write ∧ (¬v.Finite → ∃ c ∈ unquoted false v.write, c ∉ letters) := by
  by_cases h : v.Finite
  · exact ⟨(Lettered.of_derives (derives_write h)).closed, fun hnot => absurd h hnot⟩
  · cases v with
    | bool | string => exact absurd trivial h
    | number x =>
      obtain ⟨hquote, c, hc, hletter⟩ := exists_mem_number_of_not_isFinite h
      refine ⟨closed_of_not_mem hquote, fun _ => ⟨c, ?_, hletter⟩⟩
      rwa [Scalar.write, unquoted_eq_self hquote]

theorem closed_member (m : String × Scalar) :
    Closed (member m) ∧ unquoted false m.2.write ⊆ unquoted false (member m) := by
  have hkey := (isString_string m.1).closed
  have hmark : Closed [':', ' '] := closed_of_not_mem (by decide)
  have heq : member m = string m.1 ++ [':', ' '] ++ m.2.write := by
    rw [List.append_assoc]
    rfl
  rw [heq]
  refine ⟨(hkey.append hmark).append (closed_write m.2).1, ?_⟩
  rw [hkey.append hmark]
  exact List.subset_append_right _ _

theorem object_eq {ms : List (String × Scalar)} (hne : ms ≠ []) :
    object ms = ['{', '\n', ' ', ' '] ++ (separator.intercalate (ms.map member) ++ ['\n', '}']) := by
  rw [object, if_neg (by simpa using hne), List.append_assoc]
  rfl

theorem isText_object {ms : List (String × Scalar)} (h : ∀ m ∈ ms, m.2.Finite) (b : List Char)
    (hb : IsSpace b) : IsText (object ms ++ b) := by
  have hopen : IsMark '{' ['{', '\n', ' ', ' '] :=
    .intro isSpace_nil (show IsSpace ['\n', ' ', ' '] from rfl)
  have hclose : IsMark '}' ['\n', '}'] := .intro (show IsSpace ['\n'] from rfl) isSpace_nil
  have hvalue : Derives .value (object ms) := by
    by_cases hne : ms = []
    · subst hne
      exact .emptyObject (.intro isSpace_nil isSpace_nil) (.intro isSpace_nil isSpace_nil)
    · rw [object_eq hne]
      exact .object hopen (derives_members hne h) hclose
  exact .intro isSpace_nil hvalue hb

theorem isText_object_append_iff (ms : List (String × Scalar)) {b : List Char} (hb : IsSpace b) :
    IsText (object ms ++ b) ↔ ∀ m ∈ ms, m.2.Finite := by
  refine ⟨fun htext m hm => ?_, fun h => isText_object h b hb⟩
  by_contra hnot
  obtain ⟨c, hc, hletter⟩ := (closed_write m.2).2 hnot
  have hmembers := Closed.intercalate (closed_of_not_mem (by decide : '"' ∉ separator))
    (List.forall_mem_map.2 fun m (_ : m ∈ ms) => (closed_member m).1)
  have hwithin := hmembers.2 _ (List.mem_map_of_mem hm) ((closed_member m).2 hc)
  have hopen : Closed ['{', '\n', ' ', ' '] := closed_of_not_mem (by decide)
  rw [object_eq (List.ne_nil_of_mem hm), List.append_assoc, List.append_assoc] at htext
  have hall := (Lettered.of_isText htext).mem_letters
  rw [hopen, hmembers.1] at hall
  exact hletter (hall c (by simp [hwithin]))

end InfixCalc.Json
