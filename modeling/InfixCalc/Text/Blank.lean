namespace InfixCalc.Text

def blanks : List Char := [' ', '\t', '\n', '\x0b', '\x0c', '\r']

def isBlank (c : Char) : Bool := blanks.contains c

/-- The other code points that count as white space at the ends of a line, as closed ranges. -/
def spaceRanges : List (Nat × Nat) :=
  [(0x1C, 0x1F), (0x85, 0x85), (0xA0, 0xA0), (0x1680, 0x1680), (0x2000, 0x200A), (0x2028, 0x2029),
    (0x202F, 0x202F), (0x205F, 0x205F), (0x3000, 0x3000)]

def isSpace (c : Char) : Bool :=
  isBlank c || spaceRanges.any fun r => r.1 ≤ c.toNat && c.toNat ≤ r.2

def strip (p : Char → Bool) (cs : List Char) : List Char :=
  ((cs.dropWhile p).reverse.dropWhile p).reverse

def trim (s : String) : String := String.ofList (strip isSpace s.toList)

def squeeze (s : String) : String := String.ofList (s.toList.filter (· ≠ ' '))

@[simp] theorem toList_squeeze (s : String) : (squeeze s).toList = s.toList.filter (· ≠ ' ') := by
  simp [squeeze]

/-- The lines of a text stream: `\r\n` and a lone `\r` end a line as `\n` does, and an unfinished last
line counts. -/
def linesFrom (line : List Char) : List Char → List (List Char)
  | [] => if line.isEmpty then [] else [line.reverse]
  | '\r' :: '\n' :: cs => line.reverse :: linesFrom [] cs
  | c :: cs => if c = '\n' ∨ c = '\r' then line.reverse :: linesFrom [] cs else linesFrom (c :: line) cs

def lines (s : String) : List String := (linesFrom [] s.toList).map String.ofList

theorem linesFrom_append (line : List Char) {cs : List Char} (hn : '\n' ∉ cs) (hr : '\r' ∉ cs)
    (rest : List Char) : linesFrom line (cs ++ '\n' :: rest) = (line.reverse ++ cs) :: linesFrom [] rest := by
  induction cs generalizing line with
  | nil => simp [linesFrom]
  | cons c cs ih =>
    obtain ⟨hcn, hn⟩ := List.ne_and_not_mem_of_not_mem_cons hn
    obtain ⟨hcr, hr⟩ := List.ne_and_not_mem_of_not_mem_cons hr
    rw [List.cons_append, linesFrom, if_neg (by simp [hcn.symm, hcr.symm]), ih _ hn hr]
    · simp
    · simp [hcr.symm]

theorem lines_join {ls : List String} (h : ∀ l ∈ ls, '\n' ∉ l.toList ∧ '\r' ∉ l.toList) :
    lines (String.join (ls.map (· ++ "\n"))) = ls := by
  rw [lines, String.toList_join]
  induction ls with
  | nil => rfl
  | cons l ls ih =>
    obtain ⟨⟨hn, hr⟩, hls⟩ := List.forall_mem_cons.1 h
    simpa [linesFrom_append [] hn hr] using ih hls

end InfixCalc.Text
