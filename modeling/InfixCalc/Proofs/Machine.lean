namespace InfixCalc.Machine

variable {σ ι ω : Type} (step : σ → ι → σ × ω)

def after (s : σ) (is : List ι) : σ := is.foldl (fun s i => (step s i).1) s

def answers (s : σ) : List ι → List ω
  | [] => []
  | i :: is => (step s i).2 :: answers (step s i).1 is

@[simp] theorem after_nil (s : σ) : after step s [] = s := rfl

@[simp] theorem after_cons (s : σ) (i : ι) (is : List ι) :
    after step s (i :: is) = after step (step s i).1 is := rfl

@[simp] theorem after_append (s : σ) (is js : List ι) :
    after step s (is ++ js) = after step (after step s is) js := List.foldl_append

@[simp] theorem answers_cons (s : σ) (i : ι) (is : List ι) :
    answers step s (i :: is) = (step s i).2 :: answers step (step s i).1 is := rfl

theorem getElem?_answers (s : σ) (is : List ι) (n : Nat) :
    (answers step s is)[n]? = is[n]?.map fun i => (step (after step s (is.take n)) i).2 := by
  induction is generalizing s n with
  | nil => rfl
  | cons i is ih =>
    cases n with
    | zero => rfl
    | succ n => simpa using ih (step s i).1 n

end InfixCalc.Machine
