/-!
# Splitting at line ends

- `splitLines`: the lines of a run of characters or bytes, each with the line end that closes it.
-/

namespace TreeScript.Text

/-- Cuts a list behind each element that ends a line.  No line is empty. -/
def splitLines {α : Type} (isEnd : α → Bool) (xs : List α) : List (List α) :=
  xs.foldr (fun x lines =>
    if isEnd x then [x] :: lines
    else
      match lines with
      | [] => [[x]]
      | line :: rest => (x :: line) :: rest) []

/-- Nothing is lost or moved. -/
theorem flatten_splitLines {α : Type} (isEnd : α → Bool) (xs : List α) :
    (splitLines isEnd xs).flatten = xs := by
  induction xs with
  | nil => rfl
  | cons x xs ih =>
    simp only [splitLines, List.foldr_cons] at ih ⊢
    split
    · simp [ih]
    · split <;> simp_all

end TreeScript.Text
