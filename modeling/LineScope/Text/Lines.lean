/-! Lines with their terminators attached. -/
namespace LineScope.Text

/-- Cuts after every line feed; only the last line may lack one, and no line is empty. -/
def splitLines : List Char → List (List Char)
  | [] => []
  | c :: cs =>
    if c = '\n' then [c] :: splitLines cs
    else match splitLines cs with
      | [] => [[c]]
      | line :: lines => (c :: line) :: lines

theorem flatten_splitLines (cs : List Char) : (splitLines cs).flatten = cs := by
  induction cs with
  | nil => rfl
  | cons c cs ih =>
    simp only [splitLines]
    split
    · simp [ih]
    · split
      · next h => simp_all
      · next h => simp_all

def lines (s : String) : List String := (splitLines s.toList).map String.ofList

end LineScope.Text
