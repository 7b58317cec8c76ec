import LineScope.Diff.Script

/-! Scripts by divide and conquer: the search for a shortest script runs from both corners of a box,
and where the two sides meet the box is split. -/
namespace LineScope.Diff

/-- For each diagonal, the furthest position reached; diagonal `k` is entry `k + middle`. -/
structure Frontier where
  reached : Array Nat
  middle : Nat

namespace Frontier

def start (middle : Nat) : Frontier := ⟨Array.replicate (2 * middle + 2) 0, middle⟩

def on (f : Frontier) (k : Int) : Nat := f.reached.getD (k + f.middle).toNat 0

def set (f : Frontier) (k : Int) (x : Nat) : Frontier :=
  { f with reached := f.reached.setIfInBounds (k + f.middle).toNat x }

def enter (f : Frontier) (d k : Int) : Nat :=
  if k = -d ∨ (k ≠ d ∧ f.on (k - 1) < f.on (k + 1)) then f.on (k + 1) else f.on (k - 1) + 1

end Frontier

def Box.delta (box : Box) : Int := (box.oldLength : Int) - box.newLength

/-- One diagonal from the upper left. The two sides meet at the start of the run of equal lines. -/
def forwardStep (v : Versions) (box : Box) (backward : Frontier) (d : Nat) (f : Frontier)
    (k : Int) : Except (Nat × Nat) Frontier :=
  let x := f.enter d k
  let y := ((x : Int) - k).toNat
  let i := box.oldStart + x
  let j := box.newStart + y
  let reach := x + v.commonStart ⟨i, box.oldStop, j, box.newStop⟩
  let met := box.delta % 2 = 1 ∧ (k - box.delta).natAbs + 1 ≤ d ∧
    box.oldLength ≤ reach + backward.on (box.delta - k)
  if met then .error (i, j) else .ok (f.set k reach)

def backwardStep (v : Versions) (box : Box) (forward : Frontier) (d : Nat) (f : Frontier)
    (k : Int) : Except (Nat × Nat) Frontier :=
  let x := f.enter d k
  let y := ((x : Int) - k).toNat
  let run := v.commonEnd ⟨box.oldStart, box.oldStop - x, box.newStart, box.newStop - y⟩
  let reach := x + run
  let met := box.delta % 2 = 0 ∧ (k - box.delta).natAbs ≤ d ∧
    box.oldLength ≤ reach + forward.on (box.delta - k)
  if met then .error (box.oldStop - reach, box.newStop - (y + run)) else .ok (f.set k reach)

/-- The diagonals that `d` edits can end on, highest first. -/
def diagonals (d : Nat) : List Int := (List.range (d + 1)).map fun (i : Nat) => (d : Int) - 2 * i

/-- Rounds of one more edit on either side, until the sides meet. -/
def meet? (v : Versions) (box : Box) (forward backward : Frontier) (d : Nat) :
    Nat → Option (Nat × Nat)
  | 0 => none
  | rounds + 1 =>
    match (diagonals d).foldlM (forwardStep v box backward d) forward with
    | .error point => some point
    | .ok forward =>
      match (diagonals d).foldlM (backwardStep v box forward d) backward with
      | .error point => some point
      | .ok backward => meet? v box forward backward (d + 1) rounds

def meeting? (v : Versions) (box : Box) : Option (Nat × Nat) :=
  let rounds := (box.size + 1) / 2 + 1
  meet? v box (.start rounds) (.start rounds) 0 rounds

/-- A point of the box other than its two ends. -/
def Box.Splits (box : Box) (i j : Nat) : Prop :=
  box.oldStart ≤ i ∧ i ≤ box.oldStop ∧ box.newStart ≤ j ∧ j ≤ box.newStop ∧
    box.oldStart + box.newStart < i + j ∧ i + j < box.oldStop + box.newStop

instance (box : Box) (i j : Nat) : Decidable (box.Splits i j) := by
  unfold Box.Splits
  infer_instance

/-- Where to split a box; one with lines on one side only is not split. -/
def split? (v : Versions) (box : Box) : Option (Nat × Nat) :=
  if box.oldStart < box.oldStop ∧ box.newStart < box.newStop then
    (meeting? v box).filter fun point => box.Splits point.1 point.2
  else none

theorem splits_of_split? {v : Versions} {box : Box} {i j : Nat} (h : split? v box = some (i, j)) :
    box.Splits i j := by
  unfold split? at h
  split at h
  · simpa using (Option.filter_eq_some_iff.1 h).2
  · simp at h

/-- What lies between the equal lines at the start and at the end of a box. -/
def Versions.core (v : Versions) (box : Box) : Box :=
  (box.dropFirst (v.commonStart box)).dropLast (v.commonEnd (box.dropFirst (v.commonStart box)))

theorem Versions.core_size_le (v : Versions) (box : Box) : (v.core box).size ≤ box.size := by
  simp only [core, Box.dropFirst, Box.dropLast, Box.size, Box.oldLength, Box.newLength]
  omega

theorem Box.Splits.size_lt {box : Box} {i j : Nat} (h : box.Splits i j) :
    Box.size ⟨box.oldStart, i, box.newStart, j⟩ < box.size ∧
      Box.size ⟨i, box.oldStop, j, box.newStop⟩ < box.size := by
  obtain ⟨h1, h2, h3, h4, h5, h6⟩ := h
  simp only [Box.size, Box.oldLength, Box.newLength]
  omega

/-- Equal lines at both ends are kept. What lies between is split for as long as both sides have
lines there, and replaced after that. -/
def myers (v : Versions) (box : Box) : List Op :=
  Op.keeping box.oldStart box.newStart (v.commonStart box) ++
    (match _h : split? v (v.core box) with
    | none => Op.replacing (v.core box)
    | some (i, j) =>
      myers v ⟨(v.core box).oldStart, i, (v.core box).newStart, j⟩ ++
        myers v ⟨i, (v.core box).oldStop, j, (v.core box).newStop⟩) ++
    Op.keeping (v.core box).oldStop (v.core box).newStop
      (v.commonEnd (box.dropFirst (v.commonStart box)))
termination_by box.size
decreasing_by
  · exact Nat.lt_of_lt_of_le (splits_of_split? _h).size_lt.1 (v.core_size_le box)
  · exact Nat.lt_of_lt_of_le (splits_of_split? _h).size_lt.2 (v.core_size_le box)

end LineScope.Diff
