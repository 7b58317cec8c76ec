/-! Inclusive ranges of lines. Lines count from 1, but a range may hold any two numbers. -/
namespace LineScope

structure LineRange where
  start : Nat
  stop : Nat
  deriving DecidableEq, Repr

namespace LineRange

/-- A range that runs backwards covers nothing. -/
def isValid (r : LineRange) : Bool := r.start ≤ r.stop

def length (r : LineRange) : Nat := if r.start ≤ r.stop then r.stop - r.start + 1 else 0

def isEmpty (r : LineRange) : Bool := r.length == 0

def contains (r : LineRange) (line : Nat) : Bool := r.start ≤ line && line ≤ r.stop

def overlaps (r s : LineRange) : Bool := max r.start s.start ≤ min r.stop s.stop

def le (r s : LineRange) : Bool := r.start < s.start || (r.start == s.start && r.stop ≤ s.stop)

def sort (rs : List LineRange) : List LineRange := rs.mergeSort le

def render (r : LineRange) : String := r.start.repr ++ "-" ++ r.stop.repr

theorem isValid_iff {r : LineRange} : r.isValid = true ↔ r.start ≤ r.stop := by simp [isValid]

theorem contains_iff {r : LineRange} {line : Nat} :
    r.contains line = true ↔ r.start ≤ line ∧ line ≤ r.stop := by simp [contains]

theorem length_eq {r : LineRange} (h : r.start ≤ r.stop) : r.length = r.stop - r.start + 1 :=
  if_pos h

theorem length_pos_iff {r : LineRange} : 0 < r.length ↔ r.start ≤ r.stop := by
  unfold length
  split <;> omega

theorem isEmpty_iff {r : LineRange} : r.isEmpty = true ↔ r.stop < r.start := by
  simp only [isEmpty, length, beq_iff_eq]
  split <;> omega

theorem overlaps_iff {r s : LineRange} :
    r.overlaps s = true ↔ ∃ line, r.contains line = true ∧ s.contains line = true := by
  simp only [overlaps, contains_iff, decide_eq_true_eq]
  constructor
  · intro h
    exact ⟨max r.start s.start, by omega⟩
  · rintro ⟨line, h⟩
    omega

theorem le_trans {r s t : LineRange} (hrs : r.le s = true) (hst : s.le t = true) :
    r.le t = true := by
  simp only [le, Bool.or_eq_true, Bool.and_eq_true, decide_eq_true_eq, beq_iff_eq] at *
  omega

theorem le_total (r s : LineRange) : (r.le s || s.le r) = true := by
  simp only [le, Bool.or_eq_true, Bool.and_eq_true, decide_eq_true_eq, beq_iff_eq]
  omega

end LineRange

end LineScope
