/-! Bisection in ascending tables of numbers. -/
namespace LineScope.Text

/-- Bisection between `lo` and `hi`: entries below `lo` do not exceed `x`, those from `hi` on do. -/
def bisect (table : Array Nat) (x : Nat) (lo hi : Nat) (h : hi ≤ table.size) : Nat :=
  if hlt : lo < hi then
    let mid := (lo + hi) / 2
    if table[mid] ≤ x then bisect table x (mid + 1) hi h
    else bisect table x lo mid (by omega)
  else lo
termination_by hi - lo
decreasing_by all_goals omega

def countUpTo (table : Array Nat) (x : Nat) : Nat :=
  bisect table x 0 table.size (Nat.le_refl _)

/-- Membership in a set given by the ascending table of the points where it starts or stops. -/
def inside (flips : Array Nat) (x : Nat) : Bool := countUpTo flips x % 2 == 1

end LineScope.Text
