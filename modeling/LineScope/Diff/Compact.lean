import LineScope.Diff.Script

/-! Tidying scripts: deletions and insertions slide as far as equal lines let them, and those that
meet are joined. -/
namespace LineScope.Diff

/-- An operation with those before it, nearest first, and those after it. -/
structure Focus where
  before : List Op
  focus : Op
  after : List Op

/-- An upper bound for the slides past some operations. -/
def slides : List Op → Nat
  | [] => 0
  | op :: ops => op.length + 1 + slides ops

namespace Op

def moveUp (op : Op) (n : Nat) : Op := { op with old := op.old - n, new := op.new - n }

def moveDown (op : Op) (n : Nat) : Op := { op with old := op.old + n, new := op.new + n }

def lengthen (op : Op) (n : Nat) : Op := { op with length := op.length + n }

def shorten (op : Op) (n : Nat) : Op := { op with length := op.length - n }

end Op

def keepAfter (kept : Op) : List Op → List Op
  | next :: rest =>
    if next.tag = .keep then (next.moveUp kept.length).lengthen kept.length :: rest
    else kept :: next :: rest
  | [] => [kept]

def keepBefore (kept : Op) : List Op → List Op
  | prev :: rest =>
    if prev.tag = .keep then prev.lengthen kept.length :: rest else kept :: prev :: rest
  | [] => [kept]

/-- Slides an operation up. It passes kept lines that equal its own last ones, changes places with
operations of the other kind, and joins those of its own. -/
def slideUp (v : Versions) (before : List Op) (op : Op) (after : List Op) : Focus :=
  match before with
  | [] => ⟨[], op, after⟩
  | prev :: above =>
    if prev.tag = .keep then
      if prev.length = 0 then slideUp v above op after
      else
        let run := v.commonEnd ⟨prev.old, prev.oldStop, op.new, op.newStop⟩
        if run = 0 then ⟨prev :: above, op, after⟩
        else
          slideUp v (prev.shorten run :: above) (op.moveUp run)
            (keepAfter ⟨.keep, prev.oldStop - run, op.newStop - run, run⟩ after)
    else if prev.tag = op.tag then slideUp v above (prev.lengthen op.length) after
    else slideUp v above op (prev :: after)
termination_by slides before
decreasing_by all_goals simp only [slides, Op.shorten]; omega

def slideDown (v : Versions) (before : List Op) (op : Op) (after : List Op) : Focus :=
  match after with
  | [] => ⟨before, op, []⟩
  | next :: below =>
    if next.tag = .keep then
      if next.length = 0 then slideDown v before op below
      else
        let run := v.commonStart ⟨next.old, next.oldStop, op.new, op.newStop⟩
        if run = 0 then ⟨before, op, next :: below⟩
        else
          slideDown v (keepBefore ⟨.keep, next.old, op.new, run⟩ before) (op.moveDown run)
            ((next.moveDown run).shorten run :: below)
    else if next.tag = op.tag then slideDown v before (op.lengthen next.length) below
    else slideDown v (next :: before) op below
termination_by slides after
decreasing_by all_goals simp only [slides, Op.shorten, Op.moveDown]; omega

def slide (v : Versions) (before : List Op) (op : Op) (after : List Op) : Focus :=
  let up := slideUp v before op after
  slideDown v up.before up.focus up.after

/-- Slides the operations of one kind in turn. No step adds to what is still to come, so there are
at most as many steps as operations. -/
def settle (v : Versions) (tag : Tag) : Nat → List Op → List Op → List Op
  | 0, before, after => before.reverse ++ after
  | _, before, [] => before.reverse
  | steps + 1, before, op :: after =>
    if op.tag = tag then
      let slid := slide v before op after
      settle v tag steps (slid.focus :: slid.before) slid.after
    else settle v tag steps (op :: before) after

def compact (v : Versions) (ops : List Op) : List Op :=
  let settled := settle v .delete (slides ops) [] ops
  settle v .insert (slides settled) [] settled

end LineScope.Diff
