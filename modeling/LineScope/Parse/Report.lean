import LineScope.Text.Bytes

/-! Parse trees as a grammar reports them, with comments and other extras still in place. -/
namespace LineScope.Parse

/-- What is reported of one node; `start` and `stop` are byte offsets. -/
structure Mark where
  kind : String
  start : Nat
  stop : Nat
  /-- May stand anywhere, like a comment. -/
  isExtra : Bool
  isError : Bool
  isMissing : Bool
  /-- Whether an error lies at or below the node. -/
  hasError : Bool
  deriving DecidableEq, Repr

inductive Report where
  | node (mark : Mark) (children : List Report)
  deriving Repr

def Report.mark : Report → Mark
  | .node mark _ => mark

/-- Puts a row in front of the trees that follow it; those at a greater depth come below it. -/
def Report.addRow (row : Nat × Mark) (following : List (Nat × Report)) : List (Nat × Report) :=
  let below := following.takeWhile fun entry => row.1 < entry.1
  (row.1, .node row.2 (below.map Prod.snd)) :: following.drop below.length

/-- The tree of rows that list each node, with its depth, before those below it. -/
def Report.ofRows? (rows : List (Nat × Mark)) : Option Report :=
  (rows.foldr Report.addRow []).head?.map Prod.snd

mutual

/-- The first node in order that is an error or missing, looking only below nodes with errors. -/
def Report.firstFault? : Report → Option Mark
  | .node mark children =>
    if mark.isError || mark.isMissing then some mark else firstFaultAmong? children

def Report.firstFaultAmong? : List Report → Option Mark
  | [] => none
  | report :: rest =>
    if report.mark.hasError then
      match report.firstFault? with
      | some mark => some mark
      | none => firstFaultAmong? rest
    else firstFaultAmong? rest

end

structure Fault where
  line : Nat
  deriving DecidableEq, Repr

def Fault.message (fault : Fault) : String := "syntax error on line " ++ fault.line.repr

/-- The first fault of a text, given the row of every node; `none` when its report has no error. -/
def Report.fault? (row : Mark → Nat) (report : Report) : Option Fault :=
  if report.mark.hasError then
    match report.firstFault? with
    | some mark => some ⟨row mark + 1⟩
    | none => some ⟨1⟩
  else none

/-- The row on which a node starts: the line feeds in front of it. -/
def Mark.row (source : List Char) (mark : Mark) : Nat :=
  ((Text.encode source).take mark.start).count 10

end LineScope.Parse
