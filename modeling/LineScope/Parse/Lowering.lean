import LineScope.Parse.Construct
import LineScope.Parse.Cursor
import LineScope.Tree.Shape

/-! From parse trees to statement trees. Every logical line ends with a newline leaf, an indented
body is a suite between an indent and a dedent, and comments become trivia. -/
namespace LineScope.Parse

/-- Clauses whose tokens belong to the statement around them. -/
def isClause (kind : String) : Bool :=
  ["elif_clause", "else_clause", "except_clause", "except_group_clause", "finally_clause"].contains
    kind

def compoundSymbol? (kind : String) : Option Symbol :=
  [("if_statement", .ifStmt), ("for_statement", .forStmt), ("while_statement", .whileStmt),
    ("try_statement", .tryStmt), ("with_statement", .withStmt), ("function_definition", .funcdef),
    ("class_definition", .classdef), ("decorated_definition", .decorated),
    ("match_statement", Symbol.matchStmt)].lookup kind

mutual

/-- All below statement level; a string is one leaf. -/
def expression (source : Source) (c : Cursor) : Construct → Shape × Cursor
  | .node kind start stop childless parts =>
    if childless || kind = "string" then
      let (leaf, c) :=
        c.take source (tokenKind kind (Text.slice source.chars start stop)) start stop
      (.leaf leaf, c)
    else
      let (shapes, c) := expressions source c parts
      (.node (.other kind) shapes, c)

def expressions (source : Source) (c : Cursor) : List Construct → List Shape × Cursor
  | [] => ([], c)
  | part :: rest =>
    let (shape, c) := expression source c part
    let (shapes, c) := expressions source c rest
    (shape :: shapes, c)

end

/-- A simple statement under way: its parts so far, and whether the last is a semicolon. Without
parts there is none. -/
structure Pending where
  parts : List Shape
  separated : Bool

namespace Pending

def idle : Pending := ⟨[], false⟩

/-- Whether a node goes on with the statement: a semicolon after a part, or after a semicolon
another small statement on the same line. -/
def accepts (source : Source) (c : Cursor) (pending : Pending) (next : Construct) : Bool :=
  if pending.parts.isEmpty then false
  else if pending.separated then
    (compoundSymbol? next.kind).isNone && next.kind != ";" && c.onCurrentLine source next.start
  else next.kind == ";"

def close (source : Source) (c : Cursor) (pending : Pending) : List Shape × Cursor :=
  if pending.parts.isEmpty then ([], c)
  else
    let (newline, c) := c.takeNewline source
    ([.node .simpleStmt (pending.parts ++ [.leaf newline])], c)

end Pending

/-- Each decorator with its newline; other nodes are passed over. -/
def decorators (source : Source) (c : Cursor) : List Construct → List Shape × Cursor
  | [] => ([], c)
  | .node kind _ _ _ parts :: rest =>
    if kind = "decorator" then
      let (shapes, c) := expressions source c parts
      let (newline, c) := c.takeNewline source
      let (more, c) := decorators source c rest
      (.node .decorator (shapes ++ [.leaf newline]) :: more, c)
    else decorators source c rest

def stacked : List Shape → List Shape
  | [] => []
  | [decorator] => [decorator]
  | shapes => [.node .decorators shapes]

mutual

/-- A compound statement. A leading `async` is hoisted into `wrapper` around it. -/
def compound (source : Source) (c : Cursor) (symbol wrapper : Symbol) :
    Construct → Shape × Cursor
  | .node _ _ _ _ parts =>
    match symbol with
    | .decorated =>
      let (heads, c) := decorators source c parts
      let (bodies, c) := definitions source c parts
      (.node .decorated (stacked heads ++ bodies), c)
    | .matchStmt =>
      let (shapes, c) := matchParts source c parts
      (.node .matchStmt shapes, c)
    | _ =>
      match parts with
      | [] => (.node symbol [], c)
      | .node kind start stop childless below :: rest =>
        if kind = "async" then
          let (keyword, c) := c.take source .async start stop
          let (shapes, c) := clauses source c rest
          (.node wrapper [.leaf keyword, .node symbol shapes], c)
        else
          let (shapes, c) := clauses source c (.node kind start stop childless below :: rest)
          (.node symbol shapes, c)

/-- A run of statements; semicolons join small ones into one simple statement. -/
def statements (source : Source) (c : Cursor) (pending : Pending) :
    List Construct → List Shape × Cursor
  | [] => pending.close source c
  | next :: rest =>
    if pending.accepts source c next then
      let (shape, c) := expression source c next
      statements source c ⟨pending.parts ++ [shape], !pending.separated⟩ rest
    else
      let (closed, c) := pending.close source c
      match compoundSymbol? next.kind with
      | some symbol =>
        let (shape, c) := compound source c symbol .asyncStmt next
        let (shapes, c) := statements source c .idle rest
        (closed ++ shape :: shapes, c)
      | none =>
        let (shape, c) := expression source c next
        let (shapes, c) := statements source c ⟨[shape], false⟩ rest
        (closed ++ shapes, c)

/-- Headers and bodies in turn. A body on the line of its header is put in directly, an indented one
as a suite. -/
def clauses (source : Source) (c : Cursor) : List Construct → List Shape × Cursor
  | [] => ([], c)
  | .node kind start stop childless parts :: rest =>
    if isClause kind then
      let (shapes, c) := clauses source c parts
      let (more, c) := clauses source c rest
      (shapes ++ more, c)
    else if kind = "block" then
      match parts.head? with
      | none => clauses source c rest
      | some first =>
        let firstLine := source.index.lineOf first.start
        if firstLine = source.index.lineOf (c.offset - 1) then
          let (shapes, c) := statements source c .idle parts
          let (more, c) := clauses source c rest
          (shapes ++ more, c)
        else
          let (newline, c) := c.takeNewline source
          let (shapes, c) := statements source c .idle parts
          let suite := Shape.node .suite (.leaf newline :: .leaf (marker .indent firstLine) ::
            shapes ++ [.leaf (marker .dedent c.lastLine)])
          let (more, c) := clauses source c rest
          (suite :: more, c)
    else
      let (shape, c) := expression source c (.node kind start stop childless parts)
      let (more, c) := clauses source c rest
      (shape :: more, c)

def definitions (source : Source) (c : Cursor) : List Construct → List Shape × Cursor
  | [] => ([], c)
  | next :: rest =>
    if next.kind = "decorator" then definitions source c rest
    else
      let (shape, c) := match compoundSymbol? next.kind with
        | some symbol => compound source c symbol .asyncFuncdef next
        | none => expression source c next
      let (shapes, c) := definitions source c rest
      (shape :: shapes, c)

/-- A match statement holds its cases directly, between an indent and a dedent. -/
def matchParts (source : Source) (c : Cursor) : List Construct → List Shape × Cursor
  | [] => ([], c)
  | .node kind start stop childless parts :: rest =>
    if kind = "block" then
      let (newline, c) := c.takeNewline source
      let firstLine := match parts.head? with
        | some first => source.index.lineOf first.start
        | none => c.lastLine
      let (shapes, c) := matchCases source c parts
      let dedent := marker .dedent c.lastLine
      let (more, c) := matchParts source c rest
      (.leaf newline :: .leaf (marker .indent firstLine) :: shapes ++ .leaf dedent :: more, c)
    else
      let (shape, c) := expression source c (.node kind start stop childless parts)
      let (more, c) := matchParts source c rest
      (shape :: more, c)

def matchCases (source : Source) (c : Cursor) : List Construct → List Shape × Cursor
  | [] => ([], c)
  | .node kind start stop childless parts :: rest =>
    let (shape, c) :=
      if kind = "case_clause" then
        let (shapes, c) := clauses source c parts
        (.node .caseBlock shapes, c)
      else expression source c (.node kind start stop childless parts)
    let (more, c) := matchCases source c rest
    (shape :: more, c)

end

def lower (text : String) (report : Report) : List Shape :=
  let source := Source.ofText text
  let (shapes, c) := statements source .start .idle report.parts
  shapes ++ [.leaf (c.take source .endMarker source.length source.length).1]

/-- The statement tree of a parsed text, or its first fault. -/
def tree (text : String) (report : Report) : Except Fault Tree :=
  match report.fault? (Mark.row text.toList) with
  | some fault => .error fault
  | none => .ok (.ofShapes .fileInput (lower text report))

end LineScope.Parse
