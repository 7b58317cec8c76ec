/-! Kinds of tokens and grammar symbols. -/
namespace LineScope

inductive TokenKind where
  | name
  | number
  | string
  | op
  | keyword
  /-- The `async` keyword, which the grammar hangs one level above the statement it modifies. -/
  | async
  /-- End of a logical line. -/
  | newline
  /-- Start of an indented block, without text. -/
  | indent
  /-- End of an indented block, without text. -/
  | dedent
  /-- End of the file; its trivia is whatever trails the last statement. -/
  | endMarker
  /-- Text to be kept as it is, without the line terminator that ends it. -/
  | verbatim
  deriving DecidableEq, Repr

def TokenKind.all : List TokenKind :=
  [.name, .number, .string, .op, .keyword, .async, .newline, .indent, .dedent, .endMarker,
    .verbatim]

def TokenKind.label : TokenKind → String
  | .name => "Name"
  | .number => "Number"
  | .string => "String"
  | .op => "Op"
  | .keyword => "Keyword"
  | .async => "Async"
  | .newline => "Newline"
  | .indent => "Indent"
  | .dedent => "Dedent"
  | .endMarker => "EndMarker"
  | .verbatim => "Verbatim"

/-- Only the statement forms that matter to collapsing have a symbol of their own. -/
inductive Symbol where
  | fileInput
  | simpleStmt
  | suite
  | matchStmt
  | caseBlock
  | decorator
  | decorators
  | decorated
  | asyncStmt
  | asyncFuncdef
  | funcdef
  | classdef
  | ifStmt
  | forStmt
  | whileStmt
  | tryStmt
  | withStmt
  | other (name : String)
  deriving DecidableEq, Repr

def Symbol.statementForms : List Symbol :=
  [.fileInput, .simpleStmt, .suite, .matchStmt, .caseBlock, .decorator, .decorators, .decorated,
    .asyncStmt, .asyncFuncdef, .funcdef, .classdef, .ifStmt, .forStmt, .whileStmt, .tryStmt,
    .withStmt]

def Symbol.label : Symbol → String
  | .fileInput => "file_input"
  | .simpleStmt => "simple_stmt"
  | .suite => "suite"
  | .matchStmt => "match_stmt"
  | .caseBlock => "case_block"
  | .decorator => "decorator"
  | .decorators => "decorators"
  | .decorated => "decorated"
  | .asyncStmt => "async_stmt"
  | .asyncFuncdef => "async_funcdef"
  | .funcdef => "funcdef"
  | .classdef => "classdef"
  | .ifStmt => "if_stmt"
  | .forStmt => "for_stmt"
  | .whileStmt => "while_stmt"
  | .tryStmt => "try_stmt"
  | .withStmt => "with_stmt"
  | .other name => name

end LineScope
