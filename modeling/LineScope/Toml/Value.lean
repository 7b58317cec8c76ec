/-! TOML values, and the rules by which headers and keys fill tables. -/
namespace LineScope.Toml

/-- A floating-point literal: infinite, not a number, or `digits * 10 ^ exponent` up to sign. -/
inductive FloatLiteral where
  | special
  | decimal (digits : Nat) (exponent : Int)
  deriving DecidableEq, Repr

inductive Origin where
  /-- Named by the header of a table below it. -/
  | implied
  /-- Named by a dotted key. -/
  | dotted
  /-- Has a header of its own. -/
  | defined
  /-- Written between braces. -/
  | braced
  deriving DecidableEq, Repr

inductive Value where
  | string (text : String)
  /-- An integer whose digits make no number is wrong only where it is looked at. -/
  | integer (n : Option Int)
  | float (literal : FloatLiteral)
  | boolean (b : Bool)
  /-- A date, a time, or both. -/
  | moment
  /-- Written between brackets. -/
  | array (items : List Value)
  /-- One table for each header in double brackets; the last is the one being filled. -/
  | tables (before : List Value) (last : List (String × Value))
  | table (origin : Origin) (entries : List (String × Value))
  deriving Repr

/-- Keys with their values in the order of the document. -/
abbrev Entries := List (String × Value)

namespace Entries

def replace (entries : Entries) (key : String) (value : Value) : Entries :=
  entries.map fun entry => if entry.1 == key then (key, value) else entry

def add (entries : Entries) (key : String) (value : Value) : Entries := entries ++ [(key, value)]

/-- Applies `f` to the table that a header names, through any tables but braced ones. -/
def atHeader? (f : Entries → Option Entries) (entries : Entries) : List String → Option Entries
  | [] => f entries
  | key :: path =>
    match entries.lookup key with
    | none => (atHeader? f [] path).map fun below => entries.add key (.table .implied below)
    | some (.table .braced _) => none
    | some (.table origin below) =>
      (atHeader? f below path).map fun below => entries.replace key (.table origin below)
    | some (.tables before last) =>
      (atHeader? f last path).map fun last => entries.replace key (.tables before last)
    | some _ => none

/-- Gives a table its header. Only a table implied so far can get one. -/
def define? (key : String) (entries : Entries) : Option Entries :=
  match entries.lookup key with
  | none => some (entries.add key (.table .defined []))
  | some (.table .implied below) => some (entries.replace key (.table .defined below))
  | some _ => none

def defineNext? (key : String) (entries : Entries) : Option Entries :=
  match entries.lookup key with
  | none => some (entries.add key (.tables [] []))
  | some (.tables before last) =>
    some (entries.replace key (.tables (before ++ [.table .defined last]) []))
  | some _ => none

/-- Adds a value below a table reached by a dotted key. Only a table made by dotted keys takes
it. -/
def assignBelow? (value : Value) (origin : Origin) (entries : Entries) :
    List String → Option Entries
  | [] => none
  | [key] =>
    if origin = .dotted ∧ (entries.lookup key).isNone then some (entries.add key value) else none
  | key :: path =>
    match entries.lookup key with
    | none =>
      (assignBelow? value .dotted [] path).map fun below => entries.add key (.table .dotted below)
    | some (.table .implied below) =>
      (assignBelow? value .implied below path).map fun below =>
        entries.replace key (.table .implied below)
    | some (.table .dotted below) =>
      (assignBelow? value .dotted below path).map fun below =>
        entries.replace key (.table .dotted below)
    | some (.tables before last) =>
      (assignBelow? value .defined last path).map fun last =>
        entries.replace key (.tables before last)
    | some _ => none

def assign? (value : Value) (entries : Entries) : List String → Option Entries
  | [] => none
  | [key] => if (entries.lookup key).isNone then some (entries.add key value) else none
  | path => assignBelow? value .defined entries path

def ofAssignments? (assignments : List (List String × Value)) : Option Entries :=
  assignments.foldlM (fun entries (path, value) => entries.assign? value path) []

end Entries

inductive Statement where
  | header (path : List String)
  | nextHeader (path : List String)
  | assignment (path : List String) (value : Value)
  deriving Repr

/-- A document so far, and the path of the header in force. -/
structure Progress where
  entries : Entries
  current : List String

def Progress.step? (p : Progress) : Statement → Option Progress
  | .header path => do
    let key ← path.getLast?
    let entries ← p.entries.atHeader? (Entries.define? key) path.dropLast
    return ⟨entries, path⟩
  | .nextHeader path => do
    let key ← path.getLast?
    let entries ← p.entries.atHeader? (Entries.defineNext? key) path.dropLast
    return ⟨entries, path⟩
  | .assignment path value => do
    let entries ← p.entries.atHeader? (fun entries => entries.assign? value path) p.current
    return ⟨entries, p.current⟩

def Entries.ofStatements? (statements : List Statement) : Option Entries :=
  (statements.foldlM Progress.step? ⟨[], []⟩).map Progress.entries

end LineScope.Toml
