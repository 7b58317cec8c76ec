import LineScope.Diff.Matching
import LineScope.Toml.Document

/-! Settings, and how a TOML document gives them. -/
namespace LineScope

structure Settings where
  algorithm : Diff.Algorithm
  /-- Whether whole statements are collapsed before single lines. -/
  wholeStatements : Bool
  deriving DecidableEq, Repr

def Settings.default : Settings := ⟨.myers, true⟩

structure Sections where
  own : Option Settings
  tool : Option Settings
  deriving DecidableEq, Repr

namespace Toml

mutual

/-- Whether every number is one that fits: integers in 128 bits, and floats in a double. -/
def Value.fits : Value → Bool
  | .integer none => false
  | .integer (some n) => -Int.ofNat (1 <<< 127) ≤ n && n < Int.ofNat (1 <<< 128)
  | .float literal => !literal.overflows
  | .array items => itemsFit items
  | .tables before last => itemsFit before && entriesFit last
  | .table _ entries => entriesFit entries
  | .string _ => true
  | .boolean _ => true
  | .moment => true

def itemsFit : List Value → Bool
  | [] => true
  | item :: rest => item.fits && itemsFit rest

def entriesFit : List (String × Value) → Bool
  | [] => true
  | (_, value) :: rest => value.fits && entriesFit rest

end

def Value.items? : Value → Option (List Value)
  | .array items => some items
  | .tables before last => some (before ++ [.table .defined last])
  | _ => none

/-- A value in the place of a record gives its fields by name, or by position in an array. Further
items of an array are not looked at, but other entries of a table have to fit. A date is a table
without fields. -/
def Value.fields? (names : List String) : Value → Option (List (Option Value))
  | .table _ entries =>
    if entriesFit (entries.filter fun entry => !names.contains entry.1) then
      some (names.map fun name => entries.lookup name)
    else none
  | .moment => some (names.map fun _ => none)
  | value => value.items?.map fun items => (List.range names.length).map (items[·]?)

end Toml

namespace Diff.Algorithm

def ofName? (name : String) : Option Algorithm :=
  [("myers", .myers), ("patience", .patience), ("lcs", Algorithm.lcs)].lookup name

/-- By name, or as a table with the name as its only key and nothing below it. -/
def ofToml? : Toml.Value → Option Algorithm
  | .string name => ofName? name
  | .table _ [(name, .table _ [])] => ofName? name
  | .table _ [(name, .array [])] => ofName? name
  | _ => none

end Diff.Algorithm

def Toml.optional? (read : Toml.Value → Option α) : Option Toml.Value → Option (Option α)
  | none => some none
  | some value => (read value).map some

def Toml.boolean? : Toml.Value → Option Bool
  | .boolean b => some b
  | _ => none

def Settings.ofToml? (value : Toml.Value) : Option Settings := do
  match ← value.fields? ["diff_algorithm", "top_level_pass"] with
  | [algorithm, wholeStatements] =>
    let algorithm ← Toml.optional? Diff.Algorithm.ofToml? algorithm
    let wholeStatements ← Toml.optional? Toml.boolean? wholeStatements
    return ⟨algorithm.getD Settings.default.algorithm,
      wholeStatements.getD Settings.default.wholeStatements⟩
  | _ => none

def Settings.ofTool? (value : Toml.Value) : Option (Option Settings) := do
  match ← value.fields? ["incrfmt"] with
  | [settings] => Toml.optional? Settings.ofToml? settings
  | _ => none

namespace Sections

/-- Both sections have to be right, whichever is used. -/
def parse? (text : String) : Option Sections := do
  match ← (Toml.Value.table .defined (← Toml.parse? text)).fields? ["incrfmt", "tool"] with
  | [own, tool] =>
    return ⟨← Toml.optional? Settings.ofToml? own, (← Toml.optional? Settings.ofTool? tool).join⟩
  | _ => none

/-- A section of our own wins over the one for tools. -/
def chosen? (sections : Sections) : Option Settings := sections.own.or sections.tool

end Sections

end LineScope
