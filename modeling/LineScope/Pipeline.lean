import LineScope.Collapse.Unchanged
import LineScope.Config.Discovery
import LineScope.Parse.Lowering
import LineScope.Range.Parser
import LineScope.Relocation.Range

/-! All of it in a row: settings, ranges of the old text, the same ranges in the new one, and the
new text with everything else collapsed. -/
namespace LineScope

inductive PipelineError where
  | config (cause : ConfigError)
  | range (cause : RangeError)
  | parse (cause : Parse.Fault)

structure PipelineResult where
  relocated : List LineRange
  collapsed : Outcome CollapseSummary

/-- The first step that fails decides. -/
def pipeline (toml : String) (ranges : List String) (old new : String) (report : Parse.Report) :
    Except PipelineError PipelineResult := do
  let config ← (Config.parse toml).mapError .config
  let ranges ← (ranges.mapM LineRange.parse).mapError .range
  let relocated := relocate ranges old new config.settings.algorithm
  let tree ← (Parse.tree new report).mapError .parse
  return ⟨relocated, tree.collapseUnchanged relocated config.settings.wholeStatements⟩

end LineScope
