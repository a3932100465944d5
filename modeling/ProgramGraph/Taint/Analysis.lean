import ProgramGraph.Taint.Propagation

/-!
# A taint analysis that remembers its last run

`Taint.Analysis` keeps the identifiers that its last run found tainted. A run from a missing entry
forgets them, and running from no entry at all is not a run.
-/

namespace ProgramGraph.Taint

/-- Settings, and the identifiers found by the last run. -/
structure Analysis where
  config : TaintConfig := {}
  recorded : NameSet := ∅

namespace Analysis

/-- Runs without touching the graph. -/
def detached (a : Analysis) (g : Graph) (entry : Option NodeId) : Result × Analysis :=
  let r := propagate a.config g entry
  (r, { a with recorded := r.taintedIds })

/-- Runs and writes the marks. -/
def run (a : Analysis) (g : Graph) (entry : Option NodeId) : Result × Graph × Analysis :=
  let (r, g) := analyze a.config g entry
  (r, g, { a with recorded := r.taintedIds })

/-- Runs from each entry in turn and joins the results. -/
def runMany (a : Analysis) (g : Graph) (entries : List NodeId) : Result × Graph × Analysis :=
  let (rs, g) := analyzeEach a.config g entries
  (rs.foldl Result.merge ∅, g,
    { a with recorded := (rs.getLast?.map Result.taintedIds).getD a.recorded })

end Analysis

end ProgramGraph.Taint
