import ProgramGraph.Bag
import ProgramGraph.Config.Basic
import ProgramGraph.Config.Document
import ProgramGraph.Config.Section
import ProgramGraph.Config.Stage
import ProgramGraph.Config.YamlFormat
import ProgramGraph.DataFlow.AvailableExpressions
import ProgramGraph.DataFlow.ConstantPropagation
import ProgramGraph.DataFlow.DefUse
import ProgramGraph.DataFlow.LiveVariables
import ProgramGraph.DataFlow.Problem
import ProgramGraph.DataFlow.ReachingDefinitions
import ProgramGraph.DataFlow.Statement
import ProgramGraph.DataFlow.StepCount
import ProgramGraph.Engine
import ProgramGraph.Error
import ProgramGraph.Execution.Hooks
import ProgramGraph.Execution.Script
import ProgramGraph.Execution.Trace
import ProgramGraph.Execution.Walk
import ProgramGraph.Graph.Basic
import ProgramGraph.Graph.Direction
import ProgramGraph.Graph.Handle
import ProgramGraph.Graph.Preorder
import ProgramGraph.Graph.Shape
import ProgramGraph.Proofs.Config.Merge
import ProgramGraph.Proofs.Config.Override
import ProgramGraph.Proofs.Config.RoundTrip
import ProgramGraph.Proofs.Config.Validate
import ProgramGraph.Proofs.Config.YamlFormat
import ProgramGraph.Proofs.DataFlow.Ascent
import ProgramGraph.Proofs.DataFlow.AvailableExpressions
import ProgramGraph.Proofs.DataFlow.Budget
import ProgramGraph.Proofs.DataFlow.ConstantPropagation
import ProgramGraph.Proofs.DataFlow.ConstantRuns
import ProgramGraph.Proofs.DataFlow.DefUse
import ProgramGraph.Proofs.DataFlow.Equations
import ProgramGraph.Proofs.DataFlow.FactSet
import ProgramGraph.Proofs.DataFlow.LiveVariables
import ProgramGraph.Proofs.DataFlow.Monotone
import ProgramGraph.Proofs.DataFlow.ReachingDefinitions
import ProgramGraph.Proofs.DataFlow.Spread
import ProgramGraph.Proofs.DataFlow.Statement
import ProgramGraph.Proofs.DataFlow.StepBound
import ProgramGraph.Proofs.Engine.Construction
import ProgramGraph.Proofs.Engine.Footprint
import ProgramGraph.Proofs.Engine.Marks
import ProgramGraph.Proofs.Engine.Noninterference
import ProgramGraph.Proofs.Engine.Operation
import ProgramGraph.Proofs.Execution.BackEdges
import ProgramGraph.Proofs.Execution.Bookkeeping
import ProgramGraph.Proofs.Execution.Coverage
import ProgramGraph.Proofs.Execution.DepthBound
import ProgramGraph.Proofs.Execution.Descent
import ProgramGraph.Proofs.Execution.Exploration
import ProgramGraph.Proofs.Execution.FeasibleWalk
import ProgramGraph.Proofs.Execution.PathStates
import ProgramGraph.Proofs.Execution.Search
import ProgramGraph.Proofs.Execution.StateBudget
import ProgramGraph.Proofs.Execution.Trail
import ProgramGraph.Proofs.Execution.Traversals
import ProgramGraph.Proofs.FiniteSet
import ProgramGraph.Proofs.Graph.DepthFirst
import ProgramGraph.Proofs.Graph.Linked
import ProgramGraph.Proofs.Graph.Properties
import ProgramGraph.Proofs.Graph.Walk
import ProgramGraph.Proofs.Slice.Accumulation
import ProgramGraph.Proofs.Slice.Chop
import ProgramGraph.Proofs.Slice.Distance
import ProgramGraph.Proofs.Slice.Duality
import ProgramGraph.Proofs.Slice.Exactness
import ProgramGraph.Proofs.Slice.Truncation
import ProgramGraph.Proofs.Taint.Budget
import ProgramGraph.Proofs.Taint.Entries
import ProgramGraph.Proofs.Taint.Exactness
import ProgramGraph.Proofs.Taint.Idempotence
import ProgramGraph.Proofs.Taint.Soundness
import ProgramGraph.Proofs.Text.CommaList
import ProgramGraph.Proofs.Text.Integer
import ProgramGraph.Proofs.TypedValue
import ProgramGraph.Proofs.Yaml.Cursor
import ProgramGraph.Proofs.Yaml.Node
import ProgramGraph.Proofs.Yaml.Plain
import ProgramGraph.Proofs.Yaml.Printer
import ProgramGraph.Proofs.Yaml.Quoted
import ProgramGraph.Proofs.Yaml.TokenStream
import ProgramGraph.Proofs.Yaml.Value
import ProgramGraph.Slice.Basic
import ProgramGraph.Slice.Closure
import ProgramGraph.Taint.Analysis
import ProgramGraph.Taint.Propagation
import ProgramGraph.Taint.Result
import ProgramGraph.Text.Binary64
import ProgramGraph.Text.Blank
import ProgramGraph.Text.Integer
import ProgramGraph.Yaml.Character
import ProgramGraph.Yaml.Cursor
import ProgramGraph.Yaml.Meaning
import ProgramGraph.Yaml.Node
import ProgramGraph.Yaml.PlainValue
import ProgramGraph.Yaml.Printer
import ProgramGraph.Yaml.ScalarText
import ProgramGraph.Yaml.Tag
import ProgramGraph.Yaml.Token
import ProgramGraph.Yaml.TokenStream
import ProgramGraph.Yaml.Value
