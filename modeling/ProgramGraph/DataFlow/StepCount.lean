import ProgramGraph.DataFlow.Problem

/-!
# Counting steps

A numeric problem: every node adds a number of its own to the number that arrives, up to a cap,
and numbers that meet are joined by their greatest or their least one. The number of a node is
read from its property `step`; it is one if there is none, and the index of the node if the text
is no number.

A problem like this need not settle, so without a budget it may have no solution.
-/

namespace ProgramGraph.DataFlow

/-- How numbers that meet are joined. -/
inductive Extreme where
  | greatest
  | least
deriving DecidableEq, Repr, Inhabited

/-- Joins two numbers. -/
def Extreme.join : Extreme → Nat → Nat → Nat
  | greatest => max
  | least => min

namespace StepCount

/-- The number that a node adds. -/
def stepOf (n : NodeId) (node : Node) : Nat :=
  let text := node.properties.get "step"
  if text.isEmpty then 1 else (Text.readWord64? text).getD n.index

/-- Counting in a direction, up to a cap, from given boundary and initial numbers. -/
def problem (direction : Direction) (extreme : Extreme) (cap boundary initial : Nat) :
    Problem Nat where
  name := "steps"
  direction
  boundary _ := boundary
  initial _ := initial
  meet := extreme.join
  transfer n node fact := min (fact + stepOf n node) cap

end StepCount

end ProgramGraph.DataFlow
