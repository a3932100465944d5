import ProgramGraph.Graph.Basic

/-!
# Directions along edges

Slices and data flow analyses run either with the edges or against them. `Graph.neighbours` gives
the edges of a node in a direction with their present far ends.
-/

namespace ProgramGraph

/-- With the edges, or against them. -/
inductive Direction where
  | forward
  | backward
deriving DecidableEq, Repr, Inhabited

namespace Direction

def name : Direction → String
  | forward => "forward"
  | backward => "backward"

/-- The opposite direction. -/
def flip : Direction → Direction
  | forward => backward
  | backward => forward

end Direction

/-- The listed edges of a node in a direction, each with its present far end. -/
def Graph.neighbours (g : Graph) : Direction → NodeId → List (EdgeId × NodeId)
  | .forward => g.outgoing
  | .backward => g.incoming

/-- The present far ends of a node's edges in a direction. -/
def Graph.adjacent (g : Graph) (d : Direction) (n : NodeId) : List NodeId :=
  (g.neighbours d n).map Prod.snd

end ProgramGraph
