import ProgramGraph.Graph.Basic

/-!
# Families of graphs

Chains, cycles, fans, ladders and complete graphs of any size. `Graph.addShape` adds such a graph to
another one: first the nodes, named by a stem and their number, then the edges in the order that
`Shape.links` lists, each named by the stem, an `e` and the number of edges that stood before it.
-/

namespace ProgramGraph

/-- The families. -/
inductive Shape where
  /-- One node after the other. -/
  | chain
  /-- A chain whose last node leads back to the first; a single node has a self loop. -/
  | cycle
  /-- The first node leads to every middle node, and each of these to the last node. -/
  | fan
  /-- A row of diamonds, each starting where the one before it ends. -/
  | ladder
  /-- Every node leads to every node, itself included. -/
  | complete
deriving DecidableEq, Repr

namespace Shape

/-- How many nodes the member of size `n` has. -/
def nodeCount : Shape → Nat → Nat
  | ladder, n => 3 * n + 1
  | _, n => n

/-- The edges of the member of size `n`, as pairs of node numbers. -/
def links : Shape → Nat → List (Nat × Nat)
  | chain, n => (List.range (n - 1)).map fun i => (i, i + 1)
  | cycle, n =>
    ((List.range (n - 1)).map fun i => (i, i + 1)) ++ if n = 0 then [] else [(n - 1, 0)]
  | fan, n => (List.range (n - 2)).flatMap fun i => [(0, i + 1), (i + 1, n - 1)]
  | ladder, n =>
    (List.range n).flatMap fun i =>
      [(3 * i, 3 * i + 1), (3 * i, 3 * i + 2), (3 * i + 1, 3 * i + 3), (3 * i + 2, 3 * i + 3)]
  | complete, n => (List.range n).flatMap fun a => (List.range n).map fun b => (a, b)

end Shape

/-- Adds the member of size `n` of a family. -/
def Graph.addShape (g : Graph) (shape : Shape) (n : Nat) (stem : String) : Graph :=
  let base := g.nodeCount
  let withNodes := (List.range (shape.nodeCount n)).foldl
    (fun g i => (g.addNode s!"{stem}{i}").2) g
  (shape.links n).foldl
    (fun g (s, t) => (g.connect s!"{stem}e{g.edgeCount}" ⟨base + s⟩ ⟨base + t⟩).2) withNodes

end ProgramGraph
