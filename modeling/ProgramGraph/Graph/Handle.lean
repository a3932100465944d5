import Std.Data.ExtTreeSet

/-!
# Handles of nodes and edges

A handle is an index into the nodes or the edges of a graph. A handle need not resolve in the graph
it is used with. Handles are ordered by index, so that a `NodeSet` lists its members in the order in
which the nodes were added.

There is a handle for every natural number. Where handles are words of 32 bits, a graph has room for
`2 ^ 32` nodes and as many edges, and adding one more stops the program; the graphs here grow
without that limit, and are the same below it.
-/

namespace ProgramGraph

/-- Handle of a node. -/
structure NodeId where
  index : Nat
deriving DecidableEq, Repr, Inhabited

/-- Handle of an edge. -/
structure EdgeId where
  index : Nat
deriving DecidableEq, Repr, Inhabited

namespace NodeId

instance : Ord NodeId := ⟨compareOn index⟩

instance : Std.TransOrd NodeId := inferInstanceAs (Std.TransCmp (compareOn index))

instance : Std.LawfulEqOrd NodeId where
  eq_of_compare {a b} h := by
    have : a.index = b.index := Nat.compare_eq_eq.1 h
    cases a
    cases b
    simp_all

/-- Handles are written with an `n` and their index. -/
def render (n : NodeId) : String := s!"n{n.index}"

end NodeId

/-- Handles are written with an `e` and their index. -/
def EdgeId.render (e : EdgeId) : String := s!"e{e.index}"

/-- A finite set of nodes. -/
abbrev NodeSet := Std.ExtTreeSet NodeId

/-- A finite set of names. -/
abbrev NameSet := Std.ExtTreeSet String

end ProgramGraph
