import ProgramGraph.Slice.Closure

/-!
# Program slices

The forward slice of a criterion is what it leads to, the backward slice what leads to it, the
hybrid slice both together. The chop of a source and a target is what the source leads to and what
leads to the target; the chop of one criterion takes it for both ends.
-/

namespace ProgramGraph.Slice

/-- Kinds of slices. -/
inductive Kind where
  | backward
  | forward
  | hybrid
  | chop
deriving DecidableEq, Repr, Inhabited

def Kind.name : Kind → String
  | backward => "backward"
  | forward => "forward"
  | hybrid => "hybrid"
  | chop => "chop"

/-- A slice: its criterion if that resolved, its nodes, and whether the depth cut it short. -/
structure Result where
  criterion : Option NodeId := none
  kind : Kind
  nodes : NodeSet := ∅
  truncated : Bool := false
deriving DecidableEq

namespace Result

def size (r : Result) : Nat :=
  r.nodes.size

def isEmpty (r : Result) : Bool :=
  r.nodes.isEmpty

def contains (r : Result) (n : NodeId) : Bool :=
  r.nodes.contains n

/-- The identifiers of the nodes of the slice. -/
def identifiers (r : Result) (g : Graph) : NameSet :=
  Std.ExtTreeSet.ofList (r.nodes.toList.filterMap fun n => (g.node? n).map Node.id)

end Result

/-- The slice in one direction. -/
def directed (c : SliceConfig) (g : Graph) (d : Direction) (criterion : Option NodeId) : Result :=
  let (nodes, truncated) := extend c g d criterion ∅
  { criterion := g.resolve criterion
    kind := match d with
      | .forward => .forward
      | .backward => .backward
    nodes
    truncated }

/-- What the criterion leads to, itself included. -/
def forward (c : SliceConfig) (g : Graph) (criterion : Option NodeId) : Result :=
  directed c g .forward criterion

/-- What leads to the criterion, itself included. -/
def backward (c : SliceConfig) (g : Graph) (criterion : Option NodeId) : Result :=
  directed c g .backward criterion

/-- The backward and the forward slice together. -/
def hybrid (c : SliceConfig) (g : Graph) (criterion : Option NodeId) : Result :=
  let b := backward c g criterion
  let f := forward c g criterion
  { criterion := b.criterion
    kind := .hybrid
    nodes := b.nodes ∪ f.nodes
    truncated := b.truncated || f.truncated }

/-- What lies between a source and a target. -/
def chop (c : SliceConfig) (g : Graph) (source target : Option NodeId) : Result :=
  let f := forward c g source
  let b := backward c g target
  { criterion := f.criterion
    kind := .chop
    nodes := f.nodes ∩ b.nodes
    truncated := f.truncated || b.truncated }

/-- The slice of a kind. -/
def slice (c : SliceConfig) (g : Graph) (criterion : Option NodeId) : Kind → Result
  | .backward => backward c g criterion
  | .forward => forward c g criterion
  | .hybrid => hybrid c g criterion
  | .chop => chop c g criterion criterion

/-- One slice per criterion, in order. From `parallelThreshold` criteria on the slices may be
computed side by side. No slice depends on another, and they are listed in the order of the criteria
either way, so the threshold does not occur here. -/
def sliceMany (c : SliceConfig) (g : Graph) (criteria : List NodeId) (kind : Kind) : List Result :=
  criteria.map fun criterion => slice c g (some criterion) kind

end ProgramGraph.Slice
