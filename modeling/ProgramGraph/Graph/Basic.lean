import ProgramGraph.Bag
import ProgramGraph.Graph.Handle

/-!
# Program graphs

A graph holds nodes and edges, each with an identifier and a bag of properties. An edge names its
endpoints by handles, either of which may be missing or fail to resolve. A node lists the edges that
leave and enter it; these lists are kept as they were built, in order and with repetitions, and need
not agree with the endpoints of the edges. Only `connect` keeps both sides in step.

What the analyses read are the present neighbours: `outgoing` and `incoming` pair the listed edges
with their endpoint and leave out every edge whose endpoint does not resolve.
-/

namespace ProgramGraph

/-- A node: an identifier, properties, and the edges listed as entering and leaving it. -/
structure Node where
  id : String
  properties : Bag := ∅
  incoming : Array EdgeId := #[]
  outgoing : Array EdgeId := #[]
deriving DecidableEq

/-- An edge: an identifier, endpoints as they were given, and properties. -/
structure Edge where
  id : String
  source : Option NodeId := none
  target : Option NodeId := none
  properties : Bag := ∅
deriving DecidableEq

/-- Nodes and edges, in the order in which they were added. -/
structure Graph where
  nodes : Array Node := #[]
  edges : Array Edge := #[]
deriving DecidableEq

namespace Graph

instance : EmptyCollection Graph := ⟨{}⟩

instance : Inhabited Graph := ⟨∅⟩

/-! ### Reading -/

def node? (g : Graph) (n : NodeId) : Option Node :=
  g.nodes[n.index]?

def edge? (g : Graph) (e : EdgeId) : Option Edge :=
  g.edges[e.index]?

def nodeCount (g : Graph) : Nat :=
  g.nodes.size

def edgeCount (g : Graph) : Nat :=
  g.edges.size

/-- Does the handle resolve? -/
def contains (g : Graph) (n : NodeId) : Bool :=
  n.index < g.nodeCount

/-- Keeps a handle that resolves. -/
def resolve (g : Graph) (n : Option NodeId) : Option NodeId :=
  n.filter g.contains

/-- The handles that resolve, in order. -/
def nodeIds (g : Graph) : List NodeId :=
  (List.range g.nodeCount).map NodeId.mk

/-- The first node with an identifier. -/
def findNode (g : Graph) (id : String) : Option NodeId :=
  (g.nodes.findIdx? (·.id == id)).map NodeId.mk

/-- The identifier of a node, empty if the handle does not resolve. -/
def idOf (g : Graph) (n : NodeId) : String :=
  ((g.node? n).map Node.id).getD ""

/-- A property of a node, empty if the node or the property is missing. -/
def property (g : Graph) (n : NodeId) (key : String) : String :=
  ((g.node? n).map (·.properties.get key)).getD ""

/-- One property of every node, in order. -/
def column (g : Graph) (key : String) : List String :=
  g.nodes.toList.map (·.properties.get key)

/-! ### Neighbours -/

/-- The target of an edge, if edge and target resolve. -/
def target? (g : Graph) (e : EdgeId) : Option NodeId :=
  (g.edge? e).bind fun edge => g.resolve edge.target

/-- The source of an edge, if edge and source resolve. -/
def source? (g : Graph) (e : EdgeId) : Option NodeId :=
  (g.edge? e).bind fun edge => g.resolve edge.source

/-- The edges listed as leaving a node. -/
def listedOutgoing (g : Graph) (n : NodeId) : List EdgeId :=
  ((g.node? n).map (·.outgoing.toList)).getD []

/-- The edges listed as entering a node. -/
def listedIncoming (g : Graph) (n : NodeId) : List EdgeId :=
  ((g.node? n).map (·.incoming.toList)).getD []

/-- The listed outgoing edges with their present targets, in list order. -/
def outgoing (g : Graph) (n : NodeId) : List (EdgeId × NodeId) :=
  (g.listedOutgoing n).filterMap fun e => (g.target? e).map (e, ·)

/-- The listed incoming edges with their present sources, in list order. -/
def incoming (g : Graph) (n : NodeId) : List (EdgeId × NodeId) :=
  (g.listedIncoming n).filterMap fun e => (g.source? e).map (e, ·)

/-- The present targets of a node's outgoing edges, in list order. -/
def successors (g : Graph) (n : NodeId) : List NodeId :=
  (g.outgoing n).map Prod.snd

/-- The present sources of a node's incoming edges, in list order. -/
def predecessors (g : Graph) (n : NodeId) : List NodeId :=
  (g.incoming n).map Prod.snd

/-! ### Building -/

/-- Adds a node without edges. -/
def addNode (g : Graph) (id : String) : NodeId × Graph :=
  (⟨g.nodeCount⟩, { g with nodes := g.nodes.push { id } })

/-- Adds an edge without listing it at its endpoints. -/
def addEdge (g : Graph) (id : String) (source target : Option NodeId) : EdgeId × Graph :=
  (⟨g.edgeCount⟩, { g with edges := g.edges.push { id, source, target } })

/-- Changes a node, if the handle resolves. -/
def modifyNode (g : Graph) (n : NodeId) (f : Node → Node) : Graph :=
  { g with nodes := g.nodes.modify n.index f }

/-- Changes an edge, if the handle resolves. -/
def modifyEdge (g : Graph) (e : EdgeId) (f : Edge → Edge) : Graph :=
  { g with edges := g.edges.modify e.index f }

/-- Lists an edge as entering a node, after the edges already listed. -/
def addIncoming (g : Graph) (n : NodeId) (e : EdgeId) : Graph :=
  g.modifyNode n fun node => { node with incoming := node.incoming.push e }

/-- Lists an edge as leaving a node, after the edges already listed. -/
def addOutgoing (g : Graph) (n : NodeId) (e : EdgeId) : Graph :=
  g.modifyNode n fun node => { node with outgoing := node.outgoing.push e }

/-- Adds an edge and lists it at both endpoints. -/
def connect (g : Graph) (id : String) (source target : NodeId) : EdgeId × Graph :=
  let (e, g) := g.addEdge id (some source) (some target)
  (e, (g.addOutgoing source e).addIncoming target e)

/-- Writes a property of a node, if the handle resolves. -/
def setProperty (g : Graph) (n : NodeId) (key value : String) : Graph :=
  g.modifyNode n fun node => { node with properties := node.properties.set key value }

/-- Writes a property of an edge, if the handle resolves. -/
def setEdgeProperty (g : Graph) (e : EdgeId) (key value : String) : Graph :=
  g.modifyEdge e fun edge => { edge with properties := edge.properties.set key value }

/-- Writes one property of several nodes. -/
def setProperties (g : Graph) (ns : List NodeId) (key value : String) : Graph :=
  ns.foldl (fun g n => g.setProperty n key value) g

/-! ### Small facts -/

theorem contains_iff {g : Graph} {n : NodeId} : g.contains n = true ↔ n.index < g.nodeCount := by
  simp [contains]

theorem mem_nodeIds {g : Graph} {n : NodeId} : n ∈ g.nodeIds ↔ g.contains n = true := by
  simp only [nodeIds, List.mem_map, List.mem_range, contains_iff]
  constructor
  · rintro ⟨i, hi, rfl⟩
    exact hi
  · intro h
    exact ⟨n.index, h, rfl⟩

@[simp]
theorem resolve_none (g : Graph) : g.resolve none = none := rfl

theorem resolve_eq_some_iff {g : Graph} {o : Option NodeId} {n : NodeId} :
    g.resolve o = some n ↔ o = some n ∧ g.contains n = true := by
  simp [resolve, Option.filter_eq_some_iff]

theorem contains_of_mem_outgoing {g : Graph} {n t : NodeId} {e : EdgeId}
    (h : (e, t) ∈ g.outgoing n) : g.contains t = true := by
  simp only [outgoing, List.mem_filterMap, Option.map_eq_some_iff] at h
  obtain ⟨e', -, t', ht, heq⟩ := h
  cases heq
  obtain ⟨edge, -, hr⟩ := Option.bind_eq_some_iff.1 ht
  exact (resolve_eq_some_iff.1 hr).2

theorem contains_of_mem_incoming {g : Graph} {n s : NodeId} {e : EdgeId}
    (h : (e, s) ∈ g.incoming n) : g.contains s = true := by
  simp only [incoming, List.mem_filterMap, Option.map_eq_some_iff] at h
  obtain ⟨e', -, s', hs, heq⟩ := h
  cases heq
  obtain ⟨edge, -, hr⟩ := Option.bind_eq_some_iff.1 hs
  exact (resolve_eq_some_iff.1 hr).2

end Graph

end ProgramGraph
