import FieldGraph.Node

/-!
# Graphs

An arena of nodes.  Each live node keeps its current type and the list of nodes that consume it,
one entry for each wired edge.
-/

namespace FieldGraph

structure Entry where
  node : Node
  type : ValueType
  /-- The consumers of this node, once for each edge, in the order of wiring. -/
  dependents : List NodeId

structure Graph where
  entries : NodeMap Entry
  /-- The number of live nodes. -/
  size : Nat
  /-- Cleared for good once a propagation of types stops with work left. -/
  settled : Bool

namespace Graph

def empty : Graph := ⟨NodeMap.empty, 0, true⟩

instance : Inhabited Graph := ⟨empty⟩

def isEmpty (g : Graph) : Bool := g.size = 0

/-- The number of positions, those of removed nodes included. -/
def capacity (g : Graph) : Nat := g.entries.capacity

def entry? (g : Graph) (id : NodeId) : Option Entry := g.entries.get? id

/-- The node is live. -/
def contains (g : Graph) (id : NodeId) : Bool := g.entries.contains id

def node? (g : Graph) (id : NodeId) : Option Node := (g.entry? id).map Entry.node

/-- The current type of a node. -/
def type? (g : Graph) (id : NodeId) : Option ValueType := (g.entry? id).map Entry.type

/-- The consumers of a node, once for each wired edge. -/
def dependents (g : Graph) (id : NodeId) : List NodeId :=
  ((g.entry? id).map Entry.dependents).getD []

/-- The live nodes, in order of creation. -/
def ids (g : Graph) : List NodeId := g.entries.ids

/-- The nodes that a live node reads. -/
def edges (g : Graph) (id : NodeId) : List NodeId := ((g.node? id).map Node.edges).getD []

/-- The placeholders of all live composites. -/
def placeholders (g : Graph) : List NodeId := g.entries.values.flatMap (·.node.placeholders)

/-- The live composites. -/
def composites (g : Graph) : List NodeId :=
  g.ids.filter fun id => ((g.node? id).map Node.isComposite).getD false

/-! ## Changing single entries -/

def modifyEntry (g : Graph) (id : NodeId) (f : Entry → Entry) : Graph :=
  { g with entries := g.entries.modify id f }

def setNode (g : Graph) (id : NodeId) (n : Node) : Graph :=
  g.modifyEntry id fun e => { e with node := n }

def setType (g : Graph) (id : NodeId) (t : ValueType) : Graph :=
  g.modifyEntry id fun e => { e with type := t }

/-- Note that `consumer` reads `source`. -/
def subscribe (g : Graph) (consumer source : NodeId) : Graph :=
  g.modifyEntry source fun e => { e with dependents := e.dependents ++ [consumer] }

/-- Forget the first note that `consumer` reads `source`. -/
def unsubscribe (g : Graph) (consumer source : NodeId) : Graph :=
  g.modifyEntry source fun e => { e with dependents := e.dependents.erase consumer }

/-- The position that the next node takes. -/
def nextId (g : Graph) : NodeId := ⟨g.capacity⟩

/-- Append a node that nothing has typed or wired yet. -/
def push (g : Graph) (n : Node) : Graph :=
  { g with entries := g.entries.push ⟨n, .none, []⟩, size := g.size + 1 }

end Graph

/-- Why an edit is refused. -/
inductive GraphError where
  | unknownNode (node : NodeId)
  | noSuchPort (node : NodeId) (port : Port)
  | wrongKind (node : NodeId) (expected found : String)
  | constructorArity (slots : Nat)
deriving DecidableEq, Repr

namespace GraphError

def message : GraphError → String
  | unknownNode id => "Unknown node " ++ id.text
  | noSuchPort id port => "Node " ++ id.text ++ " has no " ++ port.text ++ " port"
  | wrongKind id expected found =>
    "Node " ++ id.text ++ " is a " ++ found ++ " node, expected " ++ expected
  | constructorArity n =>
    "Vector constructor with " ++ toString n ++ " slots (expected 2 to 4)"

end GraphError

end FieldGraph
