import FieldGraph.Graph.Copy

/-!
# Building

Edits in sequence: each works on the graph that the ones before it left, and a refused edit ends the
sequence.
-/

namespace FieldGraph.Graph

/-- An edit that yields a result together with the changed graph, or is refused. -/
abbrev Edit (α : Type) := StateT Graph (Except GraphError) α

namespace Edit

def constant (v : Value) : Edit NodeId := fun g => .ok (g.addConstant v)

def parameter (index : Nat) (declared : ValueType) : Edit NodeId :=
  fun g => .ok (g.addParameter index declared)

def unary (op : UnaryOp) (operand : NodeId) : Edit NodeId := fun g => g.addUnary op operand

def binary (op : BinaryOp) (lhs rhs : NodeId) : Edit NodeId := fun g => g.addBinary op lhs rhs

def construct (slots : List NodeId) : Edit NodeId := fun g => g.addConstruct slots

def output (source : NodeId) : Edit NodeId := fun g => g.addOutput source

def compositeUnary : Edit NodeId := fun g => .ok g.addCompositeUnary

def compositeBinary : Edit NodeId := fun g => .ok g.addCompositeBinary

/-- The placeholder of a composite's argument. -/
def placeholder (composite : NodeId) (index : Nat) : Edit NodeId :=
  fun g => (g.placeholder? composite index).map (·, g)

/-- Wire a port to a source. -/
def wire (id : NodeId) (port : Port) (source : NodeId) : Edit Unit :=
  fun g => (g.setEdge id port (some source)).map ((), ·)

/-- Give a composite its body. -/
def body (composite output : NodeId) : Edit Unit :=
  fun g => (g.setBody composite output).map ((), ·)

def duplicate (id : NodeId) : Edit NodeId := fun g => g.duplicate id

end Edit

end FieldGraph.Graph
