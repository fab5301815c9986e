import FieldGraph.Graph.Basic

/-!
# Typing

The type of a node follows from its operation and the types of the nodes it reads.  A composite has
the type of its body and declares the types of its arguments on its placeholders.  After a change
the types are brought up to date from the changed nodes outwards: a node whose type changes passes
the work on to its consumers.
-/

namespace FieldGraph.Graph

/-- The type behind an edge. -/
def edgeType (g : Graph) (e : Edge) : ValueType := (e.bind g.type?).getD .none

/-- The type of a node, given the current types of the nodes it reads. -/
def infer (g : Graph) : Node → ValueType
  | .constant v => .of v.shape
  | .unary op e => op.resultType (g.edgeType e)
  | .binary op l r => op.resultType (g.edgeType l) (g.edgeType r)
  | .construct slots => constructType (slots.map g.edgeType)
  | .parameter _ declared => declared
  | .output e => g.edgeType e
  | .compositeUnary _ body _ | .compositeBinary _ _ body _ _ =>
    match g.edgeType body with
    | .none => .indeterminate
    | t => t

/-- Declare the type of an argument on its placeholder.  The placeholder has to be revisited if that
changes it. -/
def declare (g : Graph) (placeholder : NodeId) (t : ValueType) : Graph × List NodeId :=
  match g.node? placeholder with
  | some (.parameter i declared) =>
    if declared = t then (g, []) else (g.setNode placeholder (.parameter i t), [placeholder])
  | _ => (g, [])

/-- Declare the types of all arguments of a node. -/
def declareArguments (g : Graph) : List (NodeId × Edge) → Graph × List NodeId
  | [] => (g, [])
  | (p, a) :: rest =>
    let (g', changed) := g.declare p (g.edgeType a)
    let (g'', more) := g'.declareArguments rest
    (g'', changed ++ more)

/-- Bring one node up to date.  Returns the nodes that have to be revisited because of it. -/
def revisit (g : Graph) (id : NodeId) : Graph × List NodeId :=
  match g.entry? id with
  | none => (g, [])
  | some e =>
    let (g', changed) := g.declareArguments e.node.arguments
    let t := g'.infer e.node
    if t = e.type then (g', changed) else (g'.setType id t, changed ++ e.dependents)

/-- Revisit nodes first in, first out, for a number of steps.  What is left is returned. -/
def settleWithin : Nat → Graph → List NodeId → Graph × List NodeId
  | _, g, [] => (g, [])
  | 0, g, queue => (g, queue)
  | steps + 1, g, id :: queue =>
    match g.revisit id with
    | (g', []) => settleWithin steps g' queue
    | (g', more) => settleWithin steps g' (queue ++ more)

/-- The revisits allowed for each live node, and one node more, in one propagation. -/
def revisitsPerNode : Nat := 16

def budget (g : Graph) : Nat := revisitsPerNode * (g.size + 1)

/-- Bring the types up to date from changed nodes outwards.  A graph with a cycle may never come to
rest, so that the number of revisits is limited. -/
def propagate (g : Graph) (changed : List NodeId) : Graph :=
  match settleWithin g.budget g changed with
  | (g', []) => g'
  | (g', _) => { g' with settled := false }

end FieldGraph.Graph
