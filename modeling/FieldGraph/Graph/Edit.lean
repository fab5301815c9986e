import FieldGraph.Graph.Typing

/-!
# Editing

Every edit checks all that it needs before it changes anything, so that a refused edit leaves the
graph as it was.  An accepted edit keeps the lists of consumers in step with the edges and brings
the types up to date before it returns.
-/

namespace FieldGraph.Graph

/-! ## Adding nodes -/

/-- Append a node, subscribe it to what it reads and type it. -/
def insert (g : Graph) (n : Node) : NodeId × Graph :=
  let id := g.nextId
  let g' := n.edges.foldl (fun g source => g.subscribe id source) (g.push n)
  (id, g'.propagate [id])

/-- All edges of a node lead to live nodes. -/
def checkEdges (g : Graph) (n : Node) : Except GraphError Unit :=
  match n.edges.find? fun source => !g.contains source with
  | some source => .error (.unknownNode source)
  | none => .ok ()

/-- A placeholder is a live parameter. -/
def checkPlaceholder (g : Graph) (p : NodeId) : Except GraphError Unit :=
  match g.node? p with
  | some (.parameter ..) => .ok ()
  | some other => .error (.wrongKind p "input" other.kind)
  | none => .error (.unknownNode p)

/-- A vector has two to four slots. -/
def checkArity : Node → Except GraphError Unit
  | .construct slots =>
    if 2 ≤ slots.length ∧ slots.length ≤ 4 then .ok () else .error (.constructorArity slots.length)
  | _ => .ok ()

/-- Add any node whose edges and placeholders are live. -/
def add (g : Graph) (n : Node) : Except GraphError (NodeId × Graph) := do
  g.checkEdges n
  n.placeholders.forM g.checkPlaceholder
  checkArity n
  return g.insert n

/-- Add a literal. -/
def addConstant (g : Graph) (v : Value) : NodeId × Graph := g.insert (.constant v)

/-- Add a positional parameter. -/
def addParameter (g : Graph) (index : Nat) (declared : ValueType) : NodeId × Graph :=
  g.insert (.parameter index declared)

def addUnary (g : Graph) (op : UnaryOp) (operand : NodeId) : Except GraphError (NodeId × Graph) :=
  g.add (.unary op (some operand))

def addBinary (g : Graph) (op : BinaryOp) (lhs rhs : NodeId) :
    Except GraphError (NodeId × Graph) :=
  g.add (.binary op (some lhs) (some rhs))

/-- Add a vector with every slot wired. -/
def addConstruct (g : Graph) (slots : List NodeId) : Except GraphError (NodeId × Graph) :=
  g.add (.construct (slots.map some))

def addOutput (g : Graph) (source : NodeId) : Except GraphError (NodeId × Graph) :=
  g.add (.output (some source))

/-- Add a composite of one argument, with its placeholder and nothing wired. -/
def addCompositeUnary (g : Graph) : NodeId × Graph :=
  let (p, g) := g.addParameter 0 .none
  g.insert (.compositeUnary none none p)

/-- Add a composite of two arguments, with its placeholders and nothing wired. -/
def addCompositeBinary (g : Graph) : NodeId × Graph :=
  let (p, g) := g.addParameter 0 .none
  let (q, g) := g.addParameter 1 .none
  g.insert (.compositeBinary none none none p q)

/-- The placeholder that stands for an argument of a composite. -/
def placeholder? (g : Graph) (composite : NodeId) (index : Nat) : Except GraphError NodeId :=
  match g.node? composite with
  | none => .error (.unknownNode composite)
  | some n =>
    if n.isComposite then
      match n.placeholders[index]? with
      | some p => .ok p
      | none => .error (.noSuchPort composite (.slot index))
    else .error (.wrongKind composite "composite" n.kind)

/-! ## Changing nodes -/

/-- The source of an edge is live. -/
def checkSource (g : Graph) : Edge → Except GraphError Unit
  | some s => if g.contains s then .ok () else .error (.unknownNode s)
  | none => .ok ()

/-- Rewire a port, or clear it. -/
def setEdge (g : Graph) (id : NodeId) (port : Port) (source : Edge) : Except GraphError Graph := do
  g.checkSource source
  let some n := g.node? id | throw (.unknownNode id)
  let some former := n.port? port | throw (.noSuchPort id port)
  let some n' := n.setPort? source port | throw (.noSuchPort id port)
  let g := g.setNode id n'
  let g := former.toList.foldl (fun g s => g.unsubscribe id s) g
  let g := source.toList.foldl (fun g s => g.subscribe id s) g
  return g.propagate [id]

/-- Clear a port. -/
def disconnect (g : Graph) (id : NodeId) (port : Port) : Except GraphError Graph :=
  g.setEdge id port none

/-- Attach the body of a composite. -/
def setBody (g : Graph) (composite body : NodeId) : Except GraphError Graph :=
  g.setEdge composite .body (some body)

/-- Replace a node by one of the same kind. -/
def revise (g : Graph) (id : NodeId) (expected : String) (f : Node → Option Node) :
    Except GraphError Graph :=
  match g.node? id with
  | none => .error (.unknownNode id)
  | some n =>
    match f n with
    | some n' => .ok ((g.setNode id n').propagate [id])
    | none => .error (.wrongKind id expected n.kind)

/-- Replace the literal of a constant. -/
def setConstant (g : Graph) (id : NodeId) (v : Value) : Except GraphError Graph :=
  g.revise id "constant" fun
    | .constant _ => some (.constant v)
    | _ => none

def setUnaryOp (g : Graph) (id : NodeId) (op : UnaryOp) : Except GraphError Graph :=
  g.revise id "unary" fun
    | .unary _ e => some (.unary op e)
    | _ => none

def setBinaryOp (g : Graph) (id : NodeId) (op : BinaryOp) : Except GraphError Graph :=
  g.revise id "binary" fun
    | .binary _ l r => some (.binary op l r)
    | _ => none

/-- Change the declared type of a parameter. -/
def setDeclared (g : Graph) (id : NodeId) (declared : ValueType) : Except GraphError Graph :=
  g.revise id "input" fun
    | .parameter i _ => some (.parameter i declared)
    | _ => none

/-! ## Removing nodes -/

/-- Clear every edge that leads to a node. -/
def clearEdgesTo (g : Graph) (id consumer : NodeId) : Graph :=
  g.modifyEntry consumer fun e =>
    { e with node := e.node.mapEdges fun edge => if edge = some id then none else edge }

/-- Take a live node out, unwire its consumers and bring their types up to date. -/
def takeOut (g : Graph) (id : NodeId) (e : Entry) : Graph :=
  let g := { g with entries := g.entries.erase id, size := g.size - 1 }
  let g := e.node.edges.foldl (fun g source => g.unsubscribe id source) g
  let consumers := e.dependents.eraseDups.mergeSort (·.index ≤ ·.index)
  let g := consumers.foldl (fun g c => g.clearEdgesTo id c) g
  g.propagate consumers

/-- Take a placeholder out unless a live composite still owns it. -/
def dropPlaceholder (g : Graph) (p : NodeId) : Graph :=
  if p ∈ g.placeholders then g
  else
    match g.entry? p with
    | some e => g.takeOut p e
    | none => g

/-- Remove a node.  The placeholders of a composite go with it unless another composite owns them
too.  Returns the node as it was. -/
def remove (g : Graph) (id : NodeId) : Except GraphError (Node × Graph) :=
  match g.entry? id with
  | none => .error (.unknownNode id)
  | some e => .ok (e.node, e.node.placeholders.foldl dropPlaceholder (g.takeOut id e))

end FieldGraph.Graph
