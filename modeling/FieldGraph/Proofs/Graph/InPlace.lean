import FieldGraph.Proofs.Graph.PostOrder
import FieldGraph.Proofs.Graph.Steps

/-!
# Editing in place

An edit may also be carried out on the spot, step by step.  A step that is refused leaves the graph
as far as the steps before it have brought it.  Some steps look a node up after the first change has
been made: a new node is entered before it is noted among the consumers of what it reads, a port is
rewired before the subscription is, the placeholders of a copy are there before its body, and a
composite is gone before its placeholders are taken out.
-/

namespace FieldGraph.Graph

/-- Why an edit in place ends early, and whether it may have changed the graph by then. -/
inductive Refusal where
  | upfront (e : GraphError)
  | midway (e : GraphError)
deriving DecidableEq, Repr

def Refusal.later : Refusal → Refusal
  | upfront e | midway e => midway e

/-- Steps that change a graph in place, and may end early with the graph they have reached. -/
abbrev InPlace (α : Type) := EStateM Refusal Graph α

namespace InPlace

variable {α : Type}

/-! ## Steps -/

/-- A test of the graph. -/
def check (test : Graph → Except GraphError α) : InPlace α := fun g ↦
  match test g with
  | .ok a => .ok a g
  | .error e => .error (.upfront e) g

/-- A change that nothing can refuse. -/
def change (f : Graph → α × Graph) : InPlace α := modifyGet f

/-- Steps that come after a change. -/
def later (steps : InPlace α) : InPlace α := steps.adaptExcept Refusal.later

/-- What has been found, if anything. -/
def found (e : GraphError) : Option α → InPlace α
  | some a => return a
  | none => throw (.upfront e)

/-- The entry of a live node. -/
def lookup (id : NodeId) : InPlace Entry := do
  let g ← get
  found (.unknownNode id) (g.entry? id)

/-- Note that `consumer` reads `source`, which has to be live. -/
def subscribe (consumer source : NodeId) : InPlace Unit := do
  let _ ← lookup source
  modify (Graph.subscribe · consumer source)

/-! ## Edits -/

def add (n : Node) : InPlace NodeId := do
  check (checkEdges · n)
  check fun g ↦ n.placeholders.forM g.checkPlaceholder
  check fun _ ↦ checkArity n
  let id ← change fun g ↦ (g.nextId, g.push n)
  later (n.edges.forM (subscribe id))
  modify (propagate · [id])
  return id

def setEdge (id : NodeId) (port : Port) (source : Edge) : InPlace Unit := do
  check (checkSource · source)
  let e ← lookup id
  let former ← found (.noSuchPort id port) (e.node.port? port)
  let n ← found (.noSuchPort id port) (e.node.setPort? source port)
  modify (setNode · id n)
  former.toList.forM fun s ↦ modify (unsubscribe · id s)
  later (source.toList.forM (subscribe id))
  modify (propagate · [id])

def revise (id : NodeId) (expected : String) (f : Node → Option Node) : InPlace Unit := do
  let e ← lookup id
  let n ← found (.wrongKind id expected e.node.kind) (f e.node)
  modify (setNode · id n)
  modify (propagate · [id])

/-- Remove a placeholder unless a live composite still owns it. -/
def dropPlaceholder (remove : NodeId → InPlace Node) (p : NodeId) : InPlace Unit := do
  let g ← get
  if p ∉ g.placeholders ∧ g.contains p then
    let _ ← remove p

/-- Remove a node from a graph that has no more than so many live ones, and then its placeholders,
one after another and in the same way. -/
def removeWithin : Nat → NodeId → InPlace Node
  | 0, id => throw (.upfront (.unknownNode id))
  | live + 1, id => do
    let e ← lookup id
    modify (takeOut · id e)
    later (e.node.placeholders.forM (dropPlaceholder (removeWithin live)))
    return e.node

def remove (id : NodeId) : InPlace Node := do
  let g ← get
  removeWithin g.size id

/-! ## Copies -/

/-- How composites that are met inside a body are copied in place, if they may be opened. -/
abbrev Copying := NodeId → Node → Renaming → InPlace (Option NodeId)

/-- Note that a node reads a renamed node, if it is one itself or reads one that has been noted. -/
def noteReader (m : Renaming) (reads : NodeSet) (id : NodeId) : InPlace NodeSet := do
  let e ← lookup id
  return if NodeMap.contains m id ∨ e.node.edges.any reads.contains then reads.insert id ()
    else reads

def readers (m : Renaming) (root : NodeId) : InPlace NodeSet := do
  let g ← get
  (g.postOrder true root).foldlM (noteReader m) NodeMap.empty

def copyReader (copyInner : Copying) (reads : NodeSet) (m : Renaming) (id : NodeId) :
    InPlace Renaming :=
  if NodeMap.contains m id ∨ !reads.contains id then return m
  else do
    let e ← lookup id
    let copy ← if e.node.isComposite then copyInner id e.node m
      else some <$> add (e.node.mapEdges m.edge)
    match copy with
    | none => return m
    | some copy => return NodeMap.insert m id copy

def copyBody (copyInner : Copying) (m : Renaming) : Edge → InPlace Edge
  | none => return none
  | some root => do
    let reads ← readers m root
    let g ← get
    let m ← (g.postOrder false root).foldlM (copyReader copyInner reads) m
    return m.edge (some root)

def copyComposite (available : List NodeId) (n : Node) (outer : Renaming) : InPlace NodeId := do
  let fresh ← change (addPlaceholders · 0 n.placeholders.length)
  let copyInner : Copying := fun id inner m ↦
    if _ : id ∈ available then some <$> copyComposite (available.erase id) inner m else return none
  later do
    let body ← copyBody copyInner (outer.bind n.placeholders fresh) n.body?.join
    add (rebind outer fresh body n)
termination_by available.length
decreasing_by
  rename_i h
  exact length_erase_lt h

def duplicate (id : NodeId) : InPlace NodeId := do
  let e ← lookup id
  if e.node.isComposite then
    let g ← get
    copyComposite (g.composites.erase id) e.node NodeMap.empty
  else add e.node

end InPlace

/-- An action carried out in place. -/
def Action.inPlace : Action → InPlace Unit
  | add n => discard (InPlace.add n)
  | constant v => InPlace.change fun g ↦ ((), (g.addConstant v).2)
  | parameter index declared => InPlace.change fun g ↦ ((), (g.addParameter index declared).2)
  | unary op operand => discard (InPlace.add (.unary op (some operand)))
  | binary op lhs rhs => discard (InPlace.add (.binary op (some lhs) (some rhs)))
  | construct slots => discard (InPlace.add (.construct (slots.map some)))
  | output source => discard (InPlace.add (.output (some source)))
  | compositeUnary => InPlace.change fun g ↦ ((), g.addCompositeUnary.2)
  | compositeBinary => InPlace.change fun g ↦ ((), g.addCompositeBinary.2)
  | duplicate id => discard (InPlace.duplicate id)
  | remove id => discard (InPlace.remove id)
  | setEdge id port source => InPlace.setEdge id port source
  | disconnect id port => InPlace.setEdge id port none
  | setBody composite body => InPlace.setEdge composite .body (some body)
  | setConstant id v => InPlace.revise id "constant" fun
    | .constant _ => some (.constant v)
    | _ => none
  | setUnaryOp id op => InPlace.revise id "unary" fun
    | .unary _ e => some (.unary op e)
    | _ => none
  | setBinaryOp id op => InPlace.revise id "binary" fun
    | .binary _ l r => some (.binary op l r)
    | _ => none
  | setDeclared id t => InPlace.revise id "input" fun
    | .parameter i _ => some (.parameter i t)
    | _ => none

/-- The graph that an action carried out in place leaves, refused or not. -/
def Action.leave (g : Graph) (a : Action) : Graph :=
  match a.inPlace g with
  | .ok _ g' | .error _ g' => g'

/-- The graph after actions that are carried out in place, from the empty one on. -/
def afterInPlace (actions : List Action) : Graph := actions.foldl Action.leave empty

end FieldGraph.Graph
