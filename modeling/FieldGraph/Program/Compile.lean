import FieldGraph.Graph.Walk
import FieldGraph.Program.Basic
import FieldGraph.Program.CompileError

/-!
# Compiling

The nodes an output reads are lowered operands first, each to one instruction.  A composite is
expanded: its body is lowered in a scope of its own, in which the placeholders stand for the
arguments.  A node that reads no placeholder has the same value in every scope and is lowered once
for all of them; any other node is lowered once for each scope that reads it.
-/

namespace FieldGraph

/-- The value of a lowered node: a register and the shape of its contents. -/
structure Operand where
  reg : Reg
  shape : Shape
deriving DecidableEq, Repr

namespace Compile

/-- The expansion of one composite: its placeholders with the arguments they stand for. -/
structure Scope where
  composite : NodeId
  bindings : List (NodeId × Operand)

structure State where
  code : Array Instr
  /-- The values of nodes lowered in no expansion, and of nodes that read no placeholder. -/
  shared : NodeMap Operand
  params : List (Option Shape)
  /-- The loaded parameters, by position. -/
  loads : List (Nat × Operand)

def State.init : State := ⟨#[], NodeMap.empty, [], []⟩

abbrev Lower := StateT State (Except CompileError)

/-- Append an instruction. -/
def emit (operation : Operation) (shape : Shape) (source : NodeId) : Lower Operand := fun s =>
  .ok (⟨⟨s.code.size⟩, shape⟩, { s with code := s.code.push ⟨operation, shape, source⟩ })

/-- The node's value is the same in every scope: it reads no placeholder, directly or through a
body, and is not part of a cycle nor reads one. -/
def isClosed (g : Graph) (id : NodeId) : Bool :=
  let w := g.walk Node.edges true [id]
  let placeholders := g.placeholders
  w.cycle.isNone && w.entered.all (· ∉ placeholders)

/-- The node's value is kept for all scopes. -/
def isShared (g : Graph) (scopes : List Scope) (id : NodeId) : Bool :=
  scopes.isEmpty || isClosed g id

/-- The value of a node in the current scope, if it is lowered already. -/
def find? (g : Graph) (scopes : List Scope) (own : NodeMap Operand) (id : NodeId) :
    Lower (Option Operand) := fun s =>
  .ok (if isShared g scopes id then s.shared.get? id else own.get? id, s)

/-- Keep the value of a node; returns the values of the current scope. -/
def keep (g : Graph) (scopes : List Scope) (own : NodeMap Operand) (id : NodeId) (v : Operand) :
    Lower (NodeMap Operand) := fun s =>
  if isShared g scopes id then .ok (own, { s with shared := s.shared.insert id v })
  else .ok (own.insert id v, s)

/-- The argument a placeholder stands for in the innermost expansion that binds it. -/
def bound? (scopes : List Scope) (id : NodeId) : Option Operand :=
  scopes.findSome? fun s => s.bindings.lookup id

/-- Set position `index` of a parameter list, which grows as far as needed. -/
def declareParam (params : List (Option Shape)) (index : Nat) (s : Shape) : List (Option Shape) :=
  (params ++ List.replicate (index + 1 - params.length) none).set index (some s)

/-- Lower a parameter: the argument it stands for, or a load that all parameters of its position
share. -/
def lowerParameter (scopes : List Scope) (id : NodeId) (index : Nat) (declared : ValueType) :
    Lower Operand := do
  match bound? scopes id with
  | some v => return v
  | none =>
    match declared with
    | .of shape =>
      let s ← get
      match s.params[index]?.join with
      | some expected =>
        if expected ≠ shape then throw (.parameterConflict id index expected shape)
      | none => set { s with params := declareParam s.params index shape }
      match s.loads.lookup index with
      | some v => return v
      | none =>
        let v ← emit (.param index) shape id
        modify fun s => { s with loads := (index, v) :: s.loads }
        return v
    | t => throw (.unresolved id t)

/-- Apply a unary operator. -/
def lowerUnary (id : NodeId) (op : UnaryOp) (a : Operand) : Lower Operand :=
  match op.shapeOf a.shape with
  | .of shape => emit (.unary op a.reg) shape id
  | _ => throw (.unsupportedUnary id op a.shape)

/-- Repeat a scalar over the components of the other operand where an operator needs that. -/
def widen (id : NodeId) (op : BinaryOp) (shape : Shape) (a b : Operand) : Lower (Reg × Reg) :=
  if op.isComponentwise ∧ a.shape ≠ b.shape then
    if a.shape = .float then do
      let a' ← emit (.splat a.reg) shape id
      return (a'.reg, b.reg)
    else do
      let b' ← emit (.splat b.reg) shape id
      return (a.reg, b'.reg)
  else return (a.reg, b.reg)

/-- Apply a binary operator. -/
def lowerBinary (id : NodeId) (op : BinaryOp) (a b : Operand) : Lower Operand :=
  match op.shapeOf a.shape b.shape with
  | .of shape => do
    let (ra, rb) ← widen id op shape a b
    emit (.binary op ra rb) shape id
  | _ => throw (.unsupportedBinary id op a.shape b.shape)

/-- The scalars in the slots of a vector, counted from `slot`. -/
def lowerSlots (id : NodeId) (operand : NodeId → Lower Operand) (slot : Nat) :
    List Edge → Lower (List Reg)
  | [] => return []
  | none :: _ => throw (.missingSlot id slot)
  | some source :: rest => do
    let v ← operand source
    if v.shape ≠ .float then throw (.unsupportedSlot id slot v.shape)
    let rs ← lowerSlots id operand (slot + 1) rest
    return v.reg :: rs

/-- The arguments of a composite, counted from `index`, bound to their placeholders. -/
def bindArguments (id : NodeId) (operand : NodeId → Lower Operand) (index : Nat) :
    List (NodeId × Edge) → Lower (List (NodeId × Operand))
  | [] => return []
  | (_, none) :: _ => throw (.missingArgument id index)
  | (p, some source) :: rest => do
    let v ← operand source
    let bindings ← bindArguments id operand (index + 1) rest
    return (p, v) :: bindings

/-- The operand behind a port. -/
def wired (id : NodeId) (operand : NodeId → Lower Operand) (port : Port) : Edge → Lower Operand
  | some source => operand source
  | none => throw (.missingInput id port)

/-- Lower one node whose operands are lowered already.  `expand` lowers the body of a composite. -/
def lowerNode (scopes : List Scope) (operand : NodeId → Lower Operand)
    (expand : NodeId → Lower Operand) (id : NodeId) : Node → Lower Operand
  | .constant v => emit (.const v) v.shape id
  | .parameter index declared => lowerParameter scopes id index declared
  | .output e => wired id operand .input e
  | .unary op e => do lowerUnary id op (← wired id operand .input e)
  | .binary op l r => do
    let a ← wired id operand .lhs l
    let b ← wired id operand .rhs r
    lowerBinary id op a b
  | .construct slots => do
    let rs ← lowerSlots id operand 0 slots
    match Shape.ofDim? slots.length with
    | some shape => emit (.construct rs) shape id
    | none => throw (.unsupportedArity id slots.length)
  | .compositeUnary .. | .compositeBinary .. => expand id

/-- The value of a node that is lowered already. -/
def operandIn (g : Graph) (scopes : List Scope) (own : NodeMap Operand) (id : NodeId) :
    Lower Operand := do
  match ← find? g scopes own id with
  | some v => return v
  | none => throw (.unknownNode id)

/-- How the body of a composite is lowered in given scopes; a composite that is being expanded has
no such way. -/
abbrev Opener := NodeId → Option (List Scope → NodeId → Lower Operand)

/-- Lower the body of a composite in a scope that binds its placeholders. -/
def expand (g : Graph) (opener : Opener) (scopes : List Scope) (own : NodeMap Operand) (n : Node)
    (id : NodeId) : Lower Operand := do
  let some body := n.body?.join | throw (.missingBody id)
  match opener id with
  | some lowerBody =>
    let bindings ← bindArguments id (operandIn g scopes own) 0 n.arguments
    lowerBody (⟨id, bindings⟩ :: scopes) body
  | none => throw (.cycle id)

/-- Lower a live node unless it is lowered already. -/
def lowerNext (g : Graph) (opener : Opener) (scopes : List Scope) (own : NodeMap Operand)
    (id : NodeId) : Lower (NodeMap Operand) := do
  match ← find? g scopes own id, g.node? id with
  | none, some n =>
    let v ← lowerNode scopes (operandIn g scopes own) (expand g opener scopes own n) id n
    keep g scopes own id v
  | _, _ => return own

/-- Lower a root and all it reads in the innermost scope.

The composites that are not being expanded are listed.  A composite that is met inside its own
expansion depends on itself, which ends the recursion on graphs with a cycle. -/
def lowerScope (g : Graph) (available : List NodeId) (scopes : List Scope) (root : NodeId) :
    Lower Operand := do
  let opener : Opener := fun id =>
    if _ : id ∈ available then some (lowerScope g (available.erase id)) else none
  let w := g.walk Node.operands true [root]
  let own ← w.finished.foldlM (lowerNext g opener scopes) NodeMap.empty
  match w.cycle with
  | some (id :: _) => throw (.cycle id)
  | _ => operandIn g scopes own root
termination_by available.length
decreasing_by
  rename_i h
  rw [List.length_erase_of_mem h]
  have := List.length_pos_of_mem h
  omega

end Compile

/-- Compile the graph from an output on, which has to have a given type if one is expected. -/
def Graph.compile (g : Graph) (output : NodeId) (expected : Option ValueType) :
    Except CompileError Program := do
  match g.node? output with
  | none => throw (.unknownNode output)
  | some (.output _) => pure ()
  | some _ => throw (.notAnOutput output)
  let (v, s) ← (Compile.lowerScope g g.composites [] output).run Compile.State.init
  match expected with
  | some t => if .of v.shape ≠ t then throw (.typeMismatch output t v.shape)
  | none => pure ()
  return ⟨s.code.toList, v.reg, v.shape, s.params⟩

end FieldGraph
