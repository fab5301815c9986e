import FieldGraph.Node

/-!
# Compile errors

Every error names the one node at fault.
-/

namespace FieldGraph

inductive CompileError where
  /-- The root is not live. -/
  | unknownNode (node : NodeId)
  /-- The root is not an output. -/
  | notAnOutput (node : NodeId)
  | missingInput (node : NodeId) (port : Port)
  | missingSlot (node : NodeId) (slot : Nat)
  | missingBody (node : NodeId)
  | missingArgument (node : NodeId) (index : Nat)
  | unsupportedUnary (node : NodeId) (op : UnaryOp) (operand : Shape)
  | unsupportedBinary (node : NodeId) (op : BinaryOp) (lhs rhs : Shape)
  /-- A slot of a vector holds a vector. -/
  | unsupportedSlot (node : NodeId) (slot : Nat) (operand : Shape)
  /-- A vector has no shape with its number of slots. -/
  | unsupportedArity (node : NodeId) (slots : Nat)
  /-- The declared type of a parameter is no shape. -/
  | unresolved (node : NodeId) (declared : ValueType)
  /-- Two parameters share a position but not a shape. -/
  | parameterConflict (node : NodeId) (index : Nat) (expected found : Shape)
  /-- The result does not have the type that was asked for. -/
  | typeMismatch (node : NodeId) (expected : ValueType) (found : Shape)
  /-- A node depends on itself. -/
  | cycle (node : NodeId)
deriving DecidableEq, Repr

namespace CompileError

/-- The node at fault. -/
def node : CompileError → NodeId
  | unknownNode id | notAnOutput id | missingInput id _ | missingSlot id _ | missingBody id
  | missingArgument id _ | unsupportedUnary id _ _ | unsupportedBinary id _ _ _
  | unsupportedSlot id _ _ | unsupportedArity id _ | unresolved id _
  | parameterConflict id _ _ _ | typeMismatch id _ _ | cycle id => id

/-- An operator that does not take its operands. -/
def unsupported (id : NodeId) (op operands : String) : String :=
  "Node " ++ id.text ++ ": " ++ op ++ " does not accept " ++ operands

def message : CompileError → String
  | unknownNode id => "Unknown node " ++ id.text
  | notAnOutput id => "Node " ++ id.text ++ " is not an output node"
  | missingInput id port => "Node " ++ id.text ++ " is missing its " ++ port.text ++ " input"
  | missingSlot id slot => "Constructor " ++ id.text ++ " is missing slot " ++ toString slot
  | missingBody id => "Composite node " ++ id.text ++ " has no body"
  | missingArgument id index =>
    "Composite node " ++ id.text ++ " is missing argument " ++ toString index
  | unsupportedUnary id op s => unsupported id op.name s.name
  | unsupportedBinary id op a b => unsupported id op.name (a.name ++ ", " ++ b.name)
  | unsupportedSlot id slot s =>
    unsupported id "construct" (s.name ++ " in slot " ++ toString slot)
  | unsupportedArity id slots => unsupported id "construct" (toString slots ++ " slots")
  | unresolved id t => "Node " ++ id.text ++ " has unresolved type " ++ t.name
  | parameterConflict id index expected found =>
    "Parameter " ++ toString index ++ " at node " ++ id.text ++ " is " ++ found.name ++
      ", but was already declared " ++ expected.name
  | typeMismatch id expected found =>
    "Output " ++ id.text ++ " produces " ++ found.name ++ ", expected " ++ expected.name
  | cycle id => "Node " ++ id.text ++ " depends on itself"

end CompileError

end FieldGraph
