import FieldGraph.NodeMap
import FieldGraph.Operator

/-!
# Nodes

A node computes a value from the nodes wired to its ports.  Edges run from a consumer to the node
it reads.  A composite owns placeholders, which stand for its arguments inside its body.
-/

namespace FieldGraph

/-- A place on a node where an edge may be wired. -/
inductive Port where
  /-- The operand of a unary node, the source of an output, the argument of a unary composite. -/
  | input
  | lhs
  | rhs
  /-- A component of a vector. -/
  | slot (i : Nat)
  /-- The body of a composite. -/
  | body
deriving DecidableEq, Repr

namespace Port

def text : Port → String
  | input => "input"
  | lhs => "lhs"
  | rhs => "rhs"
  | slot i => "slot " ++ toString i
  | body => "body"

end Port

/-- An edge: the node that is read, or nothing while the port is not wired. -/
abbrev Edge := Option NodeId

inductive Node where
  | constant (value : Value)
  | unary (op : UnaryOp) (operand : Edge)
  | binary (op : BinaryOp) (lhs rhs : Edge)
  /-- A vector built from scalars. -/
  | construct (slots : List Edge)
  /-- A positional parameter, or a placeholder of a composite, with its declared type. -/
  | parameter (index : Nat) (declared : ValueType)
  /-- A root to compile, or the result of a body. -/
  | output (source : Edge)
  /-- A function of one argument, which its body reads through a placeholder. -/
  | compositeUnary (argument body : Edge) (placeholder : NodeId)
  /-- A function of two arguments. -/
  | compositeBinary (lhs rhs body : Edge) (lhsPlaceholder rhsPlaceholder : NodeId)
deriving DecidableEq

namespace Node

/-- The name of a node's kind in messages. -/
def kind : Node → String
  | constant _ => "constant"
  | unary .. => "unary"
  | binary .. => "binary"
  | construct _ => "construct"
  | parameter .. => "input"
  | output _ => "output"
  | compositeUnary .. => "composite-unary"
  | compositeBinary .. => "composite-binary"

/-- The ports of a node, in order. -/
def ports : Node → List Port
  | constant _ | parameter .. => []
  | unary .. | output _ => [.input]
  | binary .. => [.lhs, .rhs]
  | construct slots => (List.range slots.length).map .slot
  | compositeUnary .. => [.input, .body]
  | compositeBinary .. => [.lhs, .rhs, .body]

/-- The edge behind a port, or `none` if the node has no such port. -/
def port? : Node → Port → Option Edge
  | unary _ e, .input | output e, .input | compositeUnary e _ _, .input => some e
  | binary _ e _, .lhs | compositeBinary e _ _ _ _, .lhs => some e
  | binary _ _ e, .rhs | compositeBinary _ e _ _ _, .rhs => some e
  | compositeUnary _ e _, .body | compositeBinary _ _ e _ _, .body => some e
  | construct slots, .slot i => slots[i]?
  | _, _ => none

/-- Rewire a port, or `none` if the node has no such port. -/
def setPort? (e : Edge) : Node → Port → Option Node
  | unary op _, .input => some (unary op e)
  | output _, .input => some (output e)
  | compositeUnary _ b p, .input => some (compositeUnary e b p)
  | binary op _ r, .lhs => some (binary op e r)
  | compositeBinary _ r b p q, .lhs => some (compositeBinary e r b p q)
  | binary op l _, .rhs => some (binary op l e)
  | compositeBinary l _ b p q, .rhs => some (compositeBinary l e b p q)
  | compositeUnary a _ p, .body => some (compositeUnary a e p)
  | compositeBinary l r _ p q, .body => some (compositeBinary l r e p q)
  | construct slots, .slot i => if i < slots.length then some (construct (slots.set i e)) else none
  | _, _ => none

/-- The nodes that are read, in order of the ports. -/
def edges : Node → List NodeId
  | constant _ | parameter .. => []
  | unary _ e | output e => e.toList
  | binary _ l r => l.toList ++ r.toList
  | construct slots => slots.filterMap id
  | compositeUnary a b _ => a.toList ++ b.toList
  | compositeBinary l r b _ _ => l.toList ++ r.toList ++ b.toList

/-- The nodes that are read for their values: all edges but a composite's body. -/
def operands : Node → List NodeId
  | compositeUnary a _ _ => a.toList
  | compositeBinary l r _ _ _ => l.toList ++ r.toList
  | n => n.edges

/-- Change every edge. -/
def mapEdges (f : Edge → Edge) : Node → Node
  | constant v => constant v
  | parameter i t => parameter i t
  | unary op e => unary op (f e)
  | output e => output (f e)
  | binary op l r => binary op (f l) (f r)
  | construct slots => construct (slots.map f)
  | compositeUnary a b p => compositeUnary (f a) (f b) p
  | compositeBinary l r b p q => compositeBinary (f l) (f r) (f b) p q

/-- The arguments of a composite, each with the placeholder that stands for it. -/
def arguments : Node → List (NodeId × Edge)
  | compositeUnary a _ p => [(p, a)]
  | compositeBinary l r _ p q => [(p, l), (q, r)]
  | _ => []

/-- The placeholders of a composite. -/
def placeholders : Node → List NodeId
  | compositeUnary _ _ p => [p]
  | compositeBinary _ _ _ p q => [p, q]
  | _ => []

/-- The body of a composite, or `none` for any other node. -/
def body? (n : Node) : Option Edge := n.port? .body

def isComposite : Node → Bool
  | compositeUnary .. | compositeBinary .. => true
  | _ => false

theorem arguments_map_fst (n : Node) : n.arguments.map Prod.fst = n.placeholders := by
  cases n <;> rfl

end Node

end FieldGraph
