import FieldGraph.Value

/-!
# Operators

Each operator has a typing rule, which says what shape it produces from the types of its operands,
and an application to values.  The graph uses the first to type its nodes, programs use the second.
-/

namespace FieldGraph

inductive UnaryOp where
  | abs
  | negate
  | length
  | normalize
  | sin
  | cos
  | tan
  | asin
  | acos
  | atan
  | exp
  | floor
  | ceil
  | radians
  | degrees
  | x
  | y
  | z
  | w
deriving DecidableEq, Repr

namespace UnaryOp

def all : List UnaryOp :=
  [abs, negate, length, normalize, sin, cos, tan, asin, acos, atan, exp, floor, ceil, radians,
    degrees, x, y, z, w]

def name : UnaryOp → String
  | abs => "Abs"
  | negate => "Negate"
  | length => "Length"
  | normalize => "Normalize"
  | sin => "Sin"
  | cos => "Cos"
  | tan => "Tan"
  | asin => "Asin"
  | acos => "Acos"
  | atan => "Atan"
  | exp => "Exp"
  | floor => "Floor"
  | ceil => "Ceil"
  | radians => "Radians"
  | degrees => "Degrees"
  | x => "X"
  | y => "Y"
  | z => "Z"
  | w => "W"

def ofName? (s : String) : Option UnaryOp := all.find? (·.name == s)

/-- The component that a selector reads. -/
def component? : UnaryOp → Option Nat
  | x => some 0
  | y => some 1
  | z => some 2
  | w => some 3
  | _ => none

/-- A selector needs a vector that has the component, and a direction needs a vector; the length is
a scalar, and all else keeps the shape. -/
def shapeOf (op : UnaryOp) (s : Shape) : ValueType :=
  match op with
  | length => Shape.float
  | normalize => if s.isVector then s else .invalid
  | op =>
    match op.component? with
    | some c => if s.isVector ∧ c < s.dim then Shape.float else .invalid
    | none => s

def resultType (op : UnaryOp) : ValueType → ValueType
  | .of s => op.shapeOf s
  | _ => .indeterminate

/-- The function a componentwise operator applies to each component. -/
def scalar? : UnaryOp → Option (Scalar → Scalar)
  | abs => some Float32.abs
  | negate => some fun a => -a
  | sin => some Float32.sin
  | cos => some Float32.cos
  | tan => some Float32.tan
  | asin => some Float32.asin
  | acos => some Float32.acos
  | atan => some Float32.atan
  | exp => some Float32.exp
  | floor => some Float32.floor
  | ceil => some Float32.ceil
  | radians => some Scalar.radians
  | degrees => some Scalar.degrees
  | _ => none

/-- Apply an operator.  Operands that its typing rule rejects give NaN. -/
def apply (op : UnaryOp) (v : Value) : Value :=
  match op, v with
  | length, v => .float v.length
  | normalize, .float _ => .float Scalar.nan
  | normalize, v => v.direction
  | op, v =>
    match op.scalar? with
    | some f => v.map f
    | none => .float ((op.component?.bind v.component?).getD Scalar.nan)

end UnaryOp

inductive BinaryOp where
  | add
  | sub
  | mul
  | div
  | mod
  | min
  | max
  | atan2
  | dot
  | cross
deriving DecidableEq, Repr

namespace BinaryOp

def all : List BinaryOp := [add, sub, mul, div, mod, min, max, atan2, dot, cross]

def name : BinaryOp → String
  | add => "Add"
  | sub => "Sub"
  | mul => "Mul"
  | div => "Div"
  | mod => "Mod"
  | min => "Min"
  | max => "Max"
  | atan2 => "Atan2"
  | dot => "Dot"
  | cross => "Cross"

def ofName? (s : String) : Option BinaryOp := all.find? (·.name == s)

/-- The operator acts on matching components, a scalar operand standing for as many as needed. -/
def isComponentwise : BinaryOp → Bool
  | dot | cross => false
  | _ => true

/-- Products need equal shapes, the cross product three components; componentwise operators take
equal shapes, or a scalar on either side. -/
def shapeOf (op : BinaryOp) (a b : Shape) : ValueType :=
  match op with
  | cross => if a = .float3 ∧ b = .float3 then Shape.float3 else .invalid
  | dot => if a = b then Shape.float else .invalid
  | _ => if a = .float then b else if b = .float ∨ a = b then a else .invalid

def resultType (op : BinaryOp) : ValueType → ValueType → ValueType
  | .of a, .of b => op.shapeOf a b
  | _, _ => .indeterminate

/-- The function a componentwise operator applies to matching components. -/
def scalar? : BinaryOp → Option (Scalar → Scalar → Scalar)
  | add => some (· + ·)
  | sub => some (· - ·)
  | mul => some (· * ·)
  | div => some (· / ·)
  | mod => some Scalar.floorMod
  | min => some Scalar.min
  | max => some Scalar.max
  | atan2 => some Float32.atan2
  | dot | cross => none

/-- The product of two values of one shape. -/
def dotProduct : Value → Value → Scalar
  | .float a, .float b => a * b
  | .float2 a, .float2 b => a.dot b
  | .float3 a, .float3 b => a.dot b
  | .float4 a, .float4 b => a.dot b
  | _, _ => Scalar.nan

/-- Apply an operator to operands of one shape; unlike shapes give NaN. -/
def apply (op : BinaryOp) (a b : Value) : Value :=
  match op, a, b with
  | dot, a, b => .float (dotProduct a b)
  | cross, .float3 u, .float3 v => .float3 (u.cross v)
  | cross, _, _ => Value.nan .float3
  | op, a, b => ((op.scalar?.bind fun f => a.zipWith? f b)).getD (Value.nan a.shape)

end BinaryOp

/-- The type of a vector built from scalars: two to four slots, each a scalar.  A slot that is not
settled yet leaves the whole unsettled, whatever the others are. -/
def constructType (slots : List ValueType) : ValueType :=
  if slots.length < 2 then .invalid
  else
    match Shape.ofDim? slots.length with
    | none => .invalid
    | some s =>
      if slots.any fun t => t = .none ∨ t = .indeterminate then .indeterminate
      else if slots.all (· = .of .float) then s
      else .invalid

end FieldGraph
