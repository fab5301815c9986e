/-!
# Shapes and types

A value has one of four shapes.  A node has the shape of the values it produces once its operands
are settled; until then its type says why there is none.
-/

namespace FieldGraph

/-- The shape of a value: a scalar, or a vector of two to four scalars. -/
inductive Shape where
  | float
  | float2
  | float3
  | float4
deriving DecidableEq, Repr

namespace Shape

/-- The number of components. -/
def dim : Shape → Nat
  | float => 1
  | float2 => 2
  | float3 => 3
  | float4 => 4

/-- The shape with a number of components. -/
def ofDim? : Nat → Option Shape
  | 1 => some float
  | 2 => some float2
  | 3 => some float3
  | 4 => some float4
  | _ => none

@[simp] theorem ofDim?_dim (s : Shape) : ofDim? s.dim = some s := by cases s <;> rfl

theorem ofDim?_eq_some_iff {n : Nat} {s : Shape} : ofDim? n = some s ↔ n = s.dim := by
  constructor
  · intro h
    match n, h with
    | 1, h | 2, h | 3, h | 4, h => cases h; rfl
  · rintro rfl; exact ofDim?_dim s

def isVector (s : Shape) : Bool := 1 < s.dim

def name : Shape → String
  | float => "float"
  | float2 => "float2"
  | float3 => "float3"
  | float4 => "float4"

/-- The name a signature is reported with. -/
def title : Shape → String
  | float => "Float"
  | float2 => "Float2"
  | float3 => "Float3"
  | float4 => "Float4"

end Shape

/-- The type of a node's output. -/
inductive ValueType where
  /-- Nothing is wired. -/
  | none
  /-- An operand has no shape yet. -/
  | indeterminate
  /-- The operands' shapes do not fit the operator. -/
  | invalid
  /-- Every value has this shape. -/
  | of (shape : Shape)
deriving DecidableEq, Repr

namespace ValueType

instance : Coe Shape ValueType := ⟨of⟩

instance : Inhabited ValueType := ⟨none⟩

/-- The shape of a settled type. -/
def shape? : ValueType → Option Shape
  | of s => some s
  | _ => Option.none

def isConcrete (t : ValueType) : Bool := t.shape?.isSome

/-- The number of components of a settled type. -/
def dim? (t : ValueType) : Option Nat := t.shape?.map Shape.dim

def isVector : ValueType → Bool
  | of s => s.isVector
  | _ => false

def name : ValueType → String
  | none => "none"
  | indeterminate => "indeterminate"
  | invalid => "invalid"
  | of s => s.name

end ValueType

end FieldGraph
