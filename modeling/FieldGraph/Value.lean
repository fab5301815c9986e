import FieldGraph.Shape
import FieldGraph.Vector

/-!
# Values

The constants of a graph, the arguments of a program and the contents of its registers.
-/

namespace FieldGraph

inductive Value where
  | float (x : Scalar)
  | float2 (v : Vec2)
  | float3 (v : Vec3)
  | float4 (v : Vec4)
deriving DecidableEq

namespace Value

instance : Inhabited Value := ⟨float 0.0⟩

def shape : Value → Shape
  | float _ => .float
  | float2 _ => .float2
  | float3 _ => .float3
  | float4 _ => .float4

/-- One scalar in every component. -/
def splat (x : Scalar) : Shape → Value
  | .float => float x
  | .float2 => float2 (Vec2.splat x)
  | .float3 => float3 (Vec3.splat x)
  | .float4 => float4 (Vec4.splat x)

/-- NaN in every component. -/
def nan (s : Shape) : Value := splat Scalar.nan s

@[simp] theorem shape_splat (x : Scalar) (s : Shape) : (splat x s).shape = s := by
  cases s <;> rfl

def toList : Value → List Scalar
  | float x => [x]
  | float2 v => [v.x, v.y]
  | float3 v => [v.x, v.y, v.z]
  | float4 v => [v.x, v.y, v.z, v.w]

def ofList? : List Scalar → Option Value
  | [x] => some (float x)
  | [x, y] => some (float2 ⟨x, y⟩)
  | [x, y, z] => some (float3 ⟨x, y, z⟩)
  | [x, y, z, w] => some (float4 ⟨x, y, z, w⟩)
  | _ => none

@[simp] theorem ofList?_toList (v : Value) : ofList? v.toList = some v := by cases v <;> rfl

@[simp] theorem length_toList (v : Value) : v.toList.length = v.shape.dim := by cases v <;> rfl

def component? (v : Value) (i : Nat) : Option Scalar := v.toList[i]?

def toFloat? : Value → Option Scalar
  | float x => some x
  | _ => none

def toFloat2? : Value → Option Vec2
  | float2 v => some v
  | _ => none

def toFloat3? : Value → Option Vec3
  | float3 v => some v
  | _ => none

def toFloat4? : Value → Option Vec4
  | float4 v => some v
  | _ => none

/-- Apply a scalar function to every component. -/
def map (f : Scalar → Scalar) : Value → Value
  | float x => float (f x)
  | float2 v => float2 (v.map f)
  | float3 v => float3 (v.map f)
  | float4 v => float4 (v.map f)

@[simp] theorem shape_map (f : Scalar → Scalar) (v : Value) : (v.map f).shape = v.shape := by
  cases v <;> rfl

/-- Apply a scalar function to matching components of two values of one shape. -/
def zipWith? (f : Scalar → Scalar → Scalar) : Value → Value → Option Value
  | float a, float b => some (float (f a b))
  | float2 a, float2 b => some (float2 (a.zipWith f b))
  | float3 a, float3 b => some (float3 (a.zipWith f b))
  | float4 a, float4 b => some (float4 (a.zipWith f b))
  | _, _ => none

/-- The Euclidean length; of a scalar its absolute value. -/
def length : Value → Scalar
  | float x => x.abs
  | float2 v => v.length
  | float3 v => v.length
  | float4 v => v.length

/-- Divide every component by the length. -/
def direction (v : Value) : Value := let r := v.length; v.map (· / r)

/-- A scalar as it is, a vector in parentheses. -/
def text (v : Value) : String :=
  match v.toList.map Scalar.text with
  | [x] => x
  | xs => "(" ++ ", ".intercalate xs ++ ")"

end Value

end FieldGraph
