import FieldGraph.Scene.Basic
import FieldGraph.Scene.Fragment

/-!
# Demos

Scenes that come with the program.
-/

namespace FieldGraph

structure Demo where
  name : String
  description : String
  camera : Camera
  /-- Build the field in an empty graph and yield its output. -/
  field : Graph.Edit NodeId

namespace Demo

open FieldGraph.Graph.Edit Fragment

def sphere : Demo where
  name := "sphere"
  description := "Unit sphere resting above a checkered floor"
  camera := {}
  field := do
    let p ← parameter 0 (.of .float3)
    let ball ← Fragment.sphere p Vec3.zero 1.0
    let ground ← floor p (-1.0)
    let d ← binary .min ball ground
    output d

def roundedBox : Demo where
  name := "rounded-box"
  description := "Box rounded by a composite node, merged with the floor by another"
  camera := .lookAt ⟨2.5, 2.0, -4.0⟩ Vec3.zero
  field := do
    let p ← parameter 0 (.of .float3)
    let sharp ← cuboid p ⟨0.8, 0.6, 0.8⟩
    let rounded ← rounding 0.2
    wire rounded .input sharp
    let ground ← floor p (-0.8)
    let merged ← union
    wire merged .lhs rounded
    wire merged .rhs ground
    output merged

def repeated : Demo where
  name := "repeat"
  description := "Grid of spheres repeated with mod on x and z"
  camera := .lookAt ⟨0.0, 3.0, -9.0⟩ Vec3.zero
  field := do
    let p ← parameter 0 (.of .float3)
    let px ← unary .x p
    let py ← unary .y p
    let pz ← unary .z p
    let fx ← fold 3.0
    wire fx .input px
    let fz ← duplicate fx
    wire fz .input pz
    let q ← construct [fx, py, fz]
    let ball ← Fragment.sphere q Vec3.zero 0.7
    let ground ← floor p (-0.7)
    let d ← binary .min ball ground
    output d

/-- The demos in the order of their listing. -/
def all : List Demo := [sphere, roundedBox, repeated]

/-- Build the scene of a demo. -/
def scene (d : Demo) : Except SceneError Scene :=
  match d.field Graph.empty with
  | .ok (output, graph) => .ok ⟨d.name, graph, output, d.camera⟩
  | .error e => .error (.build e)

end Demo

/-- The scene of the demo with a name. -/
def Scene.ofDemo (name : String) : Except SceneError Scene :=
  match Demo.all.find? (·.name == name) with
  | some d => d.scene
  | none => .error (.unknown name)

end FieldGraph
