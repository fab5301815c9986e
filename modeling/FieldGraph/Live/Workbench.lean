import FieldGraph.Live.Preview
import FieldGraph.Scene.Demo

/-!
# The workbench

One scene at a time lies on the workbench, to be checked, rendered and previewed.  Its own camera
takes the place of the camera that a request names.
-/

namespace FieldGraph

structure Workbench where
  scene : Option Scene := none
  preview : Preview := {}

/-- Why the scene cannot be shown. -/
inductive WorkbenchError where
  | scene (e : SceneError)
  | prepare (e : PrepareError)
  /-- The render was cancelled. -/
  | cancelled
deriving DecidableEq, Repr

def WorkbenchError.message : WorkbenchError → String
  | scene e => e.message
  | prepare e => e.message
  | cancelled => "Render was cancelled"

/-- The field of a scene. -/
def Scene.prepare (s : Scene) : Except PrepareError DistanceField := s.graph.prepare s.output

/-- A request seen through the camera of a scene. -/
def Scene.view (s : Scene) (r : RenderRequest) : RenderRequest := { r with camera := s.camera }

namespace Workbench

def setScene (b : Workbench) (s : Scene) : Workbench := { b with scene := some s }

/-- Load a demo; a name that is not known leaves the scene in place. -/
def loadDemo (b : Workbench) (name : String) : Except SceneError Workbench :=
  (Scene.ofDemo name).map b.setScene

/-- Take the scene away and cancel its preview, which ends in one way or the other. -/
def clear (b : Workbench) (cores : Nat) (how : JobEnd) : Workbench :=
  { b with scene := none, preview := b.preview.cancel cores how }

def currentScene (b : Workbench) : Except SceneError Scene :=
  match b.scene with
  | some s => .ok s
  | none => .error .noScene

/-- The scene together with its field. -/
def prepared (b : Workbench) : Except WorkbenchError (Scene × DistanceField) := do
  let s ← b.currentScene.mapError .scene
  let d ← s.prepare.mapError .prepare
  return (s, d)

/-- The program of the scene. -/
def check (b : Workbench) : Except WorkbenchError Program := do
  return (← b.prepared).2.program

/-- Render the scene and wait for the image. -/
def render (b : Workbench) (cores : Nat) (r : RenderRequest) :
    Except WorkbenchError PixelBuffer := do
  let (s, d) ← b.prepared
  match renderImage? d.distance (s.view r) cores with
  | some image => return image
  | none => throw .cancelled

/-- Start a preview of the scene.  Without a scene the render in flight goes on. -/
def startPreview (b : Workbench) (cores : Nat) (how : JobEnd) (r : RenderRequest) :
    Option WorkbenchError × Workbench :=
  match b.scene with
  | none => (some (.scene .noScene), b)
  | some s =>
    let (e, preview) := b.preview.request cores how s.graph s.output (s.view r)
    (e.map .prepare, { b with preview })

end Workbench

end FieldGraph
