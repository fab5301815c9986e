import FieldGraph.Graph.Build
import FieldGraph.Render.Camera

/-!
# Scenes

A graph ready to be rendered: the node that its distances are read from, and a camera to see it.
-/

namespace FieldGraph

structure Scene where
  name : String
  graph : Graph
  /-- The node that the distances are read from. -/
  output : NodeId
  camera : Camera := {}

/-- Why there is no scene. -/
inductive SceneError where
  /-- No scene is loaded. -/
  | noScene
  /-- No demo has this name. -/
  | unknown (name : String)
  /-- The graph of a demo could not be built. -/
  | build (e : GraphError)
deriving DecidableEq, Repr

def SceneError.message : SceneError → String
  | noScene => "No scene loaded"
  | unknown name => "Unknown scene '" ++ name ++ "'"
  | build e => "Failed to build scene: " ++ e.message

end FieldGraph
