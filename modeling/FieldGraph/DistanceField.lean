import FieldGraph.Program.Compile
import FieldGraph.Program.Listing

/-!
# Distance fields

A field gives every point of space its signed distance from a surface.  A program is one if it takes
a point, or nothing at all, and returns a scalar.
-/

namespace FieldGraph

/-- The signed distance from a surface at each point. -/
abbrev Field := Vec3 → Scalar

/-- The program takes at most a point and returns a scalar. -/
def Program.IsDistance (p : Program) : Prop :=
  (p.params = [] ∨ p.params = [some .float3]) ∧ p.result = .float

instance (p : Program) : Decidable p.IsDistance := inferInstanceAs (Decidable (_ ∧ _))

/-- A program that is a distance field. -/
structure DistanceField where
  program : Program
  isDistance : program.IsDistance

/-- Why there is no distance field. -/
inductive FieldError where
  | compile (e : CompileError)
  | notADistanceField (params : List (Option Shape)) (result : Shape)
deriving DecidableEq, Repr

def FieldError.message : FieldError → String
  | compile e => e.message
  | notADistanceField params result =>
    "Distance fields take (float3) and return float, program is (" ++
      ", ".intercalate (params.map Program.paramName) ++ ") -> " ++ result.name

namespace DistanceField

/-- A program as a distance field, if it is one. -/
def ofProgram (p : Program) : Except FieldError DistanceField :=
  if h : p.IsDistance then .ok ⟨p, h⟩ else .error (.notADistanceField p.params p.result)

/-- Compile a graph as a distance field. -/
def ofGraph (g : Graph) (output : NodeId) : Except FieldError DistanceField :=
  match g.compile output (some (.of .float)) with
  | .error e => .error (.compile e)
  | .ok p => ofProgram p

/-- The distance at a point. -/
def distance (d : DistanceField) : Field := fun p =>
  (d.program.run [.float3 p]).toFloat?.getD Scalar.nan

end DistanceField

/-- Why a graph cannot be shown. -/
inductive PrepareError where
  /-- The graph has a cycle through these nodes. -/
  | cycle (nodes : List NodeId)
  | compile (e : CompileError)
  /-- The output compiles, but not to a distance field. -/
  | signature (output : NodeId) (params : List (Option Shape)) (result : Shape)
deriving DecidableEq, Repr

namespace PrepareError

/-- The nodes an editor should point at. -/
def offending : PrepareError → List NodeId
  | cycle nodes => nodes
  | compile e => [e.node]
  | signature output _ _ => [output]

def message : PrepareError → String
  | cycle nodes => "Graph contains a cycle through " ++ toString nodes.length ++ " nodes"
  | compile e => e.message
  | signature output params result =>
    "Output " ++ output.text ++ " is not a distance field: " ++
      (FieldError.notADistanceField params result).message

end PrepareError

/-- Check the whole graph for cycles and compile it as a distance field. -/
def Graph.prepare (g : Graph) (output : NodeId) : Except PrepareError DistanceField :=
  match g.findAnyCycle output with
  | [] =>
    match DistanceField.ofGraph g output with
    | .ok d => .ok d
    | .error (.compile e) => .error (.compile e)
    | .error (.notADistanceField params result) => .error (.signature output params result)
  | nodes => .error (.cycle nodes)

end FieldGraph
