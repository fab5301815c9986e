import FieldGraph.Render.Image

/-!
# Previews

A preview turns an edited graph into images.  At most one render is in flight: a new request first
cancels the one before it and waits for its end.  A graph that cannot be shown leaves the last image
in place and names the nodes at fault.
-/

namespace FieldGraph

/-- A render in flight. -/
structure PreviewJob where
  field : DistanceField
  request : RenderRequest

/-- The image that a job ends with when nobody cancels it. -/
def PreviewJob.image? (j : PreviewJob) (cores : Nat) : Option PixelBuffer :=
  renderImage? j.field.distance j.request cores

/-- How a render in flight came to its end.  One that is cancelled late may still complete. -/
inductive JobEnd where
  | completed
  | cancelled
deriving DecidableEq, Repr

structure Preview where
  /-- The number of completed renders. -/
  generation : Nat := 0
  /-- The image of the last completed render. -/
  image : Option PixelBuffer := none
  /-- The completed share of the last render that was started. -/
  progress : Scalar := 0.0
  /-- The nodes at fault in the last request, if it was refused. -/
  offending : List NodeId := []
  job : Option PreviewJob := none

namespace Preview

/-- Take note of a report of the render in flight. -/
def report (p : Preview) (r : Progress) : Preview := { p with progress := r.fraction }

/-- Show the image of a completed render. -/
def present (p : Preview) (image : PixelBuffer) : Preview :=
  { p with image := some image, progress := 1.0, generation := p.generation + 1 }

/-- The render in flight, if any, has come to its end. -/
def close (p : Preview) (cores : Nat) (how : JobEnd) : Preview :=
  match p.job, how with
  | none, _ => p
  | some _, .cancelled => { p with job := none }
  | some j, .completed =>
    let p := { p with job := none }
    match j.image? cores with
    | some image => p.present image
    | none => p

/-- Cancel the render in flight, which ends in one way or the other. -/
def cancel (p : Preview) (cores : Nat) (how : JobEnd) : Preview := p.close cores how

/-- Wait for the render in flight. -/
def wait (p : Preview) (cores : Nat) : Preview := p.close cores .completed

def isRendering (p : Preview) : Bool := p.job.isSome

/-- Start to render a graph, after the render in flight ended one way or the other.  A graph that
cannot be shown is refused and starts nothing. -/
def request (p : Preview) (cores : Nat) (how : JobEnd) (g : Graph) (output : NodeId)
    (r : RenderRequest) : Option PrepareError × Preview :=
  let p := p.cancel cores how
  match g.prepare output with
  | .ok field => (none, { p with offending := [], progress := 0.0, job := some ⟨field, r⟩ })
  | .error e => (some e, { p with offending := e.offending })

end Preview

end FieldGraph
