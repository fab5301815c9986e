import FieldGraph.Render.Tracer
import FieldGraph.Render.Work

/-!
# Rendering images

An image of a field is painted stripe by stripe.  If any worker saw the cancellation there is no
image, so that no part of an image is ever shown.
-/

namespace FieldGraph

namespace Tracer

/-- The stored bytes of the pixel in a column and a row. -/
def quad (t : Tracer) (frame : CameraFrame) (format : PixelFormat) (x y : Nat) : Quad :=
  format.encode (Rgba.ofColor (t.pixel frame (UInt32.ofNat x) (UInt32.ofNat y)))

end Tracer

namespace RenderRequest

/-- The painting that a request asks for. -/
def paintJob (r : RenderRequest) (field : Field) (listener : Progress → Bool) : PaintJob :=
  let tracer := Tracer.ofSettings field r.settings
  let frame := r.frame
  ⟨r.width.toNat, r.height.toNat, fun x y => tracer.quad frame r.format x y, listener⟩

/-- The stripes of the image, one for each worker. -/
def stripes (r : RenderRequest) (cores : Nat) : List Stripe :=
  Stripe.share r.width r.height (r.workerCount cores)

/-- The image that a state of the work amounts to. -/
def image? (r : RenderRequest) (s : WorkState) : Option PixelBuffer :=
  if s.isFinished then (PixelBuffer.ofBytes r.width r.height r.format s.bytes).toOption else none

end RenderRequest

/-- What is left of a render. -/
structure RenderOutcome where
  image : Option PixelBuffer
  reports : Array Progress
  cancelled : Bool

/-- Render a field on a machine with a number of cores.  The listener hears the progress and may
cancel; the render may also be cancelled from the start. -/
def render (field : Field) (r : RenderRequest) (cores : Nat) (listener : Progress → Bool)
    (cancelled : Bool) : RenderOutcome :=
  let s := (WorkState.start (r.stripes cores) cancelled).finish (r.paintJob field listener)
  ⟨r.image? s, s.shared.reports, s.shared.cancelled⟩

/-- Render a field without anybody cancelling. -/
def renderImage? (field : Field) (r : RenderRequest) (cores : Nat) : Option PixelBuffer :=
  (render field r cores (fun _ => false) false).image

end FieldGraph
