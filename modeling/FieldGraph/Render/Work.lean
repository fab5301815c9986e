import FieldGraph.Render.Pixels
import FieldGraph.Render.Progress
import FieldGraph.Render.Stripe

/-!
# Painting stripes side by side

Every worker owns the pixels of its stripe.  The workers share a cancellation flag, which each polls
before every pixel, and a counter of finished pixels, to which each adds its own a batch at a time.
A state of the work is a value, and one step of one worker leads to the next state, so that any
order of steps is a way to run the workers side by side.
-/

namespace FieldGraph

/-- What is to be painted, and who listens to the progress. -/
structure PaintJob where
  width : Nat
  height : Nat
  /-- The bytes of the pixel in a column and a row. -/
  paint : Nat → Nat → Quad
  /-- Hears every report, and answers whether the work shall be cancelled. -/
  listener : Progress → Bool

/-- The number of pixels of the image. -/
def PaintJob.total (j : PaintJob) : Nat := j.width * j.height

/-- What the workers share. -/
structure Shared where
  cancelled : Bool
  /-- The pixels that were added up. -/
  done : Nat
  /-- The reports so far, the first one first. -/
  reports : Array Progress

inductive Phase where
  | painting
  | finished
  /-- The worker saw the cancellation. -/
  | stopped
deriving DecidableEq, Repr

structure Worker where
  stripe : Stripe
  /-- The pixels painted so far. -/
  quads : Array Quad
  /-- The painted pixels that were not added up yet. -/
  pending : Nat
  /-- How often the worker added up its pixels. -/
  batches : Nat
  phase : Phase

/-- The pixels of a batch. -/
def batch : Nat := 100

namespace Worker

/-- A worker before its first pixel. -/
def ofStripe (s : Stripe) : Worker := ⟨s, #[], 0, 0, .painting⟩

/-- Add the pending pixels to the shared counter and report it. -/
def flush (j : PaintJob) (w : Worker) (s : Shared) : Worker × Shared :=
  let done := s.done + w.pending
  let p : Progress := ⟨done, j.total⟩
  ({ w with pending := 0, batches := w.batches + 1 },
    ⟨s.cancelled || j.listener p, done, s.reports.push p⟩)

/-- Paint the next pixel. -/
def paintNext (j : PaintJob) (w : Worker) : Worker :=
  let k := w.quads.size
  { w with
    quads := w.quads.push (j.paint (Stripe.column j.width k) (w.stripe.row j.width k))
    pending := w.pending + 1 }

/-- One step of a worker.  A full batch is added up before the next poll, the rest of a stripe
after its last pixel; a worker that sees the cancellation adds nothing more. -/
def step (j : PaintJob) (w : Worker) (s : Shared) : Worker × Shared :=
  match w.phase with
  | .finished | .stopped => (w, s)
  | .painting =>
    if w.pending = batch then w.flush j s
    else if w.quads.size < w.stripe.pixels then
      if s.cancelled then ({ w with phase := .stopped }, s) else (w.paintNext j, s)
    else if w.pending = 0 then ({ w with phase := .finished }, s)
    else w.flush j s

/-- The steps that a worker has left at most. -/
def stepsLeft (w : Worker) : Nat :=
  if w.phase = .painting then
    2 * (w.stripe.pixels - w.quads.size) + (if w.pending = 0 then 1 else 2)
  else 0

theorem stepsLeft_step_lt (j : PaintJob) (w : Worker) (s : Shared) (h : w.phase = .painting) :
    (w.step j s).1.stepsLeft < w.stepsLeft := by
  have bounds : 1 ≤ (if w.pending = 0 then 1 else 2) ∧ (if w.pending = 0 then 1 else 2) ≤ 2 := by
    split <;> omega
  unfold step
  simp only [h]
  split
  · rename_i full
    simp [stepsLeft, flush, h, full, batch]
  · split
    · rename_i left
      split
      · simp only [stepsLeft, h]
        simp
        omega
      · simp only [stepsLeft, paintNext, h, Array.size_push]
        simp
        omega
    · split
      · simp only [stepsLeft, h]
        simp
        omega
      · rename_i pending
        simp [stepsLeft, flush, h, pending]

/-- Let a worker work to its end without a break. -/
def finish (j : PaintJob) (w : Worker) (s : Shared) : Worker × Shared :=
  if _ : w.phase = .painting then
    let r := w.step j s
    r.1.finish j r.2
  else (w, s)
termination_by w.stepsLeft
decreasing_by exact stepsLeft_step_lt j w s ‹_›

/-- Put the bytes of a stripe behind those before it.  What is not painted is zero, as all bytes are at
first. -/
def write (w : Worker) (data : Array UInt8) : Array UInt8 :=
  w.quads.foldl (fun data q => (((data.push q.first).push q.second).push q.third).push q.fourth) data ++
    Array.replicate (w.stripe.bytes - w.quads.size * 4) 0

end Worker

/-- All workers and what they share. -/
structure WorkState where
  workers : List Worker
  shared : Shared

/-- What may happen to the work. -/
inductive WorkEvent where
  /-- One worker takes a step. -/
  | step (worker : Nat)
  /-- Somebody outside cancels. -/
  | cancel
deriving DecidableEq, Repr

namespace WorkState

/-- The work before the first step. -/
def start (stripes : List Stripe) (cancelled : Bool) : WorkState :=
  ⟨stripes.map Worker.ofStripe, ⟨cancelled, 0, #[]⟩⟩

def cancel (s : WorkState) : WorkState := { s with shared.cancelled := true }

def apply (j : PaintJob) (s : WorkState) : WorkEvent → WorkState
  | .cancel => s.cancel
  | .step i =>
    match s.workers[i]? with
    | none => s
    | some w =>
      let r := w.step j s.shared
      ⟨s.workers.set i r.1, r.2⟩

/-- The state after a history. -/
def after (j : PaintJob) (s : WorkState) (events : List WorkEvent) : WorkState :=
  events.foldl (apply j) s

/-- Let some workers work to their end one after another. -/
def finishAll (j : PaintJob) : List Worker → Shared → List Worker × Shared
  | [], s => ([], s)
  | w :: ws, s =>
    let (w, s) := w.finish j s
    let (ws, s) := finishAll j ws s
    (w :: ws, s)

/-- Let all workers work to their end one after another. -/
def finish (j : PaintJob) (s : WorkState) : WorkState :=
  let r := finishAll j s.workers s.shared
  ⟨r.1, r.2⟩

/-- Every worker painted all of its stripe. -/
def isFinished (s : WorkState) : Bool := s.workers.all (·.phase = .finished)

/-- The bytes of all stripes from the top. -/
def bytes (s : WorkState) : Array UInt8 := s.workers.foldl (fun data w => w.write data) #[]

end WorkState

end FieldGraph
