import FieldGraph.Proofs.Render.Stripes
import FieldGraph.Render.Work

/-!
# Histories of the work

A worker paints the pixels of its stripe in order, and polls the cancellation flag before each of
them.  So its state tells what it has polled: the pixels it painted, and the one before which it saw
the flag.  Over any history, all polls together are those of the workers, in some order.
-/

namespace FieldGraph

namespace PaintJob

variable (j : PaintJob)

/-- The bytes of the pixel with a number. -/
def cell (p : Nat) : Quad := j.paint (p % j.width) (p / j.width)

/-- The bytes of pixel `k` of a stripe. -/
def stripeCell (stripe : Stripe) (k : Nat) : Quad :=
  j.paint (Stripe.column j.width k) (stripe.row j.width k)

/-- They are those of the number that the row and the column of the pixel make. -/
theorem stripeCell_eq (hw : 0 < j.width) (stripe : Stripe) (k : Nat) :
    j.stripeCell stripe k = j.cell (stripe.offset j.width + k) := by
  rw [stripeCell, cell, Stripe.column_eq stripe, Stripe.row_eq stripe hw]

end PaintJob

/-- A look at the flag before a pixel. -/
structure Poll where
  pixel : Nat
  cancelled : Bool
deriving DecidableEq

/-- The pixel that is painted after the poll. -/
def Poll.painted? (q : Poll) : Option Nat := if q.cancelled then none else some q.pixel

namespace Worker

variable {j : PaintJob} {w : Worker} {s : Shared}

/-! ## Steps -/

/-- The number of the pixel that is painted next. -/
def next (j : PaintJob) (w : Worker) : Nat := w.stripe.offset j.width + w.quads.size

/-- The pixel before which the next step polls the flag. -/
def ask? (j : PaintJob) (w : Worker) : Option Nat :=
  if w.phase = .painting ∧ w.pending ≠ batch ∧ w.quads.size < w.stripe.pixels then
    some (w.next j)
  else none

/-- What a step may do. -/
inductive Stepped (j : PaintJob) (w : Worker) (s : Shared) : Worker × Shared → Prop
  | paint (hp : w.phase = .painting) (hlt : w.quads.size < w.stripe.pixels)
      (ha : w.ask? j = some (w.next j)) (hs : s.cancelled = false) : Stepped j w s (w.paintNext j, s)
  | stop (hp : w.phase = .painting) (hlt : w.quads.size < w.stripe.pixels)
      (ha : w.ask? j = some (w.next j)) (hs : s.cancelled = true) :
      Stepped j w s ({ w with phase := .stopped }, s)
  | flush (hp : w.phase = .painting) (ha : w.ask? j = none) (hpos : 0 < w.pending)
      (hdue : w.pending = batch ∨ w.stripe.pixels ≤ w.quads.size) :
      Stepped j w s (w.flush j s)
  | finish (hp : w.phase = .painting) (hle : w.stripe.pixels ≤ w.quads.size)
      (ha : w.ask? j = none) (hnone : w.pending = 0) :
      Stepped j w s ({ w with phase := .finished }, s)
  | rest (hp : w.phase ≠ .painting) (ha : w.ask? j = none) : Stepped j w s (w, s)

theorem stepped (j : PaintJob) (w : Worker) (s : Shared) : Stepped j w s (w.step j s) := by
  cases hp : w.phase with
  | finished | stopped =>
      have hstep : w.step j s = (w, s) := by simp [step, hp]
      exact hstep ▸ .rest (by simp [hp]) (by simp [ask?, hp])
  | painting =>
      simp only [step, hp]
      split
      next hfull => exact .flush hp (by simp [ask?, hfull]) (hfull ▸ Nat.zero_lt_succ _) (.inl hfull)
      next hfull =>
        split
        next hlt =>
          have ha : w.ask? j = some (w.next j) := if_pos ⟨hp, hfull, hlt⟩
          split
          next hs => exact .stop hp hlt ha hs
          next hs => exact .paint hp hlt ha (Bool.eq_false_iff.2 hs)
        next hlt =>
          have ha : w.ask? j = none := if_neg fun h ↦ hlt h.2.2
          have hle := Nat.le_of_not_lt hlt
          split
          next hnone => exact .finish hp hle ha hnone
          next hsome => exact .flush hp ha (Nat.pos_of_ne_zero hsome) (.inr hle)

/-! ## What a worker has done -/

/-- What holds of a worker between two steps. -/
structure Ok (j : PaintJob) (w : Worker) : Prop where
  size_le : w.quads.size ≤ w.stripe.pixels
  painted : w.quads.toList = (List.range w.quads.size).map (j.stripeCell w.stripe)
  finished : w.phase = .finished → w.quads.size = w.stripe.pixels
  stopped : w.phase = .stopped → w.quads.size < w.stripe.pixels

/-- The pixels that were polled, and what the polls saw. -/
def polled (j : PaintJob) (w : Worker) : List Poll :=
  (List.range' (w.stripe.offset j.width) w.quads.size).map (⟨·, false⟩) ++
    if w.phase = .stopped then [⟨w.next j, true⟩] else []

theorem ok_ofStripe (j : PaintJob) (stripe : Stripe) : (ofStripe stripe).Ok j where
  size_le := Nat.zero_le _
  painted := rfl
  finished h := by cases h
  stopped h := by cases h

theorem polled_ofStripe (j : PaintJob) (stripe : Stripe) : (ofStripe stripe).polled j = [] := rfl

theorem stripe_step (j : PaintJob) (w : Worker) (s : Shared) :
    (w.step j s).1.stripe = w.stripe := by
  have h := stepped j w s
  generalize w.step j s = r at h ⊢
  cases h <;> rfl

theorem Ok.paintNext (h : w.Ok j) (hp : w.phase = .painting)
    (hlt : w.quads.size < w.stripe.pixels) : (w.paintNext j).Ok j := by
  have hsize : (w.paintNext j).quads.size = w.quads.size + 1 := Array.size_push _
  constructor
  case size_le => exact hsize ▸ hlt
  case painted =>
    rw [hsize, List.range_succ, List.map_append]
    change (w.quads.push _).toList = _
    rw [Array.toList_push, h.painted]
    rfl
  case finished =>
    intro hf
    cases hp.symm.trans hf
  case stopped =>
    intro hs
    cases hp.symm.trans hs

theorem Ok.step (h : w.Ok j) (s : Shared) : (w.step j s).1.Ok j := by
  have hstep := stepped j w s
  generalize w.step j s = r at hstep ⊢
  cases hstep with
  | paint hp hlt => exact h.paintNext hp hlt
  | stop hp hlt => exact ⟨h.size_le, h.painted, fun hf ↦ (by cases hf), fun _ ↦ hlt⟩
  | flush hp => exact ⟨h.size_le, h.painted, h.finished, h.stopped⟩
  | finish hp hle =>
      exact ⟨h.size_le, h.painted, fun _ ↦ Nat.le_antisymm h.size_le hle, fun hs ↦ (by cases hs)⟩
  | rest => exact h

/-- A step adds its own poll. -/
theorem polled_step (j : PaintJob) (w : Worker) (s : Shared) :
    (w.step j s).1.polled j = w.polled j ++ ((w.ask? j).map (⟨·, s.cancelled⟩)).toList := by
  have hstep := stepped j w s
  generalize w.step j s = r at hstep ⊢
  cases hstep with
  | paint hp _ ha hs =>
      have hsize : (w.paintNext j).quads.size = w.quads.size + 1 := Array.size_push _
      rw [ha, hs, polled, polled, hsize, List.range'_1_concat, List.map_append]
      simp [paintNext, hp, next]
  | stop hp _ ha hs =>
      rw [ha, hs]
      simp [polled, hp, next]
  | flush hp ha =>
      rw [ha]
      simp [polled, flush, hp]
  | finish hp _ ha =>
      rw [ha]
      simp [polled, hp]
  | rest _ ha =>
      rw [ha]
      simp

end Worker

end FieldGraph
