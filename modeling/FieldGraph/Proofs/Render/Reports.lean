import FieldGraph.Proofs.Render.Images
import Mathlib.Algebra.Order.BigOperators.Group.List
import Mathlib.Algebra.Order.Ring.Nat

/-!
# Reports of progress

A worker adds its pixels to the shared counter a batch at a time, and reports what the counter has
become.  What all workers have painted is what they have added up and what they still hold back.  So
the counter never runs ahead of the pixels, every report tells more than the one before, and when all
stripes are finished nothing is held back.
-/

namespace FieldGraph

/-! ## Batches of one worker -/

namespace Worker

variable {j : PaintJob} {w : Worker}

/-- What holds of the batches of a worker between two steps. -/
structure Batched (w : Worker) : Prop where
  held : w.pending ≤ w.quads.size
  held_le_batch : w.pending ≤ batch
  batches_eq : w.batches = Stripe.ceilDiv (w.quads.size - w.pending) batch
  /-- Every batch is full, unless it is the rest of the stripe. -/
  full : batch ∣ w.quads.size - w.pending ∨
    w.pending = 0 ∧ w.stripe.pixels ≤ w.quads.size
  finished : w.phase = .finished → w.pending = 0

theorem batched_ofStripe (stripe : Stripe) : (ofStripe stripe).Batched where
  held := Nat.le_refl _
  held_le_batch := Nat.zero_le _
  batches_eq := show 0 = Stripe.ceilDiv 0 batch by decide
  full := .inl (Nat.dvd_zero _)
  finished _ := rfl

/-- One batch more, full or not, on top of full ones. -/
theorem ceilDiv_add_batch {added held : Nat} (hadded : batch ∣ added) (hpos : 0 < held)
    (hle : held ≤ batch) :
    Stripe.ceilDiv (added + held) batch = Stripe.ceilDiv added batch + 1 := by
  obtain ⟨k, rfl⟩ := hadded
  simp only [Stripe.ceilDiv, batch] at hle ⊢
  omega

theorem Batched.paintNext (h : w.Batched) (hlt : w.quads.size < w.stripe.pixels)
    (hroom : w.pending ≠ batch) (hp : w.phase = .painting) : (w.paintNext j).Batched := by
  have hsize : (w.paintNext j).quads.size = w.quads.size + 1 := Array.size_push _
  have hadded : (w.paintNext j).quads.size - (w.paintNext j).pending =
      w.quads.size - w.pending := by
    rw [hsize]
    exact Nat.add_sub_add_right ..
  constructor
  case held => exact hsize ▸ Nat.succ_le_succ h.held
  case held_le_batch => exact Nat.lt_of_le_of_ne h.held_le_batch hroom
  case batches_eq => exact hadded ▸ h.batches_eq
  case full =>
    rw [hadded]
    exact .inl (h.full.resolve_right fun hrest ↦ absurd hrest.2 (Nat.not_le_of_lt hlt))
  case finished =>
    intro hf
    cases hp.symm.trans hf

theorem Batched.flush (h : w.Batched) (s : Shared) (hpos : 0 < w.pending)
    (hdue : w.pending = batch ∨ w.stripe.pixels ≤ w.quads.size) :
    (w.flush j s).1.Batched := by
  have hfull := h.full.resolve_right fun hrest ↦ Nat.ne_of_gt hpos hrest.1
  have hsum : w.quads.size - w.pending + w.pending = w.quads.size := Nat.sub_add_cancel h.held
  constructor
  case held => exact Nat.zero_le _
  case held_le_batch => exact Nat.zero_le _
  case batches_eq =>
    change w.batches + 1 = Stripe.ceilDiv w.quads.size batch
    rw [h.batches_eq, ← ceilDiv_add_batch hfull hpos h.held_le_batch, hsum]
  case full =>
    refine hdue.imp (fun hbatch ↦ ?_) fun hle ↦ ⟨rfl, hle⟩
    change batch ∣ w.quads.size
    rw [← hsum]
    exact Nat.dvd_add hfull (hbatch ▸ Nat.dvd_refl _)
  case finished => exact fun _ ↦ rfl

theorem Batched.step (h : w.Batched) (s : Shared) : (w.step j s).1.Batched := by
  have hstep := stepped j w s
  generalize w.step j s = r at hstep ⊢
  cases hstep with
  | paint hp hlt ha =>
      refine h.paintNext hlt (fun hfull ↦ ?_) hp
      simp [ask?, hfull] at ha
  | stop => exact ⟨h.held, h.held_le_batch, h.batches_eq, h.full, fun hf ↦ by cases hf⟩
  | flush _ _ hpos hdue => exact h.flush s hpos hdue
  | finish _ _ _ hnone => exact ⟨h.held, h.held_le_batch, h.batches_eq, h.full, fun _ ↦ hnone⟩
  | rest => exact h

/-- A finished worker has made as many batches as its stripe needs. -/
theorem Batched.batches_of_finished (h : w.Batched) (hok : w.Ok j) (hf : w.phase = .finished) :
    w.batches = Stripe.ceilDiv w.stripe.pixels batch := by
  rw [h.batches_eq, h.finished hf, Nat.sub_zero, hok.finished hf]

/-- A step moves pixels from those held back to those added up, or paints one. -/
theorem done_step (j : PaintJob) (w : Worker) (s : Shared) :
    (w.step j s).2.done + (w.step j s).1.pending + w.quads.size =
      s.done + w.pending + (w.step j s).1.quads.size := by
  have hstep := stepped j w s
  generalize w.step j s = r at hstep ⊢
  cases hstep with
  | paint =>
      have hsize : (w.paintNext j).quads.size = w.quads.size + 1 := Array.size_push _
      change s.done + (w.pending + 1) + w.quads.size = s.done + w.pending + (w.paintNext j).quads.size
      omega
  | flush => rfl
  | stop | finish | rest => rfl

/-- The report that a step makes. -/
def report? (j : PaintJob) (w : Worker) (s : Shared) : Option Progress :=
  (w.step j s).2.reports[s.reports.size]?

/-- What a step reports is what the counter has become, with a batch more. -/
theorem report_step (j : PaintJob) (w : Worker) (s : Shared) :
    (w.step j s).2.reports.toList = s.reports.toList ++ (w.report? j s).toList ∧
      (w.step j s).1.batches = w.batches + (w.report? j s).toList.length ∧
      ∀ p ∈ w.report? j s, p.done = s.done + w.pending := by
  unfold report?
  have hstep := stepped j w s
  generalize w.step j s = r at hstep ⊢
  cases hstep with
  | flush => simp [Worker.flush]
  | paint | stop | finish | rest => simp [paintNext]

end Worker

/-! ## What has been reported -/

/-- What holds of the reports between two steps. -/
structure Shared.Told (j : PaintJob) (s : Shared) : Prop where
  bounded : ∀ p ∈ s.reports.toList, p.total = j.total ∧ p.done ≤ s.done
  increasing : s.reports.toList.Pairwise fun p q ↦ p.done < q.done
  last : s.reports.toList.getLast? = if s.done = 0 then none else some ⟨s.done, j.total⟩

theorem Shared.Told.flush {j : PaintJob} {s : Shared} (h : s.Told j) {w : Worker}
    (hpos : 0 < w.pending) : (w.flush j s).2.Told j := by
  have hreports : (w.flush j s).2.reports.toList =
      s.reports.toList ++ [⟨s.done + w.pending, j.total⟩] := Array.toList_push
  have hdone : (w.flush j s).2.done = s.done + w.pending := rfl
  constructor
  case bounded =>
    intro p hp
    rw [hreports] at hp
    rcases List.mem_append.1 hp with hp | hp
    · obtain ⟨htotal, hle⟩ := h.bounded p hp
      exact ⟨htotal, Nat.le_add_right_of_le hle⟩
    · obtain rfl := List.mem_singleton.1 hp
      exact ⟨rfl, Nat.le_refl _⟩
  case increasing =>
    rw [hreports, List.pairwise_append]
    refine ⟨h.increasing, List.pairwise_singleton .., fun p hp q hq ↦ ?_⟩
    obtain rfl := List.mem_singleton.1 hq
    exact Nat.lt_of_le_of_lt (h.bounded p hp).2 (Nat.lt_add_of_pos_right hpos)
  case last =>
    rw [hreports, List.getLast?_concat, hdone, if_neg (by omega)]

theorem Worker.told_step {j : PaintJob} {s : Shared} (h : s.Told j) (w : Worker) :
    (w.step j s).2.Told j := by
  have hstep := stepped j w s
  generalize w.step j s = r at hstep ⊢
  cases hstep with
  | flush _ _ hpos => exact h.flush hpos
  | paint | stop | finish | rest => exact h

/-- A report, with the worker that makes it. -/
structure Report where
  worker : Nat
  progress : Progress
deriving DecidableEq

namespace WorkState

variable {j : PaintJob} {s : WorkState} {stripes : List Stripe}

/-- The pixels that the workers hold back. -/
def pending (s : WorkState) : Nat := (s.workers.map Worker.pending).sum

/-- The pixels that are painted. -/
def painted (s : WorkState) : Nat := (s.workers.map (·.quads.size)).sum

/-- What holds of the counter and the reports after any history. -/
structure Tallied (j : PaintJob) (s : WorkState) : Prop where
  workers : ∀ w ∈ s.workers, w.Batched
  done_eq : s.shared.done + s.pending = s.painted
  told : s.shared.Told j

theorem tallied_start (j : PaintJob) (stripes : List Stripe) (cancelled : Bool) :
    (start stripes cancelled).Tallied j where
  workers w hw := by
    obtain ⟨stripe, -, rfl⟩ := List.mem_map.1 hw
    exact Worker.batched_ofStripe stripe
  done_eq := by simp [start, pending, painted, Worker.ofStripe, Function.comp_def]
  told := ⟨fun _ hp ↦ absurd hp List.not_mem_nil, List.Pairwise.nil, rfl⟩

theorem Tallied.apply (h : s.Tallied j) (e : WorkEvent) : (s.apply j e).Tallied j := by
  have happ := applied j s e
  generalize s.apply j e = s' at happ ⊢
  cases happ with
  | cancel => exact ⟨h.workers, h.done_eq, ⟨h.told.bounded, h.told.increasing, h.told.last⟩⟩
  | nobody => exact h
  | @step i before after w hi hw =>
      obtain ⟨hbatched, hdone, htold⟩ := h
      rw [hw] at hbatched
      constructor
      case workers =>
        intro v hv
        rcases List.mem_append.1 hv with hv | hv
        · exact hbatched v (List.mem_append_left _ hv)
        rcases List.mem_cons.1 hv with rfl | hv
        · exact (hbatched w (by simp)).step s.shared
        · exact hbatched v (by simp [hv])
      case done_eq =>
        have hstep := Worker.done_step j w s.shared
        simp only [pending, painted, hw, List.map_append, List.map_cons, List.sum_append,
          List.sum_cons] at hdone ⊢
        omega
      case told => exact Worker.told_step htold w

theorem Tallied.after (h : s.Tallied j) (events : List WorkEvent) :
    (s.after j events).Tallied j := by
  induction events generalizing s with
  | nil => exact h
  | cons e events ih => exact ih (h.apply e)

/-! ## Reports of a history -/

/-- The report that an event makes. -/
def report? (j : PaintJob) (s : WorkState) : WorkEvent → Option Report
  | .cancel => none
  | .step i => do
    let w ← s.workers[i]?
    let p ← w.report? j s.shared
    return ⟨i, p⟩

/-- The reports of a history. -/
def reported (j : PaintJob) (s : WorkState) (events : List WorkEvent) : List Report :=
  trace j (report? j) s events

theorem reports_apply (j : PaintJob) (s : WorkState) (e : WorkEvent) :
    (s.apply j e).shared.reports.toList =
      s.shared.reports.toList ++ ((s.report? j e).map Report.progress).toList := by
  have happ := applied j s e
  generalize s.apply j e = s' at happ ⊢
  cases happ with
  | cancel => simp [cancel, report?]
  | nobody hi => simp [report?, hi]
  | @step i before after w hi hw =>
      have hreport : (s.report? j (.step i)).map Report.progress = w.report? j s.shared := by
        cases hp : w.report? j s.shared <;> simp [report?, hi, hp]
      rw [hreport]
      exact (Worker.report_step j w s.shared).1

/-- The reports of a history are listed in the order in which the counter is added to. -/
theorem reports_after (j : PaintJob) (s : WorkState) (events : List WorkEvent) :
    (s.after j events).shared.reports.toList =
      s.shared.reports.toList ++ (s.reported j events).map Report.progress := by
  induction events generalizing s with
  | nil => simp [after, reported, trace]
  | cons e events ih =>
      change ((s.apply j e).after j events).shared.reports.toList = _
      rw [ih, reports_apply, List.append_assoc]
      cases h : s.report? j e <;> simp [reported, trace, h]

/-- An event that reports adds a batch to the worker that makes the report, and to no other. -/
theorem exists_worker_apply (j : PaintJob) {i : Nat} {w : Worker} (hi : s.workers[i]? = some w)
    (e : WorkEvent) : ∃ w', (s.apply j e).workers[i]? = some w' ∧
      w'.batches = w.batches + (s.report? j e).toList.countP (·.worker = i) := by
  cases e with
  | cancel => exact ⟨w, hi, rfl⟩
  | step k =>
      by_cases hk : k = i
      · subst hk
        have hlt := (List.getElem?_eq_some_iff.1 hi).1
        refine ⟨(w.step j s.shared).1, by simp only [apply, hi, List.getElem?_set_self hlt], ?_⟩
        rw [(Worker.report_step j w s.shared).2.1]
        cases hp : w.report? j s.shared <;> simp [report?, hi, hp]
      · refine ⟨w, ?_, ?_⟩
        · simp only [apply]
          split
          · exact hi
          · rw [List.getElem?_set_ne hk, hi]
        · have hother : (s.report? j (.step k)).toList.countP (·.worker = i) = 0 := by
            rw [List.countP_eq_zero]
            intro report hmem
            obtain ⟨v, -, hv⟩ := Option.bind_eq_some_iff.1 (Option.mem_toList.1 hmem)
            obtain ⟨p, -, hp⟩ := Option.bind_eq_some_iff.1 hv
            obtain rfl := Option.some.inj hp
            simpa using hk
          rw [hother, Nat.add_zero]

/-- The batches of a worker are the reports it has made. -/
theorem exists_worker_after (j : PaintJob) {i : Nat} {w : Worker} (hi : s.workers[i]? = some w)
    (events : List WorkEvent) : ∃ w', (s.after j events).workers[i]? = some w' ∧
      w'.batches = w.batches + (s.reported j events).countP (·.worker = i) := by
  induction events generalizing s w with
  | nil => exact ⟨w, hi, rfl⟩
  | cons e events ih =>
      obtain ⟨w₁, hi₁, hbatches₁⟩ := exists_worker_apply j hi e
      obtain ⟨w₂, hi₂, hbatches₂⟩ := ih hi₁
      refine ⟨w₂, hi₂, ?_⟩
      rw [hbatches₂, hbatches₁, Nat.add_assoc, ← List.countP_append]
      rfl

/-! ## Painted pixels -/

theorem painted_eq (j : PaintJob) (s : WorkState) :
    s.painted = ((s.polled j).filterMap Poll.painted?).length := by
  have hworker (w : Worker) : ((w.polled j).filterMap Poll.painted?).length = w.quads.size := by
    have hnumbers := List.filterMap_some (l := List.range' (w.stripe.offset j.width) w.quads.size)
    rw [Worker.polled, List.filterMap_append, List.filterMap_map]
    change (List.filterMap some _ ++ _).length = _
    rw [hnumbers, List.length_append, List.length_range']
    split <;> rfl
  simp only [painted, polled, List.filterMap_flatMap, List.length_flatMap, hworker]

/-- What is painted has been written in the course of the history. -/
theorem length_writes (j : PaintJob) (stripes : List Stripe) (cancelled : Bool)
    (events : List WorkEvent) :
    ((start stripes cancelled).writes j events).length =
      ((start stripes cancelled).after j events).painted := by
  rw [writes_eq, painted_eq j]
  exact ((polls_start_perm j stripes cancelled events).filterMap _).length_eq

/-- No more is painted than there is, -/
theorem Ok.painted_le (h : s.Ok j stripes) :
    s.painted ≤ (stripes.flatMap (Stripe.cells · j.width)).length := by
  rw [painted_eq j]
  refine Nat.le_trans (List.length_filterMap_le ..) ?_
  rw [← List.length_map Poll.pixel]
  exact h.polled_sublist.length_le

/-- and finished work has painted all of it. -/
theorem Ok.painted_of_finished (h : s.Ok j stripes) (hf : s.isFinished = true) :
    s.painted = (stripes.flatMap (Stripe.cells · j.width)).length := by
  have hall := List.filterMap_some (l := stripes.flatMap (Stripe.cells · j.width))
  rw [painted_eq j, h.polled_of_finished hf, List.filterMap_map]
  exact congrArg List.length hall

/-- As long as the flag is not set, work that has ended is finished. -/
theorem isFinished_of_not_cancelled {cancelled : Bool} {events : List WorkEvent}
    (he : ((start stripes cancelled).after j events).Ended)
    (hs : ((start stripes cancelled).after j events).shared.cancelled = false) :
    ((start stripes cancelled).after j events).isFinished = true := by
  refine (isFinished_iff_polls (.inl he)).2 fun q hq ↦ ?_
  obtain ⟨earlier, ⟨later, rfl⟩, hflag⟩ := exists_prefix_of_mem_polls hq
  rw [after_append] at hs
  rw [hflag]
  exact Bool.eq_false_iff.2 fun hset ↦ Bool.false_ne_true (hs.symm.trans (cancelled_after hset later))

/-- A report tells of painted pixels only. -/
theorem Tallied.done_le_of_report (h : s.Tallied j) {e : WorkEvent} {report : Report}
    (hr : s.report? j e = some report) : report.progress.done ≤ s.painted := by
  cases e with
  | cancel => cases hr
  | step i =>
      obtain ⟨w, hi, hw⟩ := Option.bind_eq_some_iff.1 hr
      obtain ⟨p, hp, hreport⟩ := Option.bind_eq_some_iff.1 hw
      obtain rfl := Option.some.inj hreport
      have hheld : w.pending ≤ s.pending :=
        List.le_sum_of_mem (List.mem_map_of_mem (List.mem_of_getElem? hi))
      have hdone : p.done = s.shared.done + w.pending := (Worker.report_step j w s.shared).2.2 p hp
      rw [← h.done_eq, hdone]
      exact Nat.add_le_add_left hheld _

/-- When all stripes are finished, nothing is held back. -/
theorem Tallied.pending_of_finished (h : s.Tallied j) (hf : s.isFinished = true) :
    s.pending = 0 := by
  rw [pending, List.sum_eq_zero]
  intro n hn
  obtain ⟨w, hw, rfl⟩ := List.mem_map.1 hn
  exact (h.workers w hw).finished (isFinished_iff.1 hf w hw)

/-- Then the counter stands at what is painted, which is everything, and that was reported last. -/
theorem Tallied.getLast?_of_finished (h : s.Tallied j) (hok : s.Ok j stripes)
    (hf : s.isFinished = true) {n : Nat}
    (hn : (stripes.flatMap (Stripe.cells · j.width)).length = n) :
    s.shared.reports.toList.getLast? = if n = 0 then none else some ⟨n, j.total⟩ := by
  have hall : s.shared.done = n := by
    rw [← hn, ← hok.painted_of_finished hf, ← h.done_eq, h.pending_of_finished hf, Nat.add_zero]
  have hlast := h.told.last
  rwa [hall] at hlast

theorem tallied_after (j : PaintJob) (stripes : List Stripe) (cancelled : Bool)
    (events : List WorkEvent) : ((start stripes cancelled).after j events).Tallied j :=
  (tallied_start j stripes cancelled).after events

/-- A worker that has finished has reported every batch of its stripe. -/
theorem countP_reported_of_finished {cancelled : Bool} {events : List WorkEvent} {i : Nat}
    {stripe : Stripe} (hi : stripes[i]? = some stripe)
    (hf : ((start stripes cancelled).after j events).isFinished = true) :
    ((start stripes cancelled).reported j events).countP (·.worker = i) =
      Stripe.ceilDiv stripe.pixels batch := by
  have hstart : (start stripes cancelled).workers[i]? = some (Worker.ofStripe stripe) := by
    rw [start, List.getElem?_map, hi, Option.map_some]
  obtain ⟨w, hw, hbatches⟩ := exists_worker_after j hstart events
  have hmem := List.mem_of_getElem? hw
  have hok := (ok_start j stripes cancelled).after events
  have hstripe : w.stripe = stripe := by
    have hget := congrArg (·[i]?) hok.stripes
    simpa [hw, hi] using hget
  have hzero : (Worker.ofStripe stripe).batches = 0 := rfl
  rw [hzero, Nat.zero_add] at hbatches
  rw [← hbatches, ← hstripe]
  exact ((tallied_after j stripes cancelled events).workers w hmem).batches_of_finished
    (hok.workers w hmem) (isFinished_iff.1 hf w hmem)

end WorkState

/-! ## Reports of a render -/

/-- Stripes have no more pixels than their bytes are worth. -/
theorem Stripe.sum_pixels_mul_le (stripes : List Stripe) :
    (stripes.map Stripe.pixels).sum * 4 ≤ (stripes.map Stripe.bytes).sum := by
  induction stripes with
  | nil => exact Nat.le_refl _
  | cons s stripes ih =>
      have hs := Nat.div_mul_le_self s.bytes 4
      simp only [List.map_cons, List.sum_cons, Nat.add_mul]
      exact Nat.add_le_add hs ih

namespace RenderRequest

variable {r : RenderRequest}

/-- No size has more pixels in its stripes than in the image, -/
theorem length_cells_stripes_le (r : RenderRequest) (cores : Nat) :
    ((r.stripes cores).flatMap (Stripe.cells · r.width.toNat)).length ≤
      r.width.toNat * r.height.toNat := by
  have hlength : ((r.stripes cores).map fun s ↦ (s.cells r.width.toNat).length) =
      (r.stripes cores).map Stripe.pixels := List.map_congr_left fun _ _ ↦ List.length_range'
  have hbytes := Stripe.sum_pixels_mul_le (r.stripes cores)
  have hall : ((r.stripes cores).map Stripe.bytes).sum = imageBytes r.width r.height :=
    Stripe.sum_bytes_share ..
  have hexact := Nat.mod_le (r.width.toNat * r.height.toNat * 4) (UInt64.size)
  rw [hall, imageBytes_eq_mod] at hbytes
  rw [List.length_flatMap, hlength]
  omega

/-- and where the bytes can be counted there are as many. -/
theorem length_cells_stripes (hfit : SizeFits r.width r.height) (cores : Nat) :
    ((r.stripes cores).flatMap (Stripe.cells · r.width.toNat)).length =
      r.width.toNat * r.height.toNat := by
  rw [flatMap_cells_stripes hfit, List.length_range, Nat.mul_comm]

end RenderRequest

/-- No progress is lost and none is told twice.  In whatever order the workers take their steps, and
whoever cancels, each report tells more than the one before it, but no more than the pixels that are
painted at that moment.  When all stripes are finished, each stripe has made a report for every batch
of its pixels; and if the bytes of the image can be counted in a word, the last report tells of all
pixels (there is none if there are no pixels). -/
theorem progress_exact (field : Field) (r : RenderRequest) (cores : Nat)
    (listener : Progress → Bool) (cancelled : Bool) (events : List WorkEvent) :
    let j := r.paintJob field listener
    let start := WorkState.start (r.stripes cores) cancelled
    let s := start.after j events
    let told := (start.reported j events).map Report.progress
    let total := r.width.toNat * r.height.toNat
    s.shared.reports.toList = told ∧
      told.Pairwise (fun p q ↦ p.done < q.done) ∧
      (∀ p ∈ told, p.total = total ∧ p.done ≤ total) ∧
      (∀ e report, s.report? j e = some report →
        report.progress.done ≤ (start.writes j events).length) ∧
      (s.isFinished = true →
        (SizeFits r.width r.height →
          told.getLast? = if total = 0 then none else some ⟨total, total⟩) ∧
        ∀ i stripe, (r.stripes cores)[i]? = some stripe →
          (start.reported j events).countP (·.worker = i) = Stripe.ceilDiv stripe.pixels 100) ∧
      (s.Ended → s.shared.cancelled = false → s.isFinished = true) ∧
      ((∀ p, listener p = false) → cancelled = false → .cancel ∉ events →
        ∃ more, .cancel ∉ events ++ more ∧ (start.after j (events ++ more)).isFinished = true) := by
  intro j start s told total
  have hok := r.ok_after field cores listener cancelled events
  have htally := WorkState.tallied_after j (r.stripes cores) cancelled events
  have htold : s.shared.reports.toList = told :=
    (WorkState.reports_after j start events).trans (List.nil_append _)
  have hdone : s.shared.done ≤ total := calc
    s.shared.done ≤ s.painted := Nat.le.intro htally.done_eq
    _ ≤ _ := hok.painted_le
    _ ≤ total := r.length_cells_stripes_le cores
  refine ⟨htold, htold ▸ htally.told.increasing, fun p hp ↦ ?_, fun e report hr ↦ ?_,
    fun hf ↦ ⟨fun hfit ↦ ?_, fun i stripe hi ↦ ?_⟩, WorkState.isFinished_of_not_cancelled,
    fun hl hs hc ↦ ?_⟩
  · obtain ⟨htotal, hle⟩ := htally.told.bounded p (htold ▸ hp)
    exact ⟨htotal, hle.trans hdone⟩
  · rw [WorkState.length_writes]
    exact htally.done_le_of_report hr
  · exact htold ▸ htally.getLast?_of_finished hok hf (RenderRequest.length_cells_stripes hfit cores)
  · exact WorkState.countP_reported_of_finished hi hf
  · subst hs
    obtain ⟨more, hmore, he⟩ := WorkState.exists_more_ended j start hc
    exact ⟨more, hmore, (WorkState.isFinished_iff_polls (.inl he)).2
      (WorkState.polls_of_quiet hl rfl hmore)⟩

/-- A stripe of one pixel more than a batch makes two reports, the second of which tells of all; and
the only pixel of an image is reported although somebody cancels after it is painted. -/
theorem progress_oneBatchAndOne :
    (let r : RenderRequest := { width := 1, height := 101, workers := 1 }
      let j := r.paintJob (fun _ ↦ 1) fun _ ↦ false
      let start := WorkState.start (r.stripes 1) false
      ∃ events, .cancel ∉ events ∧ (start.after j events).isFinished = true ∧
        ((start.reported j events).map Report.progress).getLast? = some ⟨101, 101⟩ ∧
        (start.reported j events).countP (·.worker = 0) = 2) ∧
      let r : RenderRequest := { width := 1, height := 1, workers := 1 }
      let j := r.paintJob (fun _ ↦ 1) fun _ ↦ false
      let start := WorkState.start (r.stripes 1) false
      (start.after j [.step 0, .cancel]).report? j (.step 0) = some ⟨0, ⟨1, 1⟩⟩ ∧
        1 ≤ (start.writes j [.step 0, .cancel]).length := by
  constructor
  · intro r j start
    obtain ⟨-, -, -, -, -, -, hmore⟩ := progress_exact (fun _ ↦ 1) r 1 (fun _ ↦ false) false []
    obtain ⟨events, hc, hf⟩ := hmore (fun _ ↦ rfl) rfl List.not_mem_nil
    obtain ⟨-, -, -, -, hfinished, -⟩ :=
      progress_exact (fun _ ↦ 1) r 1 (fun _ ↦ false) false ([] ++ events)
    obtain ⟨hlast, hcount⟩ := hfinished hf
    have hstripe : (r.stripes 1)[0]? = some ⟨0, 404⟩ := by decide +kernel
    exact ⟨[] ++ events, hc, hf, hlast (by decide),
      (hcount 0 ⟨0, 404⟩ hstripe).trans (by decide +kernel)⟩
  · intro r j start
    have hreport : (start.after j [.step 0, .cancel]).report? j (.step 0) = some ⟨0, ⟨1, 1⟩⟩ := by
      decide +kernel
    obtain ⟨-, -, -, hpainted, -⟩ :=
      progress_exact (fun _ ↦ 1) r 1 (fun _ ↦ false) false [.step 0, .cancel]
    exact ⟨hreport, hpainted _ _ hreport⟩

/-- An image that is too large is finished without a report, although it has pixels. -/
theorem finished_without_report :
    let r := RenderRequest.oversized
    let outcome := render (fun _ ↦ 1) r 1 (fun _ ↦ false) false
    r.width.toNat * r.height.toNat ≠ 0 ∧ outcome.image.isSome = true ∧ outcome.cancelled = false ∧
      outcome.reports = #[] := by
  intro r outcome
  have himage : outcome.image = some (r.picture (fun _ ↦ 1) 1) :=
    RenderRequest.renderImage?_eq ..
  have hidle : (WorkState.start (r.stripes 1) false).finish (r.paintJob (fun _ ↦ 1) fun _ ↦ false) =
      WorkState.start [] false := by
    rw [RenderRequest.stripes_oversized]
    rfl
  have hshared : outcome.reports = #[] ∧ outcome.cancelled = false := by
    simp only [outcome, render, hidle]
    exact ⟨rfl, rfl⟩
  exact ⟨by decide, himage ▸ rfl, hshared.2, hshared.1⟩

end FieldGraph
