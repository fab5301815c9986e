import FieldGraph.Proofs.Render.Histories
import Mathlib.Data.List.Nodup

/-!
# How the work ends

Left alone, every worker comes to an end.  When nobody works any more, all stripes are finished if
and only if no poll saw the flag, which is the case if and only if every pixel was polled without it.
-/

namespace FieldGraph

namespace Worker

variable {j : PaintJob} {w : Worker}

/-- A finished worker has polled all pixels of its stripe. -/
theorem polled_of_finished (h : w.Ok j) (hf : w.phase = .finished) :
    w.polled j = (w.stripe.cells j.width).map (⟨·, false⟩) := by
  rw [polled, h.finished hf, if_neg (by simp [hf]), List.append_nil, Stripe.cells]

/-- A worker polls pixels of its stripe, each at most once. -/
theorem polled_sublist (h : w.Ok j) :
    ((w.polled j).map Poll.pixel).Sublist (w.stripe.cells j.width) := by
  have hfirst {n : Nat} (hn : n ≤ w.stripe.pixels) :
      (List.range' (w.stripe.offset j.width) n).Sublist (w.stripe.cells j.width) := by
    rw [Stripe.cells, ← Nat.add_sub_cancel' hn, ← List.range'_append_1]
    exact List.sublist_append_left ..
  have hpixels : (List.range' (w.stripe.offset j.width) w.quads.size).map
      (Poll.pixel ∘ fun p ↦ ⟨p, false⟩) = List.range' (w.stripe.offset j.width) w.quads.size :=
    List.map_id _
  rw [polled, List.map_append, List.map_map, hpixels]
  split
  next hs =>
    have hnext := hfirst (h.stopped hs)
    rwa [Nat.succ_eq_add_one, List.range'_1_concat] at hnext
  next =>
    rw [List.map_nil, List.append_nil]
    exact hfirst h.size_le

end Worker

namespace WorkState

variable {j : PaintJob} {s : WorkState} {stripes : List Stripe}

theorem isFinished_iff : s.isFinished = true ↔ ∀ w ∈ s.workers, w.phase = .finished := by
  simp [isFinished]

/-- Every worker has come to an end. -/
def Ended (s : WorkState) : Prop := ∀ w ∈ s.workers, w.phase ≠ .painting

/-- The work is over when it has ended.  As soon as a worker stops it is over, too: there will be no
image, and the others need not go on or even begin. -/
def Over (s : WorkState) : Prop := s.Ended ∨ ∃ w ∈ s.workers, w.phase = .stopped

/-! ## What has been polled -/

/-- No pixel is polled twice. -/
theorem Ok.polled_sublist (h : s.Ok j stripes) :
    ((s.polled j).map Poll.pixel).Sublist (stripes.flatMap (Stripe.cells · j.width)) := by
  obtain ⟨hs, hok⟩ := h
  rw [← hs, polled, List.map_flatMap, List.flatMap_map]
  generalize s.workers = workers at hok ⊢
  induction workers with
  | nil => exact .slnil
  | cons w workers ih =>
      rw [List.flatMap_cons, List.flatMap_cons]
      exact (Worker.polled_sublist (hok w List.mem_cons_self)).append
        (ih fun v hv ↦ hok v (List.mem_cons_of_mem w hv))

theorem Ok.polled_of_finished (h : s.Ok j stripes) (hf : s.isFinished = true) :
    s.polled j = (stripes.flatMap (Stripe.cells · j.width)).map (⟨·, false⟩) := by
  obtain ⟨hs, hok⟩ := h
  rw [isFinished_iff] at hf
  rw [← hs, polled, List.flatMap_map, List.map_flatMap]
  exact List.flatMap_congr fun w hw ↦ Worker.polled_of_finished (hok w hw) (hf w hw)

/-- When nobody works any more, the stripes are finished unless somebody stopped. -/
theorem Over.isFinished_iff (ho : s.Over) (j : PaintJob) :
    s.isFinished = true ↔ ∀ q ∈ s.polled j, q.cancelled = false := by
  rw [WorkState.isFinished_iff]
  constructor
  · intro hf q hq
    obtain ⟨w, hw, hq⟩ := List.mem_flatMap.1 hq
    rw [Worker.polled, if_neg (by simp [hf w hw]), List.append_nil] at hq
    obtain ⟨p, -, rfl⟩ := List.mem_map.1 hq
    rfl
  · intro hq
    -- A worker that stopped has a poll that saw the flag.
    have hstop : ∀ w ∈ s.workers, w.phase ≠ .stopped := by
      intro w hw hs
      have hmem : ⟨w.next j, true⟩ ∈ s.polled j :=
        List.mem_flatMap.2 ⟨w, hw, by simp [Worker.polled, hs]⟩
      cases hq _ hmem
    intro w hw
    rcases ho with hp | ⟨v, hv, hs⟩
    · cases hw' : w.phase with
      | painting => exact absurd hw' (hp w hw)
      | stopped => exact absurd hw' (hstop w hw)
      | finished => rfl
    · exact absurd hs (hstop v hv)

/-- When nobody works any more, the stripes are finished if every pixel was polled without the flag,
because no other poll of that pixel can have seen it. -/
theorem Over.isFinished_iff_cells (ho : s.Over) (h : s.Ok j stripes)
    (hn : (stripes.flatMap (Stripe.cells · j.width)).Nodup) :
    s.isFinished = true ↔
      ∀ p ∈ stripes.flatMap (Stripe.cells · j.width), ⟨p, false⟩ ∈ s.polled j := by
  constructor
  · intro hf p hp
    rw [h.polled_of_finished hf]
    exact List.mem_map_of_mem hp
  · intro hall
    rw [ho.isFinished_iff j]
    intro q hq
    have hpixel := h.polled_sublist.subset (List.mem_map_of_mem hq)
    have hsame := List.inj_on_of_nodup_map (hn.sublist h.polled_sublist) hq (hall _ hpixel) rfl
    rw [hsame]

section Polls

variable {cancelled : Bool} {events : List WorkEvent}

/-- The polls of a history from the start, as the workers have them. -/
theorem mem_polls_iff {q : Poll} :
    q ∈ (start stripes cancelled).polls j events ↔
      q ∈ ((start stripes cancelled).after j events).polled j :=
  (polls_start_perm j stripes cancelled events).mem_iff

theorem isFinished_iff_polls (ho : ((start stripes cancelled).after j events).Over) :
    ((start stripes cancelled).after j events).isFinished = true ↔
      ∀ q ∈ (start stripes cancelled).polls j events, q.cancelled = false := by
  rw [ho.isFinished_iff j]
  simp only [mem_polls_iff]

theorem isFinished_iff_cells_polls (ho : ((start stripes cancelled).after j events).Over)
    (hn : (stripes.flatMap (Stripe.cells · j.width)).Nodup) :
    ((start stripes cancelled).after j events).isFinished = true ↔
      ∀ p ∈ stripes.flatMap (Stripe.cells · j.width),
        ⟨p, false⟩ ∈ (start stripes cancelled).polls j events := by
  rw [ho.isFinished_iff_cells ((ok_start ..).after events) hn]
  simp only [mem_polls_iff]

/-- No pixel is polled twice. -/
theorem nodup_polls (hn : (stripes.flatMap (Stripe.cells · j.width)).Nodup) :
    (((start stripes cancelled).polls j events).map Poll.pixel).Nodup :=
  ((polls_start_perm j stripes cancelled events).map Poll.pixel).nodup_iff.2
    (hn.sublist ((ok_start j stripes cancelled).after events).polled_sublist)

theorem mem_cells_of_mem_polls {q : Poll} (h : q ∈ (start stripes cancelled).polls j events) :
    q.pixel ∈ stripes.flatMap (Stripe.cells · j.width) :=
  ((ok_start j stripes cancelled).after events).polled_sublist.subset
    (List.mem_map_of_mem (mem_polls_iff.1 h))

theorem mem_cells_of_mem_writes {p : Nat} (h : p ∈ (start stripes cancelled).writes j events) :
    p ∈ stripes.flatMap (Stripe.cells · j.width) := by
  rw [writes_eq] at h
  obtain ⟨q, hq, hp⟩ := List.mem_filterMap.1 h
  unfold Poll.painted? at hp
  split at hp
  · cases hp
  · cases hp
    exact mem_cells_of_mem_polls hq

/-- Finished work has written every pixel once. -/
theorem writes_perm_of_finished
    (hf : ((start stripes cancelled).after j events).isFinished = true) :
    ((start stripes cancelled).writes j events).Perm (stripes.flatMap (Stripe.cells · j.width)) := by
  have hperm := polls_start_perm j stripes cancelled events
  rw [((ok_start j stripes cancelled).after events).polled_of_finished hf] at hperm
  rw [writes_eq]
  refine (hperm.filterMap Poll.painted?).trans (.of_eq ?_)
  rw [List.filterMap_map]
  exact List.filterMap_some

/-- If nobody sets the flag, no poll sees it. -/
theorem polls_of_quiet (hl : ∀ p, j.listener p = false) (h : s.shared.cancelled = false)
    (hc : .cancel ∉ events) : ∀ q ∈ s.polls j events, q.cancelled = false := by
  intro q hq
  obtain ⟨earlier, hp, hflag⟩ := exists_prefix_of_mem_polls hq
  rw [hflag]
  exact not_cancelled_after hl h fun hmem ↦ hc (hp.subset hmem)

/-- If the flag is set, every poll sees it. -/
theorem polls_of_cancelled (h : s.shared.cancelled = true) :
    ∀ q ∈ s.polls j events, q.cancelled = true := by
  intro q hq
  obtain ⟨earlier, -, hflag⟩ := exists_prefix_of_mem_polls hq
  rw [hflag]
  exact cancelled_after h earlier

end Polls

/-! ## Coming to an end -/

theorem after_step_append (j : PaintJob) (before after : List Worker) (w : Worker)
    (shared : Shared) (events : List WorkEvent) :
    WorkState.after j ⟨before ++ w :: after, shared⟩ (.step before.length :: events) =
      WorkState.after j ⟨before ++ (w.step j shared).1 :: after, (w.step j shared).2⟩ events := by
  change (WorkState.apply j _ _).after j events = _
  simp [apply]

/-- A worker that works to its end takes so many steps. -/
theorem exists_steps_finish (j : PaintJob) (before after : List Worker) (w : Worker)
    (shared : Shared) :
    (∃ n, WorkState.after j ⟨before ++ w :: after, shared⟩
        (List.replicate n (.step before.length)) =
      ⟨before ++ (w.finish j shared).1 :: after, (w.finish j shared).2⟩) ∧
      (w.finish j shared).1.phase ≠ .painting := by
  fun_induction Worker.finish j w shared with
  | case1 w shared hp r ih =>
      obtain ⟨⟨n, hn⟩, hend⟩ := ih
      refine ⟨⟨n + 1, ?_⟩, hend⟩
      rw [List.replicate_succ, after_step_append]
      exact hn
  | case2 w shared hp => exact ⟨⟨0, rfl⟩, hp⟩

theorem exists_events_finishAll (j : PaintJob) (before workers : List Worker) (shared : Shared) :
    (∃ events, .cancel ∉ events ∧ WorkState.after j ⟨before ++ workers, shared⟩ events =
      ⟨before ++ (finishAll j workers shared).1, (finishAll j workers shared).2⟩) ∧
      ∀ w ∈ (finishAll j workers shared).1, w.phase ≠ .painting := by
  induction workers generalizing before shared with
  | nil => exact ⟨⟨[], List.not_mem_nil, rfl⟩, fun _ hw ↦ by cases hw⟩
  | cons w workers ih =>
      obtain ⟨⟨n, hn⟩, hend⟩ := exists_steps_finish j before workers w shared
      obtain ⟨⟨events, hc, hev⟩, hrest⟩ :=
        ih (before ++ [(w.finish j shared).1]) (w.finish j shared).2
      refine ⟨⟨List.replicate n (.step before.length) ++ events, ?_, ?_⟩, ?_⟩
      · intro hmem
        rcases List.mem_append.1 hmem with hmem | hmem
        · cases List.eq_of_mem_replicate hmem
        · exact hc hmem
      · rw [after_append, hn]
        simpa [finishAll] using hev
      · intro v hv
        rcases List.mem_cons.1 hv with rfl | hv
        · exact hend
        · exact hrest v hv

/-- Letting the workers work one after another is one of the histories in which nobody cancels from
outside, and brings them all to an end. -/
theorem exists_events_finish (j : PaintJob) (s : WorkState) :
    (∃ events, .cancel ∉ events ∧ s.after j events = s.finish j) ∧ (s.finish j).Ended :=
  exists_events_finishAll j [] s.workers s.shared

/-- Every history in which nobody cancels from outside can go on to its end. -/
theorem exists_more_ended (j : PaintJob) (s : WorkState) {events : List WorkEvent}
    (hc : .cancel ∉ events) :
    ∃ more, .cancel ∉ events ++ more ∧ (s.after j (events ++ more)).Ended := by
  obtain ⟨⟨more, hmore, hev⟩, hend⟩ := exists_events_finish j (s.after j events)
  refine ⟨more, fun hmem ↦ (List.mem_append.1 hmem).elim hc hmore, ?_⟩
  rw [after_append, hev]
  exact hend

end WorkState

end FieldGraph
