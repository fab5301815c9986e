import FieldGraph.Proofs.Render.Painting

/-!
# Histories of the work

All polls of a history together are those that the workers have behind them, in some order.  So no
pixel is polled twice, and a history that has come to an end painted every pixel unless one of its
polls saw the flag.
-/

namespace FieldGraph

namespace WorkState

variable {j : PaintJob} {s : WorkState} {stripes : List Stripe}

/-! ## Events -/

/-- What an event may do. -/
inductive Applied (j : PaintJob) (s : WorkState) : WorkEvent → WorkState → Prop
  | cancel : Applied j s .cancel s.cancel
  | nobody {i : Nat} (hi : s.workers[i]? = none) : Applied j s (.step i) s
  | step {i : Nat} {before after : List Worker} {w : Worker} (hi : s.workers[i]? = some w)
      (hw : s.workers = before ++ w :: after) :
      Applied j s (.step i) ⟨before ++ (w.step j s.shared).1 :: after, (w.step j s.shared).2⟩

theorem applied (j : PaintJob) (s : WorkState) (e : WorkEvent) : Applied j s e (s.apply j e) := by
  cases e with
  | cancel => exact .cancel
  | step i =>
      simp only [apply]
      split
      next hi => exact .nobody hi
      next w hi =>
        obtain ⟨hlt, rfl⟩ := List.getElem?_eq_some_iff.1 hi
        rw [List.set_eq_take_append_cons_drop, if_pos hlt]
        refine .step hi ?_
        rw [List.getElem_cons_drop, List.take_append_drop]

/-- What holds of the work after any history. -/
structure Ok (j : PaintJob) (stripes : List Stripe) (s : WorkState) : Prop where
  stripes : s.workers.map Worker.stripe = stripes
  workers : ∀ w ∈ s.workers, w.Ok j

theorem ok_start (j : PaintJob) (stripes : List Stripe) (cancelled : Bool) :
    (start stripes cancelled).Ok j stripes where
  stripes := by
    rw [start, List.map_map]
    exact List.map_id stripes
  workers w hw := by
    obtain ⟨stripe, -, rfl⟩ := List.mem_map.1 hw
    exact Worker.ok_ofStripe j stripe

theorem Ok.apply (h : s.Ok j stripes) (e : WorkEvent) : (s.apply j e).Ok j stripes := by
  have happ := applied j s e
  generalize s.apply j e = s' at happ ⊢
  cases happ with
  | cancel => exact ⟨h.stripes, h.workers⟩
  | nobody => exact h
  | step hi hw =>
      obtain ⟨hs, hok⟩ := h
      rw [hw] at hs hok
      constructor
      case stripes => simpa [Worker.stripe_step] using hs
      case workers =>
        intro v hv
        rcases List.mem_append.1 hv with hv | hv
        · exact hok v (List.mem_append_left _ hv)
        rcases List.mem_cons.1 hv with rfl | hv
        · exact (hok _ (by simp)).step s.shared
        · exact hok v (by simp [hv])

theorem after_append (j : PaintJob) (s : WorkState) (events more : List WorkEvent) :
    s.after j (events ++ more) = (s.after j events).after j more := List.foldl_append

theorem Ok.after (h : s.Ok j stripes) (events : List WorkEvent) :
    (s.after j events).Ok j stripes := by
  induction events generalizing s with
  | nil => exact h
  | cons e events ih => exact ih (h.apply e)

/-! ## Polls and writes -/

/-- The poll that an event makes. -/
def poll? (j : PaintJob) (s : WorkState) : WorkEvent → Option Poll
  | .cancel => none
  | .step i => do
    let w ← s.workers[i]?
    let p ← w.ask? j
    return ⟨p, s.shared.cancelled⟩

/-- The pixel whose bytes an event writes: the one that a worker had not painted before. -/
def write? (j : PaintJob) (s : WorkState) : WorkEvent → Option Nat
  | .cancel => none
  | .step i => do
    let w ← s.workers[i]?
    let w' ← (s.apply j (.step i)).workers[i]?
    if w.quads.size < w'.quads.size then some (w.next j) else none

/-- Whatever can be observed of the events of a history. -/
def trace {α : Type} (j : PaintJob) (observe : WorkState → WorkEvent → Option α) (s : WorkState) :
    List WorkEvent → List α
  | [] => []
  | e :: events => (observe s e).toList ++ trace j observe (s.apply j e) events

/-- The polls of a history. -/
def polls (j : PaintJob) (s : WorkState) (events : List WorkEvent) : List Poll :=
  trace j (poll? j) s events

/-- The pixels that a history writes. -/
def writes (j : PaintJob) (s : WorkState) (events : List WorkEvent) : List Nat :=
  trace j (write? j) s events

/-- All that the workers have polled. -/
def polled (j : PaintJob) (s : WorkState) : List Poll := s.workers.flatMap (Worker.polled j)

theorem polled_start (j : PaintJob) (stripes : List Stripe) (cancelled : Bool) :
    (start stripes cancelled).polled j = [] := by
  rw [polled, start, List.flatMap_map]
  simp [Worker.polled_ofStripe]

theorem polled_apply (j : PaintJob) (s : WorkState) (e : WorkEvent) :
    ((s.apply j e).polled j).Perm (s.polled j ++ (s.poll? j e).toList) := by
  have happ := applied j s e
  generalize s.apply j e = s' at happ ⊢
  cases happ with
  | cancel => simp [polled, poll?, cancel]
  | nobody hi => simp [poll?, hi]
  | @step i before after w hi hw =>
      have hpoll : s.poll? j (.step i) = (w.ask? j).map (⟨·, s.shared.cancelled⟩) := by
        cases ha : w.ask? j <;> simp [poll?, hi, ha]
      rw [polled, polled, hw, hpoll, List.flatMap_append, List.flatMap_append, List.flatMap_cons,
        List.flatMap_cons, Worker.polled_step, List.append_assoc, List.append_assoc,
        List.append_assoc]
      -- The new poll stands behind those of its worker, but before those of the later workers.
      exact .append_left _ (.append_left _ List.perm_append_comm)

/-- The polls of a history are those that it adds to the workers. -/
theorem polled_after (j : PaintJob) (s : WorkState) (events : List WorkEvent) :
    ((s.after j events).polled j).Perm (s.polled j ++ s.polls j events) := by
  induction events generalizing s with
  | nil => simp [polls, trace, after]
  | cons e events ih =>
      have hrest := (ih (s.apply j e)).trans ((polled_apply j s e).append_right _)
      rwa [List.append_assoc] at hrest

theorem polls_start_perm (j : PaintJob) (stripes : List Stripe) (cancelled : Bool)
    (events : List WorkEvent) :
    ((start stripes cancelled).polls j events).Perm
      (((start stripes cancelled).after j events).polled j) := by
  have h := polled_after j (start stripes cancelled) events
  rw [polled_start, List.nil_append] at h
  exact h.symm


/-! ## Writes -/

/-- An event writes the pixel that it polls, unless it sees the flag. -/
theorem write?_eq (j : PaintJob) (s : WorkState) (e : WorkEvent) :
    s.write? j e = (s.poll? j e).bind Poll.painted? := by
  cases e with
  | cancel => rfl
  | step i =>
      cases hi : s.workers[i]? with
      | none => simp [write?, poll?, hi]
      | some w =>
          have hlt := (List.getElem?_eq_some_iff.1 hi).1
          have hw' : (s.apply j (.step i)).workers[i]? = some (w.step j s.shared).1 := by
            simp only [apply, hi, List.getElem?_set_self hlt]
          have hstep := Worker.stepped j w s.shared
          simp only [write?, poll?, hi, hw', Option.bind_eq_bind, Option.bind_some]
          generalize w.step j s.shared = r at hstep ⊢
          cases hstep with
          | paint _ _ ha hs => simp [ha, hs, Worker.paintNext, Poll.painted?]
          | stop _ _ ha hs => simp [ha, hs, Poll.painted?]
          | flush _ ha => simp [ha, Worker.flush]
          | finish _ _ ha => simp [ha]
          | rest _ ha => simp [ha]

theorem trace_bind {α β : Type} (j : PaintJob) (observe : WorkState → WorkEvent → Option α)
    (f : α → Option β) (s : WorkState) (events : List WorkEvent) :
    trace j (fun s e ↦ (observe s e).bind f) s events =
      (trace j observe s events).filterMap f := by
  induction events generalizing s with
  | nil => rfl
  | cons e events ih =>
      rw [trace, trace, ih, List.filterMap_append]
      congr 1
      cases observe s e with
      | none => rfl
      | some a => cases h : f a <;> simp [h]

theorem writes_eq (j : PaintJob) (s : WorkState) (events : List WorkEvent) :
    s.writes j events = (s.polls j events).filterMap Poll.painted? := by
  rw [writes, polls, ← trace_bind]
  congr 1
  funext s e
  exact write?_eq j s e

/-! ## The flag -/

/-- A poll sees the flag as it is after the events before it. -/
theorem exists_prefix_of_mem_polls {events : List WorkEvent} {q : Poll}
    (h : q ∈ s.polls j events) :
    ∃ earlier, earlier <+: events ∧ q.cancelled = (s.after j earlier).shared.cancelled := by
  induction events generalizing s with
  | nil => cases h
  | cons e events ih =>
      rcases List.mem_append.1 h with h | h
      · refine ⟨[], List.nil_prefix, ?_⟩
        cases e with
        | cancel => cases h
        | step i =>
            obtain ⟨w, -, hw⟩ := Option.bind_eq_some_iff.1 (Option.mem_toList.1 h)
            obtain ⟨p, -, hp⟩ := Option.bind_eq_some_iff.1 hw
            exact congrArg Poll.cancelled (Option.some.inj hp).symm
      · obtain ⟨earlier, hp, hq⟩ := ih h
        exact ⟨e :: earlier, List.cons_prefix_cons.2 ⟨rfl, hp⟩, hq⟩

theorem cancelled_step (j : PaintJob) (w : Worker) {shared : Shared} (h : shared.cancelled = true) :
    (w.step j shared).2.cancelled = true := by
  have hstep := Worker.stepped j w shared
  generalize w.step j shared = r at hstep ⊢
  cases hstep with
  | flush => simp [Worker.flush, h]
  | paint | stop | finish | rest => exact h

/-- The flag is never cleared. -/
theorem cancelled_after (h : s.shared.cancelled = true) (events : List WorkEvent) :
    (s.after j events).shared.cancelled = true := by
  induction events generalizing s with
  | nil => exact h
  | cons e events ih =>
      refine ih ?_
      have happ := applied j s e
      generalize s.apply j e = s' at happ ⊢
      cases happ with
      | cancel => rfl
      | nobody => exact h
      | step => exact cancelled_step j _ h

/-- Nobody sets the flag but the listener and whoever cancels from outside. -/
theorem not_cancelled_after (hl : ∀ p, j.listener p = false) (h : s.shared.cancelled = false)
    {events : List WorkEvent} (hc : .cancel ∉ events) :
    (s.after j events).shared.cancelled = false := by
  induction events generalizing s with
  | nil => exact h
  | cons e events ih =>
      refine ih ?_ fun hmem ↦ hc (List.mem_cons_of_mem e hmem)
      have happ := applied j s e
      generalize s.apply j e = s' at happ ⊢
      cases happ with
      | cancel => exact absurd List.mem_cons_self hc
      | nobody => exact h
      | @step _ _ _ w =>
          have hstep := Worker.stepped j w s.shared
          generalize w.step j s.shared = r at hstep ⊢
          cases hstep with
          | flush => simp [Worker.flush, h, hl]
          | paint | stop | finish | rest => exact h

end WorkState

end FieldGraph
