import FieldGraph.Live.Workbench
import FieldGraph.Proofs.Graph.Steps
import FieldGraph.Proofs.Render.Images

/-!
# Preview sessions

A chronicle is kept beside the session.  It takes note of the jobs that start and end, refuses a job
that starts while another is in flight, and remembers the completed ones.  After every event the
preview shows what the chronicle has: its job, the number of completed renders, and the image of the
last of them.
-/

namespace FieldGraph

namespace Preview

/-! ## Events -/

/-- What may happen to a preview.  A job that is cancelled ends in one way or the other. -/
inductive Event where
  | request (how : JobEnd) (g : Graph) (output : NodeId) (r : RenderRequest)
  | cancel (how : JobEnd)
  | wait
  /-- The render in flight reports its progress. -/
  | report (progress : Progress)
  /-- The render in flight completes before anybody waits for it. -/
  | complete

namespace Event

def isRequest : Event → Bool
  | request .. => true
  | _ => false

/-- The event may end a render in flight before it is complete. -/
def interrupts : Event → Bool
  | request .. | cancel _ => true
  | _ => false

end Event

def apply (cores : Nat) (p : Preview) : Event → Preview
  | .request how g output r => (p.request cores how g output r).2
  | .cancel how => p.cancel cores how
  | .wait => p.wait cores
  | .report progress => p.report progress
  | .complete => p.close cores .completed

/-- The preview after some events. -/
def after (cores : Nat) (p : Preview) (events : List Event) : Preview :=
  events.foldl (apply cores) p

/-! ## The chronicle -/

/-- What is noted of a job. -/
inductive Note where
  | started (j : PreviewJob)
  | ended (how : JobEnd)

structure Chronicle where
  inFlight : Option PreviewJob := none
  /-- The completed jobs, the first one first. -/
  completed : List PreviewJob := []

/-- A job can start only if none is in flight, and end only if it is. -/
def Chronicle.note? (c : Chronicle) : Note → Option Chronicle
  | .started j => if c.inFlight.isNone then some { c with inFlight := some j } else none
  | .ended .cancelled => c.inFlight.map fun _ ↦ { c with inFlight := none }
  | .ended .completed => c.inFlight.map fun j ↦ ⟨none, c.completed ++ [j]⟩

/-- The end of the job in flight. -/
def ends (p : Preview) (how : JobEnd) : List Note := p.job.toList.map fun _ ↦ .ended how

/-- What an event makes of the jobs. -/
def notes (cores : Nat) (p : Preview) : Event → List Note
  | .request how g output r =>
    p.ends how ++ (p.request cores how g output r).2.job.toList.map .started
  | .cancel how => p.ends how
  | .wait | .complete => p.ends .completed
  | .report _ => []

/-- The chronicle after some events, unless two jobs were in flight at a time. -/
def chronicle? (cores : Nat) (p : Preview) (c : Chronicle) : List Event → Option Chronicle
  | [] => some c
  | e :: events => do
    let c ← (p.notes cores e).foldlM Chronicle.note? c
    chronicle? cores (p.apply cores e) c events

/-- The preview shows what the chronicle has. -/
structure Agrees (cores : Nat) (p : Preview) (c : Chronicle) : Prop where
  job : c.inFlight = p.job
  generation : p.generation = c.completed.length
  image : p.image = c.completed.getLast?.bind (·.image? cores)

end Preview

/-! ## Operations -/

/-- A job that nobody cancels has an image. -/
theorem PreviewJob.image?_eq (j : PreviewJob) (cores : Nat) :
    j.image? cores = some (j.request.picture j.field.distance cores) :=
  RenderRequest.renderImage?_eq j.field.distance j.request cores

namespace Preview

variable {cores : Nat} {p : Preview} {c : Chronicle} {how : JobEnd} {j : PreviewJob}

theorem close_of_none (h : p.job = none) : p.close cores how = p := by
  simp only [close, h]

theorem close_cancelled (h : p.job = some j) :
    p.close cores .cancelled = { p with job := none } := by
  simp only [close, h]

theorem close_completed (h : p.job = some j) :
    p.close cores .completed =
      ({ p with job := none } : Preview).present (j.request.picture j.field.distance cores) := by
  simp only [close, h, j.image?_eq]

@[simp] theorem job_close (p : Preview) (cores : Nat) (how : JobEnd) :
    (p.close cores how).job = none := by
  cases h : p.job with
  | none => rw [close_of_none h, h]
  | some j =>
      cases how with
      | cancelled => rw [close_cancelled h]
      | completed =>
          rw [close_completed h]
          rfl

theorem job_wait (p : Preview) (cores : Nat) : (p.wait cores).job = none := job_close ..

theorem cancel_of_none (h : p.job = none) : p.cancel cores how = p := close_of_none h

theorem after_request_wait (p : Preview) (cores : Nat) (how : JobEnd) (g : Graph)
    (output : NodeId) (r : RenderRequest) :
    p.after cores [.request how g output r, .wait] =
      (p.request cores how g output r).2.wait cores := rfl

@[simp] theorem offending_close (p : Preview) (cores : Nat) (how : JobEnd) :
    (p.close cores how).offending = p.offending := by
  cases h : p.job with
  | none => rw [close_of_none h]
  | some j =>
      cases how with
      | cancelled => rw [close_cancelled h]
      | completed =>
          rw [close_completed h]
          rfl

section Request

variable {g : Graph} {output : NodeId} {r : RenderRequest}

theorem request_of_ok {field : DistanceField} (h : g.prepare output = .ok field) :
    p.request cores how g output r =
      (none, { p.cancel cores how with offending := [], progress := 0.0, job := some ⟨field, r⟩ }) := by
  rw [request, h]

theorem request_of_error {e : PrepareError} (h : g.prepare output = .error e) :
    p.request cores how g output r =
      (some e, { p.cancel cores how with offending := e.offending }) := by
  rw [request, h]

end Request

/-! ## One job at a time -/

/-- A job in flight ends, and is kept if it is complete. -/
theorem Agrees.close (h : p.Agrees cores c) (how : JobEnd) :
    ∃ c', (p.ends how).foldlM Chronicle.note? c = some c' ∧ (p.close cores how).Agrees cores c' := by
  unfold ends
  cases hj : p.job with
  | none =>
      rw [close_of_none hj]
      exact ⟨c, rfl, h⟩
  | some j =>
      have hflight : c.inFlight = some j := h.job.trans hj
      cases how with
      | cancelled =>
          refine ⟨{ c with inFlight := none }, by simp [Chronicle.note?, hflight], ?_⟩
          rw [close_cancelled hj]
          exact ⟨rfl, h.generation, h.image⟩
      | completed =>
          refine ⟨⟨none, c.completed ++ [j]⟩, by simp [Chronicle.note?, hflight], ?_⟩
          rw [close_completed hj]
          constructor
          case job => rfl
          case generation => simp [present, h.generation]
          case image => simp [present, j.image?_eq]

/-- An event leaves the preview and its chronicle in agreement. -/
theorem Agrees.apply (h : p.Agrees cores c) (e : Event) :
    ∃ c', (p.notes cores e).foldlM Chronicle.note? c = some c' ∧
      (p.apply cores e).Agrees cores c' := by
  cases e with
  | cancel how => exact h.close how
  | wait | complete => exact h.close .completed
  | report progress => exact ⟨c, rfl, h.job, h.generation, h.image⟩
  | request how g output r =>
      obtain ⟨c', hc', hagree⟩ := h.close how
      simp only [notes, Preview.apply]
      rw [List.foldlM_append, hc']
      cases hg : g.prepare output with
      | error e =>
          rw [request_of_error hg]
          refine ⟨c', ?_, hagree.job, hagree.generation, hagree.image⟩
          simp [cancel]
      | ok field =>
          rw [request_of_ok hg]
          -- The job before has ended, so that the new one may start.
          have hfree : c'.inFlight = none := hagree.job.trans (job_close p cores how)
          exact ⟨{ c' with inFlight := some ⟨field, r⟩ }, by simp [Chronicle.note?, hfree], rfl,
            hagree.generation, hagree.image⟩

theorem Agrees.after (h : p.Agrees cores c) (events : List Event) :
    ∃ c', p.chronicle? cores c events = some c' ∧ (p.after cores events).Agrees cores c' := by
  induction events generalizing p c with
  | nil => exact ⟨c, rfl, h⟩
  | cons e events ih =>
      obtain ⟨c₁, hc₁, hagree⟩ := h.apply e
      obtain ⟨c₂, hc₂, hafter⟩ := ih hagree
      exact ⟨c₂, Option.bind_eq_some_iff.2 ⟨c₁, hc₁, hc₂⟩, hafter⟩

theorem agrees_init (cores : Nat) : ({} : Preview).Agrees cores {} := ⟨rfl, rfl, rfl⟩

/-- There is an image as soon as a render is complete. -/
theorem Agrees.image_eq_none_iff (h : p.Agrees cores c) : p.image = none ↔ p.generation = 0 := by
  rw [h.image, h.generation]
  cases hl : c.completed.getLast? with
  | none => simp [List.getLast?_eq_none_iff.1 hl]
  | some j =>
      have hne : c.completed ≠ [] := by
        rintro hnil
        rw [hnil] at hl
        cases hl
      simp [j.image?_eq, hne]

/-! ## Until the next request -/

theorem offending_after {events : List Event} (h : ∀ e ∈ events, e.isRequest = false) (p : Preview) :
    (p.after cores events).offending = p.offending := by
  induction events generalizing p with
  | nil => rfl
  | cons e events ih =>
      have he := h e List.mem_cons_self
      refine (ih (fun e' he' ↦ h e' (List.mem_cons_of_mem e he')) _).trans ?_
      cases e with
      | request => cases he
      | cancel | wait | complete => exact offending_close ..
      | report => rfl

/-- A job is in flight, or its image is shown. -/
def Expects (cores : Nat) (p : Preview) (j : PreviewJob) : Prop :=
  p.job = some j ∨ p.job = none ∧ p.image = j.image? cores

theorem Expects.complete (h : p.Expects cores j) : (p.close cores .completed).Expects cores j := by
  rcases h with hj | ⟨hj, himage⟩
  · rw [close_completed hj]
    exact .inr ⟨rfl, (j.image?_eq cores).symm⟩
  · rw [close_of_none hj]
    exact .inr ⟨hj, himage⟩

/-- Nothing but a request and a cancellation come between a job and its image. -/
theorem Expects.after (h : p.Expects cores j) {events : List Event}
    (hi : ∀ e ∈ events, e.interrupts = false) : (p.after cores events).Expects cores j := by
  induction events generalizing p with
  | nil => exact h
  | cons e events ih =>
      have he := hi e List.mem_cons_self
      refine ih ?_ fun e' he' ↦ hi e' (List.mem_cons_of_mem e he')
      cases e with
      | request | cancel => cases he
      | wait | complete => exact h.complete
      | report => exact h

theorem Expects.image_wait (h : p.Expects cores j) : (p.wait cores).image = j.image? cores := by
  rcases h.complete with hj | ⟨-, himage⟩
  · rw [job_close] at hj
    cases hj
  · exact himage

/-- Waiting for an accepted request shows its image. -/
theorem image_wait_of_ok {g : Graph} {output : NodeId} {field : DistanceField}
    (h : g.prepare output = .ok field) (p : Preview) (how : JobEnd) (r : RenderRequest)
    {events : List Event} (hi : ∀ e ∈ events, e.interrupts = false) :
    (((p.request cores how g output r).2.after cores events).wait cores).image =
      renderImage? field.distance r cores := by
  have hjob : (p.request cores how g output r).2.Expects cores ⟨field, r⟩ := by
    rw [request_of_ok h]
    exact .inl rfl
  exact (hjob.after hi).image_wait

end Preview

/-- A preview of the scene is started only if the scene has a field. -/
theorem Workbench.exists_of_startPreview {b b' : Workbench} {cores : Nat} {how : JobEnd}
    {r : RenderRequest} (h : b.startPreview cores how r = (none, b')) :
    ∃ s field, b.scene = some s ∧ s.prepare = .ok field ∧
      b'.preview = (b.preview.request cores how s.graph s.output (s.view r)).2 := by
  unfold startPreview at h
  split at h
  · cases h
  next s hs =>
    refine ⟨s, ?_⟩
    cases hp : s.graph.prepare s.output with
    | ok field =>
        obtain rfl := (Prod.mk.inj h).2
        exact ⟨field, hs, hp, rfl⟩
    | error e =>
        rw [Preview.request_of_error hp] at h
        cases h

theorem Workbench.render_eq {b : Workbench} {s : Scene} {field : DistanceField} (cores : Nat)
    (r : RenderRequest) (hs : b.scene = some s) (hp : s.prepare = .ok field) :
    b.render cores r = .ok ((s.view r).picture field.distance cores) := by
  have hprepared : b.prepared = .ok (s, field) := by
    rw [prepared, currentScene, hs]
    change (s.prepare.mapError WorkbenchError.prepare >>= fun d ↦ pure (s, d)) = _
    rw [hp]
    rfl
  simp only [render, hprepared, bind, Except.bind, RenderRequest.renderImage?_eq]
  rfl

/-- Preview sessions.  Whatever happens, and however the jobs end: no job starts while another is in
flight; the generation counts the completed renders, and the image is that of the last of them.  An
accepted request clears the nodes at fault, and waiting for it shows the image of the request, which
is the one that the workbench renders.  A refused request leaves no job, and the image as it was when
the job before had ended; the nodes at fault are those of the error until the next request. -/
theorem preview_session (cores : Nat) (events : List Preview.Event) :
    let p := Preview.after cores {} events
    (∃ c, Preview.chronicle? cores {} {} events = some c ∧ c.inFlight = p.job ∧
        p.generation = c.completed.length ∧
        p.image = c.completed.getLast?.bind (·.image? cores)) ∧
      (p.image = none ↔ p.generation = 0) ∧
      (∀ how g output r field, g.prepare output = .ok field →
        let q := p.request cores how g output r
        q.1 = none ∧
          (∀ more : List Preview.Event, (∀ e ∈ more, e.isRequest = false) →
            (q.2.after cores more).offending = []) ∧
          ∀ more : List Preview.Event, (∀ e ∈ more, e.interrupts = false) →
            ∃ image, ((q.2.after cores more).wait cores).image = some image ∧
              renderImage? field.distance r cores = some image) ∧
      (∀ how g output r error, g.prepare output = .error error →
        let q := p.request cores how g output r
        q.1 = some error ∧ q.2.job = none ∧ q.2.image = (p.cancel cores how).image ∧
          q.2.generation = (p.cancel cores how).generation ∧
          ∀ more : List Preview.Event, (∀ e ∈ more, e.isRequest = false) →
            (q.2.after cores more).offending = error.offending) ∧
      ∀ (b b' : Workbench) how r, b.startPreview cores how r = (none, b') →
        ∀ more : List Preview.Event, (∀ e ∈ more, e.interrupts = false) →
          ∃ image, ((b'.preview.after cores more).wait cores).image = some image ∧
            b.render cores r = .ok image := by
  intro p
  obtain ⟨c, hc, hagree⟩ := (Preview.agrees_init cores).after events
  refine ⟨⟨c, hc, hagree.job, hagree.generation, hagree.image⟩, hagree.image_eq_none_iff, ?_, ?_, ?_⟩
  · intro how g output r field hg q
    have hq : q = (none, _) := Preview.request_of_ok hg
    refine ⟨by rw [hq], fun more hmore ↦ ?_, fun more hmore ↦ ?_⟩
    · rw [Preview.offending_after hmore, hq]
    · refine ⟨r.picture field.distance cores, ?_, RenderRequest.renderImage?_eq ..⟩
      rw [Preview.image_wait_of_ok hg p how r hmore, RenderRequest.renderImage?_eq]
  · intro how g output r error hg q
    have hq : q = (some error, _) := Preview.request_of_error hg
    refine ⟨by rw [hq], ?_, by rw [hq], by rw [hq], fun more hmore ↦ ?_⟩
    · rw [hq]
      exact Preview.job_close p cores how
    · rw [Preview.offending_after hmore, hq]
  · intro b b' how r hstart more hmore
    obtain ⟨s, field, hs, hprepare, hpreview⟩ := Workbench.exists_of_startPreview hstart
    refine ⟨(s.view r).picture field.distance cores, ?_, Workbench.render_eq cores r hs hprepare⟩
    rw [hpreview, Preview.image_wait_of_ok hprepare b.preview how (s.view r) hmore,
      RenderRequest.renderImage?_eq]

/-- The distance from a sphere. -/
def sphereEdits : List Graph.Action :=
  [.parameter 0 (.of .float3), .unary .length ⟨0⟩, .constant (.float 1), .binary .sub ⟨1⟩ ⟨2⟩,
    .output ⟨3⟩]

/-- The output is rewired to a cross product of scalars. -/
def brokenEdits : List Graph.Action :=
  sphereEdits ++ [.binary .cross ⟨3⟩ ⟨3⟩, .setEdge ⟨4⟩ .input (some ⟨5⟩)]

/-- A graph that cannot be shown leaves the image of the one before. -/
theorem preview_session_broken :
    ∃ p q image,
      Preview.after 1 {} [.request .completed (.after sphereEdits) ⟨4⟩ {}, .wait] = p ∧
      p.image = some image ∧
      p.request 1 .completed (.after brokenEdits) ⟨4⟩ {} =
        (some (.compile (.unsupportedBinary ⟨5⟩ .cross .float .float)), q) ∧
      q.image = some image ∧ q.offending = [⟨5⟩] := by
  have hsphere : ((Graph.after sphereEdits).prepare ⟨4⟩).toOption.isSome = true := by
    decide +kernel
  have hbroken : ((Graph.after brokenEdits).prepare ⟨4⟩).map (fun _ ↦ ()) =
      .error (.compile (.unsupportedBinary ⟨5⟩ .cross .float .float)) := by
    decide +kernel
  -- From here on only the outcomes of the two compilations matter.
  generalize Graph.after sphereEdits = g at hsphere ⊢
  generalize Graph.after brokenEdits = g' at hbroken ⊢
  cases hg : g.prepare ⟨4⟩ with
  | error e => simp [hg, Except.toOption] at hsphere
  | ok field =>
      cases hg' : g'.prepare ⟨4⟩ with
      | ok field => simp [hg', Except.map] at hbroken
      | error e =>
          obtain rfl : e = .compile (.unsupportedBinary ⟨5⟩ .cross .float .float) := by
            simpa [hg', Except.map] using hbroken
          obtain ⟨-, -, haccepted, -⟩ := preview_session 1 []
          obtain ⟨-, -, hwait⟩ := haccepted .completed g ⟨4⟩ {} field hg
          obtain ⟨image, himage, -⟩ := hwait [] fun _ h ↦ by cases h
          obtain ⟨-, -, -, hrefused, -⟩ := preview_session 1 [.request .completed g ⟨4⟩ {}, .wait]
          obtain ⟨herror, -, hkept, -, hoffending⟩ := hrefused .completed g' ⟨4⟩ {} _ hg'
          simp only [Preview.after, List.foldl_nil] at himage
          rw [Preview.after_request_wait] at herror hkept hoffending ⊢
          have hjob := Preview.job_wait (Preview.request {} 1 .completed g ⟨4⟩ {}).2 1
          generalize (Preview.request {} 1 .completed g ⟨4⟩ {}).2.wait 1 = p
            at herror hkept hoffending hjob himage ⊢
          rw [Preview.cancel_of_none hjob] at hkept
          refine ⟨p, _, image, rfl, himage, Prod.ext herror rfl, hkept.trans himage, ?_⟩
          exact hoffending [] fun _ h ↦ by cases h

end FieldGraph
