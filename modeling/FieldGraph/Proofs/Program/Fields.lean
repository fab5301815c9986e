import FieldGraph.Proofs.Program.Nesting
import FieldGraph.Proofs.Program.Safety

/-!
# What distance fields mean

A distance field runs its program at a point without checking whether the program takes one.  It
needs no check: a program that takes a point is given what it asks for, and one that takes nothing
never looks at its arguments.  So the distance is the value of the output, with the point for the
first parameter, and never the NaN that stands in for a vector.
-/

namespace FieldGraph

namespace DistanceField

variable {g : Graph} {output : NodeId} {d : DistanceField}

/-! ## Accepted graphs -/

theorem ofProgram_eq_ok_iff {p : Program} :
    ofProgram p = .ok d ↔ d.program = p := by
  unfold ofProgram
  constructor
  · intro h
    split at h
    · cases h
      rfl
    · cases h
  · rintro rfl
    rw [dif_pos d.isDistance]

theorem ofGraph_eq_ok_iff :
    ofGraph g output = .ok d ↔ g.compile output (some (.of .float)) = .ok d.program := by
  unfold ofGraph
  cases g.compile output (some (.of .float)) with
  | error e => simp
  | ok p =>
      rw [ofProgram_eq_ok_iff, Except.ok.injEq]
      exact eq_comm

/-! ## The value of the output -/

/-- Each parameter of a distance field finds a point, or there is none. -/
theorem supplied (d : DistanceField) (point : Vec3) (index : Nat) (s : Shape)
    (h : d.program.params[index]?.join = some s) :
    ∃ x, [Value.float3 point][index]? = some x ∧ x.shape = s := by
  rcases d.isDistance.1 with hparams | hparams
  · rw [hparams] at h
    cases h
  · rw [hparams] at h
    cases index with
    | zero =>
        cases h
        exact ⟨_, rfl, rfl⟩
    | succ => cases h

/-- Whatever supplies the parameters, the output is a float, and the program computes it. -/
theorem exists_evaluates_float (h : ofGraph g output = .ok d) {args : List Value}
    (hargs : ∀ (index : Nat) (s : Shape), d.program.params[index]?.join = some s →
      ∃ x : Value, args[index]? = some x ∧ x.shape = s) :
    ∃ x, d.program.run args = .float x ∧ g.Evaluates args [] output (.float x) := by
  obtain ⟨heval, hshape⟩ := Compile.evaluates_run (ofGraph_eq_ok_iff.1 h) hargs
  obtain ⟨x, hx⟩ := Value.eq_float_of_shape (hshape.trans d.isDistance.2)
  exact ⟨x, hx, hx ▸ heval⟩

/-- The distance at a point is the value of the output. -/
theorem evaluates_distance (h : ofGraph g output = .ok d) (point : Vec3) :
    d.program.run [.float3 point] = .float (d.distance point) ∧
      g.Evaluates [.float3 point] [] output (.float (d.distance point)) := by
  obtain ⟨x, hx, heval⟩ := exists_evaluates_float h (d.supplied point)
  have hdistance : d.distance point = x := by
    rw [distance, hx]
    rfl
  rw [hdistance]
  exact ⟨hx, heval⟩

/-- Where nothing is asked for, the distance is what a call without arguments returns: the output has
the same value with the point and without it. -/
theorem call_nil (h : ofGraph g output = .ok d) (hparams : d.program.params = []) :
    ∃ x, d.program.call [] = .ok (.float x) ∧ g.Evaluates [] [] output (.float x) ∧
      ∀ point, d.distance point = x := by
  have hargs : d.program.checkArgs [] = .ok () := by
    rw [Program.checkArgs, hparams]
    rfl
  obtain ⟨x, hx, heval⟩ := exists_evaluates_float h fun _ _ ↦ Program.exists_shape_of_checkArgs hargs
  refine ⟨x, hx ▸ Program.call_of_checkArgs hargs, heval, fun point ↦ ?_⟩
  have hpoint := (evaluates_distance h point).2.denotes
  have hnothing : g.Denotes (Graph.values [.float3 point]) (fun p ↦ [].lookup p) output (.float x) :=
    heval.denotes.weaken (fun hx ↦ by cases hx) rfl
  exact Value.float.inj (hpoint.eq hnothing)

end DistanceField

namespace Graph

variable {g : Graph} {output : NodeId}

/-! ## Preparing -/

theorem prepare_eq_ok_iff {d : DistanceField} :
    g.prepare output = .ok d ↔ g.Acyclic ∧ DistanceField.ofGraph g output = .ok d := by
  constructor
  · intro h
    unfold prepare at h
    split at h
    next hnil =>
      refine ⟨acyclic_of_findAnyCycle hnil, ?_⟩
      cases hd : DistanceField.ofGraph g output with
      | ok d' =>
          rw [hd] at h
          cases h
          rfl
      | error e =>
          rw [hd] at h
          cases e <;> cases h
    next => cases h
  · rintro ⟨hacyclic, hd⟩
    have hnil : g.findAnyCycle output = [] := hacyclic.findCycle_eq_nil output g.ids
    rw [prepare, hnil]
    simp only [hd]

/-- Preparing a graph agrees with what the graph means.  It succeeds where the whole graph has no
cycle and the output is a distance field.  The distance at every point is the value of the output with
the point for the first parameter, whatever register file the program is run in; if the program takes
nothing, it is what a call without arguments returns.  And where preparing fails, it points at a
cycle, at the node where compiling failed, or at the output. -/
theorem prepare_exact (g : Graph) (output : NodeId) :
    (∀ d, g.prepare output = .ok d ↔ g.Acyclic ∧ DistanceField.ofGraph g output = .ok d) ∧
    (∀ d, DistanceField.ofGraph g output = .ok d →
      g.compile output (some (.of .float)) = .ok d.program ∧ d.program.result = .float ∧
      (d.program.params = [] ∨ d.program.params = [some .float3]) ∧
      (∀ point, (∀ v, g.Evaluates [.float3 point] [] output v ↔ v = .float (d.distance point)) ∧
        ∀ file, d.program.resultIn (d.program.runInto file [.float3 point]) =
          .float (d.distance point)) ∧
      (d.program.params = [] → ∃ x, d.program.call [] = .ok (.float x) ∧
        g.Evaluates [] [] output (.float x) ∧ ∀ point, d.distance point = x)) ∧
    ∀ e, g.prepare output = .error e → e.offending ≠ [] ∧
      ((Circuit g.Reads e.offending ∧ ∀ id ∈ e.offending, g.contains id) ∨
        (∃ c, g.compile output (some (.of .float)) = .error c ∧ e = .compile c ∧
          e.offending = [c.node]) ∨
        ∃ p, g.compile output (some (.of .float)) = .ok p ∧ ¬ p.IsDistance ∧
          e = .signature output p.params p.result ∧ e.offending = [output]) := by
  refine ⟨fun d ↦ prepare_eq_ok_iff, fun d hd ↦ ?_, fun e he ↦ ?_⟩
  · refine ⟨DistanceField.ofGraph_eq_ok_iff.1 hd, d.isDistance.2, d.isDistance.1,
      fun point ↦ ⟨fun v ↦ ?_, fun file ↦ ?_⟩, DistanceField.call_nil hd⟩
    · obtain ⟨-, heval⟩ := DistanceField.evaluates_distance hd point
      constructor
      · exact fun hv ↦ hv.eq heval
      · rintro rfl
        exact heval
    · rw [Program.runInto_eq, ← Program.runInto_eq d.program #[]]
      exact (DistanceField.evaluates_distance hd point).1
  · cases refused_of_prepare he with
    | cycle hne => exact ⟨hne, .inl (circuit_findCycle hne)⟩
    | compile _ h => exact ⟨List.cons_ne_nil _ [], .inr (.inl ⟨_, h, rfl, rfl⟩)⟩
    | signature _ h hd => exact ⟨List.cons_ne_nil _ [], .inr (.inr ⟨_, h, hd, rfl, rfl⟩)⟩

/-- A field that is the same everywhere. -/
def level : List Action := [.constant (.float 2), .output ⟨0⟩]

/-- A scalar is asked for where a distance field takes a point. -/
def ramp : List Action := [.parameter 0 (.of .float), .output ⟨0⟩]

theorem prepare_levelAndRamp :
    (∃ d, (after level).prepare ⟨1⟩ = .ok d ∧ (after level).Acyclic ∧ d.program.params = [] ∧
      ∃ x, d.program.call [] = .ok (.float x) ∧ ∀ point, d.distance point = x) ∧
    ∃ e, (after ramp).prepare ⟨1⟩ = .error e ∧ e = .signature ⟨1⟩ [some .float] .float ∧
      e.offending ≠ [] := by
  constructor
  · have hparams : ((after level).prepare ⟨1⟩).toOption.map (·.program.params) = some [] := by
      decide +kernel
    cases hprepare : (after level).prepare ⟨1⟩ with
    | error e =>
        rw [hprepare] at hparams
        cases hparams
    | ok d =>
        rw [hprepare] at hparams
        have hnone : d.program.params = [] := Option.some.inj hparams
        obtain ⟨hok, haccepted, -⟩ := prepare_exact (after level) ⟨1⟩
        obtain ⟨hacyclic, hd⟩ := (hok d).1 hprepare
        obtain ⟨-, -, -, -, hcall⟩ := haccepted d hd
        obtain ⟨x, hx, -, hdistance⟩ := hcall hnone
        exact ⟨d, rfl, hacyclic, hnone, x, hx, hdistance⟩
  · have hsignature : ((after ramp).prepare ⟨1⟩).map (fun _ ↦ ()) =
        .error (.signature ⟨1⟩ [some .float] .float) := by decide +kernel
    cases hprepare : (after ramp).prepare ⟨1⟩ with
    | ok d =>
        rw [hprepare] at hsignature
        cases hsignature
    | error e =>
        rw [hprepare] at hsignature
        cases hsignature
        obtain ⟨-, -, hrefused⟩ := prepare_exact (after ramp) ⟨1⟩
        exact ⟨_, rfl, rfl, (hrefused _ hprepare).1⟩

end Graph

end FieldGraph
