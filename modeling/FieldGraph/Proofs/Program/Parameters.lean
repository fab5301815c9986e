import FieldGraph.Proofs.Program.Scopes
import FieldGraph.Proofs.Program.Typing
import Mathlib.Order.Bounds.Defs

/-!
# Parameters of programs

Inside the body of a composite a placeholder stands for an argument.  A parameter that an output
comes to outside of all composites that bind it is free, and the program has to be told its value.
What is free is a matter of the graph alone, whatever the compiler shares; and it decides the
signature of the program, and the loads on its tape.
-/

namespace FieldGraph

/-! ## Free parameters -/

namespace Graph

/-- The nodes that an output comes to, each with the placeholders that are bound there.  Operands are
read where the node is read that they belong to; in a body, the placeholders of its composite are
bound as well. -/
inductive Meets (g : Graph) (output : NodeId) : List NodeId → NodeId → Prop
  | output : Meets g output [] output
  | operand {bound : List NodeId} {id a : NodeId} {n : Node} (h : Meets g output bound id)
      (hn : g.node? id = some n) (ha : a ∈ n.operands) : Meets g output bound a
  | body {bound : List NodeId} {id body : NodeId} {n : Node} (h : Meets g output bound id)
      (hn : g.node? id = some n) (hbody : n.body?.join = some body) :
      Meets g output (n.placeholders ++ bound) body

/-- An output comes to a parameter of a position and a declared type where nothing binds it. -/
def Free (g : Graph) (output : NodeId) (index : Nat) (t : ValueType) : Prop :=
  ∃ bound id, g.Meets output bound id ∧ g.node? id = some (.parameter index t) ∧ id ∉ bound

end Graph

namespace Compile

variable {g : Graph} {code : List Instr} {output : NodeId} {scopes : List Scope} {id : NodeId}
  {v : Operand}

/-- The placeholders that scopes bind. -/
def boundIn (scopes : List Scope) : List NodeId := scopes.flatMap fun s ↦ s.bindings.map Prod.fst

theorem bound?_eq_none_iff : bound? scopes id = none ↔ id ∉ boundIn scopes := by
  induction scopes with
  | nil => exact ⟨fun _ ↦ List.not_mem_nil, fun _ ↦ rfl⟩
  | cons s scopes ih =>
      have hlookup : s.bindings.lookup id = none ↔ id ∉ s.bindings.map Prod.fst := by
        rw [List.lookup_eq_none_iff, List.mem_map]
        simp only [bne_iff_ne, ne_eq, not_exists, not_and]
        exact forall₂_congr fun b _ ↦ not_congr eq_comm
      rw [bound?_cons, Option.or_eq_none_iff, hlookup, ih, boundIn, boundIn, List.flatMap_cons,
        List.mem_append, not_or]

theorem boundIn_cons {n : Node} {bindings : List Binding}
    (hargs : n.arguments = bindings.map Binding.argument) :
    boundIn (⟨id, bindings.map Binding.bound⟩ :: scopes) = n.placeholders ++ boundIn scopes := by
  rw [← Node.arguments_map_fst, hargs, boundIn, List.flatMap_cons, List.map_map, List.map_map]
  rfl

/-- Lowering an output comes to no more than the output does. -/
theorem Visited.meets (h : Visited g code output scopes id) :
    g.Meets output (boundIn scopes) id := by
  induction h with
  | output => exact .output
  | operand _ hn ha ih => exact .operand ih hn ha
  | body _ hn hbody hargs _ ih => exact boundIn_cons hargs ▸ .body ih hn hbody

theorem Demanded.free {index : Nat} {shape : Shape} (h : Demanded g code output index shape) :
    g.Free output index (.of shape) := by
  obtain ⟨scopes, id, hv, hn, hb⟩ := h
  exact ⟨boundIn scopes, id, hv.meets, hn, bound?_eq_none_iff.1 hb⟩

/-! ## What has been lowered -/

/-- The operands of a lowered node have been lowered, in the same scopes. -/
theorem Lowered.exists_of_mem_operands (h : Lowered g code scopes id v) {n : Node}
    (hn : g.node? id = some n) {a : NodeId} (ha : a ∈ n.operands) :
    ∃ x, Lowered g code scopes a x := by
  rw [Node.mem_operands_iff] at ha
  cases h with
  | constant hn' | bound hn' | load hn' =>
      cases hn.symm.trans hn'
      cases ha
  | output hn' hx | unary hn' hx =>
      cases hn.symm.trans hn'
      cases List.mem_singleton.1 ha
      exact ⟨_, hx⟩
  | binary hn' hx hy =>
      cases hn.symm.trans hn'
      rcases List.mem_cons.1 ha with heq | ha
      · cases heq
        exact ⟨_, hx⟩
      · cases List.mem_singleton.1 ha
        exact ⟨_, hy⟩
  | construct hn' hx =>
      cases hn.symm.trans hn'
      obtain ⟨b, hb, heq⟩ := List.mem_map.1 ha
      cases heq
      exact ⟨_, hx b hb⟩
  | composite hn' hbody hargs hx =>
      cases hn.symm.trans hn'
      rw [sources_eq_of_arguments (Node.isComposite_of_body? hbody) hargs, List.map_map] at ha
      obtain ⟨b, hb, heq⟩ := List.mem_map.1 ha
      cases heq
      exact ⟨_, hx b hb⟩

/-- The body of a lowered composite has been lowered in a scope that binds its placeholders. -/
theorem Lowered.exists_body (h : Lowered g code scopes id v) {n : Node} (hn : g.node? id = some n)
    {body : NodeId} (hbody : n.body?.join = some body) :
    ∃ scopes', boundIn scopes' = n.placeholders ++ boundIn scopes ∧
      Lowered g code scopes' body v := by
  have hc := Node.isComposite_of_body? hbody
  cases h with
  | composite hn' hbody' hargs _ hv =>
      cases hn.symm.trans hn'
      cases hbody.symm.trans hbody'
      exact ⟨_, boundIn_cons hargs, hv⟩
  | constant hn' | bound hn' | load hn' | output hn' | unary hn' | binary hn' | construct hn' =>
      cases hn.symm.trans hn'
      cases hc

/-- Where an output has been lowered, so has everything that it comes to, with the same placeholders
bound. -/
theorem Lowered.of_meets (hroot : Lowered g code [] output v) {bound : List NodeId}
    (h : g.Meets output bound id) :
    ∃ scopes w, boundIn scopes = bound ∧ Lowered g code scopes id w := by
  induction h with
  | output => exact ⟨[], v, rfl, hroot⟩
  | operand _ hn ha ih =>
      obtain ⟨scopes, w, hscopes, hw⟩ := ih
      obtain ⟨x, hx⟩ := hw.exists_of_mem_operands hn ha
      exact ⟨scopes, x, hscopes, hx⟩
  | body _ hn hbody ih =>
      obtain ⟨scopes, w, rfl, hw⟩ := ih
      obtain ⟨scopes', hscopes', hw'⟩ := hw.exists_body hn hbody
      exact ⟨scopes', w, hscopes', hw'⟩

/-- A free parameter declares a shape, and has been loaded with it. -/
theorem exists_load_of_free (hroot : Lowered g code [] output v) {index : Nat} {t : ValueType}
    (h : g.Free output index t) : ∃ i ∈ code, i.operation = .param index ∧ t = .of i.shape := by
  obtain ⟨bound, id, hmeets, hn, hfree⟩ := h
  obtain ⟨scopes, w, rfl, hw⟩ := hroot.of_meets hmeets
  cases hw with
  | bound _ hb => exact absurd (bound?_eq_none_iff.2 hfree) (hb ▸ Option.some_ne_none _)
  | load hn' _ hi =>
      cases hn.symm.trans hn'
      exact ⟨_, List.mem_of_getElem? hi, rfl, rfl⟩
  | composite hn' hbody =>
      cases hn.symm.trans hn'
      cases Node.isComposite_of_body? hbody
  | constant hn' | output hn' | unary hn' | binary hn' | construct hn' => cases hn.symm.trans hn'

end Compile

/-! ## Arguments -/

namespace Program

variable {p : Program} {args : List Value}

theorem mismatch?_eq_none_of_shapes {index : Nat} {params : List (Option Shape)}
    (h : ∀ (k : Nat) s, params[k]?.join = some s → ∀ x, args[k]? = some x → x.shape = s) :
    mismatch? index params args = none := by
  induction params generalizing index args with
  | nil => rfl
  | cons param params ih =>
      cases args with
      | nil => cases param <;> rfl
      | cons x args =>
          have hrest : mismatch? (index + 1) params args = none := ih fun k s hk ↦ h (k + 1) s hk
          cases param with
          | none => exact hrest
          | some t =>
              rw [mismatch?, if_pos (h 0 t rfl x rfl)]
              exact hrest

/-- Arguments are accepted if they are as many as the parameters, and of their shapes. -/
theorem checkArgs_eq_ok_iff : p.checkArgs args = .ok () ↔ args.length = p.params.length ∧
    ∀ (k : Nat) s, p.params[k]?.join = some s → args[k]?.map Value.shape = some s := by
  constructor
  · intro h
    refine ⟨?_, fun k s hk ↦ ?_⟩
    · by_contra hne
      rw [checkArgs, if_pos hne] at h
      cases h
    · obtain ⟨x, hx, rfl⟩ := exists_shape_of_checkArgs h hk
      exact congrArg (Option.map Value.shape) hx
  · rintro ⟨hlength, hshapes⟩
    have hnone : mismatch? 0 p.params args = none := mismatch?_eq_none_of_shapes fun k s hk x hx ↦ by
      have := hshapes k s hk
      rw [hx] at this
      exact Option.some.inj this
    rw [checkArgs, if_neg (not_not_intro hlength), hnone]

/-- The parameters of a program are those that are free: their number, the shape of each, the loads
on the tape, and the arguments that are accepted. -/
structure HasSignature (p : Program) (free : Nat → ValueType → Prop) : Prop where
  nil_iff : p.params = [] ↔ ∀ index t, ¬ free index t
  length_iff : ∀ n, p.params.length = n + 1 ↔ IsGreatest {index | ∃ t, free index t} n
  /-- All that are free at a position declare one shape, which is the entry of the position. -/
  entry : ∀ index t, free index t → ∃ s, t = .of s ∧ p.params[index]? = some (some s)
  gap : ∀ index < p.params.length, (∀ t, ¬ free index t) → p.params[index]? = some none
  /-- There is one load for each position, of its shape. -/
  load : ∀ index t, free index t →
    ∃ i, p.instrs.filter (fun i ↦ i.operation = .param index) = [i] ∧ t = .of i.shape
  free_of_load : ∀ i ∈ p.instrs, ∀ index, i.operation = .param index → ∃ t, free index t
  accepts_iff : ∀ args, p.checkArgs args = .ok () ↔ args.length = p.params.length ∧
    ∀ i ∈ p.instrs, ∀ index, i.operation = .param index →
      args[index]?.map Value.shape = some i.shape

end Program

/-! ## Programs -/

namespace Graph

open Compile

variable {g : Graph} {output : NodeId} {expected : Option ValueType} {p : Program} {index : Nat}

/-- A position that has a shape is that of a free parameter. -/
theorem free_of_entry (hp : g.compile output expected = .ok p) {s : Shape}
    (h : p.params[index]?.join = some s) : g.Free output index (.of s) := by
  obtain ⟨state, v, -, -, hs, -, rfl⟩ := exists_lowered_of_compile hp
  exact (hs.demanded index s h).free

/-- What is free is loaded, and has an entry. -/
theorem exists_load_of_compile (hp : g.compile output expected = .ok p) {t : ValueType}
    (h : g.Free output index t) : ∃ i ∈ p.instrs, i.operation = .param index ∧ t = .of i.shape ∧
      p.params[index]?.join = some i.shape := by
  obtain ⟨state, v, -, -, hs, hl, rfl⟩ := exists_lowered_of_compile hp
  obtain ⟨i, hi, hop, ht⟩ := exists_load_of_free hl h
  exact ⟨i, hi, hop, ht, hs.params i hi index hop⟩

/-- A load is that of its position. -/
theorem entry_of_load (hp : g.compile output expected = .ok p) {i : Instr} (hi : i ∈ p.instrs)
    (hop : i.operation = .param index) : p.params[index]?.join = some i.shape := by
  obtain ⟨state, v, -, -, hs, -, rfl⟩ := exists_lowered_of_compile hp
  exact hs.params i hi index hop

theorem filter_load_eq (hp : g.compile output expected = .ok p) {i : Instr} (hi : i ∈ p.instrs)
    (hop : i.operation = .param index) :
    p.instrs.filter (fun i ↦ i.operation = .param index) = [i] := by
  obtain ⟨s, hcode, hr⟩ := exists_recounts_of_compile hp
  have hle : (p.instrs.filter fun i ↦ i.operation = .param index).length ≤ 1 := by
    rw [← List.countP_eq_length_filter, hcode]
    exact hr.log.loaded.once index
  have hmem : i ∈ p.instrs.filter fun i ↦ i.operation = .param index :=
    List.mem_filter.2 ⟨hi, decide_eq_true hop⟩
  obtain ⟨j, hj⟩ := List.length_eq_one_iff.1
    (Nat.le_antisymm hle (List.length_pos_of_mem hmem))
  rw [hj] at hmem ⊢
  rw [List.mem_singleton.1 hmem]

/-- The last entry is not a gap. -/
theorem exists_free_last (hp : g.compile output expected = .ok p) {n : Nat}
    (h : p.params.length = n + 1) : ∃ t, g.Free output n t := by
  have hlast := getLast?_params hp
  have hget : p.params[n]? = some p.params[n] := List.getElem?_eq_getElem (by omega)
  rw [List.getLast?_eq_getElem?, h, Nat.add_sub_cancel, hget] at hlast
  obtain ⟨s, hs⟩ := Option.ne_none_iff_exists'.1 fun hnone ↦ hlast (congrArg some hnone)
  exact ⟨.of s, free_of_entry hp (by rw [hget, hs]; rfl)⟩

theorem lt_length_of_free (hp : g.compile output expected = .ok p) {t : ValueType}
    (h : g.Free output index t) : index < p.params.length := by
  obtain ⟨i, -, -, -, hentry⟩ := exists_load_of_compile hp h
  exact (List.getElem?_eq_some_iff.1 (Option.join_eq_some_iff.1 hentry)).1

/-- There are as many parameters as it takes for the last position that is free. -/
theorem length_params_iff (hp : g.compile output expected = .ok p) (n : Nat) :
    p.params.length = n + 1 ↔ IsGreatest {index | ∃ t, g.Free output index t} n := by
  constructor
  · intro hlength
    refine ⟨exists_free_last hp hlength, fun index hfree ↦ ?_⟩
    obtain ⟨t, hfree⟩ := hfree
    have := lt_length_of_free hp hfree
    omega
  · rintro ⟨⟨t, hfree⟩, hgreatest⟩
    have hlt := lt_length_of_free hp hfree
    obtain ⟨m, hm⟩ := Nat.exists_eq_add_one.2 (Nat.zero_lt_of_lt hlt)
    have := hgreatest (exists_free_last hp hm)
    omega

theorem hasSignature_of_compile (hp : g.compile output expected = .ok p) :
    p.HasSignature (g.Free output) where
  nil_iff := by
    constructor
    · intro hnil index t hfree
      have := lt_length_of_free hp hfree
      rw [hnil] at this
      cases this
    · intro hnone
      cases hlength : p.params.length with
      | zero => exact List.length_eq_zero_iff.1 hlength
      | succ n =>
          obtain ⟨t, hfree⟩ := exists_free_last hp hlength
          exact absurd hfree (hnone n t)
  length_iff := length_params_iff hp
  entry index t hfree := by
    obtain ⟨i, -, -, ht, hentry⟩ := exists_load_of_compile hp hfree
    exact ⟨i.shape, ht, Option.join_eq_some_iff.1 hentry⟩
  gap index hlt hnone := by
    have hget : p.params[index]? = some p.params[index] := List.getElem?_eq_getElem hlt
    cases hs : p.params[index] with
    | none => rw [hget, hs]
    | some s => exact absurd (free_of_entry hp (by rw [hget, hs]; rfl)) (hnone (.of s))
  load index t hfree := by
    obtain ⟨i, hi, hop, ht, -⟩ := exists_load_of_compile hp hfree
    exact ⟨i, filter_load_eq hp hi hop, ht⟩
  free_of_load i hi index hop := ⟨_, free_of_entry hp (entry_of_load hp hi hop)⟩
  accepts_iff args := by
    rw [Program.checkArgs_eq_ok_iff]
    refine and_congr_right fun _ ↦ ⟨fun h i hi index hop ↦ h index _ (entry_of_load hp hi hop),
      fun h index s hs ↦ ?_⟩
    obtain ⟨i, hi, hop, ht, -⟩ := exists_load_of_compile hp (free_of_entry hp hs)
    cases ht
    exact h i hi index hop

/-- What is free has been lowered where no scope binds it, and nothing else has. -/
theorem free_iff_event (hp : g.compile output expected = .ok p) {t : ValueType} :
    g.Free output index t ↔ ∃ e ∈ g.history output,
      g.node? e.node = some (.parameter index t) ∧ bound? e.scopes e.node = none := by
  obtain ⟨s, v, rfl, hr⟩ := exists_state_of_compile hp
  constructor
  · intro hfree
    obtain ⟨i, -, -, rfl, hentry⟩ := exists_load_of_compile hp hfree
    exact hr.log.params index i.shape hentry
  · rintro ⟨e, he, hn, hb⟩
    exact ⟨_, _, (hr.log.made e he).visited.meets, hn, bound?_eq_none_iff.1 hb⟩

/-- The signature of a program is that of its output.  The parameters that have been lowered outside
of all expansions that bind them are those that are free, and a program has one entry and one load for
each position of them.  An output that comes to two free parameters of a position, with different
shapes, is not compiled. -/
theorem compile_signature (g : Graph) (output : NodeId) (expected : Option ValueType) :
    (∀ p, g.compile output expected = .ok p → p.HasSignature (g.Free output) ∧
      ∀ index t, g.Free output index t ↔ ∃ e ∈ g.history output,
        g.node? e.node = some (.parameter index t) ∧ bound? e.scopes e.node = none) ∧
    ∀ index s s', g.Free output index (.of s) → g.Free output index (.of s') → s ≠ s' →
      ∃ e, g.compile output expected = .error e := by
  refine ⟨fun p hp ↦ ⟨hasSignature_of_compile hp, fun index t ↦ free_iff_event hp⟩,
    fun index s s' hs hs' hne ↦ ?_⟩
  cases hp : g.compile output expected with
  | error e => exact ⟨e, rfl⟩
  | ok p =>
      obtain ⟨_, ht, hentry⟩ := (hasSignature_of_compile hp).entry index _ hs
      obtain ⟨_, ht', hentry'⟩ := (hasSignature_of_compile hp).entry index _ hs'
      cases ht
      cases ht'
      cases hentry.symm.trans hentry'
      exact absurd rfl hne

/-- A composite adds its argument to a second parameter of the same position; its placeholder is read
outside of it as well. -/
def escapedPlaceholder : List Action :=
  [.parameter 2 (.of .float), .parameter 2 (.of .float), .compositeUnary,
    .setEdge ⟨3⟩ .input (some ⟨0⟩), .binary .add ⟨2⟩ ⟨1⟩, .output ⟨4⟩, .setBody ⟨3⟩ ⟨5⟩,
    .binary .mul ⟨3⟩ ⟨2⟩, .output ⟨6⟩]

def escapedProgram : Program :=
  ⟨[⟨.param 2, .float, ⟨0⟩⟩, ⟨.binary .add ⟨0⟩ ⟨0⟩, .float, ⟨4⟩⟩, ⟨.param 0, .float, ⟨2⟩⟩,
    ⟨.binary .mul ⟨1⟩ ⟨2⟩, .float, ⟨6⟩⟩], ⟨3⟩, .float, [some .float, none, some .float]⟩

/-- The second position is a gap, where any argument is accepted.  Two shapes at one position are
refused. -/
theorem compile_signature_escapedPlaceholder :
    (after escapedPlaceholder).compile ⟨7⟩ none = .ok escapedProgram ∧
      (∃ t, (after escapedPlaceholder).Free ⟨7⟩ 0 t) ∧
      (∀ t, ¬ (after escapedPlaceholder).Free ⟨7⟩ 1 t) ∧
      IsGreatest {index | ∃ t, (after escapedPlaceholder).Free ⟨7⟩ index t} 2 ∧
      (∀ x, escapedProgram.checkArgs [.float 1, x, .float 2] = .ok ()) ∧
      ∃ e, (after clashingParameters).compile ⟨7⟩ none = .error e := by
  have hp : (after escapedPlaceholder).compile ⟨7⟩ none = .ok escapedProgram := by decide +kernel
  obtain ⟨hsignature, -⟩ := (compile_signature (after escapedPlaceholder) ⟨7⟩ none).1 _ hp
  have hgap (t : ValueType) : ¬ (after escapedPlaceholder).Free ⟨7⟩ 1 t := fun hfree ↦ by
    obtain ⟨s, -, hentry⟩ := hsignature.entry 1 t hfree
    cases hentry
  have haccepts (x : Value) : escapedProgram.checkArgs [.float 1, x, .float 2] = .ok () := by
    refine (hsignature.accepts_iff _).2 ⟨rfl, fun i hi index hop ↦ ?_⟩
    simp only [escapedProgram, List.mem_cons, List.not_mem_nil, or_false] at hi
    rcases hi with rfl | rfl | rfl | rfl <;> cases hop <;> rfl
  refine ⟨hp, hsignature.free_of_load ⟨.param 0, .float, ⟨2⟩⟩ (by decide) 0 rfl, hgap,
    (hsignature.length_iff 2).1 rfl, haccepts, ?_⟩
  -- the product reads the vector itself, and the scalar as the argument of the composite
  have hproduct : (after clashingParameters).Meets ⟨7⟩ [] ⟨6⟩ :=
    .operand .output (n := .output (some ⟨6⟩)) (by decide +kernel) (by decide)
  have hcomposite : (after clashingParameters).Meets ⟨7⟩ [] ⟨2⟩ :=
    hproduct.operand (n := .binary .mul (some ⟨2⟩) (some ⟨5⟩)) (by decide +kernel) (by decide)
  have hvector : (after clashingParameters).Meets ⟨7⟩ [] ⟨5⟩ :=
    hproduct.operand (n := .binary .mul (some ⟨2⟩) (some ⟨5⟩)) (by decide +kernel) (by decide)
  have hscalar : (after clashingParameters).Meets ⟨7⟩ [] ⟨0⟩ :=
    hcomposite.operand (n := .compositeUnary (some ⟨0⟩) (some ⟨4⟩) ⟨1⟩) (by decide +kernel) (by decide)
  exact (compile_signature (after clashingParameters) ⟨7⟩ none).2 0 .float .float2
    ⟨[], ⟨0⟩, hscalar, by decide +kernel, List.not_mem_nil⟩
    ⟨[], ⟨5⟩, hvector, by decide +kernel, List.not_mem_nil⟩ (by decide)

end Graph

end FieldGraph
