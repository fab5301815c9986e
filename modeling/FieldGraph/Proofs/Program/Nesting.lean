import FieldGraph.DistanceField
import FieldGraph.Proofs.Program.Signature

/-!
# How deep expansions nest

The compiler opens every composite it meets, unless that composite is open already.  So expansions
nest no deeper than there are live composites, on any graph; what a compiler would do with a deeper
one never matters.  An output that has been compiled leads to no cycle, and where the search for
cycles finds none the compiler meets none.
-/

namespace FieldGraph

open Relation

namespace Compile

variable {g : Graph} {scopes : List Scope} {id : NodeId} {opener opener' : Opener}

/-- Lower a scope, opening every composite that is not open already.  Expansions nest to a given
depth; how a scope that lies deeper is lowered is given, too. -/
def lowerWithin (g : Graph) (beyond : List Scope → NodeId → Lower Operand) :
    Nat → List Scope → NodeId → Lower Operand
  | 0, scopes, root => beyond scopes root
  | depth + 1, scopes, root =>
    lowerWith g (fun id ↦ if ∃ scope ∈ scopes, scope.composite = id then none
      else some (lowerWithin g beyond depth)) scopes root

/-! ## Openers that do the same -/

/-- How the body of a composite is lowered in the scope that opens it. -/
def lowerBody? (opener : Opener) (scopes : List Scope) (id : NodeId) :
    Option (List (NodeId × Operand) → NodeId → Lower Operand) :=
  (opener id).map fun lower bindings ↦ lower (⟨id, bindings⟩ :: scopes)

theorem expand_congr (h : lowerBody? opener scopes id = lowerBody? opener' scopes id)
    (own : NodeMap Operand) (n : Node) :
    expand g opener scopes own n id = expand g opener' scopes own n id := by
  unfold expand
  split
  · unfold lowerBody? at h
    cases ho : opener id with
    | none =>
        rw [ho, eq_comm, Option.map_none, Option.map_eq_none_iff] at h
        rw [h]
    | some lower =>
        rw [ho, Option.map_some, eq_comm, Option.map_eq_some_iff] at h
        obtain ⟨lower', ho', heq⟩ := h
        rw [ho']
        refine bind_congr fun bindings ↦ ?_
        exact (congrFun (congrFun heq bindings) _).symm
  · rfl

theorem lowerNode_congr {operand expand expand' : NodeId → Lower Operand} {n : Node}
    (h : n.isComposite → expand id = expand' id) :
    lowerNode scopes operand expand id n = lowerNode scopes operand expand' id n := by
  cases n with
  | compositeUnary | compositeBinary => exact h rfl
  | _ => rfl

/-- Lowering a scope depends on nothing but how the bodies of live composites are lowered there. -/
theorem lowerWith_congr
    (h : ∀ id n, g.node? id = some n → n.isComposite →
      lowerBody? opener scopes id = lowerBody? opener' scopes id) (root : NodeId) :
    lowerWith g opener scopes root = lowerWith g opener' scopes root := by
  have hnext : lowerNext g opener scopes = lowerNext g opener' scopes := by
    funext own id
    unfold lowerNext
    refine bind_congr fun found ↦ ?_
    cases found with
    | some v => rfl
    | none =>
        cases hn : g.node? id with
        | none => rfl
        | some n =>
            simp only
            rw [lowerNode_congr fun hc ↦ expand_congr (h id n hn hc) own n]
  unfold lowerWith
  rw [hnext]

/-! ## Depth -/

/-- The listed composites are those that are not open. -/
structure Unopened (g : Graph) (available : List NodeId) (scopes : List Scope) : Prop where
  nodup : available.Nodup
  mem_iff : ∀ id n, g.node? id = some n → n.isComposite →
    (id ∈ available ↔ ¬ ∃ scope ∈ scopes, scope.composite = id)

theorem unopened_nil (g : Graph) : Unopened g g.composites [] where
  nodup := List.Pairwise.filter _ g.entries.nodup_ids
  mem_iff id n hn hc := by
    simp [Graph.composites, Graph.mem_ids, Graph.contains_of_node? hn, hn, hc]

theorem Unopened.cons {available : List NodeId} (h : Unopened g available scopes)
    (bindings : List (NodeId × Operand)) :
    Unopened g (available.erase id) (⟨id, bindings⟩ :: scopes) where
  nodup := h.nodup.erase id
  mem_iff j n hn hc := by
    rw [h.nodup.mem_erase_iff, h.mem_iff j n hn hc]
    simp only [List.exists_mem_cons_iff, not_or]
    exact and_congr_left' (by simp [eq_comm])

/-- Expansions nest no deeper than there are composites that may be opened. -/
theorem lowerWithin_eq (beyond : List Scope → NodeId → Lower Operand) {available : List NodeId}
    (h : Unopened g available scopes) {depth : Nat} (hdepth : available.length < depth)
    (root : NodeId) :
    lowerWithin g beyond depth scopes root = lowerScope g available scopes root := by
  induction depth generalizing available scopes root with
  | zero => exact absurd hdepth (Nat.not_lt_zero _)
  | succ depth ih =>
      rw [lowerScope_eq, lowerWithin]
      refine lowerWith_congr (fun id n hn hc ↦ ?_) root
      have hmem := h.mem_iff id n hn hc
      unfold lowerBody? opening
      dsimp only
      by_cases havailable : id ∈ available
      · rw [if_neg (hmem.1 havailable), if_pos havailable]
        have hlt := length_erase_lt havailable
        exact congrArg some (funext fun bindings ↦ funext fun body ↦
          ih (h.cons bindings) (by omega) body)
      · rw [if_pos (Decidable.not_not.1 (mt hmem.2 havailable)), if_neg havailable]

/-! ## Cycles -/

/-- No cycle is met in compiling an output from which no infinite chain of edges starts. -/
theorem ne_cycle_of_acc {output : NodeId} (h : Acc (fun b a ↦ g.Reads a b) output)
    (expected : Option ValueType) (id : NodeId) :
    g.compile output expected ≠ .error (.cycle id) := by
  intro herror
  have hroot : ∃ source, g.node? output = some (.output source) := by
    rw [compile_eq, compileBy] at herror
    split at herror
    · cases herror
    next source hn => exact ⟨source, hn⟩
    · cases herror
  obtain ⟨source, hn⟩ := hroot
  rcases blamed_of_compile_expecting hn herror with ⟨code, scopes, hv, hfault⟩ | ⟨_, _, _, hne⟩
  · cases hfault with
    | cycle hcycle =>
        exact Graph.not_transGen_self_of_acc (Graph.acc_of_reaches h hv.reaches) hcycle
  · cases hne

end Compile

namespace Graph

/-- How preparing a graph fails.  The compiler's errors are reported only once the whole graph has
been searched for cycles. -/
inductive Refused (g : Graph) (output : NodeId) : PrepareError → Prop
  | cycle (hne : g.findAnyCycle output ≠ []) : Refused g output (.cycle (g.findAnyCycle output))
  | compile {e : CompileError} (hnil : g.findAnyCycle output = [])
      (h : g.compile output (some (.of .float)) = .error e) : Refused g output (.compile e)
  | signature {p : Program} (hnil : g.findAnyCycle output = [])
      (h : g.compile output (some (.of .float)) = .ok p) (hd : ¬ p.IsDistance) :
      Refused g output (.signature output p.params p.result)

theorem refused_of_prepare {g : Graph} {output : NodeId} {e : PrepareError}
    (h : g.prepare output = .error e) : Refused g output e := by
  unfold prepare at h
  split at h
  next hnil =>
    unfold DistanceField.ofGraph at h
    cases hcompile : g.compile output (some (.of .float)) with
    | error e' =>
        rw [hcompile] at h
        cases h
        exact .compile hnil hcompile
    | ok p =>
        rw [hcompile] at h
        by_cases hd : p.IsDistance
        · simp only [DistanceField.ofProgram, dif_pos hd] at h
          cases h
        · simp only [DistanceField.ofProgram, dif_neg hd] at h
          cases h
          exact .signature hnil hcompile hd
  next hne =>
    cases h
    exact .cycle hne

theorem exists_of_prepare_eq_compile {g : Graph} {output : NodeId} {e : CompileError}
    (h : g.prepare output = .error (.compile e)) :
    g.findAnyCycle output = [] ∧ g.compile output (some (.of .float)) = .error e := by
  cases refused_of_prepare h with
  | compile hnil hcompile => exact ⟨hnil, hcompile⟩

/-- Compiling comes to its end on every graph, and it agrees with the search for cycles.  Expansions
nest no deeper than one for each live composite, so that it does not matter how a deeper one would
be lowered; and each of them lowers different live nodes, one after another.  An output that
compiles leads to no cycle.  Where the search from an output finds no cycle compiling it meets none,
so that no cycle is left for the compiler to report once the whole graph has been searched. -/
theorem compile_stops (g : Graph) (output : NodeId) (expected : Option ValueType) :
    (∀ beyond, g.compile output expected = Compile.compileBy g
      (Compile.lowerWithin g beyond (g.composites.length + 1) []) output expected) ∧
    (∀ root, let w := g.walk Node.operands true [root]
      w.finished.Nodup ∧ ∀ id ∈ w.finished, g.contains id) ∧
    (∀ p, g.compile output expected = .ok p →
      ∀ id, ReflTransGen g.Reads output id → ¬ TransGen g.Reads id id) ∧
    (g.findCycle output [] = [] → ∀ id, g.compile output expected ≠ .error (.cycle id)) ∧
    ∀ id, g.prepare output ≠ .error (.compile (.cycle id)) := by
  refine ⟨fun beyond ↦ ?_, fun root ↦ ?_, fun p hp id hreach ↦ ?_, fun hnil ↦ ?_, fun id hid ↦ ?_⟩
  · have hlower : Compile.lowerWithin g beyond (g.composites.length + 1) [] =
        Compile.lowerScope g g.composites [] :=
      funext (Compile.lowerWithin_eq beyond (Compile.unopened_nil g) (Nat.lt_succ_self _))
    rw [Compile.compile_eq, hlower]
  · have he := explores_walk g Node.operands true [root]
    exact ⟨he.nodup, fun id hid ↦ he.live id (he.entered_of_finished id hid)⟩
  · have hroot := Compile.denotes_of_compile hp
    exact not_transGen_self_of_acc (acc_of_reaches hroot.acc hreach)
  · exact Compile.ne_cycle_of_acc (acc_of_findCycle_eq_nil hnil List.mem_cons_self) expected
  · obtain ⟨hnil, hcompile⟩ := exists_of_prepare_eq_compile hid
    have hacc : Acc (fun b a ↦ g.Reads a b) output :=
      acc_of_findCycle_eq_nil hnil List.mem_cons_self
    exact Compile.ne_cycle_of_acc hacc _ id hcompile

end Graph

end FieldGraph
