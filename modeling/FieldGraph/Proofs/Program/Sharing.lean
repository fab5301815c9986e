import FieldGraph.Proofs.Graph.Steps
import FieldGraph.Proofs.Program.Scopes
import Mathlib.Algebra.GroupWithZero.Nat

/-!
# Sharing

A node that reads no placeholder costs what it takes, once, however often it is read and however
often the composites around it are expanded.  Any other node costs that once for each scope in which
it is lowered: there is one scope for each expansion, and the outermost one.
-/

namespace FieldGraph

open Relation

namespace Compile

variable {g : Graph} {output : NodeId} {id : NodeId} {n : Node} {s : State} {h : History}
  {waiting : List NodeId}

/-! ## The events of a node -/

/-- What has been written down of a node. -/
def eventsOf (h : History) (id : NodeId) : History := h.filter (·.node = id)

/-- The expansions: a composite is written down when it is expanded. -/
def expansions (g : Graph) (h : History) : History :=
  h.filter fun e ↦ (g.node? e.node).any Node.isComposite

theorem mem_eventsOf {e : Event} : e ∈ eventsOf h id ↔ e ∈ h ∧ e.node = id := by
  simp [eventsOf]

theorem countP_emitted (hsource : ∀ e ∈ h, ∀ i ∈ e.emitted, i.source = e.node) (id : NodeId) :
    (h.flatMap Event.emitted).countP (·.source = id) =
      ((eventsOf h id).map (·.emitted.length)).sum := by
  induction h with
  | nil => rfl
  | cons e h ih =>
      have hhead := hsource e List.mem_cons_self
      rw [List.flatMap_cons, List.countP_append,
        ih fun e' he' ↦ hsource e' (List.mem_cons_of_mem e he'), eventsOf, eventsOf,
        List.filter_cons]
      by_cases he : e.node = id
      · have hall : e.emitted.countP (·.source = id) = e.emitted.length :=
          List.countP_eq_length.2 fun i hi ↦ by simp [hhead i hi, he]
        simp [he, hall]
      · have hnone : e.emitted.countP (·.source = id) = 0 :=
          List.countP_eq_zero.2 fun i hi ↦ by simp [hhead i hi, he]
        simp [he, hnone]

/-- How often a node has been lowered: for each scope at most once.  There is a scope outside of all
composites, and one for each expansion. -/
structure OncePerScope (g : Graph) (h : History) (id : NodeId) (n : Node) (count : Nat) : Prop where
  count_eq : count = ((eventsOf h id).map (·.emitted.length)).sum
  takes : ∀ e ∈ eventsOf h id, Takes g (shapesIn e.scopes) n e.emitted.length
  apart : ((eventsOf h id).map Event.stack).Nodup
  scope : ∀ e ∈ eventsOf h id,
    e.stack = [] ∨ ∃ c ∈ expansions g h, e.stack = c.node :: c.stack
  length_le : (eventsOf h id).length ≤ (expansions g h).length + 1

namespace Log

variable (hl : Log g output waiting s h)
include hl

/-- The instructions of a node are those of its events. -/
theorem countP_source (id : NodeId) :
    s.instrs.countP (·.source = id) = ((eventsOf h id).map (·.emitted.length)).sum := by
  rw [hl.code]
  refine countP_emitted (fun e he ↦ ?_) id
  obtain ⟨n, -, hemits⟩ := (hl.made e he).emits
  exact hemits.source_eq

theorem nodup_stacks (id : NodeId) : ((eventsOf h id).map Event.stack).Nodup := by
  refine List.pairwise_map.2 ((hl.apart.filter _).imp_of_mem fun {e e'} he he' hapart ↦ ?_)
  have hnode := (mem_eventsOf.1 he).2.trans (mem_eventsOf.1 he').2.symm
  exact (hapart hnode).2

theorem stack_eq {e : Event} (he : e ∈ h) :
    e.stack = [] ∨ ∃ c ∈ expansions g h, e.stack = c.node :: c.stack := by
  cases hst : e.stack with
  | nil => exact .inl rfl
  | cons c rest =>
      obtain ⟨e', he', rfl, rfl, n, hn, hc⟩ := hl.expanded e he c rest hst
      exact .inr ⟨e', List.mem_filter.2 ⟨he', by rw [hn]; exact hc⟩, rfl⟩

theorem oncePerScope (hn : g.node? id = some n) :
    OncePerScope g h id n (s.instrs.countP (·.source = id)) where
  count_eq := hl.countP_source id
  takes e he := by
    obtain ⟨hmem, rfl⟩ := mem_eventsOf.1 he
    obtain ⟨m, hm, hemits⟩ := (hl.made e hmem).emits
    cases hn.symm.trans hm
    exact hemits.takes
  apart := hl.nodup_stacks id
  scope e he := hl.stack_eq (mem_eventsOf.1 he).1
  length_le := by
    -- a node is written down under different stacks, of which there are no more than that
    have hsub : (eventsOf h id).map Event.stack ⊆
        [] :: (expansions g h).map fun c ↦ c.node :: c.stack := by
      intro st hst
      obtain ⟨e, he, rfl⟩ := List.mem_map.1 hst
      rcases hl.stack_eq (mem_eventsOf.1 he).1 with hnil | ⟨c, hc, hst⟩
      · exact hnil ▸ List.mem_cons_self
      · exact hst ▸ List.mem_cons_of_mem _ (List.mem_map.2 ⟨c, hc, rfl⟩)
    have hle := ((hl.nodup_stacks id).subperm hsub).length_le
    rwa [List.length_map, List.length_cons, List.length_map] at hle

/-- A closed node has been written down once, or not at all. -/
theorem eventsOf_of_isClosed (hc : isClosed g id) {e : Event} (he : e ∈ eventsOf h id) :
    eventsOf h id = [e] := by
  have hpair : (eventsOf h id).Pairwise fun _ _ ↦ False :=
    (hl.apart.filter _).imp_of_mem fun {e e'} he he' hapart ↦ by
      obtain ⟨-, rfl⟩ := mem_eventsOf.1 he
      exact (hapart (mem_eventsOf.1 he').2.symm).1 hc
  cases hevents : eventsOf h id with
  | nil => simp [hevents] at he
  | cons e₁ rest =>
      rw [hevents] at hpair he
      cases rest with
      | nil => rw [List.mem_singleton.1 he]
      | cons e₂ rest => exact ((List.pairwise_cons.1 hpair).1 e₂ List.mem_cons_self).elim

end Log

/-! ## Closed nodes -/

/-- Whatever the output leads to has been written down. -/
theorem Recounts.written (hr : Recounts g output [] output [] s h) {a : NodeId}
    (ha : ReflTransGen g.Reads output a) (hl : g.contains a) : ∃ e ∈ h, e.node = a := by
  obtain ⟨more, rfl, hmore⟩ := hr.since
  induction ha with
  | refl => exact hr.root
  | tail _ hread ih =>
      obtain ⟨n, hn, -⟩ := Graph.exists_node_of_mem_edges hread
      obtain ⟨e, he, rfl⟩ := ih (Graph.contains_of_node? hn)
      exact (hmore e he).2 _ hread hl

/-- A node that leads to no cycle and to no placeholder is closed. -/
theorem isClosed_of_reaches (hp : ∀ q, ReflTransGen g.Reads id q → q ∉ g.placeholders)
    (hacyclic : ∀ q, ReflTransGen g.Reads id q → ¬ TransGen g.Reads q q) : isClosed g id := by
  have hcycle : (g.walk Node.edges true [id]).cycle = none :=
    Graph.walk_cycle_eq_none (fun r hr q _ hreach ↦ by
      cases List.mem_singleton.1 hr
      exact hacyclic q hreach) true
  simp only [isClosed, hcycle, Option.isNone_none, Bool.true_and, List.all_eq_true,
    decide_eq_true_eq]
  intro q hq
  obtain ⟨r, hr, hreach⟩ := (Graph.explores_walk g Node.edges true [id]).reached q hq
  cases List.mem_singleton.1 hr
  exact hp q hreach

/-- What a node takes depends on nothing but the placeholders that it leads to. -/
theorem Takes.congr {env env' : Graph.Env Shape} {count : Nat} (ht : Takes g env n count)
    (hn : g.node? id = some n) (he : ∀ q, ReflTransGen g.Reads id q → env q = env' q) :
    Takes g env' n count := by
  have hshape {a : NodeId} {t : Shape} (ha : some a ∈ n.sources) (hs : Shaped g env a t) :
      Shaped g env' a t :=
    Graph.Denotes.congr hs fun q hq ↦ he q (.head (Graph.reads_of_mem_sources hn ha) hq)
  cases ht with
  | constant => exact .constant
  | unary => exact .unary
  | binary ha hb =>
      exact .binary (hshape List.mem_cons_self ha)
        (hshape (List.mem_cons_of_mem _ List.mem_cons_self) hb)
  | construct => exact .construct
  | parameter hle => exact .parameter hle
  | output => exact .output
  | composite hc => exact .composite hc

end Compile

/-! ## Programs -/

namespace Graph

open Compile

variable {g : Graph} {output : NodeId} {expected : Option ValueType} {p : Program}

/-- A node that leads to no placeholder is lowered once if the output leads to it, and what it takes
does not depend on the scope. -/
theorem takes_of_compile (hp : g.compile output expected = .ok p) {id : NodeId} {n : Node}
    (hn : g.node? id = some n) (hplaceholder : ∀ q, ReflTransGen g.Reads id q → q ∉ g.placeholders)
    (hreach : ReflTransGen g.Reads output id) : Takes g Env.empty n (p.instructionsFor id) := by
  obtain ⟨s, hcode, hr⟩ := exists_recounts_of_compile hp
  have hacc := acc_of_reaches (denotes_of_compile hp).acc hreach
  have hclosed : isClosed g id := isClosed_of_reaches hplaceholder fun q hq ↦
    not_transGen_self_of_acc (acc_of_reaches hacc hq)
  obtain ⟨e, he, hnode⟩ := hr.written hreach (contains_of_node? hn)
  have hmem : e ∈ eventsOf (g.history output) id := mem_eventsOf.2 ⟨he, hnode⟩
  have honce := hr.log.oncePerScope hn
  have htakes := honce.takes e hmem
  have hcount := honce.count_eq
  rw [hr.log.eventsOf_of_isClosed hclosed hmem, List.map_singleton, List.sum_singleton] at hcount
  rw [← hcount] at htakes
  rw [Program.instructionsFor, hcode]
  refine htakes.congr hn fun q hq ↦ ?_
  -- the scopes bind nothing that the node leads to
  have hbind := (hr.log.made e he).visited.opened.bindPlaceholders
  cases hb : bound? e.scopes q with
  | none => rw [shapesIn, hb]; rfl
  | some v => exact absurd (hbind q v hb) (hplaceholder q hq)

/-- Nothing is compiled for what the output does not lead to. -/
theorem instructionsFor_eq_zero (hp : g.compile output expected = .ok p) {id : NodeId}
    (hreach : ¬ ReflTransGen g.Reads output id) : p.instructionsFor id = 0 := by
  obtain ⟨s, hcode, hr⟩ := exists_recounts_of_compile hp
  have hnone : eventsOf (g.history output) id = [] :=
    List.eq_nil_iff_forall_not_mem.2 fun e he ↦ by
      obtain ⟨hmem, rfl⟩ := mem_eventsOf.1 he
      exact hreach (hr.log.made e hmem).visited.reaches
  rw [Program.instructionsFor, hcode, hr.log.countP_source, hnone]
  rfl

/-- What is compiled for a parameter loads its position. -/
theorem operation_eq_param (hp : g.compile output expected = .ok p) {i : Instr}
    (hi : i ∈ p.instrs) {index : Nat} {t : ValueType}
    (hn : g.node? i.source = some (.parameter index t)) : i.operation = .param index := by
  obtain ⟨s, hcode, hr⟩ := exists_recounts_of_compile hp
  rw [hcode, hr.log.code] at hi
  obtain ⟨e, he, hi⟩ := List.mem_flatMap.1 hi
  obtain ⟨n, hn', hemits⟩ := (hr.log.made e he).emits
  rw [hemits.source_eq i hi] at hn
  cases hn.symm.trans hn'
  exact hemits.load index t rfl i hi

/-- Programs share what can be shared.  A node that leads to no placeholder has the instructions
that it takes if the output leads to it, and none otherwise, whatever reads it and however often it
is read in expansions.  Each position is loaded once at most, for all parameters that ask for it.  Any
node has what it takes in a scope, once for each scope in which it is lowered: the history lists
these, and the code is what has been emitted in them. -/
theorem compile_shares (hp : g.compile output expected = .ok p) :
    (∀ id n, g.node? id = some n →
      (∀ q, ReflTransGen g.Reads id q → q ∉ g.placeholders) →
      (ReflTransGen g.Reads output id → Takes g Env.empty n (p.instructionsFor id)) ∧
      (¬ ReflTransGen g.Reads output id → p.instructionsFor id = 0)) ∧
    (∀ index, p.instrs.countP (fun i ↦ i.operation = .param index) ≤ 1) ∧
    (∀ i ∈ p.instrs, ∀ index t, g.node? i.source = some (.parameter index t) →
      i.operation = .param index) ∧
    p.instrs = (g.history output).flatMap Event.emitted ∧
    ∀ id n, g.node? id = some n →
      OncePerScope g (g.history output) id n (p.instructionsFor id) := by
  obtain ⟨s, hcode, hr⟩ := exists_recounts_of_compile hp
  refine ⟨fun id n hn hplaceholder ↦ ⟨takes_of_compile hp hn hplaceholder,
    instructionsFor_eq_zero hp⟩, fun index ↦ ?_, fun i hi index t ↦ operation_eq_param hp hi, ?_,
    fun id n hn ↦ ?_⟩
  · rw [hcode]
    exact hr.log.loaded.once index
  · rw [hcode]
    exact hr.log.code
  · rw [Program.instructionsFor, hcode]
    exact hr.log.oncePerScope hn

/-- A scalar times a vector, which is the argument of a composite, is read in its body as well, and
is added to its result. -/
def sharedProduct : List Action :=
  [.parameter 0 (.of .float), .parameter 1 (.of .float2), .binary .mul ⟨0⟩ ⟨1⟩, .compositeUnary,
    .binary .add ⟨3⟩ ⟨2⟩, .output ⟨5⟩, .setBody ⟨4⟩ ⟨6⟩, .setEdge ⟨4⟩ .input (some ⟨2⟩),
    .binary .add ⟨4⟩ ⟨2⟩, .output ⟨7⟩]

def sharedProgram : Program :=
  ⟨[⟨.param 0, .float, ⟨0⟩⟩, ⟨.param 1, .float2, ⟨1⟩⟩, ⟨.splat ⟨0⟩, .float2, ⟨2⟩⟩,
    ⟨.binary .mul ⟨2⟩ ⟨1⟩, .float2, ⟨2⟩⟩, ⟨.binary .add ⟨3⟩ ⟨3⟩, .float2, ⟨5⟩⟩,
    ⟨.binary .add ⟨4⟩ ⟨3⟩, .float2, ⟨7⟩⟩], ⟨5⟩, .float2, [some .float, some .float2]⟩

/-- The product takes a repetition and an instruction, for all three that read it. -/
theorem compile_shares_sharedProduct :
    (after sharedProduct).compile ⟨8⟩ none = .ok sharedProgram ∧
      sharedProgram.instructionsFor ⟨2⟩ = 2 ∧
      Takes (after sharedProduct) Env.empty (.binary .mul (some ⟨0⟩) (some ⟨1⟩)) 2 ∧
      OncePerScope (after sharedProduct) ((after sharedProduct).history ⟨8⟩) ⟨5⟩
        (.binary .add (some ⟨3⟩) (some ⟨2⟩)) 1 := by
  have hp : (after sharedProduct).compile ⟨8⟩ none = .ok sharedProgram := by decide +kernel
  have hreach : ReflTransGen (after sharedProduct).Reads ⟨8⟩ ⟨2⟩ := by
    have hsum : (after sharedProduct).Reads ⟨8⟩ ⟨7⟩ := by rw [Reads]; decide +kernel
    have hproduct : (after sharedProduct).Reads ⟨7⟩ ⟨2⟩ := by rw [Reads]; decide +kernel
    exact .tail (.single hsum) hproduct
  have hplaceholder : ∀ q, ReflTransGen (after sharedProduct).Reads ⟨2⟩ q →
      q ∉ (after sharedProduct).placeholders := by
    have hfree : ∀ q ∈ [2, 0, 1].map NodeId.mk, q ∉ (after sharedProduct).placeholders := by
      decide +kernel
    refine fun q hq ↦ hfree q (mem_of_reaches hq (by decide) ?_)
    simp only [Reads]
    decide +kernel
  obtain ⟨hclosed, -, -, -, honce⟩ := compile_shares hp
  exact ⟨hp, rfl, (hclosed ⟨2⟩ _ (by decide +kernel) hplaceholder).1 hreach,
    honce ⟨5⟩ _ (by decide +kernel)⟩

end Graph

end FieldGraph
