import FieldGraph.Proofs.Graph.Duplicates
import FieldGraph.Proofs.Program.Signature

/-!
# Programs of duplicates

A duplicate denotes what the composite does, so that programs that read the one do what programs do
that read the other.  This needs the body of the composite to be tidy.  Where a composite in it has
its body for an argument as well, the copy of that composite goes on reading the old argument, and
the placeholder behind it is left without anything to stand for.
-/

namespace FieldGraph.Graph

open Relation

/-- Duplicating a composite copies its meaning.  Provided that no placeholder is shared and that the
body is tidy, the duplicate is a composite whose body does not lead to the placeholders of the first
one.  However the graph grows then, an output that reads the duplicate is compiled like an output
that reads the composite: both fail, or both succeed with the same parameters, the same result and
the same answer to every call. -/
theorem compile_duplicate {g : Graph} (hw : g.WellFormed) (hacyclic : g.Acyclic)
    (hu : g.placeholders.Nodup) {id : NodeId} {n : Node} (hn : g.node? id = some n)
    (hc : n.isComposite) (htidy : ∀ body, n.body?.join = some body → g.Tidy body) :
    ∃ copy k, g.duplicate id = .ok copy ∧ copy.2.node? copy.1 = some k ∧ k.isComposite ∧
      (∀ body p, k.body?.join = some body → p ∈ n.placeholders →
        ¬ ReflTransGen copy.2.Reads body p) ∧
      ∀ h output output', Grows copy.2 h → h.node? output = some (.output (some id)) →
        h.node? output' = some (.output (some copy.1)) → ∀ expected,
          SameOutcome (h.compile output expected) (h.compile output' expected) := by
  obtain ⟨copy, k, hcopy, hk, hck, havoids, hsame⟩ := exists_duplicate hw hacyclic hu hn hc htidy
  refine ⟨copy, k, hcopy, hk, hck, havoids, fun h output output' hg ho ho' expected ↦ ?_⟩
  have hmatches : h.Matches [] output output' :=
    .operation (f := fun _ ↦ copy.1) ho ho' rfl rfl fun s hs ↦ by
      cases List.mem_singleton.1 hs
      exact hsame h hg
  exact Compile.sameOutcome_compile ho ho' (fun R _ x ↦ hmatches.iff R (agree_nil.2 rfl) x) expected

/-- The body of the outer composite is tidy: its placeholder is met only in the body of the inner
one, which is applied to another placeholder. -/
theorem tidy_nestedComposites : (after nestedComposites).Tidy ⟨8⟩ := by
  have hreach {id : NodeId} (h : ReflTransGen (after nestedComposites).Reads ⟨8⟩ id) :
      id ∈ [8, 5, 2, 7, 6, 4, 1].map NodeId.mk := by
    refine mem_of_reaches h (by decide) ?_
    simp only [Reads]
    decide +kernel
  have hbody : ∀ id ∈ [8, 5, 2, 7, 6, 4, 1].map NodeId.mk,
      ∀ n ∈ (after nestedComposites).node? id,
        (∀ body ∈ n.body?.join, body ∉ n.operands) ∧
          ∀ p ∈ n.placeholders, id = ⟨5⟩ ∧ p = ⟨4⟩ := by decide +kernel
  refine ⟨fun id n body h hn hb ↦ (hbody id (hreach h) n hn).1 body hb,
    fun id n p h hn hp hback ↦ ?_⟩
  obtain ⟨rfl, rfl⟩ := (hbody id (hreach h) n hn).2 p hp
  have hmem : (⟨4⟩ : NodeId) ∈ [8, 5, 2].map NodeId.mk := by
    refine mem_of_reaches hback (by decide) ?_
    simp only [ReadsAround, Reads, Leads, and_imp]
    decide +kernel
  exact absurd hmem (by decide)

/-- The duplicate is wired to an output of its own, which is compiled like the first one. -/
theorem compile_duplicate_nestedComposites :
    ∃ copy out, (after nestedComposites).duplicate ⟨3⟩ = .ok copy ∧
      copy.2.addOutput copy.1 = .ok out ∧
      SameOutcome (out.2.compile ⟨10⟩ none) (out.2.compile out.1 none) := by
  have hw : (after nestedComposites).WellFormed := wellFormed_after nestedComposites
  have hacyclic : (after nestedComposites).Acyclic :=
    @acyclic_of_findAnyCycle _ ⟨10⟩ (by decide +kernel)
  have hn : (after nestedComposites).node? ⟨3⟩ =
      some (.compositeBinary (some ⟨0⟩) (some ⟨9⟩) (some ⟨8⟩) ⟨1⟩ ⟨2⟩) := by decide +kernel
  obtain ⟨copy, k, hcopy, hk, -, -, hsame⟩ :=
    compile_duplicate hw hacyclic (by decide +kernel) hn rfl fun body hbody ↦
      Option.some.inj hbody ▸ tidy_nestedComposites
  have hadm : copy.2.Admissible (.output (some copy.1)) :=
    .of_edges (fun s hs ↦ List.mem_singleton.1 hs ▸ contains_of_node? hk) trivial rfl
  have ho : copy.2.node? ⟨10⟩ = some (.output (some ⟨3⟩)) :=
    (grows_duplicate hw hcopy).node?_eq (by decide +kernel) rfl
  have hg := grows_insert hadm
  exact ⟨copy, copy.2.insert (.output (some copy.1)), hcopy, add_eq_ok_iff.2 ⟨hadm, rfl⟩,
    hsame _ _ _ hg (hg.node?_eq ho rfl) (node?_insert hadm rfl) none⟩

/-! ## A body that is not tidy -/

/-- Placeholders are read only in the bodies of the composites that they belong to. -/
def ReadInside (g : Graph) : Prop :=
  ∀ id n p, g.node? id = some n → p ∈ n.placeholders → ∀ reader, g.Reads reader p →
    ∃ body, n.body?.join = some body ∧ ReflTransGen g.Reads body reader

/-- A composite that negates its argument and then applies the negation to itself: in its body, the
negation is the argument of another composite, and its body. -/
def wiredTwice : List Action :=
  [.constant (.float 5), .compositeUnary, .compositeUnary, .unary .negate ⟨1⟩,
    .setEdge ⟨4⟩ .input (some ⟨5⟩), .setBody ⟨4⟩ ⟨5⟩, .output ⟨4⟩, .setBody ⟨2⟩ ⟨6⟩,
    .setEdge ⟨2⟩ .input (some ⟨0⟩), .output ⟨2⟩]

theorem readInside_wiredTwice : (after wiredTwice).ReadInside := by
  intro id n p hn hp reader hr
  have hreads : ∀ id ∈ (after wiredTwice).ids, ∀ n ∈ (after wiredTwice).node? id,
      ∀ p ∈ n.placeholders, ∀ reader ∈ (after wiredTwice).ids,
        p ∈ (after wiredTwice).edges reader → n.body?.join = some ⟨6⟩ ∧ reader = ⟨5⟩ := by
    decide +kernel
  obtain ⟨m, hm, -⟩ := exists_node_of_mem_edges hr
  obtain ⟨hbody, rfl⟩ := hreads id (mem_ids.2 (contains_of_node? hn)) n hn p hp reader
    (mem_ids.2 (contains_of_node? hm)) hr
  have hinner : (after wiredTwice).Reads ⟨6⟩ ⟨4⟩ := by rw [Reads]; decide +kernel
  have hnegation : (after wiredTwice).Reads ⟨4⟩ ⟨5⟩ := by rw [Reads]; decide +kernel
  exact ⟨⟨6⟩, hbody, .tail (.single hinner) hnegation⟩

private theorem eq_ok_of_toOption {ε α : Type} {r : Except ε α} {a : α}
    (h : r.toOption = some a) : r = .ok a := by
  cases r <;> cases h
  rfl

/-- The copy of the inner composite keeps the old negation for its argument, and with it the
placeholder of the first composite.  The program of the duplicate asks for a parameter for it. -/
theorem not_sameOutcome_wiredTwice :
    (after wiredTwice).Acyclic ∧ (after wiredTwice).ReadInside ∧
    (after wiredTwice).node? ⟨2⟩ = some (.compositeUnary (some ⟨0⟩) (some ⟨6⟩) ⟨1⟩) ∧
    ∃ copy body out, (after wiredTwice).duplicate ⟨2⟩ = .ok copy ∧
      (copy.2.node? copy.1 >>= Node.body?) = some (some body) ∧
      ReflTransGen copy.2.Reads body ⟨1⟩ ∧ copy.2.addOutput copy.1 = .ok out ∧
      ¬ SameOutcome (out.2.compile ⟨7⟩ none) (out.2.compile out.1 none) := by
  refine ⟨@acyclic_of_findAnyCycle _ ⟨7⟩ (by decide +kernel), readInside_wiredTwice,
    by decide +kernel, ?_⟩
  have hcopy : ∃ copy ∈ ((after wiredTwice).duplicate ⟨2⟩).toOption,
      (copy.2.node? copy.1 >>= Node.body?) = some (some ⟨12⟩) ∧
      ⟨11⟩ ∈ copy.2.edges ⟨12⟩ ∧ ⟨5⟩ ∈ copy.2.edges ⟨11⟩ ∧ ⟨1⟩ ∈ copy.2.edges ⟨5⟩ ∧
      ∃ out ∈ (copy.2.addOutput copy.1).toOption,
        (out.2.compile ⟨7⟩ none).toOption.map Program.params ≠
          (out.2.compile out.1 none).toOption.map Program.params := by
    decide +kernel
  obtain ⟨copy, hcopy, hbody, hinner, harg, hplaceholder, out, hout, hparams⟩ := hcopy
  have hreach : ReflTransGen copy.2.Reads ⟨12⟩ ⟨1⟩ :=
    .head hinner (.head harg (.single hplaceholder))
  exact ⟨copy, ⟨12⟩, out, eq_ok_of_toOption hcopy, hbody, hreach, eq_ok_of_toOption hout,
    fun h ↦ hparams h.params_eq⟩

end FieldGraph.Graph
