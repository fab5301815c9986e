import FieldGraph.Proofs.Program.Scopes
import FieldGraph.Proofs.Program.Typing

/-!
# What compile errors blame

An error names a node that the output leads to, and what it says of the node is so.  A node is
lowered after all that it reads, so that no value is looked up before it is there; and in a
well-formed graph no edge leads to a dead node, so that the one dead node that is ever named is the
output itself.
-/

namespace FieldGraph

/-- There is a shape for two to four components. -/
theorem Shape.ofDim?_ne_none {dim : Nat} (h2 : 2 ≤ dim) (h4 : dim ≤ 4) : ofDim? dim ≠ none := by
  obtain rfl | rfl | rfl : dim = 2 ∨ dim = 3 ∨ dim = 4 := by omega
  all_goals exact Option.some_ne_none _

namespace Graph

open Relation

/-- What an error says is so: the fault lies in the node that it names. -/
inductive Blames (g : Graph) (output : NodeId) (expected : Option ValueType) :
    CompileError → Prop
  | unknownNode (hn : g.node? output = none) : Blames g output expected (.unknownNode output)
  | notAnOutput {n : Node} (hn : g.node? output = some n) (ho : ∀ source, n ≠ .output source) :
      Blames g output expected (.notAnOutput output)
  | missingInput {id : NodeId} {n : Node} {port : Port} (hn : g.node? id = some n)
      (hc : n.isComposite = false) (hp : n.port? port = some none) :
      Blames g output expected (.missingInput id port)
  | missingSlot {id : NodeId} {slots : List Edge} {slot : Nat}
      (hn : g.node? id = some (.construct slots)) (hs : slots[slot]? = some none) :
      Blames g output expected (.missingSlot id slot)
  | missingBody {id : NodeId} {n : Node} (hn : g.node? id = some n) (hb : n.body? = some none) :
      Blames g output expected (.missingBody id)
  | missingArgument {id p : NodeId} {n : Node} {index : Nat} (hn : g.node? id = some n)
      (hc : n.isComposite) (ha : n.arguments[index]? = some (p, none)) :
      Blames g output expected (.missingArgument id index)
  | unresolved {id : NodeId} {index : Nat} {t : ValueType}
      (hn : g.node? id = some (.parameter index t)) (ht : t.isConcrete = false) :
      Blames g output expected (.unresolved id t)
  /-- The operand has been lowered in the scopes of the node, to a value of a shape that does not
  fit the operator. -/
  | unsupportedUnary {id a : NodeId} {op : UnaryOp} {code : List Instr}
      {scopes : List Compile.Scope} {x : Operand} (hn : g.node? id = some (.unary op (some a)))
      (hv : Compile.Visited g code output scopes id) (ha : Compile.Lowered g code scopes a x)
      (hs : op.resultType (.of x.shape) = .invalid) :
      Blames g output expected (.unsupportedUnary id op x.shape)
  | unsupportedBinary {id a b : NodeId} {op : BinaryOp} {code : List Instr}
      {scopes : List Compile.Scope} {x y : Operand}
      (hn : g.node? id = some (.binary op (some a) (some b)))
      (hv : Compile.Visited g code output scopes id) (ha : Compile.Lowered g code scopes a x)
      (hb : Compile.Lowered g code scopes b y)
      (hs : op.resultType (.of x.shape) (.of y.shape) = .invalid) :
      Blames g output expected (.unsupportedBinary id op x.shape y.shape)
  | unsupportedSlot {id a : NodeId} {slots : List Edge} {slot : Nat} {code : List Instr}
      {scopes : List Compile.Scope} {x : Operand} (hn : g.node? id = some (.construct slots))
      (hslot : slots[slot]? = some (some a)) (hv : Compile.Visited g code output scopes id)
      (ha : Compile.Lowered g code scopes a x) (hx : x.shape ≠ .float) :
      Blames g output expected (.unsupportedSlot id slot x.shape)
  /-- Another parameter of the position has been lowered before, with another shape. -/
  | parameterConflict {id : NodeId} {index : Nat} {former found : Shape} {e : Compile.Event}
      (hn : g.node? id = some (.parameter index (.of found))) (hne : former ≠ found)
      (he : e ∈ g.history output) (hreach : ReflTransGen g.Reads output e.node)
      (hformer : g.node? e.node = some (.parameter index (.of former))) :
      Blames g output expected (.parameterConflict id index former found)
  | typeMismatch {t : ValueType} {p : Program} (ht : expected = some t)
      (hp : g.compile output none = .ok p) (hne : .of p.result ≠ t) :
      Blames g output expected (.typeMismatch output t p.result)
  | cycle {id : NodeId} (h : TransGen g.Reads id id) : Blames g output expected (.cycle id)

variable {g : Graph} {output : NodeId} {expected : Option ValueType} {source : Edge}
  {e : CompileError}

/-- A fault of a visited node is what the error says. -/
theorem blames_of_fault (hw : g.WellFormed) (hn : g.node? output = some (.output source))
    {code : List Instr} {scopes : List Compile.Scope}
    (hv : Compile.Visited g code output scopes e.node) (hf : Compile.Fault g code output scopes e)
    (hclash : Compile.Clashes g output e (g.history output)) : Blames g output expected e := by
  cases hf with
  | unknownNode hdead =>
      have hl := hw.contains_of_reaches (contains_of_node? hn) hv.reaches
      exact absurd hl (not_contains_of_node? hdead)
  | missingInput hid hc hp => exact .missingInput hid hc hp
  | missingSlot hid hs => exact .missingSlot hid hs
  | missingBody hid hc hb =>
      obtain ⟨body, hbody⟩ := Node.exists_body?_of_isComposite hc
      rw [hbody] at hb
      exact .missingBody hid (hbody.trans (congrArg some hb))
  | @missingArgument id p n index hid ha =>
      refine .missingArgument hid ?_ ha
      cases n with
      | compositeUnary | compositeBinary => rfl
      | _ => cases ha
  | unsupportedUnary hid ha hs => exact .unsupportedUnary hid hv ha (UnaryOp.shapeOf_eq_invalid hs)
  | unsupportedBinary hid ha hb hs =>
      exact .unsupportedBinary hid hv ha hb (BinaryOp.shapeOf_eq_invalid hs)
  | unsupportedSlot hid hslot ha hx => exact .unsupportedSlot hid hslot hv ha hx
  | @unsupportedArity _ slots hid hdim =>
      obtain ⟨f, hf, hnode⟩ := node?_eq_some_iff.1 hid
      have harity : 2 ≤ slots.length ∧ slots.length ≤ 4 := by
        have hok := hw.arity hf
        rwa [hnode] at hok
      exact absurd hdim (Shape.ofDim?_ne_none harity.1 harity.2)
  | @unresolved _ _ t hid _ ht =>
      refine .unresolved hid ?_
      cases t with
      | of s => exact absurd rfl (ht s)
      | _ => rfl
  | parameterConflict hid _ _ hne =>
      obtain ⟨e', he', hreach, hformer, -⟩ := hclash _ _ _ _ rfl
      exact .parameterConflict hid hne he' hreach hformer
  | cycle h => exact .cycle h

/-- Where no type is expected, an error blames a node that the output leads to. -/
theorem blames_of_compile_none (hw : g.WellFormed) (hn : g.node? output = some (.output source))
    (he : g.compile output none = .error e) :
    ReflTransGen g.Reads output e.node ∧ Blames g output expected e := by
  rcases Compile.blamed_of_compile_expecting hn he with ⟨code, scopes, hv, hf⟩ | ⟨t, shape, ht, -⟩
  · exact ⟨hv.reaches, blames_of_fault hw hn hv hf (Compile.clashes_of_compile he)⟩
  · cases ht

/-- Compiling fails for a reason.  The error names the output or a node that the output leads to,
and what it says of this node is so. -/
theorem compile_blames (actions : List Action)
    (he : (after actions).compile output expected = .error e) :
    ReflTransGen (after actions).Reads output e.node ∧
      Blames (after actions) output expected e := by
  have hw := wellFormed_after actions
  cases hn : (after actions).node? output with
  | none =>
      rw [Compile.compile_eq, Compile.compileBy, hn] at he
      cases he
      exact ⟨.refl, .unknownNode hn⟩
  | some n =>
      cases n with
      | output source =>
          cases expected with
          | none => exact blames_of_compile_none hw hn he
          | some t =>
              rw [Compile.compile_expecting hn] at he
              cases hp : (after actions).compile output none with
              | error e' =>
                  rw [hp] at he
                  cases he
                  exact blames_of_compile_none hw hn hp
              | ok p =>
                  rw [hp] at he
                  simp only [Except.bind] at he
                  split at he
                  next hne =>
                    cases he
                    exact ⟨.refl, .typeMismatch rfl hp hne⟩
                  next => cases he
      | _ =>
          rw [Compile.compile_eq, Compile.compileBy, hn] at he
          cases he
          exact ⟨.refl, .notAnOutput hn fun _ h ↦ by cases h⟩

/-- The vector parameter is blamed for the scalar one, which has been lowered before it. -/
theorem compile_blames_clashingParameters :
    let g := after clashingParameters
    g.compile ⟨7⟩ none = .error (.parameterConflict ⟨5⟩ 0 .float .float2) ∧
      ReflTransGen g.Reads ⟨7⟩ ⟨5⟩ ∧
      ∃ e ∈ g.history ⟨7⟩, g.node? e.node = some (.parameter 0 (.of .float)) := by
  intro g
  have he : g.compile ⟨7⟩ none = .error (.parameterConflict ⟨5⟩ 0 .float .float2) := by
    decide +kernel
  obtain ⟨hreach, hblames⟩ := compile_blames clashingParameters he
  cases hblames with
  | parameterConflict _ _ hmem _ hformer => exact ⟨he, hreach, _, hmem, hformer⟩

end Graph

end FieldGraph
