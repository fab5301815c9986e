import FieldGraph.Proofs.Program.Judgement
import FieldGraph.Proofs.Program.Translation

/-!
# What lowering does

Lowering a node under some scopes ends in one of two ways.  Either it goes on with the code, and the
operand it returns stands for the node; or it ends with an error that names a fault of a node it was
to lower.  The state keeps the values of nodes lowered before, each of which stands for its node;
every instruction belongs to a lowered node and is typed in the code before it.
-/

namespace FieldGraph

namespace Compile

open Relation

/-! ## Ends of a computation -/

/-- What holds of the result and the state that a computation ends with, and of its error. -/
structure Outcome {α : Type} (x : Lower α) (s : State) (ok : α → State → Prop)
    (err : CompileError → Prop) : Prop where
  ok : ∀ a s', x s = .ok (a, s') → ok a s'
  err : ∀ e, x s = .error e → err e

namespace Outcome

variable {α β : Type} {s : State} {ok : α → State → Prop} {err : CompileError → Prop}

theorem pure {a : α} (h : ok a s) : Outcome (Pure.pure a) s ok err where
  ok b s' heq := by
    cases heq
    exact h
  err e heq := by cases heq

theorem throw {e : CompileError} (h : err e) :
    Outcome (MonadExcept.throw e : Lower α) s ok err where
  ok a s' heq := by cases heq
  err e' heq := by
    cases heq
    exact h

theorem bind {x : Lower β} {f : β → Lower α}
    (h : Outcome x s (fun b s' ↦ Outcome (f b) s' ok err) err) : Outcome (x >>= f) s ok err := by
  have hbind : (x >>= f) s = (x s >>= fun p ↦ f p.1 p.2) := rfl
  cases hx : x s with
  | error e =>
      rw [hx] at hbind
      constructor
      · intro a s' heq
        rw [hbind] at heq
        cases heq
      · intro e' heq
        rw [hbind] at heq
        cases heq
        exact h.err e hx
  | ok p =>
      rw [hx] at hbind
      have hf := h.ok p.1 p.2 hx
      exact ⟨fun a s' heq ↦ hf.ok a s' (hbind.symm.trans heq),
        fun e heq ↦ hf.err e (hbind.symm.trans heq)⟩

theorem get {ok : State → State → Prop} (h : ok s s) : Outcome MonadState.get s ok err where
  ok a s' heq := by
    cases heq
    exact h
  err e heq := by cases heq

theorem set {s₁ : State} {ok : PUnit → State → Prop} (h : ok ⟨⟩ s₁) :
    Outcome (MonadStateOf.set s₁ : Lower PUnit) s ok err where
  ok a s' heq := by
    cases heq
    exact h
  err e heq := by cases heq

theorem modify {f : State → State} {ok : PUnit → State → Prop} (h : ok ⟨⟩ (f s)) :
    Outcome (modifyGet fun s ↦ (⟨⟩, f s) : Lower PUnit) s ok err where
  ok a s' heq := by
    cases heq
    exact h
  err e heq := by cases heq

theorem mono {ok' : α → State → Prop} {err' : CompileError → Prop} {x : Lower α}
    (h : Outcome x s ok err) (hok : ∀ a s', ok a s' → ok' a s') (herr : ∀ e, err e → err' e) :
    Outcome x s ok' err' :=
  ⟨fun a s' heq ↦ hok a s' (h.ok a s' heq), fun e heq ↦ herr e (h.err e heq)⟩

theorem imp {ok' : α → State → Prop} {x : Lower α} (h : Outcome x s ok err)
    (hok : ∀ a s', ok a s' → ok' a s') : Outcome x s ok' err := h.mono hok fun _ he ↦ he

/-- What follows a computation may rely on what holds of its result. -/
theorem seq {ok' : β → State → Prop} {x : Lower β} {f : β → Lower α} (h : Outcome x s ok' err)
    (hf : ∀ b s', ok' b s' → Outcome (f b) s' ok err) : Outcome (x >>= f) s ok err :=
  .bind (h.imp hf)

end Outcome

/-! ## Visited nodes -/

/-- The nodes that lowering an output comes to, each with the scopes it is lowered in: an operand in
the scopes of the node that reads it, a body in a scope more, which binds the arguments. -/
inductive Visited (g : Graph) (code : List Instr) (output : NodeId) : List Scope → NodeId → Prop
  | output : Visited g code output [] output
  | operand {scopes : List Scope} {id a : NodeId} {n : Node}
      (hv : Visited g code output scopes id) (hn : g.node? id = some n) (ha : a ∈ n.operands) :
      Visited g code output scopes a
  | body {scopes : List Scope} {id body : NodeId} {n : Node} {bindings : List Binding}
      (hv : Visited g code output scopes id) (hn : g.node? id = some n)
      (hbody : n.body?.join = some body) (hargs : n.arguments = bindings.map Binding.argument)
      (ha : ∀ b ∈ bindings, Lowered g code scopes b.source b.value) :
      Visited g code output (⟨id, bindings.map Binding.bound⟩ :: scopes) body

/-- A visited parameter that no scope binds asks for an argument of its shape. -/
def Demanded (g : Graph) (code : List Instr) (output : NodeId) (index : Nat) (shape : Shape) :
    Prop :=
  ∃ scopes id, Visited g code output scopes id ∧
    g.node? id = some (.parameter index (.of shape)) ∧ bound? scopes id = none

section Visited

variable {g : Graph} {code code' : List Instr} {output : NodeId} {scopes : List Scope} {id : NodeId}

theorem Visited.opened (h : Visited g code output scopes id) : Opened g code scopes := by
  induction h with
  | output => exact .nil
  | operand _ _ _ ih => exact ih
  | body _ hn _ hargs ha ih => exact .cons ih hn hargs ha

theorem Visited.mono (h : Visited g code output scopes id) (hp : code <+: code') :
    Visited g code' output scopes id := by
  induction h with
  | output => exact .output
  | operand _ hn ha ih => exact .operand ih hn ha
  | body _ hn hbody hargs ha ih => exact .body ih hn hbody hargs fun b hb ↦ (ha b hb).mono hp

theorem Demanded.mono {index : Nat} {shape : Shape} (h : Demanded g code output index shape)
    (hp : code <+: code') : Demanded g code' output index shape := by
  obtain ⟨scopes, id, hv, hn, hb⟩ := h
  exact ⟨scopes, id, hv.mono hp, hn, hb⟩

/-- The output leads to every node that is visited. -/
theorem Visited.reaches (h : Visited g code output scopes id) :
    ReflTransGen g.Reads output id := by
  have reads {a b : NodeId} {n : Node} (hn : g.node? a = some n) (hb : b ∈ n.edges) :
      g.Reads a b := by rwa [Graph.Reads, Graph.edges_of_node? hn]
  induction h with
  | output => exact .refl
  | operand _ hn ha ih => exact ih.tail (reads hn (Node.mem_edges_of_mem_operands ha))
  | body _ hn hbody _ _ ih =>
      exact ih.tail (reads hn (Node.mem_edges_of_port? (Option.join_eq_some_iff.1 hbody)))

/-- Whatever a visited node leads to through operands is visited in the same scopes. -/
theorem Visited.of_leads {a : NodeId} (h : Visited g code output scopes id)
    (hr : ReflTransGen (g.Leads Node.operands) id a) : Visited g code output scopes a := by
  induction hr with
  | refl => exact h
  | @tail b c _ hl ih =>
      cases hn : g.node? b with
      | none => simp [Graph.Leads, Graph.ahead, hn] at hl
      | some n =>
          rw [Graph.Leads, Graph.ahead_of_node? hn] at hl
          exact .operand ih hn hl

end Visited

/-! ## Faults -/

/-- What is wrong with the node that an error names. -/
inductive Fault (g : Graph) (code : List Instr) (output : NodeId) (scopes : List Scope) :
    CompileError → Prop
  | unknownNode {id : NodeId} (hn : g.node? id = none) : Fault g code output scopes (.unknownNode id)
  | missingInput {id : NodeId} {n : Node} {port : Port} (hn : g.node? id = some n)
      (hc : n.isComposite = false) (hp : n.port? port = some none) :
      Fault g code output scopes (.missingInput id port)
  | missingSlot {id : NodeId} {slots : List Edge} {slot : Nat}
      (hn : g.node? id = some (.construct slots)) (hs : slots[slot]? = some none) :
      Fault g code output scopes (.missingSlot id slot)
  | missingBody {id : NodeId} {n : Node} (hn : g.node? id = some n) (hc : n.isComposite)
      (hb : n.body?.join = none) : Fault g code output scopes (.missingBody id)
  | missingArgument {id p : NodeId} {n : Node} {index : Nat} (hn : g.node? id = some n)
      (ha : n.arguments[index]? = some (p, none)) : Fault g code output scopes (.missingArgument id index)
  | unsupportedUnary {id a : NodeId} {op : UnaryOp} {x : Operand}
      (hn : g.node? id = some (.unary op (some a))) (ha : Lowered g code scopes a x)
      (hs : ∀ s, op.shapeOf x.shape ≠ .of s) :
      Fault g code output scopes (.unsupportedUnary id op x.shape)
  | unsupportedBinary {id a b : NodeId} {op : BinaryOp} {x y : Operand}
      (hn : g.node? id = some (.binary op (some a) (some b))) (ha : Lowered g code scopes a x)
      (hb : Lowered g code scopes b y) (hs : ∀ s, op.shapeOf x.shape y.shape ≠ .of s) :
      Fault g code output scopes (.unsupportedBinary id op x.shape y.shape)
  | unsupportedSlot {id a : NodeId} {slots : List Edge} {slot : Nat} {x : Operand}
      (hn : g.node? id = some (.construct slots)) (hs : slots[slot]? = some (some a))
      (ha : Lowered g code scopes a x) (hx : x.shape ≠ .float) :
      Fault g code output scopes (.unsupportedSlot id slot x.shape)
  | unsupportedArity {id : NodeId} {slots : List Edge}
      (hn : g.node? id = some (.construct slots)) (hs : Shape.ofDim? slots.length = none) :
      Fault g code output scopes (.unsupportedArity id slots.length)
  | unresolved {id : NodeId} {index : Nat} {t : ValueType}
      (hn : g.node? id = some (.parameter index t)) (hb : bound? scopes id = none)
      (ht : ∀ s, t ≠ .of s) : Fault g code output scopes (.unresolved id t)
  | parameterConflict {id : NodeId} {index : Nat} {expected found : Shape}
      (hn : g.node? id = some (.parameter index (.of found))) (hb : bound? scopes id = none)
      (hd : Demanded g code output index expected) (hne : expected ≠ found) :
      Fault g code output scopes (.parameterConflict id index expected found)
  | cycle {id : NodeId} (h : TransGen g.Reads id id) : Fault g code output scopes (.cycle id)

/-- An error names a fault of a node that lowering the output comes to. -/
def Blamed (g : Graph) (output : NodeId) (e : CompileError) : Prop :=
  ∃ code scopes, Visited g code output scopes e.node ∧ Fault g code output scopes e

/-! ## The state -/

def State.instrs (s : State) : List Instr := s.code.toList

/-- What holds of the state between two nodes. -/
structure Sound (g : Graph) (output : NodeId) (s : State) : Prop where
  shared : ∀ id v, s.shared.get? id = some v → Lowered g s.instrs [] id v
  loads : ∀ index v, s.loads.lookup index = some v →
    (∃ source, Writes s.instrs v (.param index) source) ∧ s.params[index]?.join = some v.shape
  params : ∀ i ∈ s.instrs, ∀ index, i.operation = .param index →
    s.params[index]?.join = some i.shape
  demanded : ∀ index shape, s.params[index]?.join = some shape →
    Demanded g s.instrs output index shape
  /-- The parameters end with one that is declared. -/
  last : s.params.getLast? ≠ some none
  /-- Every instruction was emitted for a node, and has the shape of its value. -/
  owned : ∀ i ∈ s.instrs, ∃ scopes v, Opened g s.instrs scopes ∧
    Lowered g s.instrs scopes i.source v ∧ v.shape = i.shape
  typed : WellTyped s.instrs

/-- Every instruction reads registers written before. -/
theorem Sound.reads_lt {g : Graph} {output : NodeId} {s : State} (h : Sound g output s) (k : Nat)
    (i : Instr) (hi : s.instrs[k]? = some i) : ∀ r ∈ i.operation.reads, r.index < k :=
  h.typed.reads_lt k i hi

/-- The code goes on, and what was shared still is. -/
structure Extends (s s' : State) : Prop where
  code : s.instrs <+: s'.instrs
  shared : ∀ id, (s.shared.get? id).isSome → (s'.shared.get? id).isSome

theorem Extends.refl (s : State) : Extends s s := ⟨List.prefix_refl _, fun _ h ↦ h⟩

theorem Extends.trans {s s' s'' : State} (h : Extends s s') (h' : Extends s' s'') :
    Extends s s'' := ⟨h.code.trans h'.code, fun id hs ↦ h'.shared id (h.shared id hs)⟩

variable {g : Graph} {output : NodeId} {code : List Instr} {scopes : List Scope} {id : NodeId}
  {v : Operand} {s s' : State}

theorem sound_init (g : Graph) (output : NodeId) : Sound g output State.init where
  shared _ _ h := by cases h
  loads _ _ h := by cases h
  params _ h := by cases h
  demanded _ _ h := by cases h
  last h := by cases h
  owned _ h := by cases h
  typed := .nil

/-- The operands that scopes bind are registers of the code, which leaves their shapes there. -/
theorem Lowered.shapeAt?_of_bound (h : Lowered g code scopes id v)
    (hb : ∀ j w, bound? scopes j = some w → shapeAt? code w.reg = some w.shape) :
    shapeAt? code v.reg = some v.shape := by
  have written {w : Operand} {operation : Operation} {source : NodeId}
      (hi : Writes code w operation source) : shapeAt? code w.reg = some w.shape :=
    shapeAt?_of_getElem? hi
  induction h with
  | constant _ _ hi | load _ _ hi | unary _ _ _ hi | binary _ _ _ _ _ _ hi
  | construct _ _ _ hi => exact written hi
  | bound _ h => exact hb _ _ h
  | output _ _ ih => exact ih hb
  | composite _ _ _ _ _ iha ihv =>
      exact ihv fun _ _ ↦ bound?_cons_induction
        (motive := fun _ w ↦ shapeAt? code w.reg = some w.shape) (fun b hmem ↦ iha b hmem hb) hb

theorem Opened.shapeAt? (h : Opened g code scopes) {w : Operand}
    (hb : bound? scopes id = some w) : shapeAt? code w.reg = some w.shape := by
  induction h generalizing id w with
  | nil => cases hb
  | cons _ _ _ ha ih =>
      exact bound?_cons_induction (motive := fun _ w ↦ FieldGraph.shapeAt? code w.reg = some w.shape)
        (fun b hmem ↦ (ha b hmem).shapeAt?_of_bound fun _ _ ↦ ih) (fun _ _ ↦ ih) hb

theorem Lowered.shapeAt? (h : Lowered g code scopes id v) (ho : Opened g code scopes) :
    shapeAt? code v.reg = some v.shape := h.shapeAt?_of_bound fun _ _ ↦ ho.shapeAt?

theorem Lowered.index_lt (h : Lowered g code scopes id v) (ho : Opened g code scopes) :
    v.reg.index < code.length := index_lt_of_shapeAt? (h.shapeAt? ho)

/-- Instructions appended for one node. -/
theorem Sound.append (h : Sound g output s) {more : List Instr} (ho : Opened g s.instrs scopes)
    (hl : Lowered g (s.instrs ++ more) scopes id v)
    (hmore : ∀ i ∈ more, i.source = id ∧ i.shape = v.shape)
    (hparams : ∀ i ∈ more, ∀ index, i.operation = .param index →
      s.params[index]?.join = some i.shape)
    (ht : WellTyped (s.instrs ++ more))
    (hcode : s'.instrs = s.instrs ++ more) (hrest : s' = { s with code := s'.code }) :
    Sound g output s' ∧ Extends s s' := by
  have hshared : s'.shared = s.shared := by rw [hrest]
  have hparams' : s'.params = s.params := by rw [hrest]
  have hloads : s'.loads = s.loads := by rw [hrest]
  have hp : s.instrs <+: s'.instrs := ⟨more, hcode.symm⟩
  refine ⟨⟨?_, ?_, ?_, fun index shape hs ↦ ?_, hparams' ▸ h.last, ?_, hcode ▸ ht⟩, hp,
    fun id hid ↦ by rwa [hshared]⟩
  · intro j w hj
    exact (h.shared j w (hshared ▸ hj)).mono hp
  · intro index w hw
    obtain ⟨⟨source, hi⟩, hs⟩ := h.loads index w (hloads ▸ hw)
    exact ⟨⟨source, hi.mono hp⟩, hparams' ▸ hs⟩
  · intro i hi index hop
    rw [hcode, List.mem_append] at hi
    rw [hparams']
    rcases hi with hi | hi
    · exact h.params i hi index hop
    · exact hparams i hi index hop
  · exact (h.demanded index shape (hparams' ▸ hs)).mono hp
  · intro i hi
    rw [hcode, List.mem_append] at hi
    rcases hi with hi | hi
    · obtain ⟨scopes, w, ho, hl, hs⟩ := h.owned i hi
      exact ⟨scopes, w, ho.mono hp, hl.mono hp, hs⟩
    · obtain ⟨hsource, hshape⟩ := hmore i hi
      exact ⟨scopes, v, ho.mono hp, by rw [hsource, hcode]; exact hl, hshape.symm⟩

theorem declareParam_lookup (params : List (Option Shape)) (index k : Nat) (shape : Shape) :
    (declareParam params index shape)[k]?.join =
      if index = k then some shape else params[k]?.join := by
  rw [declareParam, List.getElem?_set]
  split
  next h =>
    subst h
    rw [if_pos (by simp; omega)]
    rfl
  · rw [List.getElem?_append]
    split
    · rfl
    next hk =>
      rw [List.getElem?_replicate, List.getElem?_eq_none (Nat.le_of_not_lt hk)]
      split <;> rfl

theorem declareParam_getLast? {params : List (Option Shape)} (h : params.getLast? ≠ some none)
    (index : Nat) (shape : Shape) : (declareParam params index shape).getLast? ≠ some none := by
  rw [List.getLast?_eq_getElem?] at h ⊢
  rw [declareParam, List.length_set, List.length_append, List.length_replicate,
    List.getElem?_set]
  split
  · split <;> simp
  next hne =>
    have hlen : params.length + (index + 1 - params.length) = params.length := by omega
    rw [hlen] at hne ⊢
    rwa [List.getElem?_append_left]
    omega

/-- Declaring a position that nothing has declared. -/
theorem Sound.declare (h : Sound g output s) {index : Nat} {shape : Shape}
    (hnew : s.params[index]?.join = none) (hd : Demanded g s.instrs output index shape) :
    Sound g output { s with params := declareParam s.params index shape } := by
  have keep {k : Nat} {sh : Shape} (hk : s.params[k]?.join = some sh) :
      (declareParam s.params index shape)[k]?.join = some sh := by
    rw [declareParam_lookup, if_neg, hk]
    rintro rfl
    rw [hnew] at hk
    cases hk
  refine ⟨h.shared, fun k v hv ↦ ⟨(h.loads k v hv).1, keep (h.loads k v hv).2⟩,
    fun i hi k hop ↦ keep (h.params i hi k hop), fun k sh hk ↦ ?_,
    declareParam_getLast? h.last index shape, h.owned, h.typed⟩
  rw [declareParam_lookup] at hk
  split at hk
  next heq =>
    cases hk
    exact heq ▸ hd
  · exact h.demanded k sh hk

/-- Keeping a loaded parameter for all parameters of its position. -/
theorem Sound.keepLoad (h : Sound g output s) {index : Nat} {source : NodeId}
    (hi : Writes s.instrs v (.param index) source) (hp : s.params[index]?.join = some v.shape) :
    Sound g output { s with loads := (index, v) :: s.loads } := by
  refine ⟨h.shared, fun k w hw ↦ ?_, h.params, h.demanded, h.last, h.owned, h.typed⟩
  rw [List.lookup_cons] at hw
  split at hw
  next hk =>
    cases hw
    rw [eq_of_beq hk]
    exact ⟨⟨source, hi⟩, hp⟩
  · exact h.loads k w hw

end Compile

end FieldGraph
