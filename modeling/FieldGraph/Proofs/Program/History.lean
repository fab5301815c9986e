import FieldGraph.Proofs.Program.Emissions
import FieldGraph.Proofs.Program.Recording

/-!
# What a history says

The code is what the history says has been emitted, in order.  A node is written down once for each
expansion at most, and once for all of them if it reads no placeholder; whatever is shared has been
written down, and so has whatever is declared.  Writing down one more node keeps all of this, and so
does keeping its value.
-/

namespace FieldGraph.Compile

open Relation

/-! ## Ends of a computation on record -/

/-- What holds of the result, the state and the history that a computation ends with, and of its
error and the history that is left then. -/
structure Ends {α : Type} (x : Recorded α) (s : State) (h : History)
    (ok : α → State → History → Prop) (err : CompileError → History → Prop) : Prop where
  ok : ∀ a s' h', x s h = (.ok (a, s'), h') → ok a s' h'
  err : ∀ e h', x s h = (.error e, h') → err e h'

namespace Ends

variable {α β : Type} {s : State} {h : History} {ok : α → State → History → Prop}
  {err : CompileError → History → Prop}

theorem pure {a : α} (ha : ok a s h) : Ends (Pure.pure a) s h ok err where
  ok b s' h' heq := by
    cases heq
    exact ha
  err e h' heq := by cases heq

theorem throw {e : CompileError} (he : err e h) :
    Ends (MonadExcept.throw e : Recorded α) s h ok err where
  ok a s' h' heq := by cases heq
  err e' h' heq := by
    cases heq
    exact he

theorem mono {ok' : α → State → History → Prop} {err' : CompileError → History → Prop}
    {x : Recorded α} (hx : Ends x s h ok err) (hok : ∀ a s' h', ok a s' h' → ok' a s' h')
    (herr : ∀ e h', err e h' → err' e h') : Ends x s h ok' err' :=
  ⟨fun a s' h' heq ↦ hok a s' h' (hx.ok a s' h' heq), fun e h' heq ↦ herr e h' (hx.err e h' heq)⟩

/-- What follows a computation may rely on what holds of its result. -/
theorem seq {ok' : β → State → History → Prop} {x : Recorded β} {f : β → Recorded α}
    (hx : Ends x s h ok' err) (hf : ∀ b s' h', ok' b s' h' → Ends (f b) s' h' ok err) :
    Ends (x >>= f) s h ok err := by
  have hbind := recorded_bind x f s h
  cases hr : x s h with
  | mk r h' =>
      rw [hr] at hbind
      cases r with
      | error e =>
          constructor
          · intro a s' h'' heq
            cases hbind.symm.trans heq
          · intro e' h'' heq
            cases hbind.symm.trans heq
            exact hx.err e h' hr
      | ok p =>
          have hp := hf p.1 p.2 h' (hx.ok p.1 p.2 h' hr)
          exact ⟨fun a s' h'' heq ↦ hp.ok a s' h'' (hbind.symm.trans heq),
            fun e h'' heq ↦ hp.err e h'' (hbind.symm.trans heq)⟩

theorem silent {x : Lower α} (hx : Outcome x s (fun a s' ↦ ok a s' h) (fun e ↦ err e h)) :
    Ends (.silent x) s h ok err where
  ok a s' h' heq := by
    obtain ⟨hr, rfl⟩ := Prod.mk.inj heq
    exact hx.ok a s' hr
  err e h' heq := by
    obtain ⟨hr, rfl⟩ := Prod.mk.inj heq
    exact hx.err e hr

theorem emitting {scopes : List Scope} {id : NodeId} {x : Lower α}
    (hx : Outcome x s
      (fun a s' ↦ ok a s' (h ++ [⟨scopes, id, s'.instrs.drop s.instrs.length⟩]))
      fun e ↦ err e h) :
    Ends (.emitting scopes id x) s h ok err := by
  unfold Recorded.emitting
  cases hr : x s with
  | error e =>
      refine ⟨fun a s' h' heq ↦ ?_, fun e' h' heq ↦ ?_⟩
      · rw [hr] at heq
        cases heq
      · rw [hr] at heq
        cases heq
        exact hx.err e hr
  | ok p =>
      refine ⟨fun a s' h' heq ↦ ?_, fun e' h' heq ↦ ?_⟩
      · rw [hr] at heq
        cases heq
        exact hx.ok p.1 p.2 hr
      · rw [hr] at heq
        cases heq

theorem note {e : Event} {x : Recorded α} (hx : Ends x s (h ++ [e]) ok err) :
    Ends (do Recorded.note e; x) s h ok err := by
  have hnote : (do Recorded.note e; x) s h = x s (h ++ [e]) := recorded_bind ..
  exact ⟨fun a s' h' heq ↦ hx.ok a s' h' (hnote.symm.trans heq),
    fun e' h' heq ↦ hx.err e' h' (hnote.symm.trans heq)⟩

/-- What is known of a computation without its history holds of it on record. -/
theorem of_erases {x : Recorded α} {y : Lower α} {ok' : α → State → Prop}
    (hx : Ends x s h ok err) (he : Erases x y) (hy : Outcome y s ok' fun _ ↦ True) :
    Ends x s h (fun a s' h' ↦ ok a s' h' ∧ ok' a s') err where
  ok a s' h' heq := by
    refine ⟨hx.ok a s' h' heq, hy.ok a s' ?_⟩
    rw [← he s h, heq]
  err := hx.err

end Ends

/-- What holds of a computation for two reasons. -/
theorem Outcome.and {α : Type} {x : Lower α} {s : State} {ok ok' : α → State → Prop}
    {err err' : CompileError → Prop} (hx : Outcome x s ok err) (hx' : Outcome x s ok' err') :
    Outcome x s (fun a s' ↦ ok a s' ∧ ok' a s') fun e ↦ err e ∧ err' e :=
  ⟨fun a s' heq ↦ ⟨hx.ok a s' heq, hx'.ok a s' heq⟩, fun e heq ↦ ⟨hx.err e heq, hx'.err e heq⟩⟩

/-! ## What a history says -/

variable {g : Graph} {output : NodeId} {scopes : List Scope} {id : NodeId} {s s' : State}
  {h h' : History} {waiting : List NodeId}

/-- What is written down of a node is so. -/
structure Event.Made (g : Graph) (output : NodeId) (code : List Instr) (e : Event) : Prop where
  visited : Visited g code output e.scopes e.node
  emits : ∃ n, g.node? e.node = some n ∧ Emits g e.scopes e.node n e.emitted

/-- A stack of composites is empty, or the innermost one has been written down in the others. -/
def Expanded (g : Graph) (h : History) (st : List NodeId) : Prop :=
  ∀ c rest, st = c :: rest → ∃ e ∈ h, e.node = c ∧ e.stack = rest ∧
    ∃ n, g.node? c = some n ∧ n.isComposite

/-- What the node of an event reads has been written down. -/
def Complete (g : Graph) (h : History) (e : Event) : Prop :=
  ∀ a, g.Reads e.node a → g.contains a → ∃ e' ∈ h, e'.node = a

/-- A history agrees with the state.  Some nodes that have been written down still wait for their
value. -/
structure Log (g : Graph) (output : NodeId) (waiting : List NodeId) (s : State) (h : History) :
    Prop where
  code : s.instrs = h.flatMap Event.emitted
  made : ∀ e ∈ h, e.Made g output s.instrs
  expanded : ∀ e ∈ h, Expanded g h e.stack
  /-- A node is written down again in another scope only, and only if it is not closed. -/
  apart : h.Pairwise fun e e' ↦ e.node = e'.node → ¬ isClosed g e.node ∧ e.stack ≠ e'.stack
  shared : ∀ id, (s.shared.get? id).isSome → ∃ e ∈ h, e.node = id
  closed : ∀ e ∈ h, isClosed g e.node → (s.shared.get? e.node).isSome ∨ e.node ∈ waiting
  params : ∀ index shape, s.params[index]?.join = some shape → ∃ e ∈ h,
    g.node? e.node = some (.parameter index (.of shape)) ∧ bound? e.scopes e.node = none
  loaded : Loaded s

theorem log_init (g : Graph) (output : NodeId) : Log g output [] State.init [] where
  code := rfl
  made _ he := by cases he
  expanded _ he := by cases he
  apart := .nil
  shared _ he := by cases he
  closed _ he := by cases he
  params _ _ he := by cases he
  loaded := ⟨fun _ hi ↦ (by cases hi), fun _ ↦ Nat.zero_le 1⟩

theorem Event.Made.mono {code code' : List Instr} {e : Event} (he : e.Made g output code)
    (hp : code <+: code') : e.Made g output code' :=
  ⟨he.visited.mono hp, he.emits⟩

theorem Expanded.mono {st : List NodeId} (hst : Expanded g h st) (hle : ∀ e ∈ h, e ∈ h') :
    Expanded g h' st := fun c rest heq ↦ by
  obtain ⟨e, he, hnode⟩ := hst c rest heq
  exact ⟨e, hle e he, hnode⟩

theorem Complete.mono {e : Event} (he : Complete g h e) (hle : ∀ e ∈ h, e ∈ h') :
    Complete g h' e := fun a ha hl ↦ by
  obtain ⟨e', he', hnode⟩ := he a ha hl
  exact ⟨e', hle e' he', hnode⟩

/-- A node may be written down in some scopes: it has not been in these, and nowhere if it is
closed. -/
def New (g : Graph) (h : History) (st : List NodeId) (id : NodeId) : Prop :=
  ∀ e ∈ h, e.node = id → ¬ isClosed g id ∧ e.stack ≠ st

/-- Writing down one more node, with the instructions that have been emitted for it. -/
theorem Log.snoc (hl : Log g output waiting s h) (hx : Expanded g h (stack scopes))
    (hnew : New g h (stack scopes) id) {emitted : List Instr}
    (hcode : s'.instrs = s.instrs ++ emitted)
    (hmade : Event.Made g output s'.instrs ⟨scopes, id, emitted⟩)
    (hshared : s'.shared = s.shared)
    (hparams : ∀ index shape, s'.params[index]?.join = some shape →
      s.params[index]?.join = some shape ∨
        (g.node? id = some (.parameter index (.of shape)) ∧ bound? scopes id = none))
    (hloaded : Loaded s') :
    Log g output (id :: waiting) s' (h ++ [⟨scopes, id, emitted⟩]) := by
  have hle : ∀ e ∈ h, e ∈ h ++ [⟨scopes, id, emitted⟩] := fun e he ↦ List.mem_append_left _ he
  have hlast : ⟨scopes, id, emitted⟩ ∈ h ++ [⟨scopes, id, emitted⟩] :=
    List.mem_append_right _ List.mem_cons_self
  have hp : s.instrs <+: s'.instrs := ⟨emitted, hcode.symm⟩
  constructor
  case code => rw [hcode, hl.code, List.flatMap_append, List.flatMap_singleton]
  case made =>
    intro e he
    rcases List.mem_append.1 he with he | he
    · exact (hl.made e he).mono hp
    · rw [List.mem_singleton.1 he]
      exact hmade
  case expanded =>
    intro e he
    rcases List.mem_append.1 he with he | he
    · exact (hl.expanded e he).mono hle
    · rw [List.mem_singleton.1 he]
      exact hx.mono hle
  case apart =>
    refine List.pairwise_append.2 ⟨hl.apart, List.pairwise_singleton .., fun e he e' he' heq ↦ ?_⟩
    rw [List.mem_singleton.1 he'] at heq ⊢
    obtain ⟨hc, hst⟩ := hnew e he heq
    exact ⟨heq ▸ hc, hst⟩
  case shared =>
    intro j hj
    obtain ⟨e, he, hnode⟩ := hl.shared j (hshared ▸ hj)
    exact ⟨e, hle e he, hnode⟩
  case closed =>
    intro e he hc
    rw [hshared]
    rcases List.mem_append.1 he with he | he
    · exact (hl.closed e he hc).imp_right (List.mem_cons_of_mem id)
    · rw [List.mem_singleton.1 he]
      exact .inr List.mem_cons_self
  case params =>
    intro index shape hs
    rcases hparams index shape hs with hs | hs
    · obtain ⟨e, he, hnode⟩ := hl.params index shape hs
      exact ⟨e, hle e he, hnode⟩
    · exact ⟨_, hlast, hs⟩
  case loaded => exact hloaded

/-- Keeping the value of a node that has been written down. -/
theorem Log.keep (hl : Log g output (id :: waiting) s h) (hid : ∃ e ∈ h, e.node = id)
    (own : NodeMap Operand) (v : Operand) {err : CompileError → Prop} :
    Outcome (keep g scopes own id v) s (fun own' s' ↦ Log g output waiting s' h ∧
      ∀ j, (own'.get? j).isSome → (own.get? j).isSome ∨ j = id) err := by
  unfold Compile.keep
  by_cases hshared : isShared g scopes id
  · refine ⟨fun own' s' heq ↦ ?_, fun e heq ↦ by rw [if_pos hshared] at heq; cases heq⟩
    rw [if_pos hshared] at heq
    cases heq
    refine ⟨⟨hl.code, hl.made, hl.expanded, hl.apart, fun j hj ↦ ?_, fun e he hc ↦ ?_, hl.params,
      ⟨hl.loaded.found, hl.loaded.once⟩⟩, fun j hj ↦ .inl hj⟩
    · rw [NodeMap.get?_insert] at hj
      split at hj
      next heq => exact heq ▸ hid
      next => exact hl.shared j hj
    · rw [NodeMap.get?_insert]
      split
      · exact .inl rfl
      next hne =>
        refine (hl.closed e he hc).imp_right fun hmem ↦ ?_
        exact (List.mem_cons.1 hmem).resolve_left (Ne.symm hne)
  · refine ⟨fun own' s' heq ↦ ?_, fun e heq ↦ by rw [if_neg hshared] at heq; cases heq⟩
    rw [if_neg hshared] at heq
    cases heq
    refine ⟨⟨hl.code, hl.made, hl.expanded, hl.apart, hl.shared, fun e he hc ↦ ?_, hl.params,
      hl.loaded⟩, fun j hj ↦ ?_⟩
    · refine (hl.closed e he hc).imp_right fun hmem ↦ (List.mem_cons.1 hmem).resolve_left ?_
      -- a closed node would have been shared
      intro heq
      rw [isShared, ← heq, hc, Bool.or_true] at hshared
      exact hshared rfl
    · rw [NodeMap.get?_insert] at hj
      split at hj
      next heq => exact .inr heq.symm
      next => exact .inl hj

/-! ## Errors -/

/-- A conflict of parameters is one with a parameter that has been written down. -/
def Clashes (g : Graph) (output : NodeId) (e : CompileError) (h : History) : Prop :=
  ∀ id index expected found, e = .parameterConflict id index expected found →
    ∃ e' ∈ h, ReflTransGen g.Reads output e'.node ∧
      g.node? e'.node = some (.parameter index (.of expected)) ∧ bound? e'.scopes e'.node = none

theorem Log.clashes (hl : Log g output waiting s h) {e : CompileError} (he : Conflicts s e) :
    Clashes g output e h := fun id index expected found heq ↦ by
  obtain ⟨e', he', hn⟩ := hl.params index expected (he id index expected found heq)
  exact ⟨e', he', (hl.made e' he').visited.reaches, hn⟩

end FieldGraph.Compile
