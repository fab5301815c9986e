import FieldGraph.Node

/-!
# Programs

A program is a straight line of instructions.  Instruction `i` writes register `i` and reads
registers written before, so that evaluation is one pass.  Every instruction knows the shape of its
result, and the node it was compiled for.
-/

namespace FieldGraph

/-- A register, named by the instruction that writes it. -/
structure Reg where
  index : Nat
deriving DecidableEq, Repr

def Reg.text (r : Reg) : String := "r" ++ toString r.index

inductive Operation where
  /-- Load a positional argument. -/
  | param (index : Nat)
  | const (v : Value)
  /-- Repeat a scalar in every component of the result. -/
  | splat (r : Reg)
  | unary (op : UnaryOp) (r : Reg)
  | binary (op : BinaryOp) (a b : Reg)
  /-- Assemble a vector from scalars. -/
  | construct (args : List Reg)
deriving DecidableEq

structure Instr where
  operation : Operation
  shape : Shape
  /-- The node the instruction was compiled for. -/
  source : NodeId
deriving DecidableEq

structure Program where
  instrs : List Instr
  output : Reg
  result : Shape
  /-- The shapes of the arguments by position; a position that is not read accepts any value. -/
  params : List (Option Shape)
deriving DecidableEq

/-- Why arguments are refused. -/
inductive CallError where
  | arity (expected found : Nat)
  | argumentType (index : Nat) (expected found : Shape)
deriving DecidableEq, Repr

def CallError.message : CallError → String
  | arity expected found =>
    "Expected " ++ toString expected ++ " arguments, got " ++ toString found
  | argumentType index expected found =>
    "Argument " ++ toString index ++ " should be " ++ expected.name ++ ", got " ++ found.name

namespace Program

def length (p : Program) : Nat := p.instrs.length

def isEmpty (p : Program) : Bool := p.instrs.isEmpty

/-- The number of instructions compiled for a node. -/
def instructionsFor (p : Program) (id : NodeId) : Nat := p.instrs.countP (·.source = id)

/-! ## Evaluation -/

/-- The contents of a register; registers not written yet read as zero. -/
def read (file : Array Value) (r : Reg) : Value := file.getD r.index default

/-- The contents of a register as a scalar; a vector reads as NaN. -/
def readScalar (file : Array Value) (r : Reg) : Scalar := (read file r).toFloat?.getD Scalar.nan

/-- The result of an instruction, given the registers written before. -/
def eval (args : List Value) (file : Array Value) (i : Instr) : Value :=
  match i.operation with
  | .param k => args[k]?.getD (Value.nan i.shape)
  | .const v => v
  | .splat r => Value.splat (readScalar file r) i.shape
  | .unary op r => op.apply (read file r)
  | .binary op a b => op.apply (read file a) (read file b)
  | .construct rs => (Value.ofList? (rs.map (readScalar file))).getD (Value.nan i.shape)

/-- Evaluate all instructions into a register file, whose former contents are dropped.  Arguments
are not checked; a missing one reads as NaN. -/
def runInto (p : Program) (file : Array Value) (args : List Value) : Array Value :=
  p.instrs.foldl (fun file i => file.push (eval args file i)) (file.shrink 0)

/-- The result left in a register file. -/
def resultIn (p : Program) (file : Array Value) : Value :=
  file[p.output.index]?.getD (Value.nan p.result)

/-- Evaluate without checking the arguments. -/
def run (p : Program) (args : List Value) : Value := p.resultIn (p.runInto #[] args)

/-- The first argument, counted from a position, that does not have the shape its parameter asks
for. -/
def mismatch? (index : Nat) : List (Option Shape) → List Value → Option CallError
  | some s :: params, v :: args =>
    if v.shape = s then mismatch? (index + 1) params args
    else some (.argumentType index s v.shape)
  | none :: params, _ :: args => mismatch? (index + 1) params args
  | _, _ => none

/-- Arguments are as many as the parameters, and of their shapes. -/
def checkArgs (p : Program) (args : List Value) : Except CallError Unit :=
  if args.length ≠ p.params.length then .error (.arity p.params.length args.length)
  else
    match mismatch? 0 p.params args with
    | some e => .error e
    | none => .ok ()

/-- Check the arguments and evaluate. -/
def call (p : Program) (args : List Value) : Except CallError Value := do
  p.checkArgs args
  return p.run args

end Program

end FieldGraph
