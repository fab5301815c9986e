import FieldGraph.Program.Basic

/-!
# Listings

One line for each instruction, which names its register, its operation, its shape and its node, and
a last line for the result.
-/

namespace FieldGraph

def Operation.text : Operation → String
  | param k => "param " ++ toString k
  | const v => "const " ++ v.text
  | splat r => "splat " ++ r.text
  | unary op r => op.name ++ " " ++ r.text
  | binary op a b => op.name ++ " " ++ a.text ++ " " ++ b.text
  | construct rs => "construct" ++ String.join (rs.map fun r => " " ++ r.text)

/-- The line of the instruction that writes register `i`. -/
def Instr.line (i : Nat) (instr : Instr) : String :=
  (Reg.mk i).text ++ " = " ++ instr.operation.text ++ " : " ++ instr.shape.name ++
    " (" ++ instr.source.text ++ ")"

namespace Program

def lines (p : Program) : List String :=
  p.instrs.mapIdx Instr.line ++ ["return " ++ p.output.text]

def text (p : Program) : String := "\n".intercalate p.lines

/-- The shape of a parameter in messages. -/
def paramName : Option Shape → String
  | some s => s.name
  | none => ValueType.none.name

end Program

end FieldGraph
