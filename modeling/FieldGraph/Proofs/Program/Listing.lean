import FieldGraph.Program.Listing
import FieldGraph.Proofs.Program.Parameters
import FieldGraph.Proofs.Value

/-!
# Reading listings

A listing is cut into lines, and a line into words.  The first word of an operation is its keyword,
and those after it are its operands, so that a line says all of its instruction.  Parameters are not
listed: those of a compiled program are the ones that its tape loads.
-/

namespace FieldGraph

open Number

/-! ## Words -/

/-- The parts of a text between blanks. -/
def wordsOf (s : String) : List (List Char) := s.toList.splitOn ' '

theorem wordsOf_append (s t : String) : wordsOf (s ++ " " ++ t) = wordsOf s ++ wordsOf t := by
  rw [wordsOf, String.toList_append, String.toList_append, List.append_assoc,
    List.splitOn_eq_splitOnP]
  exact List.splitOnP_append_cons _ _ rfl

theorem wordsOf_of_not_mem {s : String} (h : ' ' ∉ s.toList) : wordsOf s = [s.toList] :=
  List.splitOn_eq_singleton h

theorem wordsOf_injective : Function.Injective wordsOf := fun s t h ↦ by
  have hjoin (s : String) : [' '].intercalate (wordsOf s) = s.toList := List.intercalate_splitOn ' '
  exact String.toList_injective (by rw [← hjoin s, h, hjoin t])

theorem toList_toString (n : ℕ) : (toString n).toList = natDigits n := by
  simp [natDigits]

theorem toString_injective {m n : ℕ} (h : toString m = toString n) : m = n := by
  have := congrArg (NumberLiteral.digitsValue ∘ String.toList) h
  simpa only [Function.comp_apply, toList_toString, NumberLiteral.digitsValue_natDigits] using this

theorem not_mem_toString {c : Char} (hc : c.isDigit = false) (n : ℕ) : c ∉ (toString n).toList := by
  rw [toList_toString]
  exact fun hmem ↦ Bool.false_ne_true (hc.symm.trans ((isNumeral_natDigits n).isDigit c hmem))

/-- A name that is a prefix and a number tells the number. -/
theorem eq_of_append_toString {s : String} {m n : ℕ} (h : s ++ toString m = s ++ toString n) :
    m = n := by
  have htext := congrArg String.toList h
  rw [String.toList_append, String.toList_append] at htext
  exact toString_injective (String.toList_injective (List.append_cancel_left htext))

theorem not_mem_append_toString {c : Char} (hdigit : c.isDigit = false) {s : String}
    (hc : c ∉ s.toList) (n : ℕ) : c ∉ (s ++ toString n).toList := by
  rw [String.toList_append, List.mem_append, not_or]
  exact ⟨hc, not_mem_toString hdigit n⟩

theorem Reg.eq_of_text {r r' : Reg} (h : r.text = r'.text) : r = r' :=
  congrArg Reg.mk (eq_of_append_toString h)

theorem Reg.not_mem_text {c : Char} (hdigit : c.isDigit = false) (hc : c ∉ "r".toList) (r : Reg) :
    c ∉ r.text.toList :=
  not_mem_append_toString hdigit hc r.index

theorem Reg.wordsOf_text (r : Reg) : wordsOf r.text = [r.text.toList] :=
  wordsOf_of_not_mem (r.not_mem_text rfl (by decide))

theorem NodeId.eq_of_text {id id' : NodeId} (h : id.text = id'.text) : id = id' :=
  congrArg NodeId.mk (eq_of_append_toString h)

theorem NodeId.not_mem_text {c : Char} (hdigit : c.isDigit = false) (hc : c ∉ "#".toList)
    (id : NodeId) : c ∉ id.text.toList :=
  not_mem_append_toString hdigit hc id.index

/-! ## Operations -/

namespace Operation

variable {o o' : Operation}

/-- A constant has no component that is NaN. -/
def IsNumber : Operation → Prop
  | const v => v.IsNumber
  | _ => True

instance : DecidablePred IsNumber
  | const v => inferInstanceAs (Decidable v.IsNumber)
  | param _ | splat _ | unary .. | binary .. | construct _ => .isTrue trivial

def keyword : Operation → String
  | param _ => "param"
  | const _ => "const"
  | splat _ => "splat"
  | unary op _ => op.name
  | binary op _ _ => op.name
  | construct _ => "construct"

/-- The words after the keyword. -/
def operandWords : Operation → List (List Char)
  | param k => [(toString k).toList]
  | const v => wordsOf v.text
  | splat r | unary _ r => [r.text.toList]
  | binary _ a b => [a.text.toList, b.text.toList]
  | construct rs => rs.map fun r ↦ r.text.toList

theorem wordsOf_construct (s : String) (rs : List Reg) :
    wordsOf (s ++ String.join (rs.map fun r ↦ " " ++ r.text)) =
      wordsOf s ++ rs.map fun r ↦ r.text.toList := by
  induction rs generalizing s with
  | nil => simp
  | cons r rs ih =>
      rw [List.map_cons, String.join_cons, ← String.append_assoc, ← String.append_assoc, ih,
        wordsOf_append, Reg.wordsOf_text, List.append_assoc]
      rfl

theorem all_isAlphanum_keyword (o : Operation) : o.keyword.toList.all Char.isAlphanum = true := by
  cases o with
  | param | const | splat | construct => simp [keyword]
  | unary op => cases op <;> simp [keyword, UnaryOp.name]
  | binary op => cases op <;> simp [keyword, BinaryOp.name]

theorem not_mem_keyword {c : Char} (hc : c.isAlphanum = false) (o : Operation) :
    c ∉ o.keyword.toList := fun h ↦
  Bool.false_ne_true (hc.symm.trans (List.all_eq_true.1 o.all_isAlphanum_keyword c h))

theorem wordsOf_keyword (o : Operation) : wordsOf o.keyword = [o.keyword.toList] :=
  wordsOf_of_not_mem (o.not_mem_keyword rfl)

theorem wordsOf_text (o : Operation) : wordsOf o.text = o.keyword.toList :: o.operandWords := by
  have happend {s : String} (h : wordsOf s = o.operandWords) :
      wordsOf (o.keyword ++ " " ++ s) = o.keyword.toList :: o.operandWords := by
    rw [wordsOf_append, wordsOf_keyword, h]
    rfl
  cases o with
  | param k => exact happend (wordsOf_of_not_mem (not_mem_toString rfl k))
  | const v => exact happend rfl
  | splat r => exact happend r.wordsOf_text
  | unary op r => exact happend r.wordsOf_text
  | binary op a b =>
      have hoperands : wordsOf (a.text ++ " " ++ b.text) = [a.text.toList, b.text.toList] := by
        rw [wordsOf_append, a.wordsOf_text, b.wordsOf_text]
        rfl
      have htext : op.name ++ " " ++ a.text ++ " " ++ b.text =
          op.name ++ " " ++ (a.text ++ " " ++ b.text) := by simp only [String.append_assoc]
      exact (congrArg wordsOf htext).trans (happend hoperands)
  | construct rs =>
      exact (wordsOf_construct "construct" rs).trans (congrArg (· ++ _) (construct rs).wordsOf_keyword)

/-- An operation is listed on one line. -/
theorem newline_not_mem_text (o : Operation) : '\n' ∉ o.text.toList := by
  have hreg (r : Reg) : '\n' ∉ r.text.toList := r.not_mem_text rfl (by decide)
  have hkeyword := o.not_mem_keyword (c := '\n') rfl
  cases o with
  | param k => simpa [text] using not_mem_toString (c := '\n') rfl k
  | const v => simp [text, v.not_mem_text (c := '\n') rfl (by decide)]
  | splat r => simp [text, hreg]
  | unary op r => simp [text, hreg, show '\n' ∉ op.name.toList from hkeyword]
  | binary op a b => simp [text, hreg, show '\n' ∉ op.name.toList from hkeyword]
  | construct rs => simp [text, hreg, String.toList_join]

def unaryOp? : Operation → Option UnaryOp
  | unary op _ => some op
  | _ => none

def binaryOp? : Operation → Option BinaryOp
  | binary op _ _ => some op
  | _ => none

/-- The keyword is the name of the operator, if there is one. -/
theorem ofName?_keyword (o : Operation) :
    UnaryOp.ofName? o.keyword = o.unaryOp? ∧ BinaryOp.ofName? o.keyword = o.binaryOp? := by
  cases o with
  | param | const | splat | construct =>
      rw [keyword]
      exact ⟨rfl, rfl⟩
  | unary op | binary op =>
      rw [keyword]
      cases op <;> exact ⟨rfl, rfl⟩

theorem eq_of_words (ho : o.IsNumber) (ho' : o'.IsNumber) (hkeyword : o.keyword = o'.keyword)
    (hoperands : o.operandWords = o'.operandWords) : o = o' := by
  obtain ⟨hunary, hbinary⟩ := o.ofName?_keyword
  obtain ⟨hunary', hbinary'⟩ := o'.ofName?_keyword
  rw [hkeyword, hunary'] at hunary
  rw [hkeyword, hbinary'] at hbinary
  have hreg {r r' : Reg} (h : r.text.toList = r'.text.toList) : r = r' :=
    Reg.eq_of_text (String.toList_injective h)
  -- the keyword tells the form, and the operator if there is one
  cases o <;> cases o' <;> cases hunary <;> cases hbinary <;>
    simp only [keyword, String.reduceEq] at hkeyword
  case param.param k k' =>
    rw [toString_injective (String.toList_injective (List.singleton_injective hoperands))]
  case const.const v v' => rw [Value.eq_of_text ho ho' (wordsOf_injective hoperands)]
  case splat.splat r r' => rw [hreg (List.singleton_injective hoperands)]
  case unary.unary r r' => rw [hreg (List.singleton_injective hoperands)]
  case binary.binary a b a' b' =>
    obtain ⟨ha, hb⟩ := List.cons.inj hoperands
    rw [hreg ha, hreg (List.singleton_injective hb)]
  case construct.construct rs rs' => rw [List.map_injective_iff.2 @hreg hoperands]

end Operation

/-! ## Instructions -/

namespace Instr

variable {instr instr' : Instr} {i : Nat}

/-- The words after the operation. -/
def trailer (instr : Instr) : List (List Char) :=
  [[':'], instr.shape.name.toList, '(' :: (instr.source.text.toList ++ [')'])]

theorem wordsOf_line (i : Nat) (instr : Instr) : wordsOf (instr.line i) =
    (Reg.mk i).text.toList :: ['='] :: (wordsOf instr.operation.text ++ instr.trailer) := by
  have hline : instr.line i = (Reg.mk i).text ++ " " ++ "=" ++ " " ++ instr.operation.text ++ " " ++
      ":" ++ " " ++ instr.shape.name ++ " " ++ ("(" ++ instr.source.text ++ ")") := by
    rw [line, ← String.toList_inj]
    simp
  have hshape : wordsOf instr.shape.name = [instr.shape.name.toList] :=
    wordsOf_of_not_mem (by cases instr.shape <;> decide)
  have hsource : wordsOf ("(" ++ instr.source.text ++ ")") =
      ['(' :: (instr.source.text.toList ++ [')'])] := by
    have htext : ("(" ++ instr.source.text ++ ")").toList =
        '(' :: (instr.source.text.toList ++ [')']) := by simp
    rw [wordsOf_of_not_mem, htext]
    rw [htext]
    simpa using instr.source.not_mem_text rfl (by decide)
  rw [hline, wordsOf_append, wordsOf_append, wordsOf_append, wordsOf_append, wordsOf_append,
    Reg.wordsOf_text, hshape, hsource, wordsOf_of_not_mem (s := "=") (by decide),
    wordsOf_of_not_mem (s := ":") (by decide)]
  simp [trailer]

theorem eq_of_line (h : instr.operation.IsNumber) (h' : instr'.operation.IsNumber)
    (hline : instr.line i = instr'.line i) : instr = instr' := by
  have hwords := congrArg wordsOf hline
  rw [wordsOf_line, wordsOf_line] at hwords
  obtain ⟨hoperation, htrailer⟩ :=
    List.append_inj' (List.cons.inj (List.cons.inj hwords).2).2 rfl
  rw [Operation.wordsOf_text, Operation.wordsOf_text] at hoperation
  obtain ⟨hkeyword, hoperands⟩ := List.cons.inj hoperation
  obtain ⟨hshape, hsource⟩ := List.cons.inj (List.cons.inj htrailer).2
  have hsource := List.append_cancel_right (List.cons.inj (List.singleton_injective hsource)).2
  have hname {s s' : Shape} (hs : s.name = s'.name) : s = s' := by
    cases s <;> cases s' <;> first | rfl | exact absurd hs (by decide)
  cases instr
  cases instr'
  rw [Instr.mk.injEq]
  exact ⟨Operation.eq_of_words h h' (String.toList_injective hkeyword) hoperands,
    hname (String.toList_injective hshape), NodeId.eq_of_text (String.toList_injective hsource)⟩

theorem newline_not_mem_line (i : Nat) (instr : Instr) : '\n' ∉ (instr.line i).toList := by
  have hreg : '\n' ∉ (Reg.mk i).text.toList := Reg.not_mem_text rfl (by decide) _
  have hshape : '\n' ∉ instr.shape.name.toList := by cases instr.shape <;> decide
  have hsource : '\n' ∉ instr.source.text.toList := instr.source.not_mem_text rfl (by decide)
  simp [line, hreg, hshape, hsource, instr.operation.newline_not_mem_text]

end Instr

/-! ## Programs -/

/-- The lines of a text. -/
def linesOf (s : String) : List String := (s.toList.splitOn '\n').map String.ofList

namespace Program

variable {p q : Program}

/-- No constant has a component that is NaN. -/
def IsNumber (p : Program) : Prop := ∀ i ∈ p.instrs, i.operation.IsNumber

instance (p : Program) : Decidable p.IsNumber :=
  inferInstanceAs (Decidable (∀ i ∈ p.instrs, i.operation.IsNumber))

theorem linesOf_text (p : Program) : linesOf p.text = p.lines := by
  have hlines : (p.text.toList.splitOn '\n') = p.lines.map String.toList := by
    rw [text, String.toList_intercalate]
    refine List.splitOn_intercalate '\n' (fun l hl ↦ ?_) (by simp [lines])
    obtain ⟨line, hline, rfl⟩ := List.mem_map.1 hl
    rcases List.mem_append.1 hline with hline | hline
    · obtain ⟨i, hi, rfl⟩ := List.mem_mapIdx.1 hline
      exact Instr.newline_not_mem_line i _
    · rw [List.mem_singleton.1 hline]
      simpa using p.output.not_mem_text (c := '\n') rfl (by decide)
  rw [linesOf, hlines, List.map_map]
  simp

/-- Without NaN, instructions and the register of the result are read off a listing. -/
theorem instrs_eq_of_text (hp : p.IsNumber) (hq : q.IsNumber) (h : p.text = q.text) :
    p.instrs = q.instrs ∧ p.output = q.output := by
  have hlines : p.lines = q.lines := by rw [← linesOf_text, ← linesOf_text, h]
  obtain ⟨hinstrs, houtput⟩ := List.append_inj' hlines rfl
  have hlength : p.instrs.length = q.instrs.length := by simpa using congrArg List.length hinstrs
  refine ⟨List.ext_getElem hlength fun i hi hi' ↦ ?_, ?_⟩
  · have hline := congrArg (·[i]?) hinstrs
    simp only [List.getElem?_mapIdx, List.getElem?_eq_getElem hi, List.getElem?_eq_getElem hi',
      Option.map_some, Option.some.injEq] at hline
    exact Instr.eq_of_line (hp _ (List.getElem_mem hi)) (hq _ (List.getElem_mem hi')) hline
  · have hreturn := congrArg String.toList (List.singleton_injective houtput)
    rw [String.toList_append, String.toList_append] at hreturn
    exact Reg.eq_of_text (String.toList_injective (List.append_cancel_left hreturn))

/-- There is a line for each register, which starts with its name, and one for the result. -/
theorem defines_registers (p : Program) : (linesOf p.text).length = p.length + 1 ∧
    (∀ i < p.length, ∃ rest, (linesOf p.text)[i]? = some ((Reg.mk i).text ++ " = " ++ rest)) ∧
    (linesOf p.text)[p.length]? = some ("return " ++ p.output.text) := by
  rw [linesOf_text, lines, length]
  refine ⟨by simp, fun i hi ↦ ?_, by simp⟩
  refine ⟨p.instrs[i].operation.text ++ " : " ++ p.instrs[i].shape.name ++ " (" ++
    p.instrs[i].source.text ++ ")", ?_⟩
  rw [List.getElem?_append_left (by simpa using hi), List.getElem?_mapIdx,
    List.getElem?_eq_getElem hi, Option.map_some, Instr.line]
  simp only [String.append_assoc]

end Program

/-! ## Compiled programs -/

namespace Graph

variable {g g' : Graph} {output output' : NodeId} {expected expected' : Option ValueType}
  {p q : Program}

/-- A position has a shape where the tape loads it. -/
theorem join_params_eq_some_iff (hp : g.compile output expected = .ok p) {index : Nat} {s : Shape} :
    p.params[index]?.join = some s ↔
      ∃ i ∈ p.instrs, i.operation = .param index ∧ i.shape = s := by
  constructor
  · intro h
    obtain ⟨i, hi, hop, hs, -⟩ := exists_load_of_compile hp (free_of_entry hp h)
    cases hs
    exact ⟨i, hi, hop, rfl⟩
  · rintro ⟨i, hi, hop, rfl⟩
    exact entry_of_load hp hi hop

/-- The tape and the register of the result are all of a compiled program. -/
theorem eq_of_instrs (hp : g.compile output expected = .ok p)
    (hq : g'.compile output' expected' = .ok q) (hinstrs : p.instrs = q.instrs)
    (houtput : p.output = q.output) : p = q := by
  have hparams : p.params = q.params :=
    Compile.eq_of_join_eq (Compile.getLast?_params hp) (Compile.getLast?_params hq) fun index s ↦ by
      rw [join_params_eq_some_iff hp, join_params_eq_some_iff hq, hinstrs]
  have hresult {g : Graph} {output : NodeId} {expected : Option ValueType} {p : Program}
      (hp : g.compile output expected = .ok p) : shapeAt? p.instrs p.output = some p.result := by
    obtain ⟨s, v, -, -, -, hl, rfl⟩ := Compile.exists_lowered_of_compile hp
    exact hl.shapeAt? .nil
  have hshape := hresult hp
  rw [hinstrs, houtput, hresult hq, Option.some.injEq] at hshape
  cases p
  cases q
  rw [Program.mk.injEq]
  exact ⟨hinstrs, houtput, hshape.symm, hparams⟩

/-- A listing says all of a compiled program.  It has a line for each register and one for the result,
and programs whose constants are numbers and whose listings are equal are equal. -/
theorem listing_faithful :
    (∀ p : Program, (linesOf p.text).length = p.length + 1 ∧
      (∀ i < p.length, ∃ rest, (linesOf p.text)[i]? = some ((Reg.mk i).text ++ " = " ++ rest)) ∧
      (linesOf p.text)[p.length]? = some ("return " ++ p.output.text)) ∧
    ∀ (g g' : Graph) (output output' : NodeId) (expected expected' : Option ValueType)
      (p q : Program), g.compile output expected = .ok p → g'.compile output' expected' = .ok q →
      p.IsNumber → q.IsNumber → p.text = q.text →
        p = q ∧ ∀ args, p.call args = q.call args := by
  refine ⟨Program.defines_registers, fun g g' _ _ _ _ p q hp hq hpn hqn h ↦ ?_⟩
  obtain ⟨hinstrs, houtput⟩ := Program.instrs_eq_of_text hpn hqn h
  have heq : p = q := eq_of_instrs hp hq hinstrs houtput
  exact ⟨heq, fun _ ↦ heq ▸ rfl⟩

/-- A negative zero, an infinity, and the largest and the least of the positive numbers. -/
def extremes : Value :=
  .float4 ⟨-0, Float32.ofBits 0x7f800000, Float32.ofBits 0x7f7fffff, Float32.ofBits 1⟩

def timesExtremes : List Action :=
  [.constant extremes, .parameter 1 (.of .float), .binary .mul ⟨0⟩ ⟨1⟩, .output ⟨2⟩]

def extremesProgram : Program :=
  ⟨[⟨.const extremes, .float4, ⟨0⟩⟩, ⟨.param 1, .float, ⟨1⟩⟩, ⟨.splat ⟨1⟩, .float4, ⟨2⟩⟩,
    ⟨.binary .mul ⟨0⟩ ⟨2⟩, .float4, ⟨2⟩⟩], ⟨3⟩, .float4, [none, some .float]⟩

/-- No other program is listed like this one, whatever graph it is compiled from. -/
theorem listing_faithful_extremes :
    (after timesExtremes).compile ⟨3⟩ none = .ok extremesProgram ∧ extremesProgram.IsNumber ∧
      extremesProgram.text = "r0 = const (-0, inf, 340282350000000000000000000000000000000, " ++
        "0.000000000000000000000000000000000000000000001) : float4 (#0)\n" ++
        "r1 = param 1 : float (#1)\nr2 = splat r1 : float4 (#2)\n" ++
        "r3 = Mul r0 r2 : float4 (#2)\nreturn r3" ∧
      (∀ g output expected q, Graph.compile g output expected = .ok q → q.IsNumber →
        q.text = extremesProgram.text → q = extremesProgram) ∧
      ∃ q, (after (timesExtremes ++ [.unary .negate ⟨1⟩])).compile ⟨3⟩ none = .ok q ∧
        q.text = extremesProgram.text ∧ q.params = [none, some .float] := by
  have hp : (after timesExtremes).compile ⟨3⟩ none = .ok extremesProgram := by decide +kernel
  have hnumber : extremesProgram.IsNumber := by decide +kernel
  refine ⟨hp, hnumber, by decide +kernel, fun g output expected q hq hqn h ↦ ?_,
    extremesProgram, by decide +kernel, rfl, rfl⟩
  exact (listing_faithful.2 g _ output _ expected _ q _ hq hp hqn hnumber h).1

end Graph

end FieldGraph
