import FieldGraph.Number.Text

/-!
# Structured text

The values of a settings file.  Numbers keep their digits as written, because a count has to be
written as an integer and a scalar is rounded only when its field is read.  Members keep their
order and may repeat, because what a repetition means depends on who reads the object.
-/

namespace FieldGraph

/-- A number as written. -/
structure NumberLiteral where
  negative : Bool
  whole : List Char
  /-- The digits after the point, if there is one. -/
  fraction : Option (List Char)
  /-- The sign and digits of the exponent, if there is one; `true` is a minus. -/
  exponent : Option (Bool × List Char)
deriving DecidableEq, Repr

/-- Text between quotes, or `none` where it holds half of a surrogate pair: such text is well formed
but names no sequence of characters. -/
abbrev JsonText := Option String

inductive Json where
  | null
  | bool (b : Bool)
  | number (n : NumberLiteral)
  | string (s : JsonText)
  | array (items : List Json)
  | object (members : List (JsonText × Json))
deriving Repr

namespace Json

instance : Inhabited Json := ⟨null⟩

def ofString (s : String) : Json := string (some s)

/-- An object of named members. -/
def ofMembers (members : List (String × Json)) : Json :=
  object (members.map fun m => (some m.1, m.2))

end Json

namespace NumberLiteral

/-- The value of a run of decimal digits. -/
def digitsValue (cs : List Char) : Nat :=
  cs.foldl (fun n c => 10 * n + (c.toNat - '0'.toNat)) 0

/-- The number is written without a point and without an exponent. -/
def isInteger (n : NumberLiteral) : Bool := n.fraction.isNone && n.exponent.isNone

/-- The power of ten that is written after the digits. -/
def scale (n : NumberLiteral) : Int :=
  match n.exponent with
  | none => 0
  | some (minus, ds) => if minus then -(digitsValue ds : Int) else digitsValue ds

/-- The magnitude as digits and a power of ten. -/
def decimal (n : NumberLiteral) : Number.Decimal :=
  let fraction := n.fraction.getD []
  ⟨digitsValue (n.whole ++ fraction), n.scale - fraction.length⟩

/-- Append digits to a number up to the one with which it leaves 64 bits; returns the digits from
there on as well. -/
def takeDigits (n : Nat) : List Char → Nat × List Char
  | [] => (n, [])
  | c :: cs =>
    let next := 10 * n + (c.toNat - '0'.toNat)
    if next < UInt64.size then takeDigits next cs else (n, c :: cs)

/-- The digits that are read of a magnitude that is not an integer of 64 bits: what they leave out
before the point counts for the power of ten, and what they leave out after it does not. -/
def leading (n : NumberLiteral) : Number.Decimal :=
  let fraction := n.fraction.getD []
  let (whole, dropped) := takeDigits 0 n.whole
  let (digits, unread) := takeDigits whole fraction
  ⟨digits, n.scale + dropped.length - (fraction.length - unread.length : Nat)⟩

/-- The literal of a natural number. -/
def ofNat (n : Nat) : NumberLiteral := ⟨false, Number.natDigits n, none, none⟩

/-- Positional notation, always with a point. -/
def pointed (negative : Bool) (d : Number.Decimal) : NumberLiteral :=
  match d.positional with
  | (whole, []) => ⟨negative, whole, some ['0'], none⟩
  | (whole, fraction) => ⟨negative, whole, some fraction, none⟩

/-- Scientific notation: a point only before further digits, and an exponent. -/
def scientific (negative : Bool) (d : Number.Decimal) : NumberLiteral :=
  let exponent := some (decide (d.order < 0), Number.natDigits d.order.natAbs)
  match Number.natDigits d.digits with
  | [] => ⟨negative, ['0'], none, exponent⟩
  | [c] => ⟨negative, [c], none, exponent⟩
  | c :: rest => ⟨negative, [c], some rest, exponent⟩

/-- The literal as text; an exponent always shows its sign. -/
def chars (n : NumberLiteral) : List Char :=
  (if n.negative then ['-'] else []) ++ n.whole ++
    (match n.fraction with
      | none => []
      | some ds => '.' :: ds) ++
    (match n.exponent with
      | none => []
      | some (minus, ds) => 'e' :: (if minus then '-' else '+') :: ds)

end NumberLiteral

end FieldGraph
