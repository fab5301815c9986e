import FieldGraph.Json.Basic

/-!
# Tokens

Splitting text into brackets, marks, words, numbers and strings.  Each scanner returns what it read
and the text that follows, which is always shorter.
-/

namespace FieldGraph.Json

inductive Token where
  | openArray
  | closeArray
  | openObject
  | closeObject
  | comma
  | colon
  | null
  | bool (b : Bool)
  | number (n : NumberLiteral)
  | string (s : JsonText)
deriving DecidableEq, Repr

def isBlank (c : Char) : Bool := c = ' ' || c = '\t' || c = '\n' || c = '\r'

/-! ## Numbers -/

/-- The digits at the start of a text, of which there has to be one. -/
def scanDigits? (cs : List Char) : Option (List Char × List Char) :=
  match cs.takeWhile Char.isDigit with
  | [] => none
  | ds => some (ds, cs.dropWhile Char.isDigit)

/-- A single zero, or digits that do not start with one. -/
def scanWhole? : List Char → Option (List Char × List Char)
  | '0' :: rest => some (['0'], rest)
  | cs => scanDigits? cs

def scanFraction? : List Char → Option (Option (List Char) × List Char)
  | '.' :: rest => (scanDigits? rest).map fun (ds, rest) => (some ds, rest)
  | cs => some (none, cs)

def scanExponent? : List Char → Option (Option (Bool × List Char) × List Char)
  | c :: rest =>
    if c = 'e' || c = 'E' then
      let (minus, rest) :=
        match rest with
        | '-' :: rest => (true, rest)
        | '+' :: rest => (false, rest)
        | rest => (false, rest)
      (scanDigits? rest).map fun (ds, rest) => (some (minus, ds), rest)
    else some (none, c :: rest)
  | [] => some (none, [])

/-- A number after its sign. -/
def scanNumber? (negative : Bool) (cs : List Char) : Option (NumberLiteral × List Char) := do
  let (whole, cs) ← scanWhole? cs
  let (fraction, cs) ← scanFraction? cs
  let (exponent, cs) ← scanExponent? cs
  return (⟨negative, whole, fraction, exponent⟩, cs)

/-! ## Strings -/

/-- A character as written, or one 16-bit unit given by its number. -/
inductive Piece where
  | char (c : Char)
  | unit (n : Nat)
deriving DecidableEq, Repr

def hexDigit? (c : Char) : Option Nat :=
  if c.isDigit then some (c.toNat - '0'.toNat)
  else if 'a' ≤ c ∧ c ≤ 'f' then some (c.toNat - 'a'.toNat + 10)
  else if 'A' ≤ c ∧ c ≤ 'F' then some (c.toNat - 'A'.toNat + 10)
  else none

/-- The character that a one-letter escape stands for. -/
def escaped? : Char → Option Char
  | '"' => some '"'
  | '\\' => some '\\'
  | '/' => some '/'
  | 'b' => some '\x08'
  | 'f' => some '\x0c'
  | 'n' => some '\n'
  | 'r' => some '\r'
  | 't' => some '\t'
  | _ => none

/-- The pieces up to the closing quote, collected in reverse.  A control character has to be
escaped. -/
def scanPieces? (acc : List Piece) : List Char → Option (List Piece × List Char)
  | [] => none
  | '"' :: rest => some (acc.reverse, rest)
  | '\\' :: 'u' :: a :: b :: c :: d :: rest =>
    match hexDigit? a, hexDigit? b, hexDigit? c, hexDigit? d with
    | some a, some b, some c, some d =>
      scanPieces? (.unit (((a * 16 + b) * 16 + c) * 16 + d) :: acc) rest
    | _, _, _, _ => none
  | '\\' :: e :: rest =>
    match escaped? e with
    | some c => scanPieces? (.char c :: acc) rest
    | none => none
  | c :: rest => if c.toNat < 32 ∨ c = '\\' then none else scanPieces? (.char c :: acc) rest

def isHighHalf (n : Nat) : Bool := 0xD800 ≤ n && n < 0xDC00

def isLowHalf (n : Nat) : Bool := 0xDC00 ≤ n && n < 0xE000

/-- The characters that pieces spell: a high half has to be followed by a low half. -/
def spell? (acc : List Char) : List Piece → Option (List Char)
  | [] => some acc.reverse
  | .char c :: rest => spell? (c :: acc) rest
  | .unit hi :: .unit lo :: rest =>
    if isHighHalf hi then
      if isLowHalf lo then
        spell? (Char.ofNat (0x10000 + (hi - 0xD800) * 0x400 + (lo - 0xDC00)) :: acc) rest
      else none
    else if isLowHalf hi then none
    else spell? (Char.ofNat hi :: acc) (.unit lo :: rest)
  | .unit n :: rest =>
    if isHighHalf n || isLowHalf n then none else spell? (Char.ofNat n :: acc) rest

def scanString? (cs : List Char) : Option (JsonText × List Char) :=
  (scanPieces? [] cs).map fun (pieces, rest) => ((spell? [] pieces).map String.ofList, rest)

/-! ## Texts -/

/-- One token, which the text starts with. -/
def scan? : List Char → Option (Token × List Char)
  | '[' :: rest => some (.openArray, rest)
  | ']' :: rest => some (.closeArray, rest)
  | '{' :: rest => some (.openObject, rest)
  | '}' :: rest => some (.closeObject, rest)
  | ',' :: rest => some (.comma, rest)
  | ':' :: rest => some (.colon, rest)
  | 'n' :: 'u' :: 'l' :: 'l' :: rest => some (.null, rest)
  | 't' :: 'r' :: 'u' :: 'e' :: rest => some (.bool true, rest)
  | 'f' :: 'a' :: 'l' :: 's' :: 'e' :: rest => some (.bool false, rest)
  | '"' :: rest => (scanString? rest).map fun (s, rest) => (.string s, rest)
  | '-' :: rest => (scanNumber? true rest).map fun (n, rest) => (.number n, rest)
  | cs => (scanNumber? false cs).map fun (n, rest) => (.number n, rest)

/-- All tokens, scanning `fuel` times at most. -/
def tokensWithin (acc : List Token) : Nat → List Char → Option (List Token)
  | 0, _ => none
  | fuel + 1, cs =>
    match cs with
    | [] => some acc.reverse
    | c :: rest =>
      if isBlank c then tokensWithin acc fuel rest
      else
        match scan? (c :: rest) with
        | none => none
        | some (t, rest) => tokensWithin (t :: acc) fuel rest

/-- All tokens of a text.  Each scan shortens the text, so that its length bounds their number. -/
def tokens? (cs : List Char) : Option (List Token) := tokensWithin [] (cs.length + 1) cs

end FieldGraph.Json
