import FieldGraph.Render.Pixels

/-!
# Command lines

A command line names a command, and gives it options and operands in any order.  The value of an
option is the next word, or follows an equals sign; after a single letter it may follow at once.  A
word that looks like an option is never taken for a value, and after a double hyphen all words are
operands.  An option is given at most once.
-/

namespace FieldGraph

structure RenderOptions where
  scene : String
  output : String := "render.png"
  width : UInt32 := 640
  height : UInt32 := 480
  workers : UInt64 := 0
  format : PixelFormat := .rgba8
  /-- The file that holds the settings. -/
  settings : Option String := none
  /-- Show the settings instead of an image. -/
  dumpSettings : Bool := false
deriving DecidableEq

inductive Command where
  | render (options : RenderOptions)
  | check (scene : String)
  | scenes
  | version
  | help
deriving DecidableEq

/-! ## Options -/

inductive CommandOption where
  | output
  | width
  | height
  | workers
  | format
  | settings
  | dumpSettings
deriving DecidableEq, Repr

namespace CommandOption

def all : List CommandOption := [output, width, height, workers, format, settings, dumpSettings]

def name : CommandOption → String
  | output => "output"
  | width => "width"
  | height => "height"
  | workers => "workers"
  | format => "format"
  | settings => "settings"
  | dumpSettings => "dump-settings"

def letter? : CommandOption → Option Char
  | output => some 'o'
  | workers => some 'w'
  | _ => none

def takesValue : CommandOption → Bool
  | dumpSettings => false
  | _ => true

def ofName? (s : String) : Option CommandOption := all.find? (·.name == s)

def ofLetter? (c : Char) : Option CommandOption := all.find? (·.letter? == some c)

end CommandOption

/-! ## Words -/

/-- What a word of a command line is. -/
inductive CommandWord where
  | operand (text : String)
  /-- An option, and its value where that is part of the word. -/
  | option (o : CommandOption) (value : Option String)
  | help
  /-- A double hyphen, after which all words are operands. -/
  | operandsOnly
  /-- An option that is not known. -/
  | unknown
deriving DecidableEq, Repr

namespace CommandWord

/-- Read the letters after a hyphen.  All but the first are its value. -/
def ofLetters : List Char → CommandWord
  | [] => operand "-"
  | 'h' :: _ => help
  | c :: rest =>
    match CommandOption.ofLetter? c, rest with
    | none, _ => unknown
    | some o, [] => option o none
    | some o, '=' :: value => option o (some (String.ofList value))
    | some o, value => option o (some (String.ofList value))

/-- Read what follows a double hyphen. -/
def ofLong (cs : List Char) : CommandWord :=
  let name := String.ofList (cs.takeWhile (· ≠ '='))
  match cs.dropWhile (· ≠ '=') with
  | [] =>
    if name = "help" then help
    else
      match CommandOption.ofName? name with
      | some o => option o none
      | none => unknown
  | _ :: value =>
    match CommandOption.ofName? name with
    | some o => option o (some (String.ofList value))
    | none => unknown

def ofString (s : String) : CommandWord :=
  match s.toList with
  | ['-', '-'] => operandsOnly
  | '-' :: '-' :: cs => ofLong cs
  | '-' :: cs => ofLetters cs
  | _ => operand s

end CommandWord

/-- The words of a command, sorted out. -/
structure CommandWords where
  options : List (CommandOption × Option String) := []
  operands : List String := []
  /-- Help is asked for. -/
  help : Bool := false
deriving Repr

namespace CommandWords

def addOption (ws : CommandWords) (o : CommandOption) (value : Option String) : CommandWords :=
  { ws with options := (o, value) :: ws.options }

def addOperands (ws : CommandWords) (texts : List String) : CommandWords :=
  { ws with operands := texts ++ ws.operands }

/-- Sort out words, if every option is known and has a value just where it takes one. -/
def ofList? : List String → Option CommandWords
  | [] => some {}
  | [w] =>
    match CommandWord.ofString w with
    | .help => some { help := true }
    | .operandsOnly => some {}
    | .operand s => some { operands := [s] }
    | .option o value =>
      if o.takesValue = value.isSome then some { options := [(o, value)] } else none
    | .unknown => none
  | w :: next :: rest =>
    match CommandWord.ofString w with
    | .help => some { help := true }
    | .operandsOnly => some { operands := next :: rest }
    | .operand s => (ofList? (next :: rest)).map (·.addOperands [s])
    | .option o none =>
      if o.takesValue then
        match CommandWord.ofString next with
        | .operand value => (ofList? rest).map (·.addOption o (some value))
        | _ => none
      else (ofList? (next :: rest)).map (·.addOption o none)
    | .option o (some value) =>
      if o.takesValue then (ofList? (next :: rest)).map (·.addOption o (some value)) else none
    | .unknown => none

/-- The value of an option that is given at most once; the outer layer is missing if it is given
more often. -/
def value? (ws : CommandWords) (o : CommandOption) : Option (Option (Option String)) :=
  match ws.options.filter (·.1 = o) with
  | [] => some none
  | [(_, v)] => some (some v)
  | _ => none

end CommandWords

/-! ## Values -/

/-- A run of decimal digits. -/
def digits? (cs : List Char) : Option Nat :=
  if cs ≠ [] ∧ cs.all Char.isDigit then some (cs.foldl (fun n c => 10 * n + (c.toNat - 48)) 0)
  else none

/-- A count below a bound, with or without a plus sign. -/
def count? (bound : Nat) (s : String) : Option Nat := do
  let n ← digits? (match s.toList with
    | '+' :: cs => cs
    | cs => cs)
  if n < bound then some n else none

/-- A size in pixels.  Zero may also have a minus sign. -/
def size? (s : String) : Option UInt32 :=
  match s.toList with
  | '-' :: cs => if digits? cs = some 0 then some 0 else none
  | _ => (count? UInt32.size s).map UInt32.ofNat

/-- The path of a file, which is not empty. -/
def path? (s : String) : Option String := if s = "" then none else some s

/-- Take the value of an option if it is given, and the default if it is not. -/
def CommandWords.get? {α : Type} (ws : CommandWords) (o : CommandOption) (default : α)
    (read : String → Option α) : Option α :=
  match ws.value? o with
  | none => none
  | some none => some default
  | some (some value) => read (value.getD "")

/-! ## Commands -/

namespace RenderOptions

def ofWords? (ws : CommandWords) : Option RenderOptions := do
  let [scene] := ws.operands | none
  let output ← ws.get? .output "render.png" path?
  let width ← ws.get? .width 640 size?
  let height ← ws.get? .height 480 size?
  let workers ← ws.get? .workers 0 fun s => (count? UInt64.size s).map UInt64.ofNat
  let format ← ws.get? .format .rgba8 PixelFormat.ofName?
  let settings ← ws.get? .settings none fun s => (path? s).map some
  let dumpSettings ← ws.get? .dumpSettings false fun _ => some true
  return { scene, output, width, height, workers, format, settings, dumpSettings }

end RenderOptions

namespace Command

/-- The command that a command line asks for, if it asks for one. -/
def ofArgs? : List String → Option Command
  | [] => none
  | "--version" :: _ => some version
  | "--help" :: _ => some help
  | "help" :: _ => some help
  | "render" :: args => do
    let ws ← CommandWords.ofList? args
    if ws.help then some help else (RenderOptions.ofWords? ws).map render
  | "check" :: args => do
    let ws ← CommandWords.ofList? args
    if ws.help then some help
    else
      match ws.options, ws.operands with
      | [], [scene] => some (check scene)
      | _, _ => none
  | "scenes" :: args => do
    let ws ← CommandWords.ofList? args
    if ws.help then some help
    else
      match ws.options, ws.operands with
      | [], [] => some scenes
      | _, _ => none
  | word :: _ =>
    match word.toList with
    | '-' :: 'V' :: _ => some version
    | '-' :: 'h' :: _ => some help
    | _ => none

end Command

end FieldGraph
