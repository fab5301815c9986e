import FieldGraph.Command.Options
import FieldGraph.Live.Workbench
import FieldGraph.Render.Png
import FieldGraph.Render.SettingsFile

/-!
# Commands

What the commands print and write, in terms of the few things that they need of a machine.
-/

namespace FieldGraph

/-- The services that a command needs. -/
structure Machine (m : Type → Type) where
  cores : Nat
  /-- Write text to the standard output. -/
  print : String → m Unit
  /-- The text of a file, if it can be read. -/
  read? : String → m (Option String)
  /-- Make an empty file, or tell why that is not possible. -/
  create : String → m (Except String Unit)
  /-- Fill a file that was made. -/
  fill : String → Png → m Unit
  /-- The time since the start, as text. -/
  elapsed : m String

/-- Why a command failed. -/
structure CommandFailure where
  message : String
  /-- What lies behind it. -/
  cause : Option String := none
  /-- What is told before the failure itself. -/
  report : String := ""
deriving DecidableEq, Repr

def CommandFailure.text (f : CommandFailure) : String :=
  f.report ++ "Error: " ++ f.message ++
    (match f.cause with
      | none => ""
      | some c => "\n\nCaused by:\n    " ++ c) ++ "\n"

namespace Command

variable {m : Type → Type} [Monad m]

/-- The settings in a file, or the defaults without one. -/
def loadSettings (machine : Machine m) : Option String → ExceptT CommandFailure m RenderSettings
  | none => return {}
  | some path => do
    let some text ← machine.read? path
      | throw { message := "Failed to read settings from " ++ path, cause := "it cannot be read" }
    match RenderSettings.codec.read? text with
    | some s => return s
    | none => throw { message := "Invalid settings in " ++ path, cause := "it holds no settings" }

/-- The failure to store an image. -/
def imageFailure (reason : String) : CommandFailure :=
  { message := "Image error: " ++ reason, cause := reason }

/-- Store an image in a file.  The bytes of all pixels must be there; apart from that, the file is made
even if it cannot hold the image. -/
def save (machine : Machine m) (path : String) (image : PixelBuffer) :
    ExceptT CommandFailure m Unit := do
  if let .error e := image.toRgba then throw { message := e.message }
  match ← machine.create path with
  | .error reason => throw (imageFailure reason)
  | .ok () =>
    match Png.ofImage image with
    | .error e => throw (imageFailure e.message)
    | .ok file => machine.fill path file

def scene (name : String) : Except CommandFailure Scene :=
  (Scene.ofDemo name).mapError fun e => { message := e.message }

/-- The request that options amount to. -/
def request (o : RenderOptions) (settings : RenderSettings) : RenderRequest where
  width := o.width
  height := o.height
  workers := o.workers
  format := o.format
  settings := settings

/-- Render a demo to a file. -/
def runRender (machine : Machine m) (o : RenderOptions) : ExceptT CommandFailure m Unit := do
  let settings ← loadSettings machine o.settings
  if o.dumpSettings then
    machine.print (RenderSettings.codec.write settings ++ "\n")
  else
    let s ← scene o.scene
    let field ← match s.prepare with
      | .ok field => pure field
      | .error e => throw { message := e.message }
    let r := s.view (request o settings)
    machine.print ("Rendering '" ++ o.scene ++ "' to " ++ o.output ++ " (" ++ toString r.width ++
      "x" ++ toString r.height ++ ", " ++ toString (r.workerCount machine.cores) ++
      " workers)...\n")
    match renderImage? field.distance r machine.cores with
    | none => throw { message := WorkbenchError.cancelled.message }
    | some image =>
      save machine o.output image
      machine.print ("Saved to: " ++ o.output ++ " in " ++ (← machine.elapsed) ++ "\n")

/-- The title of a parameter in the signature of a program. -/
def paramTitle : Option Shape → String
  | none => "None"
  | some s => s.title

/-- What is printed about a program: its size, its signature and its listing. -/
def programReport (p : Program) : String :=
  "OK - " ++ toString p.length ++ " instructions, [" ++
    ", ".intercalate (p.params.map paramTitle) ++ "] -> " ++ p.result.name ++ "\n" ++ p.text ++ "\n"

/-- What is told about a graph that cannot be shown: the reason and the nodes at fault. -/
def faultReport (g : Graph) (e : PrepareError) : String :=
  "ERROR: " ++ e.message ++ "\n" ++
    String.join (e.offending.map fun id =>
      "  " ++ id.text ++ " (" ++ ((g.node? id).map Node.kind).getD "missing" ++ ")\n")

/-- Check a demo and print its program. -/
def runCheck (machine : Machine m) (name : String) : ExceptT CommandFailure m Unit := do
  let s ← scene name
  machine.print ("Scene '" ++ s.name ++ "': " ++ toString s.graph.size ++ " nodes, output " ++
    s.output.text ++ "\n")
  match s.prepare with
  | .ok field => machine.print (programReport field.program)
  | .error e => throw { message := e.message, report := faultReport s.graph e }

/-- Fill up with blanks to a width. -/
def padRight (width : Nat) (s : String) : String :=
  s ++ String.ofList (List.replicate (width - s.length) ' ')

/-- The listing of the demos. -/
def sceneList : String :=
  String.join (Demo.all.map fun d => padRight 12 d.name ++ " " ++ d.description ++ "\n")

def versionText : String := "sdflow 0.1.0\n"

def helpText : String :=
  "Node-graph signed distance fields, compiled and sphere traced\n\n" ++
    "Usage: sdflow <COMMAND>\n\nCommands:\n" ++
    "  render  Render a demo scene to a PNG file\n" ++
    "  check   Validate a demo scene and print its compiled program\n" ++
    "  scenes  List the built-in demo scenes\n"

def run (machine : Machine m) : Command → ExceptT CommandFailure m Unit
  | render o => runRender machine o
  | check name => runCheck machine name
  | scenes => machine.print sceneList
  | version => machine.print versionText
  | help => machine.print helpText

/-- How a run of a command line came to its end. -/
inductive Exit where
  | success
  | failure (e : CommandFailure)
  /-- The command line does not ask for a command. -/
  | usage
deriving DecidableEq, Repr

namespace Exit

def code : Exit → UInt32
  | success => 0
  | failure _ => 1
  | usage => 2

/-- What is written to the error output. -/
def text : Exit → String
  | success => ""
  | failure e => e.text
  | usage => "error: this is no command\n\n" ++ helpText

end Exit

/-- Run a command line. -/
def runArgs (machine : Machine m) (args : List String) : m Exit := do
  match ofArgs? args with
  | none => return .usage
  | some c =>
    match ← (run machine c).run with
    | .ok () => return .success
    | .error e => return .failure e

end Command

end FieldGraph
