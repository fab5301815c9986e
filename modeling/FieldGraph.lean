import FieldGraph.Command.Options
import FieldGraph.Command.Run
import FieldGraph.DistanceField
import FieldGraph.Graph.Basic
import FieldGraph.Graph.Build
import FieldGraph.Graph.Copy
import FieldGraph.Graph.Edit
import FieldGraph.Graph.Typing
import FieldGraph.Graph.Walk
import FieldGraph.Json.Basic
import FieldGraph.Json.Codec
import FieldGraph.Json.Printer
import FieldGraph.Json.Reader
import FieldGraph.Json.Record
import FieldGraph.Json.Token
import FieldGraph.Live.Preview
import FieldGraph.Live.Workbench
import FieldGraph.Main
import FieldGraph.Node
import FieldGraph.NodeMap
import FieldGraph.Number.Decimal
import FieldGraph.Number.Rounding
import FieldGraph.Number.Text
import FieldGraph.Operator
import FieldGraph.Program.Basic
import FieldGraph.Program.Compile
import FieldGraph.Program.CompileError
import FieldGraph.Program.Listing
import FieldGraph.Proofs.Graph.Additions
import FieldGraph.Proofs.Graph.Atomicity
import FieldGraph.Proofs.Graph.Consistency
import FieldGraph.Proofs.Graph.Copying
import FieldGraph.Proofs.Graph.Cycles
import FieldGraph.Proofs.Graph.Denotation
import FieldGraph.Proofs.Graph.Determinacy
import FieldGraph.Proofs.Graph.Duplicates
import FieldGraph.Proofs.Graph.Entries
import FieldGraph.Proofs.Graph.Evaluation
import FieldGraph.Proofs.Graph.Growth
import FieldGraph.Proofs.Graph.InPlace
import FieldGraph.Proofs.Graph.Levels
import FieldGraph.Proofs.Graph.Locality
import FieldGraph.Proofs.Graph.OperandsFirst
import FieldGraph.Proofs.Graph.Ownership
import FieldGraph.Proofs.Graph.Placeholders
import FieldGraph.Proofs.Graph.PostOrder
import FieldGraph.Proofs.Graph.Reachability
import FieldGraph.Proofs.Graph.Removal
import FieldGraph.Proofs.Graph.Retyping
import FieldGraph.Proofs.Graph.Settling
import FieldGraph.Proofs.Graph.StandIns
import FieldGraph.Proofs.Graph.Steps
import FieldGraph.Proofs.Graph.Walks
import FieldGraph.Proofs.Graph.WellFormed
import FieldGraph.Proofs.Graph.Wiring
import FieldGraph.Proofs.Json.Codecs
import FieldGraph.Proofs.Json.Literals
import FieldGraph.Proofs.Json.Reading
import FieldGraph.Proofs.Json.Records
import FieldGraph.Proofs.Json.Scalars
import FieldGraph.Proofs.Json.Scanning
import FieldGraph.Proofs.Json.Spelling
import FieldGraph.Proofs.Live.Sessions
import FieldGraph.Proofs.Node
import FieldGraph.Proofs.Number.Approximation
import FieldGraph.Proofs.Number.Candidates
import FieldGraph.Proofs.Number.Clearance
import FieldGraph.Proofs.Number.DoubleRounding
import FieldGraph.Proofs.Number.Halfway
import FieldGraph.Proofs.Number.Magnitudes
import FieldGraph.Proofs.Number.Nearest
import FieldGraph.Proofs.Number.Plain
import FieldGraph.Proofs.Number.Reading
import FieldGraph.Proofs.Number.Rereading
import FieldGraph.Proofs.Number.Shortest
import FieldGraph.Proofs.Operator
import FieldGraph.Proofs.Ports
import FieldGraph.Proofs.Program.Blame
import FieldGraph.Proofs.Program.Duplication
import FieldGraph.Proofs.Program.Execution
import FieldGraph.Proofs.Program.Expansion
import FieldGraph.Proofs.Program.Fields
import FieldGraph.Proofs.Program.Instructions
import FieldGraph.Proofs.Program.Judgement
import FieldGraph.Proofs.Program.Listing
import FieldGraph.Proofs.Program.Lowering
import FieldGraph.Proofs.Program.Nesting
import FieldGraph.Proofs.Program.Parameters
import FieldGraph.Proofs.Program.Safety
import FieldGraph.Proofs.Program.Sharing
import FieldGraph.Proofs.Program.Signature
import FieldGraph.Proofs.Program.Translation
import FieldGraph.Proofs.Program.Typing
import FieldGraph.Proofs.Render.Bounces
import FieldGraph.Proofs.Render.ByteOrder
import FieldGraph.Proofs.Render.Completion
import FieldGraph.Proofs.Render.Histories
import FieldGraph.Proofs.Render.Images
import FieldGraph.Proofs.Render.Marching
import FieldGraph.Proofs.Render.Painting
import FieldGraph.Proofs.Render.PartialSettings
import FieldGraph.Proofs.Render.Reports
import FieldGraph.Proofs.Render.SettingsFile
import FieldGraph.Proofs.Render.Sky
import FieldGraph.Proofs.Render.Stripes
import FieldGraph.Proofs.Scalar
import FieldGraph.Proofs.Value
import FieldGraph.Render.Camera
import FieldGraph.Render.Environment
import FieldGraph.Render.Image
import FieldGraph.Render.Pixels
import FieldGraph.Render.Png
import FieldGraph.Render.Progress
import FieldGraph.Render.Settings
import FieldGraph.Render.SettingsFile
import FieldGraph.Render.Stripe
import FieldGraph.Render.Tracer
import FieldGraph.Render.Work
import FieldGraph.Scalar
import FieldGraph.Scene.Basic
import FieldGraph.Scene.Demo
import FieldGraph.Scene.Fragment
import FieldGraph.Shape
import FieldGraph.Value
import FieldGraph.Vector
