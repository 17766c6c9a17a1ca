import RealMode.Address
import RealMode.Analysis
import RealMode.Analysis.Discovery
import RealMode.Analysis.Linking
import RealMode.Analysis.Ownership
import RealMode.Analysis.Scan
import RealMode.Analysis.State
import RealMode.Attempt
import RealMode.Block
import RealMode.Block.Index
import RealMode.Collection.Arena
import RealMode.Collection.Graph
import RealMode.Collection.Heap
import RealMode.Collection.Keyed
import RealMode.Collection.Line
import RealMode.Collection.Queue
import RealMode.Collection.Search
import RealMode.Collection.Stable
import RealMode.Decoder
import RealMode.Diagnostic
import RealMode.Fault
import RealMode.Fixup
import RealMode.Fixup.Table
import RealMode.FlowGraph
import RealMode.Image
import RealMode.Image.Marks
import RealMode.Instruction
import RealMode.Json.Basic
import RealMode.Json.Code
import RealMode.Json.Memory
import RealMode.Json.Parser
import RealMode.Json.Printer
import RealMode.Json.Record
import RealMode.Json.Report
import RealMode.Json.Settings
import RealMode.Json.Tables
import RealMode.JumpTable
import RealMode.Listing
import RealMode.Procedure
import RealMode.Program
import RealMode.Program.Layout
import RealMode.Program.Resolve
import RealMode.Program.Target
import RealMode.Proofs.Analysis.CallGraph
import RealMode.Proofs.Analysis.Calls
import RealMode.Proofs.Analysis.Connection
import RealMode.Proofs.Analysis.Coverage
import RealMode.Proofs.Analysis.Declarations
import RealMode.Proofs.Analysis.Draining
import RealMode.Proofs.Analysis.DynamicTargets
import RealMode.Proofs.Analysis.Echoes
import RealMode.Proofs.Analysis.Endings
import RealMode.Proofs.Analysis.EntryOrder
import RealMode.Proofs.Analysis.Findings
import RealMode.Proofs.Analysis.Frame
import RealMode.Proofs.Analysis.Geometry
import RealMode.Proofs.Analysis.Growth
import RealMode.Proofs.Analysis.Leaders
import RealMode.Proofs.Analysis.Ledger
import RealMode.Proofs.Analysis.Limits
import RealMode.Proofs.Analysis.Linking
import RealMode.Proofs.Analysis.Members
import RealMode.Proofs.Analysis.NotTaken
import RealMode.Proofs.Analysis.Ownership
import RealMode.Proofs.Analysis.Parting
import RealMode.Proofs.Analysis.Phases
import RealMode.Proofs.Analysis.Precedence
import RealMode.Proofs.Analysis.Procedures
import RealMode.Proofs.Analysis.Reachability
import RealMode.Proofs.Analysis.Rederiving
import RealMode.Proofs.Analysis.References
import RealMode.Proofs.Analysis.Reruns
import RealMode.Proofs.Analysis.Seeking
import RealMode.Proofs.Analysis.Settings
import RealMode.Proofs.Analysis.Shortfalls
import RealMode.Proofs.Analysis.Slots
import RealMode.Proofs.Analysis.Soundness
import RealMode.Proofs.Analysis.Step
import RealMode.Proofs.Analysis.Successors
import RealMode.Proofs.Analysis.Survey
import RealMode.Proofs.Analysis.Tables
import RealMode.Proofs.Analysis.Tasks
import RealMode.Proofs.Analysis.Tiling
import RealMode.Proofs.Block.Editing
import RealMode.Proofs.Block.Index
import RealMode.Proofs.Block.Outcomes
import RealMode.Proofs.Collection.Adjacency
import RealMode.Proofs.Collection.Arena
import RealMode.Proofs.Collection.Chain
import RealMode.Proofs.Collection.Cut
import RealMode.Proofs.Collection.Graph
import RealMode.Proofs.Collection.Heap
import RealMode.Proofs.Collection.Queue
import RealMode.Proofs.Collection.Requests
import RealMode.Proofs.Collection.Search
import RealMode.Proofs.Collection.Sifting
import RealMode.Proofs.Collection.Stable
import RealMode.Proofs.Decoder.Contract
import RealMode.Proofs.Fixup.Table
import RealMode.Proofs.FlowGraph
import RealMode.Proofs.FlowGraph.Changes
import RealMode.Proofs.Image.Marking
import RealMode.Proofs.Image.Tiling
import RealMode.Proofs.Json.Form
import RealMode.Proofs.Json.Literal
import RealMode.Proofs.Json.Report
import RealMode.Proofs.Json.Text
import RealMode.Proofs.JumpTable
import RealMode.Proofs.JumpTable.Taking
import RealMode.Proofs.Place
import RealMode.Proofs.Procedure
import RealMode.Proofs.Program.Construction
import RealMode.Proofs.Program.Flat
import RealMode.Proofs.Program.Layout
import RealMode.Proofs.Program.Loading
import RealMode.Proofs.Program.Reframing
import RealMode.Proofs.Program.Remarking
import RealMode.Proofs.Program.Resolution
import RealMode.Proofs.Program.Runs
import RealMode.Proofs.Program.Settling
import RealMode.Proofs.Program.Sharing
import RealMode.Proofs.Program.Target
import RealMode.Proofs.X86.Constants
import RealMode.Proofs.X86.Contract
import RealMode.Proofs.X86.Fixups
import RealMode.Proofs.X86.Reader
import RealMode.Reference
import RealMode.Reference.Log
import RealMode.Report
import RealMode.Settings
import RealMode.Text.Blank
import RealMode.Text.Numeral
import RealMode.X86.Decoder
import RealMode.X86.Encoding
import RealMode.X86.Machine
import RealMode.X86.Memory
import RealMode.X86.Modifiers
import RealMode.X86.Reader
import RealMode.X86.Text
