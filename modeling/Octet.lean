import Octet.Attachment
import Octet.Main
import Octet.Proofs.Assembly.Correctness
import Octet.Proofs.Assembly.Encoding
import Octet.Proofs.Assembly.InstructionLine
import Octet.Proofs.Assembly.Layout
import Octet.Proofs.Assembly.Lexing
import Octet.Proofs.Assembly.Literal
import Octet.Proofs.Assembly.OperandCheck
import Octet.Proofs.Assembly.Outcome
import Octet.Proofs.Assembly.Piece
import Octet.Proofs.Assembly.Placement
import Octet.Proofs.Assembly.Program
import Octet.Proofs.Assembly.Reading
import Octet.Proofs.Execution
import Octet.Proofs.Lists
import Octet.Proofs.Machine.Flat
import Octet.Proofs.Machine.Instruction
import Octet.Proofs.Text.Words
import Octet.Proofs.Bus.Transfer
import Octet.Proofs.Machine.Operation
import Octet.Proofs.Machine.Likeness
import Octet.Proofs.Machine.Simulation
import Octet.Proofs.Machine.MountOrder
import Octet.Proofs.Machine.Configuration
import Octet.Proofs.Machine.Restart
import Octet.Proofs.Machine.Tiling
import Octet.Proofs.Machine.Stack
import Octet.Proofs.Assembly.Survival
import Octet.Proofs.Machine.Law
import Octet.Proofs.Machine.Diagnostics
import Octet.Proofs.Bus.Steady
import Octet.Proofs.Machine.Halting
import Octet.Proofs.Machine.Recorder
import Octet.Proofs.Machine.Routing
import Octet.Proofs.Json.Documents
import Octet.Proofs.Json.Lexemes
import Octet.Proofs.Json.Images
import Octet.Proofs.Machine.Mirrors
import Octet.Proofs.Bus.Attached
import Octet.Proofs.Machine.Demands
import Octet.Proofs.Machine.Frame
import Octet.Proofs.Machine.Confinement
import Octet.Proofs.Assembly.Visits
import Octet.Proofs.Assembly.LabelTargets
import Octet.Proofs.Assembly.Labels
import Octet.Proofs.Assembly.OperandBlame
import Octet.Proofs.Assembly.OperandWalk
import Octet.Proofs.Assembly.LineCheck
import Octet.Proofs.Machine.Runs
import Octet.Proofs.Text.Pieces
import Octet.Proofs.Assembly.Edits
import Octet.Proofs.Assembly.Extension
import Octet.Proofs.Assembly.LineNumbers
import Octet.Proofs.Assembly.Relocation
import Octet.Proofs.Bus.Arbitration
import Octet.Proofs.Bus.Filter
import Octet.Proofs.Bus.Handles
import Octet.Proofs.Bus.MemoryHistory
import Octet.Proofs.Machine.Loading
import Octet.Proofs.Machine.Completion
import Octet.Proofs.Machine.InstructionLength
import Octet.Proofs.Machine.CarryChain
import Octet.Proofs.Bus.Ranges
import Octet.Proofs.Assembly.Classification
import Octet.Proofs.Files.Paths
import Octet.Proofs.Files.Writing
import Octet.Proofs.Files.Building
