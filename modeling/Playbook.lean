import Playbook.Main
import Playbook.Proofs.Outcome
import Playbook.Proofs.Path.NormalForm
import Playbook.Proofs.Command
import Playbook.Proofs.Expansion.Walk
import Playbook.Proofs.Expansion.Graph
import Playbook.Proofs.Library.Capacity
import Playbook.Proofs.Expansion.Position
import Playbook.Proofs.Expansion.Calls
import Playbook.Proofs.Expansion.Termination
import Playbook.Proofs.Expansion.Errors
import Playbook.Proofs.Instructions.Layout
import Playbook.Proofs.Json.Printing
import Playbook.Proofs.Json.Encoding
import Playbook.Proofs.Json.RoundTrip
import Playbook.Proofs.Parser.Forms
import Playbook.Proofs.Parser.Printer
import Playbook.Proofs.Parser.Runs
import Playbook.Proofs.Parser.Readings
import Playbook.Proofs.Parser.RoundTrip
import Playbook.Proofs.Parser.Layout
import Playbook.Proofs.Token.Edits
import Playbook.Proofs.Parser.Extent
import Playbook.Proofs.Token.Lines
import Playbook.Proofs.Parser.WellFormed
import Playbook.Proofs.Parser.Faults
import Playbook.Proofs.Expansion.Documents
import Playbook.Proofs.Instructions.Blocks
import Playbook.Proofs.Expansion.Roots
import Playbook.Proofs.Expansion.Results
import Playbook.Proofs.Expansion.Agreement
import Playbook.Proofs.Disk.Lookup
import Playbook.Proofs.Path.Canonical
import Playbook.Proofs.Disk.Tree
import Playbook.Proofs.Expansion.Independence
import Playbook.Proofs.Disk.Writing
import Playbook.Proofs.Install
import Playbook.Proofs.Json.Data
import Playbook.Proofs.Json.Parts
import Playbook.Proofs.Json.Fallback
import Playbook.Proofs.Token.Tiling
import Playbook.Proofs.Token.Braces
import Playbook.Proofs.Parser.Braces
import Playbook.Proofs.Parser.Pairs
import Playbook.Proofs.Text.Bytes
import Playbook.Proofs.Disk.Normalized
import Playbook.Proofs.CommandLine
import Playbook.Proofs.Token.Offsets
import Playbook.Proofs.Token.Arguments
import Playbook.Proofs.Parser.InPlace
import Playbook.Proofs.Parser.Positions
import Playbook.Proofs.Parser.Tracking
import Playbook.Proofs.Expansion.Spelling
import Playbook.Proofs.Instructions.Passage
import Playbook.Proofs.Instructions.Prompts
import Playbook.Proofs.Json.Variation
import Playbook.Proofs.Settings
import Playbook.Proofs.Parser.ArgumentLists
import Playbook.Proofs.Parser.Arrays
import Playbook.Proofs.Token.Gaps
import Playbook.Proofs.Token.Strings
