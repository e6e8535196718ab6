import HackAssembler.Machine.Exchange
import HackAssembler.Command.FileTree
import HackAssembler.Main
import HackAssembler.Proofs.Symbols.Persistence
import HackAssembler.Proofs.Assembly.Specification
import HackAssembler.Proofs.Assembly.Faults
import HackAssembler.Proofs.Assembly.Binary
import HackAssembler.Proofs.Assembly.Disassembly
import HackAssembler.Proofs.Assembly.Layout
import HackAssembler.Proofs.Assembly.Renaming
import HackAssembler.Proofs.Assembly.Appending
import HackAssembler.Proofs.Assembly.Insertion
import HackAssembler.Proofs.Assembly.Relinking
import HackAssembler.Proofs.Assembly.Exhaustion
import HackAssembler.Proofs.Source.Diagnoses
import HackAssembler.Proofs.Source.Shapes
import HackAssembler.Proofs.Source.Comments
import HackAssembler.Proofs.Report.Agreement
import HackAssembler.Proofs.Report.Completeness
import HackAssembler.Proofs.Command.Outcomes
import HackAssembler.Proofs.Command.Sources
import HackAssembler.Proofs.Command.Naming
import HackAssembler.Proofs.Assembly.Normalization
import HackAssembler.Proofs.Symbols.Documents
import HackAssembler.Proofs.Assembly.Events
import HackAssembler.Proofs.Command.Logs
import HackAssembler.Proofs.Machine.Exchange
import HackAssembler.Proofs.Machine.Letters
