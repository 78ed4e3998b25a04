import Resumable.Text.Blank
import Resumable.Text.Lines
import Resumable.Text.Decimal
import Resumable.Polarity
import Resumable.Addresses
import Resumable.Diagnostic
import Resumable.Flow.Basic
import Resumable.Flow.Defect
import Resumable.Flow.Walk
import Resumable.Host
import Resumable.Process
import Resumable.Code.Basic
import Resumable.Fault
import Resumable.Code.Emission
import Resumable.Code.Compression
import Resumable.Code.Listing
import Resumable.Table
import Resumable.Machine
import Resumable.Script
import Resumable.Gallery
import Resumable.Session
import Resumable.CommandLine
import Resumable.Main
import Resumable.Proofs.Process.Runs
import Resumable.Proofs.Process.Simulation
import Resumable.Proofs.Table.Contents
import Resumable.Proofs.Code.Execution
import Resumable.Proofs.Machine.Resumption
import Resumable.Proofs.Machine.History
import Resumable.Proofs.Code.Compression
import Resumable.Proofs.Code.Continuation
import Resumable.Proofs.Lowering
import Resumable.Proofs.Code.NormalForm
import Resumable.Proofs.Table.Slicing
import Resumable.Proofs.Table.Cut
import Resumable.Proofs.Code.Emission
import Resumable.Proofs.Code.Loops
import Resumable.Proofs.Machine.Progress
import Resumable.Proofs.Flow.Termination
import Resumable.Proofs.Flow.Suspension
import Resumable.Proofs.Flow.Coverage
import Resumable.Proofs.Flow.Texts
import Resumable.Proofs.Session.Reports
import Resumable.Proofs.Code.Relocation
import Resumable.Proofs.Code.Effects
import Resumable.Proofs.Session.Settings
import Resumable.Proofs.Code.Settling
import Resumable.Proofs.Flow.Merging
import Resumable.Proofs.Table.Selection
import Resumable.Proofs.Machine.Gaps
import Resumable.Proofs.Text.Decimal
import Resumable.Proofs.Flow.Paths
import Resumable.Proofs.Flow.Findings
import Resumable.Proofs.Text.Lines
import Resumable.Proofs.Code.Listing
import Resumable.Proofs.Table.Listing
