import BitAssembly.Main
import BitAssembly.Machine.Direct
import BitAssembly.Workload.Measure
import BitAssembly.Proofs.Result
import BitAssembly.Proofs.Machine.Reading
import BitAssembly.Proofs.Structured.Program
import BitAssembly.Proofs.Machine.Skipping
import BitAssembly.Proofs.Machine.Abreast
import BitAssembly.Proofs.Machine.Taking
import BitAssembly.Proofs.Structured.Layout
import BitAssembly.Proofs.Structured.Passing
import BitAssembly.Proofs.Structured.Fetching
import BitAssembly.Proofs.Structured.Items
import BitAssembly.Proofs.Structured.Interpreter
import BitAssembly.Proofs.Structured.Simulation
import BitAssembly.Proofs.Machine.Execute
import BitAssembly.Proofs.Structured.Refinement
import BitAssembly.Proofs.Source.Spelling
import BitAssembly.Proofs.Structured.Editions
import BitAssembly.Proofs.Machine.Invariant
import BitAssembly.Proofs.Source.Scanning
import BitAssembly.Proofs.Source.Gaps
import BitAssembly.Proofs.Source.Joining
import BitAssembly.Proofs.Text.Digits
import BitAssembly.Proofs.Source.Quotation
import BitAssembly.Proofs.Structured.Writing
import BitAssembly.Proofs.Machine.Coupling
import BitAssembly.Proofs.Machine.Performing
import BitAssembly.Proofs.Machine.Tracing
import BitAssembly.Proofs.Machine.Sequencing
import BitAssembly.Proofs.Machine.Collecting
import BitAssembly.Proofs.Machine.Policies
import BitAssembly.Proofs.Machine.Enclosure
import BitAssembly.Proofs.Machine.Termination
import BitAssembly.Proofs.Bits.Packing
import BitAssembly.Proofs.Bits.RoundTrip
import BitAssembly.Proofs.Program.Loading
import BitAssembly.Proofs.Machine.Failures
import BitAssembly.Proofs.Lint.Unread
import BitAssembly.Proofs.Lint.Operands
import BitAssembly.Proofs.Lint.Instructions
import BitAssembly.Proofs.Lint.Journal
import BitAssembly.Proofs.Lint.Layout
import BitAssembly.Proofs.Lint.Programs
import BitAssembly.Proofs.Lint.Quotation
import BitAssembly.Proofs.Lint.Completeness
import BitAssembly.Proofs.Program.Compiling
import BitAssembly.Proofs.Lint.Soundness
import BitAssembly.Proofs.Machine.Alignment
import BitAssembly.Proofs.Machine.Pages
import BitAssembly.Proofs.Machine.Unchanged
import BitAssembly.Proofs.Machine.Registers
import BitAssembly.Proofs.Structured.Lines
import BitAssembly.Proofs.Structured.Counting
import BitAssembly.Proofs.Structured.Integers
import BitAssembly.Proofs.Structured.Escapes
import BitAssembly.Proofs.Lint.Positions
import BitAssembly.Proofs.Lint.Consumption
import BitAssembly.Proofs.Lint.Lockstep
import BitAssembly.Proofs.Lint.Narration
import BitAssembly.Proofs.Lint.Blocks
import BitAssembly.Proofs.Structured.Saving
import BitAssembly.Proofs.Machine.Output
import BitAssembly.Proofs.Structured.Bytewise
import BitAssembly.Proofs.Text.Numerals
import BitAssembly.Proofs.Text.Numbers
import BitAssembly.Proofs.Structured.Asking
import BitAssembly.Proofs.Lint.Scan
