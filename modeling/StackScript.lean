import StackScript.CommandLine
import StackScript.Interpreter
import StackScript.Main
import StackScript.Proofs.Compile.IntegerText
import StackScript.Proofs.Compile.Isolation
import StackScript.Proofs.Compile.Located
import StackScript.Proofs.Compile.Modes
import StackScript.Proofs.Compile.Nesting
import StackScript.Proofs.Compile.OperatorBound
import StackScript.Proofs.Compile.Places
import StackScript.Proofs.Compile.Progress
import StackScript.Proofs.Compile.ReadBack
import StackScript.Proofs.Compile.Rendered
import StackScript.Proofs.Compile.Strictness
import StackScript.Proofs.Image.Canonical
import StackScript.Proofs.Image.RoundTrip
import StackScript.Proofs.Image.Truncation
import StackScript.Proofs.Machine.Addresses
import StackScript.Proofs.Machine.Cutoff
import StackScript.Proofs.Machine.Faults
import StackScript.Proofs.Machine.Links
import StackScript.Proofs.Machine.Precedence
import StackScript.Proofs.Machine.Segments
import StackScript.Proofs.Machine.Session
import StackScript.Proofs.Operator.Exact
import StackScript.Proofs.Operator.Order
import StackScript.Proofs.Program.Listing
import StackScript.Proofs.Program.Stream
import StackScript.Proofs.Source.Numbers
import StackScript.Proofs.Source.Positions
import StackScript.Proofs.Source.Strings
import StackScript.Proofs.Source.Window
import StackScript.Proofs.Source.Words
