import DeployScript.Code.Listing
import DeployScript.Main
import DeployScript.Proofs.Code.WellFormed
import DeployScript.Proofs.Program.Spelled
import DeployScript.Proofs.Heap.Collect
import DeployScript.Proofs.Heap.Writes
import DeployScript.Proofs.Machine.Collections
import DeployScript.Proofs.Machine.Code
import DeployScript.Proofs.Machine.Errors
import DeployScript.Proofs.Machine.Ordinary
import DeployScript.Proofs.Machine.Cells
import DeployScript.Proofs.Session.Confined
import DeployScript.Proofs.Heap.Confined
import DeployScript.Proofs.Machine.Confined
import DeployScript.Proofs.Heap.Cells
import DeployScript.Proofs.Meaning.Evaluate
import DeployScript.Proofs.Meaning.Following
import DeployScript.Proofs.Program.Height
import DeployScript.Proofs.Machine.Neutral
import DeployScript.Proofs.Session.LifeCycle
import DeployScript.Proofs.Session.Load
import DeployScript.Proofs.Meaning.Blocks
import DeployScript.Proofs.Meaning.Calls
import DeployScript.Proofs.Meaning.Scripts
import DeployScript.Proofs.Bindings.Immutable
import DeployScript.Proofs.Program.Precedence
import DeployScript.Proofs.Package.Embedding
import DeployScript.Proofs.Meaning.Behind
import DeployScript.Proofs.Meaning.Outside
import DeployScript.Proofs.Session.Concatenated
import DeployScript.Proofs.Program.Positions
import DeployScript.Proofs.Session.Declared
import DeployScript.Proofs.Heap.Bytes
import DeployScript.Proofs.Heap.Displays
import DeployScript.Proofs.Program.Tiling
import DeployScript.Proofs.Program.Bounded
import DeployScript.Proofs.Session.Plans
import DeployScript.Proofs.Bindings.Mentioned
import DeployScript.Proofs.Code.Written
import DeployScript.Proofs.Meaning.Walks
import DeployScript.Proofs.Machine.Failures
import DeployScript.Proofs.Machine.Causes
import DeployScript.Proofs.Machine.Survivors
import DeployScript.Proofs.Session.Excerpts
import DeployScript.Proofs.Session.Packaged
import DeployScript.Proofs.Program.Literals
import DeployScript.Proofs.Host.Replace
import DeployScript.Proofs.Heap.Allocation
import DeployScript.Proofs.Package.Names
