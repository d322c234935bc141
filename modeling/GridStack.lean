import GridStack.Machine.Run
import GridStack.Main
import GridStack.Proofs.Image.Placement
import GridStack.Proofs.Lowered
import GridStack.Proofs.Machine.Path
import GridStack.Proofs.Machine.View
import GridStack.Proofs.Reference
import GridStack.Proofs.Machine.Block
import GridStack.Proofs.Draft.Code
import GridStack.Proofs.Draft.Emission
import GridStack.Proofs.Machine.Realize
import GridStack.Proofs.Simulation.Call
import GridStack.Proofs.Simulation.Expr
import GridStack.Proofs.Simulation.Stmt
import GridStack.Proofs.Simulation.Function
import GridStack.Proofs.Accepted
import GridStack.Proofs.Linked
import GridStack.Proofs.Safety
import GridStack.Proofs.Calling
import GridStack.Proofs.Words
import GridStack.Proofs.Agreement
import GridStack.Proofs.Correctness
import GridStack.Proofs.Fusion
import GridStack.Proofs.Draft.Calls
import GridStack.Proofs.Acceptance.Checking
import GridStack.Proofs.Acceptance.Generation
import GridStack.Proofs.Draft.Labels
import GridStack.Proofs.Image.Resolution
import GridStack.Proofs.Acceptance.Exact
import GridStack.Proofs.Machine.Until
import GridStack.Proofs.Frames.Base
import GridStack.Proofs.Frames.Ending
import GridStack.Proofs.Wire.RoundTrip
import GridStack.Proofs.Image.Closure
import GridStack.Proofs.Image.Targets
import GridStack.Proofs.Image.Relocation
import GridStack.Proofs.Draft.Depth
import GridStack.Proofs.Image.Exact
import GridStack.Proofs.Peephole
import GridStack.Proofs.Draft.Alphabet
import GridStack.Proofs.Draft.Numbering
import GridStack.Proofs.Image.WellFormed
import GridStack.Proofs.Machine.Narrow
import GridStack.Proofs.Narrow
import GridStack.Proofs.Acceptance.Variables
import GridStack.Proofs.Isolation
import GridStack.Proofs.Image.Fits
import GridStack.Proofs.Machine.Stores
import GridStack.Proofs.Shell.Session
import GridStack.Proofs.Image.Text
import GridStack.Proofs.Wire.Shortest
import GridStack.Proofs.Machine.Effect
import GridStack.Proofs.Machine.Limits
