import Monomorph.Code.Encoding
import Monomorph.Code.Listing
import Monomorph.Code.Lowering
import Monomorph.Report
import Monomorph.Settings.Basic
import Monomorph.Proofs.Type.Unification
import Monomorph.Proofs.Code.Updates
import Monomorph.Proofs.Meaning.Simulation
import Monomorph.Proofs.Meaning.Stores
import Monomorph.Proofs.Meaning.Parts
import Monomorph.Proofs.Meaning.Branches
import Monomorph.Proofs.Meaning.Bodies
import Monomorph.Proofs.Meaning.Procedures
import Monomorph.Proofs.Type.Narrowing
import Monomorph.Proofs.Type.Demands
import Monomorph.Proofs.Type.Reordering
import Monomorph.Proofs.Draft.Nodes
import Monomorph.Proofs.Draft.Layout
import Monomorph.Proofs.Draft.Recorded
import Monomorph.Proofs.Draft.Steps
import Monomorph.Proofs.Draft.Drafted
import Monomorph.Proofs.Type.Sharpening
import Monomorph.Proofs.Type.Copying
import Monomorph.Proofs.Type.Lasting
import Monomorph.Proofs.Type.Mirroring
import Monomorph.Proofs.Draft.Allocation
import Monomorph.Proofs.Solve.Binding
import Monomorph.Proofs.Solve.Solving
import Monomorph.Proofs.Solve.Kept
import Monomorph.Proofs.Solve.Checked
import Monomorph.Proofs.Draft.Region
import Monomorph.Proofs.Meaning.Typing
import Monomorph.Proofs.Solve.Settled
import Monomorph.Proofs.Solve.Unwraps
import Monomorph.Proofs.Solve.Trials
import Monomorph.Proofs.Meaning.Programs
import Monomorph.Proofs.Type.Building
import Monomorph.Proofs.Draft.Operands
import Monomorph.Proofs.Solve.Outright
import Monomorph.Proofs.Solve.Typed
import Monomorph.Proofs.Solve.Sound
import Monomorph.Proofs.Solve.Soundness
import Monomorph.Proofs.Solve.Clean
import Monomorph.Proofs.Solve.References
import Monomorph.Proofs.Solve.Agreement
import Monomorph.Proofs.Solve.Cycles
import Monomorph.Proofs.Solve.Verdict
import Monomorph.Proofs.Solve.Orders
import Monomorph.Proofs.Solve.Undisturbed
import Monomorph.Proofs.Code.WellTyped
import Monomorph.Proofs.Code.TypedParts
import Monomorph.Proofs.Code.Typed
import Monomorph.Proofs.Code.Pipeline
import Monomorph.Proofs.Code.Definitions
import Monomorph.Proofs.Type.History
import Monomorph.Proofs.Constant.Folding
import Monomorph.Proofs.Draft.Formed
import Monomorph.Proofs.Solve.Formed
import Monomorph.Proofs.Code.Lowerable
import Monomorph.Proofs.Type.Independence
import Monomorph.Proofs.Type.Shaping
import Monomorph.Proofs.Code.Logical
import Monomorph.Proofs.Solve.Machine
import Monomorph.Proofs.Solve.Termination
import Monomorph.Proofs.Draft.Acts
import Monomorph.Proofs.Draft.Performed
import Monomorph.Proofs.Draft.Sight
import Monomorph.Proofs.Draft.Captured
import Monomorph.Proofs.Draft.Ways
import Monomorph.Proofs.Draft.Balanced
import Monomorph.Proofs.Draft.Given
import Monomorph.Proofs.Draft.Valued
import Monomorph.Proofs.Code.Scoped
import Monomorph.Proofs.Solve.Covered
import Monomorph.Proofs.Code.Resolved
import Monomorph.Proofs.Type.Presentation
import Monomorph.Proofs.Type.Layouts
import Monomorph.Proofs.Solve.Candidates
import Monomorph.Proofs.Draft.Unseen
import Monomorph.Proofs.Draft.Naming
import Monomorph.Proofs.Solve.Likeness
import Monomorph.Proofs.Solve.Naming
import Monomorph.Proofs.Constant.Floats
import Monomorph.Proofs.Constant.Equality
import Monomorph.Proofs.Constant.Sharing
import Monomorph.Proofs.Constant.Members
import Monomorph.Proofs.Constant.Values
import Monomorph.Proofs.Code.Statements
import Monomorph.Proofs.Type.Turns
import Monomorph.Proofs.Report
import Monomorph.Proofs.Code.Separated
import Monomorph.Proofs.LineIndex
import Monomorph.Proofs.Path
