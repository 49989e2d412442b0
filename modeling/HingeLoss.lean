import HingeLoss.Descent.Run
import HingeLoss.Descent.Watched
import HingeLoss.Proofs.Atoms.Keeping
import HingeLoss.Proofs.Atoms.Layout
import HingeLoss.Proofs.Atoms.Loading
import HingeLoss.Proofs.Atoms.Rows
import HingeLoss.Proofs.Atoms.Saving
import HingeLoss.Proofs.Decimal.Written
import HingeLoss.Proofs.Descent.Accumulating
import HingeLoss.Proofs.Descent.Agreement
import HingeLoss.Proofs.Descent.BestValues
import HingeLoss.Proofs.Descent.Bounds
import HingeLoss.Proofs.Descent.Cancelling
import HingeLoss.Proofs.Descent.Closing
import HingeLoss.Proofs.Descent.Constraints
import HingeLoss.Proofs.Descent.Ending
import HingeLoss.Proofs.Descent.Failing
import HingeLoss.Proofs.Descent.Frame
import HingeLoss.Proofs.Descent.Interleaving
import HingeLoss.Proofs.Descent.Nearing
import HingeLoss.Proofs.Descent.Optimality
import HingeLoss.Proofs.Descent.Passes
import HingeLoss.Proofs.Descent.Repair
import HingeLoss.Proofs.Descent.Repeating
import HingeLoss.Proofs.Descent.Serving
import HingeLoss.Proofs.Descent.Slots
import HingeLoss.Proofs.Descent.Stopping
import HingeLoss.Proofs.Descent.Sweeps
import HingeLoss.Proofs.Descent.UnitValues
import HingeLoss.Proofs.Descent.Watching
import HingeLoss.Proofs.Descent.Writes
import HingeLoss.Proofs.Grounding.Clauses
import HingeLoss.Proofs.Grounding.Folding
import HingeLoss.Proofs.Grounding.Forms
import HingeLoss.Proofs.Grounding.Meaning
import HingeLoss.Proofs.Grounding.Outcomes
import HingeLoss.Proofs.Grounding.Shapes
import HingeLoss.Proofs.Options.Limit
import HingeLoss.Proofs.Options.Setting
import HingeLoss.Proofs.Record.Canonical
import HingeLoss.Proofs.Record.Cursors
import HingeLoss.Proofs.Record.Defects
import HingeLoss.Proofs.Record.Reuse
import HingeLoss.Proofs.Record.Room
import HingeLoss.Proofs.Record.RoundTrip
import HingeLoss.Proofs.Record.Writing
import HingeLoss.Proofs.Rule.Registration
import HingeLoss.Proofs.Scalar.Difference
import HingeLoss.Proofs.Scalar.Exact
import HingeLoss.Proofs.Scalar.Nearest
import HingeLoss.Proofs.Scalar.Whole
import HingeLoss.Proofs.Store.Accepting
import HingeLoss.Proofs.Store.Adding
import HingeLoss.Proofs.Store.Agreement
import HingeLoss.Proofs.Store.Content
import HingeLoss.Proofs.Store.Flushing
import HingeLoss.Proofs.Store.History
import HingeLoss.Proofs.Store.Inserting
import HingeLoss.Proofs.Store.Lawful
import HingeLoss.Proofs.Store.Pages
import HingeLoss.Proofs.Store.Provenance
import HingeLoss.Proofs.Store.Reachable
import HingeLoss.Proofs.Store.Reading
import HingeLoss.Proofs.Store.Schedules
import HingeLoss.Proofs.Store.Simulation
import HingeLoss.Proofs.Store.Steady
import HingeLoss.Proofs.Store.Stored
import HingeLoss.Proofs.Store.Working
import HingeLoss.Proofs.Term.Convexity
import HingeLoss.Proofs.Term.Subgradients
import HingeLoss.Record.Draft
import HingeLoss.Store.Crew
import HingeLoss.Store.Memory
import HingeLoss.Store.Paged
