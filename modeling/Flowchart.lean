import Flowchart.Main
import Flowchart.Proofs.Explore.Interleavings
import Flowchart.Proofs.Explore.Progress
import Flowchart.Proofs.Explore.Renumbering
import Flowchart.Proofs.Explore.Verdict
import Flowchart.Proofs.Explore.Waiting
import Flowchart.Proofs.Expr.Placement
import Flowchart.Proofs.Expr.Transparency
import Flowchart.Proofs.LiveRun
import Flowchart.Proofs.Mentions
import Flowchart.Proofs.Cases
import Flowchart.Proofs.Explore.Bounds
import Flowchart.Proofs.Explore.Coverage
import Flowchart.Proofs.Explore.Traces
import Flowchart.Proofs.Expr.Integers
import Flowchart.Proofs.Commutation
import Flowchart.Proofs.Effect
import Flowchart.Proofs.History
import Flowchart.Proofs.Transcript
import Flowchart.Proofs.Expr.Nesting
import Flowchart.Proofs.Expr.ReadBack
import Flowchart.Proofs.Expr.Reach
import Flowchart.Proofs.Expr.Groups
import Flowchart.Proofs.Expr.Activation
import Flowchart.Proofs.Rendering
import Flowchart.Proofs.Equality
