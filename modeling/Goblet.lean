import Goblet.Main
import Goblet.Proofs.Machine.Paths
import Goblet.Proofs.Machine.Slicing
import Goblet.Proofs.Scalar.Literal
import Goblet.Proofs.Session.Applying
import Goblet.Proofs.Session.Frames
import Goblet.Proofs.Snapshot.Codec
import Goblet.Proofs.Snapshot.Copy
import Goblet.Proofs.Statement.Evaluation
import Goblet.Proofs.Stream.WellFormed
import Goblet.Proofs.TypeExpr.Text
import Goblet.Proofs.Value.Arithmetic
import Goblet.Proofs.Value.Assignable
