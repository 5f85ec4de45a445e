import Counterpart.Project
import Counterpart.Proofs.Alignment.Candidates
import Counterpart.Proofs.Alignment.Identity
import Counterpart.Proofs.Alignment.Leftovers
import Counterpart.Proofs.Alignment.Locality
import Counterpart.Proofs.Alignment.MovedChildren
import Counterpart.Proofs.Alignment.OneToOne
import Counterpart.Proofs.Alignment.Settling
import Counterpart.Proofs.FilePair.Modifiers
import Counterpart.Proofs.FilePair.Parameters
import Counterpart.Proofs.LinkSet.Overlay
import Counterpart.Proofs.Outcome.Declarators
import Counterpart.Proofs.Outcome.Deferral
import Counterpart.Proofs.Outcome.Identity
import Counterpart.Proofs.Outcome.Justification
import Counterpart.Proofs.Outcome.OrderIndependence
import Counterpart.Proofs.Outcome.Skipping
import Counterpart.Proofs.Outcome.Warnings
import Counterpart.Proofs.Project.Output
import Counterpart.Proofs.Project.Placement
import Counterpart.Proofs.Text.Extension
import Counterpart.Proofs.Text.Spans
import Counterpart.Proofs.Tree.Hashing
import Counterpart.Proofs.Tree.Navigation
import Counterpart.Tree.Text
