import Recast.Arena.Printer
import Recast.Justification
import Recast.Proofs.Inclusion.Monotone
import Recast.Proofs.Inclusion.Runs
import Recast.Proofs.Question.Reflexive
import Recast.Proofs.Question.Transparent
import Recast.Proofs.Pattern.Products
import Recast.Proofs.Assembly.Graded
import Recast.Proofs.Inclusion.Frame
import Recast.Proofs.Inclusion.Audit
import Recast.Proofs.Assembly.Widths
import Recast.Proofs.Question.Exacting
import Recast.Proofs.Question.Tails
import Recast.Proofs.Question.Unions
import Recast.Proofs.Question.Blank
import Recast.Proofs.Assembly.Tags
import Recast.Proofs.Assembly.Sequence
import Recast.Proofs.Lifetime
import Recast.Proofs.Question.Sealed
import Recast.Proofs.ByteSet.Canonical
import Recast.Proofs.Position.Rounds
