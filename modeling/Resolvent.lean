import Resolvent.Config.Document
import Resolvent.Order
import Resolvent.Solver
import Resolvent.Proofs.Calling
import Resolvent.Proofs.Restoring
import Resolvent.Proofs.Searching
import Resolvent.Proofs.Updating
import Resolvent.Proofs.Hosting
import Resolvent.Proofs.Halting
import Resolvent.Proofs.Compiled
import Resolvent.Proofs.Coherence
import Resolvent.Proofs.Interleaving
import Resolvent.Proofs.Tracing
import Resolvent.Proofs.Ownership
import Resolvent.Proofs.Atomicity
import Resolvent.Proofs.Decoding
import Resolvent.Proofs.Acyclic
import Resolvent.Proofs.Undoing
import Resolvent.Proofs.Easing
import Resolvent.Proofs.Limits
import Resolvent.Proofs.Following
import Resolvent.Proofs.Catching
import Resolvent.Proofs.Heads
import Resolvent.Proofs.Scoping
import Resolvent.Proofs.Rounding
import Resolvent.Proofs.Exactness
import Resolvent.Proofs.Keying
import Resolvent.Proofs.StandardOrder
import Resolvent.Proofs.Accepting
import Resolvent.Proofs.Pieces
import Resolvent.Proofs.Numbering
import Resolvent.Proofs.Nesting
import Resolvent.Proofs.Sharing
import Resolvent.Proofs.Ranges
import Resolvent.Proofs.Collecting
import Resolvent.Proofs.Footing
import Resolvent.Proofs.Shifting
import Resolvent.Proofs.Leveling
import Resolvent.Proofs.Transparency
import Resolvent.Proofs.Identity
import Resolvent.Proofs.Sweeping
import Resolvent.Proofs.Rendering
import Resolvent.Proofs.Decimals
import Resolvent.Proofs.Displaying
import Resolvent.Proofs.Descent
import Resolvent.Proofs.Interning
import Resolvent.Proofs.Folding
