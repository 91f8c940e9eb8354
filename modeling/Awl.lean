import Awl.Main
import Awl.Proofs.Allocation
import Awl.Proofs.DeclareBeforeUse
import Awl.Proofs.Demand
import Awl.Proofs.Interning
import Awl.Proofs.ListingLines
import Awl.Proofs.NumberingCode
import Awl.Proofs.Preservation
import Awl.Proofs.ReadingBack
import Awl.Proofs.Reordering
import Awl.Proofs.ScopeCalls
import Awl.Proofs.StaticWrites
import Awl.Proofs.Substitutes
import Awl.Proofs.WriteOnce
import Awl.Syntax.Build
