import CallLedger.Dump.Same
import CallLedger.Heap
import CallLedger.Main
import CallLedger.Profile.Edges
import CallLedger.Session.Operation
import CallLedger.Proofs.Agreement
import CallLedger.Proofs.Attribution
import CallLedger.Proofs.Folding
import CallLedger.Proofs.Interleaving
import CallLedger.Proofs.NodeBalance
import CallLedger.Proofs.RoundTrip
import CallLedger.Proofs.Observed
import CallLedger.Proofs.Transparency
import CallLedger.Proofs.Directory
import CallLedger.Proofs.Unbroken
import CallLedger.Proofs.Lifecycle
import CallLedger.Proofs.Acceptance
import CallLedger.Proofs.Renumbering
import CallLedger.Proofs.Remerging
import CallLedger.Proofs.Commuting
import CallLedger.Proofs.Identity
import CallLedger.Proofs.Untraced
import CallLedger.Proofs.Arrangement
import CallLedger.Proofs.Coherence
import CallLedger.Proofs.Tallies
import CallLedger.Proofs.Packing
import CallLedger.Proofs.Texts
import CallLedger.Proofs.Grafting
import CallLedger.Proofs.Siblings
import CallLedger.Proofs.Edges
import CallLedger.Proofs.Refusals
import CallLedger.Proofs.Tenure
import CallLedger.Proofs.Discipline
import CallLedger.Proofs.Probing
import CallLedger.Proofs.Expressions
import CallLedger.Proofs.Widths
