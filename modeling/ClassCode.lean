import ClassCode.Body.Wire
import ClassCode.Pool.Edit
import ClassCode.Proofs.Body.Counts
import ClassCode.Proofs.Body.Recovery
import ClassCode.Proofs.Body.Refusals
import ClassCode.Proofs.Body.Registrations
import ClassCode.Proofs.Body.Rereading
import ClassCode.Proofs.Body.RoundTrip
import ClassCode.Proofs.Capacity
import ClassCode.Proofs.Code.Complaints
import ClassCode.Proofs.Code.Moving
import ClassCode.Proofs.Code.Refusals
import ClassCode.Proofs.Code.Retargeting
import ClassCode.Proofs.Code.Splicing
import ClassCode.Proofs.Code.Undoing
import ClassCode.Proofs.Code.Whereabouts
import ClassCode.Proofs.Constant.Identity
import ClassCode.Proofs.Holders.Copies
import ClassCode.Proofs.Layout.Lookup
import ClassCode.Proofs.Pool.Adding
import ClassCode.Proofs.Pool.Commuting
import ClassCode.Proofs.Pool.Distinct
import ClassCode.Proofs.Pool.Merging
import ClassCode.Proofs.Pool.References
import ClassCode.Proofs.Pool.Refusals
import ClassCode.Proofs.Pool.Renumbering
import ClassCode.Proofs.Pool.RoundTrip
import ClassCode.Proofs.Pool.WellLinked
import ClassCode.Proofs.Text.Forms
import ClassCode.Proofs.Truncation
