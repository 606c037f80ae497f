import FieldVault.OpenApi.Directory
import FieldVault.Session
import FieldVault.Settings
import FieldVault.Proofs.Document.Binding
import FieldVault.Proofs.Cipher.Draws
import FieldVault.Proofs.Cipher.RoundTrip
import FieldVault.Proofs.Cipher.Tampering
import FieldVault.Proofs.OpenApi.Coverage
import FieldVault.Proofs.Service.Documents
import FieldVault.Proofs.Session.Contents
import FieldVault.Proofs.Session.Seclusion
import FieldVault.Proofs.Session.Tracking
import FieldVault.Proofs.Session.Master
import FieldVault.Proofs.Document.Draws
import FieldVault.Proofs.Json.Extent
import FieldVault.Proofs.Json.RecordExtent
import FieldVault.Proofs.Json.Strings
import FieldVault.Proofs.Service.Reading
import FieldVault.Proofs.Service.Draws
import FieldVault.Proofs.Service.Nonces
import FieldVault.Proofs.Lifecycle
import FieldVault.Proofs.Service.Statuses
import FieldVault.Proofs.Service.Reachable
import FieldVault.Proofs.Service.Integrity
import FieldVault.Proofs.Base64.Standard
import FieldVault.Proofs.Envelope.Forms
import FieldVault.Proofs.Resolver.Coherence
import FieldVault.Proofs.Document.Visits
import FieldVault.Proofs.Message.RoundTrip
import FieldVault.Proofs.Document.FirstFailure
import FieldVault.Proofs.Document.OpenedFields
import FieldVault.Proofs.Document.SealedFields
import FieldVault.Proofs.Cipher.Hygiene
import FieldVault.Proofs.Cipher.Endings
import FieldVault.Proofs.Document.Reports
import FieldVault.Proofs.Document.CanonicalDigest
import FieldVault.Proofs.Wipe.Untyped
import FieldVault.Proofs.OpenApi.Directory
import FieldVault.Proofs.Settings
import FieldVault.Proofs.Document.Selection
import FieldVault.Proofs.Binary64.Rounding
import FieldVault.Proofs.Cipher.Stages
import FieldVault.Proofs.Wipe.Workers
import FieldVault.Proofs.Binary64.Reading
import FieldVault.Proofs.Settings.Texts
import FieldVault.Proofs.Entropy
