import FieldVault.Document.Collection
import FieldVault.Proofs.ContentDigest
import FieldVault.Proofs.Json.Written

/-!
# Digests of documents

A document can always be written down, so it always has a digest. That depends on nothing but the
hash of the compact form.
-/

set_option autoImplicit false

namespace FieldVault.Document

/-- The digest of the compact form of a document. -/
def digest (payload : Json) (threshold : Nat) : String :=
  ContentDigest.auto payload.encode threshold

theorem digest?_eq (payload : Json) (threshold : Nat) :
    digest? payload threshold = .ok (digest payload threshold) := by
  rw [digest?, Json.toBytes?_eq]
  rfl

/-- Documents have one digest exactly if the hashes of their compact forms are the same. -/
theorem digest_eq_iff {payload other : Json} {threshold : Nat} :
    digest payload threshold = digest other threshold ↔
      Sha2.sha512 payload.encode = Sha2.sha512 other.encode := by
  rw [digest, digest, ContentDigest.auto_eq, ContentDigest.auto_eq]
  exact ContentDigest.ofBytes_eq_iff

end FieldVault.Document
