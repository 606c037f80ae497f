import FieldVault.Proofs.Vault.Growth

/-!
# Calls of a cipher only add

Every call of a cipher grows the vault, within the scope it is given and with the secret as the one
older value it tracks. An encrypting call leaves no handle to be placed, a decrypting call the one
on its result.
-/

set_option autoImplicit false

namespace FieldVault

open Wipe (ValueId)
open Vault (Grows)

namespace FieldCipher

open Cipher

variable {known : List ValueId} {secret : ValueId}

/-- The handle that comes with a result. -/
def handed : Except Fault ValueId → List ValueId
  | .ok id => [id]
  | .error _ => []

/-- Opening an envelope leaves the handle on the plaintext, if there is one. -/
theorem grows_afterOpen (hsecret : secret ∈ known) (v : Vault) (scope : ScopeId)
    (result : Except Fault Bytes) :
    Grows known scope (handed (result.map fun _ => v.cells.size + 1)) v
      (v.afterOpen scope secret result) := by
  have hspent : Grows known scope [] v (v.spendKey scope secret) :=
    (Grows.refl v).spendKey hsecret
  cases result with
  | error fault => exact hspent
  | ok plaintext =>
    have hopened := hspent.addTracked (.bytes plaintext)
    rwa [Vault.size_cells_spendKey] at hopened

variable (cipher : FieldCipher) (scope : ScopeId) (context : String) (v : Vault)

theorem grows_tryEncrypt (hsecret : secret ∈ known) (plaintext : Bytes) :
    Grows known scope [] v ((cipher.tryEncrypt scope secret context plaintext).run v).2 := by
  rw [tryEncrypt_run]
  exact ((Grows.refl v).spendKey hsecret).congr rfl rfl

theorem grows_tryEncryptText (hsecret : secret ∈ known) (plaintext : String) :
    Grows known scope [] v ((cipher.tryEncryptText scope secret context plaintext).run v).2 := by
  rw [tryEncryptText_run]
  exact ((Grows.refl v).spendKey hsecret).congr rfl rfl

theorem grows_encrypt (hsecret : secret ∈ known) (plaintext : Bytes) :
    Grows known scope [] v ((cipher.encrypt scope secret context plaintext).run v).2 := by
  have hgrows := cipher.grows_tryEncrypt scope context v hsecret plaintext
  rw [encrypt, run_bind]
  cases ((cipher.tryEncrypt scope secret context plaintext).run v).1 with
  | ok envelope => exact hgrows
  | error fault => exact hgrows.congr rfl rfl

theorem grows_encryptText (hsecret : secret ∈ known) (plaintext : String) :
    Grows known scope [] v ((cipher.encryptText scope secret context plaintext).run v).2 := by
  have hgrows := cipher.grows_tryEncryptText scope context v hsecret plaintext
  rw [encryptText, run_bind]
  cases ((cipher.tryEncryptText scope secret context plaintext).run v).1 with
  | ok envelope => exact hgrows
  | error fault => exact hgrows.congr rfl rfl

theorem grows_tryDecrypt (hsecret : secret ∈ known) (envelope : Bytes) :
    let after := (cipher.tryDecrypt scope secret context envelope).run v
    Grows known scope (handed after.1) v after.2 := by
  rw [tryDecrypt_run]
  cases Envelope.ofBytes envelope with
  | error fault => exact Grows.refl v
  | ok parsed => exact grows_afterOpen hsecret v scope _

theorem grows_tryDecryptText (hsecret : secret ∈ known) (envelope : String) :
    let after := (cipher.tryDecryptText scope secret context envelope).run v
    Grows known scope (handed after.1) v after.2 := by
  rw [tryDecryptText_run]
  cases Envelope.ofBase64 envelope with
  | error fault => exact Grows.refl v
  | ok parsed =>
    dsimp only
    cases cipher.opened (v.text secret) context parsed with
    | error fault => exact grows_afterOpen hsecret v scope (.error fault)
    | ok plaintext =>
      have hgrows := grows_afterOpen hsecret v scope (.ok plaintext)
      dsimp only
      cases readText plaintext with
      | error fault => exact hgrows.letGo
      | ok text =>
        -- the handles on the bytes and on the text stand side by side for a while
        have hsize : (v.afterOpen scope secret (.ok plaintext)).cells.size = v.cells.size + 2 := by
          rw [Vault.afterOpen, Vault.size_cells_addTracked, Vault.size_cells_spendKey]
        have hboth := hgrows.addTracked (.text text)
        rw [hsize] at hboth
        exact (hboth.perm (List.Perm.swap _ _ _)).letGo

/-- A decrypting call in the plain form leaves the handle on its result. -/
theorem grows_decrypt (hsecret : secret ∈ known) (envelope : Bytes) :
    let after := (cipher.decrypt scope secret context envelope).run v
    Grows known scope [after.1] v after.2 := by
  have hgrows := cipher.grows_tryDecrypt scope context v hsecret envelope
  rw [decrypt_run]
  rcases h : (cipher.tryDecrypt scope secret context envelope).run v with ⟨fault | id, after⟩
  · rw [h] at hgrows
    have hreport : Grows known scope [] v (after.addEvent
        (.decryptionFailed context envelope.length fault)) := hgrows.congr rfl rfl
    exact hreport.addTracked (.bytes envelope)
  · rw [h] at hgrows
    exact hgrows

theorem grows_decryptText (hsecret : secret ∈ known) (envelope : String) :
    let after := (cipher.decryptText scope secret context envelope).run v
    Grows known scope [after.1] v after.2 := by
  have hgrows := cipher.grows_tryDecryptText scope context v hsecret envelope
  rw [decryptText_run]
  rcases h : (cipher.tryDecryptText scope secret context envelope).run v with ⟨fault | id, after⟩
  · rw [h] at hgrows
    have hreport : Grows known scope [] v (after.addEvent
        (.decryptionFailed context (Bytes.ofText envelope).length fault)) := hgrows.congr rfl rfl
    exact hreport.addTracked (.text envelope)
  · rw [h] at hgrows
    exact hgrows

end FieldCipher

end FieldVault
