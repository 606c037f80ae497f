import FieldVault.Proofs.Cipher.FieldKey
import FieldVault.Proofs.Envelope
import FieldVault.Proofs.Gcm
import FieldVault.Proofs.Vault

/-!
# What the calls of a cipher come to

The outcome of a call depends on nothing but the text of the secret, the context, the label, the
input and the next nonce: `sealed`, `opened` and `openedText` say how, without a vault. What a call
does to the vault is written down beside it: a call that derives a key leaves the spent key behind
(`spendKey`), a call that returns a value leaves that value, and a call that reads no envelope
leaves the vault as it was.
-/

set_option autoImplicit false

namespace FieldVault

open Wipe (ValueId)

/-! ### Outcomes without a vault -/

namespace FieldCipher

open Cipher

/-- The envelope of a plaintext under a key and a nonce. -/
def sealedUnder (key : Aes.Key) (nonce : Gcm.Nonce) (plaintext : Bytes) : Except Fault Envelope :=
  match Gcm.encrypt? key nonce plaintext with
  | none => .error .aeadFailure
  | some ciphertext => .ok ⟨nonce, ciphertext⟩

/-- The plaintext of an envelope under a key. -/
def openedUnder (key : Aes.Key) (envelope : Envelope) : Except Fault Bytes :=
  match Gcm.decrypt? key envelope.nonce envelope.ciphertext with
  | none => .error .aeadFailure
  | some plaintext => .ok plaintext

/-- The envelope of a plaintext under the key of a field and a nonce. -/
def sealed (cipher : FieldCipher) (secret context : String) (nonce : Gcm.Nonce)
    (plaintext : Bytes) : Except Fault Envelope :=
  sealedUnder (cipher.fieldKey secret context) nonce plaintext

/-- The plaintext of an envelope under the key of a field. -/
def opened (cipher : FieldCipher) (secret context : String) (envelope : Envelope) :
    Except Fault Bytes :=
  openedUnder (cipher.fieldKey secret context) envelope

/-- The text that decrypted bytes are the form of. -/
def readText (bytes : Bytes) : Except Fault String :=
  match Bytes.toText? bytes with
  | none => .error .invalidUtf8
  | some text => .ok text

/-- The text in the envelope that a text is the base64 form of. -/
def openedText (cipher : FieldCipher) (secret context envelope : String) : Except Fault String :=
  (Envelope.ofBase64 envelope).bind fun parsed =>
    (cipher.opened secret context parsed).bind readText

/-- A plaintext within the limit has an envelope, which has room for a tag. -/
theorem exists_sealed (cipher : FieldCipher) (secret context : String) (nonce : Gcm.Nonce)
    {plaintext : Bytes} (h : plaintext.length ≤ Gcm.plaintextLimit) :
    ∃ e : Envelope, cipher.sealed secret context nonce plaintext = .ok e ∧ e.nonce = nonce ∧
      e.ciphertext.length = plaintext.length + Gcm.tagBytes := by
  have hsome : Gcm.encrypt? (cipher.fieldKey secret context) nonce plaintext = some _ :=
    Gcm.encrypt?_eq_some h
  refine ⟨⟨nonce, _⟩, ?_, rfl, Gcm.length_of_encrypt? hsome⟩
  rw [sealed, sealedUnder, hsome]

/-- A longer plaintext has none. -/
theorem sealed_of_lt (cipher : FieldCipher) (secret context : String) (nonce : Gcm.Nonce)
    {plaintext : Bytes} (h : Gcm.plaintextLimit < plaintext.length) :
    cipher.sealed secret context nonce plaintext = .error .aeadFailure := by
  rw [sealed, sealedUnder, Gcm.encrypt?, if_neg (Nat.not_le_of_lt h)]

/-- Sealing fails in the cipher or not at all. -/
theorem fault_of_sealed {cipher : FieldCipher} {secret context : String} {nonce : Gcm.Nonce}
    {plaintext : Bytes} {fault : Fault}
    (h : cipher.sealed secret context nonce plaintext = .error fault) : fault = .aeadFailure := by
  unfold sealed sealedUnder at h
  split at h
  · cases h
    rfl
  · cases h

/-- An envelope that does not open fails in the cipher. -/
theorem fault_of_opened {cipher : FieldCipher} {secret context : String} {e : Envelope}
    {fault : Fault} (h : cipher.opened secret context e = .error fault) : fault = .aeadFailure := by
  unfold opened openedUnder at h
  split at h
  · cases h
    rfl
  · cases h

theorem fault_of_readText {bytes : Bytes} {fault : Fault} (h : readText bytes = .error fault) :
    fault = .invalidUtf8 := by
  unfold readText at h
  split at h
  · cases h
    rfl
  · cases h

/-- An envelope opens to the plaintext it was made of. -/
theorem opened_of_sealed {cipher : FieldCipher} {secret context : String} {nonce : Gcm.Nonce}
    {plaintext : Bytes} {e : Envelope} (h : cipher.sealed secret context nonce plaintext = .ok e) :
    cipher.opened secret context e = .ok plaintext := by
  unfold sealed sealedUnder at h
  split at h
  · cases h
  · rename_i ciphertext hsome
    cases h
    rw [opened, openedUnder, Gcm.decrypt?_of_encrypt? hsome]

/-- What a plaintext is sealed in has room for a tag. -/
theorem tagBytes_le_of_sealed {cipher : FieldCipher} {secret context : String} {nonce : Gcm.Nonce}
    {plaintext : Bytes} {e : Envelope} (h : cipher.sealed secret context nonce plaintext = .ok e) :
    Gcm.tagBytes ≤ e.ciphertext.length := by
  unfold sealed sealedUnder at h
  split at h
  · cases h
  · rename_i ciphertext hsome
    cases h
    rw [Gcm.length_of_encrypt? hsome]
    exact Nat.le_add_left _ _

/-- The text of an envelope opens to the text it was made of. -/
theorem openedText_of_sealed {cipher : FieldCipher} {secret context : String} {nonce : Gcm.Nonce}
    {text : String} {e : Envelope}
    (h : cipher.sealed secret context nonce (Bytes.ofText text) = .ok e) :
    cipher.openedText secret context e.toBase64 = .ok text := by
  have hread : readText (Bytes.ofText text) = .ok text := by
    rw [readText, Bytes.toText_ofText]
  rw [openedText, Envelope.ofBase64_toBase64 (tagBytes_le_of_sealed h), Except.bind,
    opened_of_sealed h, Except.bind, hread]

end FieldCipher

/-! ### What a call leaves in the vault -/

namespace Vault

/-- The vault after a key was derived, used and destroyed: the secret and the key are tracked, and
the key is gone. -/
def spendKey (v : Vault) (scope : ScopeId) (secret : ValueId) : Vault :=
  (v.track scope [secret, v.cells.size]).addCell ⟨.key none, 0⟩

@[simp]
theorem size_cells_spendKey (v : Vault) (scope : ScopeId) (secret : ValueId) :
    (v.spendKey scope secret).cells.size = v.cells.size + 1 := by
  simp [spendKey]

@[simp] theorem addTracked_events (v : Vault) (scope : ScopeId) (contents : Contents) :
    (v.addTracked scope contents).events = v.events := rfl

/-- The vault after an envelope was opened: the spent key, and the plaintext unless it failed. -/
def afterOpen (v : Vault) (scope : ScopeId) (secret : ValueId) :
    Except Cipher.Fault Bytes → Vault
  | .error _ => v.spendKey scope secret
  | .ok plaintext => (v.spendKey scope secret).addTracked scope (.bytes plaintext)

/-- The vault after decrypted bytes were read as a text: the bytes are let go, and the text is
there unless they are none. -/
def afterRead (v : Vault) (scope : ScopeId) (bytes : ValueId) :
    Except Cipher.Fault String → Vault
  | .error _ => v.letGo bytes
  | .ok text => (v.addTracked scope (.text text)).letGo bytes

/-- The vault after a failed decryption in the form that returns its input. -/
def afterEcho (v : Vault) (scope : ScopeId) (event : Event) (input : Contents) : Vault :=
  (v.addEvent event).addTracked scope input

end Vault

namespace FieldCipher

open Cipher Vault

/-- A new tracked value stands behind the others. -/
theorem createTracked_run (scope : ScopeId) (contents : Contents) (v : Vault) :
    (createTracked scope contents).run v = (v.cells.size, v.addTracked scope contents) := rfl

/-- The key that is used is the key of the field, and it is wiped and let go afterwards. -/
theorem withKey_run {α : Type} (cipher : FieldCipher) (scope : ScopeId) (secret : ValueId)
    (context : String) (op : Aes.Key → VaultM (Except Fault α)) (v : Vault) :
    (cipher.withKey scope secret context op).run v =
      let key := cipher.fieldKey (v.text secret) context
      let result := (op key).run
        ((v.track scope [secret, v.cells.size]).addCell ⟨.key (some key.bytes), 1⟩)
      (result.1, result.2.retire v.cells.size) := by
  have hkey : deriveKey? (Bytes.ofText ((v.track scope [secret]).text secret)) context
      cipher.label = some (cipher.fieldKey (v.text secret) context).bytes := by
    rw [text_track, deriveKey?_eq_fieldKey]
  generalize cipher.fieldKey (v.text secret) context = key at hkey ⊢
  -- the key is tracked after the secret, when it is already the last value
  have htrack : ((v.track scope [secret]).addCell ⟨.key (some key.bytes), 1⟩).track scope
      [v.cells.size] =
        (v.track scope [secret, v.cells.size]).addCell ⟨.key (some key.bytes), 1⟩ := by
    rw [track_addCell, track_track]
    rfl
  have hread : ((v.track scope [secret, v.cells.size]).addCell
      ⟨.key (some key.bytes), 1⟩).key? v.cells.size = some key.bytes :=
    key?_of_contents? (contents?_addCell_size _ _)
  have huse : (useKey v.cells.size op).run ((v.track scope [secret, v.cells.size]).addCell
      ⟨.key (some key.bytes), 1⟩) = (op key).run ((v.track scope [secret, v.cells.size]).addCell
      ⟨.key (some key.bytes), 1⟩) := by
    simp only [useKey, run_bind, run_get, hread, Aes.Key.ofBytes?_bytes]
  simp only [withKey, run_bind, run_get, run_pure, mark_run, Wipe.Item.leaves, hkey, create_run,
    track_cells, htrack, huse, destroy_run, release_run]
  rfl

/-- Sealing takes the next nonce, which is used up whether or not that succeeds. -/
theorem sealWith_run (plaintext : Bytes) (key : Aes.Key) (v : Vault) :
    (sealWith plaintext key).run v =
      (sealedUnder key (v.nonces v.drawn) plaintext, v.afterDraw) := by
  simp only [sealWith, run_bind, drawNonce_run, sealedUnder]
  cases Gcm.encrypt? key (v.nonces v.drawn) plaintext <;> rfl

/-- Opening leaves the vault as it is. -/
theorem openWith_run (envelope : Envelope) (key : Aes.Key) (v : Vault) :
    (openWith envelope key).run v = (openedUnder key envelope, v) := by
  simp only [openWith, openedUnder]
  cases Gcm.decrypt? key envelope.nonce envelope.ciphertext <;> rfl

/-- A key that was used and given up is a spent key. -/
theorem retire_addCell_track (v : Vault) (scope : ScopeId) (secret : ValueId) (key : Option Bytes) :
    ((v.track scope [secret, v.cells.size]).addCell ⟨.key key, 1⟩).retire v.cells.size =
      v.spendKey scope secret := by
  have h := retire_addCell_size (v.track scope [secret, v.cells.size]) key
  rwa [track_cells] at h

/-- Bytes are sealed under the key of the field and the next nonce. -/
theorem tryEncrypt_run (cipher : FieldCipher) (scope : ScopeId) (secret : ValueId)
    (context : String) (plaintext : Bytes) (v : Vault) :
    (cipher.tryEncrypt scope secret context plaintext).run v =
      ((cipher.sealed (v.text secret) context (v.nonces v.drawn) plaintext).map Envelope.toBytes,
        (v.spendKey scope secret).afterDraw) := by
  have hretire := retire_addCell_track v scope secret
    (some (cipher.fieldKey (v.text secret) context).bytes)
  simp only [tryEncrypt, run_bind, run_pure, withKey_run, sealWith_run, sealed]
  rw [← hretire]
  rfl

/-- A text is sealed as its UTF-8 bytes, and the result is the text of the envelope. -/
theorem tryEncryptText_run (cipher : FieldCipher) (scope : ScopeId) (secret : ValueId)
    (context plaintext : String) (v : Vault) :
    (cipher.tryEncryptText scope secret context plaintext).run v =
      ((cipher.sealed (v.text secret) context (v.nonces v.drawn)
          (Bytes.ofText plaintext)).map Envelope.toBase64,
        (v.spendKey scope secret).afterDraw) := by
  simp only [tryEncryptText, run_bind, tryEncrypt_run]
  cases hsealed : cipher.sealed (v.text secret) context (v.nonces v.drawn)
      (Bytes.ofText plaintext) with
  | error fault => rfl
  | ok e =>
    -- the bytes of an envelope are read as that envelope again
    have hread : Envelope.ofBytes e.toBytes = .ok e :=
      Envelope.ofBytes_toBytes (tagBytes_le_of_sealed hsealed)
    simp only [Except.map, run_pure, hread]

/-- Opening bytes: nothing happens unless they have the length of an envelope. -/
theorem tryDecrypt_run (cipher : FieldCipher) (scope : ScopeId) (secret : ValueId)
    (context : String) (envelope : Bytes) (v : Vault) :
    (cipher.tryDecrypt scope secret context envelope).run v =
      match Envelope.ofBytes envelope with
      | .error fault => (.error fault, v)
      | .ok parsed =>
        let result := cipher.opened (v.text secret) context parsed
        (result.map fun _ => v.cells.size + 1, v.afterOpen scope secret result) := by
  unfold tryDecrypt
  cases Envelope.ofBytes envelope with
  | error fault => rfl
  | ok parsed =>
    have hretire := retire_addCell_track v scope secret
      (some (cipher.fieldKey (v.text secret) context).bytes)
    simp only [run_bind, withKey_run, openWith_run, hretire, opened]
    cases openedUnder (cipher.fieldKey (v.text secret) context) parsed with
    | error fault => rfl
    | ok plaintext =>
      simp only [run_bind, run_pure, createTracked_run, size_cells_spendKey]
      rfl

/-- Opening a text: nothing happens unless it is the text of an envelope, and the decrypted bytes
are let go whether or not they are a text. -/
theorem tryDecryptText_run (cipher : FieldCipher) (scope : ScopeId) (secret : ValueId)
    (context envelope : String) (v : Vault) :
    (cipher.tryDecryptText scope secret context envelope).run v =
      match Envelope.ofBase64 envelope with
      | .error fault => (.error fault, v)
      | .ok parsed =>
        match cipher.opened (v.text secret) context parsed with
        | .error fault => (.error fault, v.spendKey scope secret)
        | .ok plaintext =>
          ((readText plaintext).map fun _ => v.cells.size + 2,
            (v.afterOpen scope secret (.ok plaintext)).afterRead scope (v.cells.size + 1)
              (readText plaintext)) := by
  unfold tryDecryptText
  cases hparsed : Envelope.ofBase64 envelope with
  | error fault => rfl
  | ok parsed =>
    simp only [run_bind, tryDecrypt_run, Envelope.ofBytes_toBytes_of_ofBase64 hparsed]
    cases cipher.opened (v.text secret) context parsed with
    | error fault => rfl
    | ok plaintext =>
      -- the decrypted bytes are the last value when they are read
      have hbytes : (v.afterOpen scope secret (.ok plaintext)).bytes (v.cells.size + 1) =
          plaintext := by
        refine bytes_of_contents? ?_
        have h := contents?_addTracked_size (v.spendKey scope secret) scope (.bytes plaintext)
        rwa [size_cells_spendKey] at h
      have hsize : (v.afterOpen scope secret (.ok plaintext)).cells.size = v.cells.size + 2 := by
        rw [afterOpen, size_cells_addTracked, size_cells_spendKey]
      simp only [Except.map, run_bind, run_get, hbytes, readText]
      cases Bytes.toText? plaintext with
      | none => rfl
      | some text =>
        simp only [run_bind, run_pure, createTracked_run, release_run, hsize]
        rfl

/-- The plain form of decryption gives the value of the strict form, or a copy of its input. -/
theorem decrypt_run (cipher : FieldCipher) (scope : ScopeId) (secret : ValueId)
    (context : String) (envelope : Bytes) (v : Vault) :
    (cipher.decrypt scope secret context envelope).run v =
      match (cipher.tryDecrypt scope secret context envelope).run v with
      | (.ok plaintext, after) => (plaintext, after)
      | (.error fault, after) => (after.cells.size, after.afterEcho scope
          (.decryptionFailed context envelope.length fault) (.bytes envelope)) := by
  simp only [decrypt, run_bind]
  rcases (cipher.tryDecrypt scope secret context envelope).run v with ⟨fault | plaintext, after⟩
  · rfl
  · rfl

/-- The plain form of decryption gives the text of the strict form, or a copy of its input. -/
theorem decryptText_run (cipher : FieldCipher) (scope : ScopeId) (secret : ValueId)
    (context envelope : String) (v : Vault) :
    (cipher.decryptText scope secret context envelope).run v =
      match (cipher.tryDecryptText scope secret context envelope).run v with
      | (.ok plaintext, after) => (plaintext, after)
      | (.error fault, after) => (after.cells.size, after.afterEcho scope
          (.decryptionFailed context (Bytes.ofText envelope).length fault) (.text envelope)) := by
  simp only [decryptText, run_bind]
  rcases (cipher.tryDecryptText scope secret context envelope).run v with ⟨fault | plaintext, after⟩
  · rfl
  · rfl

end FieldCipher

end FieldVault
