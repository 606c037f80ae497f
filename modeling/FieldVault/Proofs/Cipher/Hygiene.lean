import FieldVault.Proofs.Cipher.Draws
import FieldVault.Proofs.Cipher.Leftovers
import FieldVault.Proofs.Envelope.Forms
import FieldVault.Proofs.Session.Accounts

/-!
# The vault is tidy after every call

The eight calls of a cipher leave no key behind, however they end (`calls_leave_vault_tidy`): a key
that was derived is destroyed and has lost its handle when the call returns, it is tracked with its
secret, and so is whatever the call has made besides. What a decryption that fails has made depends
on how far it got (`Aftermath`). The calls that a client makes in a session are all of this kind
(`Session.ready_of_run`).
-/

set_option autoImplicit false

namespace FieldVault

open Wipe (ValueId)

namespace FieldCipher

open Cipher Vault

/-- What a decryption that fails makes besides what it returns, and how many values more are
tracked for this: `d` of them for the secret of a key. New values stand from place `n` on. -/
inductive Aftermath (d n : Nat) (returned : List ValueId) : Fault → Nat → Made → Prop where
  | encoding : Aftermath d n returned .encoding 0 ⟨[], [], returned⟩
  | tooShort (length : Nat) :
      Aftermath d n returned (.invalidEnvelope length) 0 ⟨[], [], returned⟩
  | aeadFailure : Aftermath d n returned .aeadFailure (d + 1) ⟨[n], [], returned⟩
  | invalidUtf8 : Aftermath d n returned .invalidUtf8 (d + 2) ⟨[n], [n + 1], returned⟩

/-- The contents of buffers that were given up. -/
def wipedBytes (buffers : List Bytes) : List Contents :=
  buffers.map fun bytes => (Contents.bytes bytes).wiped

/-- How far a decryption got that fails: whether it has derived a key, and what it has decrypted. -/
inductive Reached : Fault → Bool → List Bytes → Prop where
  | encoding : Reached .encoding false []
  | tooShort (length : Nat) : Reached (.invalidEnvelope length) false []
  | aeadFailure : Reached .aeadFailure true []
  | invalidUtf8 (bytes : Bytes) : Reached .invalidUtf8 true [bytes]

/-- How the strict forms of decryption end: with a value behind the key and the buffers, or with a
fault. -/
inductive StrictEnd (scope : ScopeId) (secret : ValueId) (v : Vault) (buffered : Nat) :
    Except Fault ValueId × Vault → Prop where
  | opened (buffers : List Bytes) {contents : Contents} {after : Vault}
      (length : buffers.length = buffered)
      (leaves : Leaves scope secret true (wipedBytes buffers) [contents] v after)
      (plain : ∀ key, contents ≠ .key key) :
      StrictEnd scope secret v buffered (.ok (v.cells.size + (1 + buffered)), after)
  | failed {fault : Fault} {derived : Bool} {buffers : List Bytes} {after : Vault}
      (reached : Reached fault derived buffers)
      (leaves : Leaves scope secret derived (wipedBytes buffers) [] v after) :
      StrictEnd scope secret v buffered (.error fault, after)

/-- What the plain form of decryption makes of the end of the strict form: the same, or a report and
a copy of the input. -/
def orCopy (scope : ScopeId) (report : Fault → Event) (input : Contents) :
    Except Fault ValueId × Vault → ValueId × Vault
  | (.ok id, after) => (id, after)
  | (.error fault, after) => (after.cells.size, after.afterEcho scope (report fault) input)

section

variable {scope : ScopeId} {secret : ValueId} {v after : Vault} {fault : Fault}

theorem reached_of_ofBytes {bytes : Bytes} (h : Envelope.ofBytes bytes = .error fault) :
    Reached fault false [] := by
  obtain ⟨-, rfl⟩ := Envelope.ofBytes_eq_error_iff.1 h
  exact .tooShort _

theorem reached_of_ofBase64 {text : String} (h : Envelope.ofBase64 text = .error fault) :
    Reached fault false [] := by
  rcases Envelope.ofBase64_eq_iff.1 h with ⟨bytes, -, hbytes⟩ | ⟨-, hnone⟩
  · exact reached_of_ofBytes hbytes
  · cases hnone
    exact .encoding

/-- Neither a buffer nor what is returned is a key. -/
theorem forall_ne_key {buffers : List Bytes} {returned : List Contents}
    (h : ∀ contents ∈ returned, ∀ key, contents ≠ .key key) :
    ∀ contents ∈ wipedBytes buffers ++ returned, ∀ key, contents ≠ .key key := by
  intro contents hcontents
  rcases List.mem_append.1 hcontents with hbuffer | hreturned
  · obtain ⟨bytes, -, rfl⟩ := List.mem_map.1 hbuffer
    exact nofun
  · exact h contents hreturned

/-- A decryption that fails leaves the vault tidy, whatever it returns. -/
theorem Reached.tidy {derived : Bool} {buffers : List Bytes} {returned : List Contents}
    (hreached : Reached fault derived buffers)
    (h : Leaves scope secret derived (wipedBytes buffers) returned v after)
    (hready : Ready scope secret v) (hplain : ∀ contents ∈ returned, ∀ key, contents ≠ .key key) :
    ∃ more made, Aftermath (v.untracked scope secret) v.cells.size
        (List.range' (v.cells.size + (derived.toNat + buffers.length)) returned.length)
        fault more made ∧
      Tidy scope secret (more + returned.length) made v after := by
  have htidy := h.tidy hready (forall_ne_key hplain) rfl
  rw [← Nat.add_assoc, ← Nat.add_assoc] at htidy
  -- in each case the numbers and the places are those of the table, by evaluation
  cases hreached with
  | encoding => exact ⟨0, _, .encoding, htidy⟩
  | tooShort length => exact ⟨0, _, .tooShort length, htidy⟩
  | aeadFailure => exact ⟨_, _, .aeadFailure, htidy⟩
  | invalidUtf8 bytes => exact ⟨_, _, .invalidUtf8, htidy⟩

end

/-! ### The calls, one by one -/

section

variable (cipher : FieldCipher) (scope : ScopeId) (secret : ValueId) (context : String) {v : Vault}
  (hscope : scope < v.scopes.size)

include hscope

/-- Encryption leaves a key behind, whether or not there is an envelope. -/
theorem leaves_tryEncrypt (plaintext : Bytes) :
    Leaves scope secret true [] [] v
      ((cipher.tryEncrypt scope secret context plaintext).run v).2 := by
  rw [tryEncrypt_run]
  exact (Leaves.spendKey hscope).congr rfl rfl

theorem leaves_tryEncryptText (plaintext : String) :
    Leaves scope secret true [] [] v
      ((cipher.tryEncryptText scope secret context plaintext).run v).2 := by
  rw [tryEncryptText_run]
  exact (Leaves.spendKey hscope).congr rfl rfl

theorem leaves_encrypt (plaintext : Bytes) :
    Leaves scope secret true [] [] v
      ((cipher.encrypt scope secret context plaintext).run v).2 := by
  have hstrict := cipher.leaves_tryEncrypt scope secret context hscope plaintext
  rw [encrypt_run]
  generalize (cipher.tryEncrypt scope secret context plaintext).run v = result at hstrict ⊢
  obtain ⟨fault | envelope, after⟩ := result
  · exact hstrict.congr rfl rfl
  · exact hstrict

theorem leaves_encryptText (plaintext : String) :
    Leaves scope secret true [] [] v
      ((cipher.encryptText scope secret context plaintext).run v).2 := by
  have hstrict := cipher.leaves_tryEncryptText scope secret context hscope plaintext
  rw [encryptText_run]
  generalize (cipher.tryEncryptText scope secret context plaintext).run v = result at hstrict ⊢
  obtain ⟨fault | envelope, after⟩ := result
  · exact hstrict.congr rfl rfl
  · exact hstrict

theorem strictEnd_tryDecrypt (envelope : Bytes) :
    StrictEnd scope secret v 0 ((cipher.tryDecrypt scope secret context envelope).run v) := by
  have hkey : Leaves scope secret true [] [] v (v.spendKey scope secret) := .spendKey hscope
  rw [tryDecrypt_run]
  cases hparsed : Envelope.ofBytes envelope with
  | error fault => exact .failed (reached_of_ofBytes hparsed) (.refl v)
  | ok parsed =>
    dsimp only
    cases hopened : cipher.opened (v.text secret) context parsed with
    | error fault =>
      obtain rfl := fault_of_opened hopened
      exact .failed .aeadFailure hkey
    | ok plaintext => exact .opened [] rfl (hkey.addTracked hscope (.bytes plaintext)) nofun

/-- The decrypted bytes are given up as a buffer, whether or not they are a text. -/
theorem strictEnd_tryDecryptText (envelope : String) :
    StrictEnd scope secret v 1 ((cipher.tryDecryptText scope secret context envelope).run v) := by
  have hkey : Leaves scope secret true [] [] v (v.spendKey scope secret) := .spendKey hscope
  rw [tryDecryptText_run]
  cases hparsed : Envelope.ofBase64 envelope with
  | error fault => exact .failed (reached_of_ofBase64 hparsed) (.refl v)
  | ok parsed =>
    dsimp only
    cases hopened : cipher.opened (v.text secret) context parsed with
    | error fault =>
      obtain rfl := fault_of_opened hopened
      exact .failed .aeadFailure hkey
    | ok plaintext =>
      have hbytes := hkey.addTracked hscope (.bytes plaintext)
      dsimp only
      cases hread : readText plaintext with
      | error fault =>
        obtain rfl := fault_of_readText hread
        exact .failed (.invalidUtf8 plaintext) hbytes.letGo
      | ok text =>
        -- the text is made while the bytes still have their handle
        exact .opened [plaintext] rfl (hbytes.addTracked hscope (.text text)).letGo nofun

end

/-! ### All calls -/

/-- A strict decryption has left the vault tidy. If it succeeds, it has made a key, the buffers and
the value it returns. -/
def StrictTidy (scope : ScopeId) (secret : ValueId) (whole : Nat) (buffers : List ValueId)
    (v : Vault) : Except Fault ValueId × Vault → Prop
  | (.ok id, after) => Tidy scope secret whole ⟨[v.cells.size], buffers, [id]⟩ v after
  | (.error fault, after) => ∃ more made,
    Aftermath (v.untracked scope secret) v.cells.size [] fault more made ∧
      Tidy scope secret more made v after

/-- A decryption in the plain form has left the vault tidy, of which the strict form has the given
result. If that is a fault, there is one value more, the copy of the input. -/
def PlainTidy (scope : ScopeId) (secret : ValueId) (whole : Nat) (buffers : List ValueId)
    (v : Vault) (strict : Except Fault ValueId) : ValueId × Vault → Prop
  | (id, after) =>
    match strict with
    | .ok _ => Tidy scope secret whole ⟨[v.cells.size], buffers, [id]⟩ v after
    | .error fault => ∃ more made,
      Aftermath (v.untracked scope secret) v.cells.size [id] fault more made ∧
        Tidy scope secret (more + 1) made v after

section

variable {scope : ScopeId} {secret : ValueId} {v : Vault} {buffered : Nat}
  {outcome : Except Fault ValueId × Vault}

theorem StrictEnd.tidy (h : StrictEnd scope secret v buffered outcome)
    (hready : Ready scope secret v) :
    StrictTidy scope secret (v.untracked scope secret + (2 + buffered))
      (List.range' (v.cells.size + 1) buffered) v outcome := by
  cases h with
  | @opened buffers contents after length leaves plain =>
    subst length
    have hlength : (wipedBytes buffers).length = buffers.length := List.length_map _
    have hmore : v.untracked scope secret + (2 + buffers.length) = v.untracked scope secret +
        (true.toNat + (wipedBytes buffers).length + [contents].length) := by
      rw [hlength, Bool.toNat_true, List.length_singleton]
      omega
    have htidy := leaves.tidy hready (forall_ne_key (List.forall_mem_singleton.2 plain)) hmore
    rw [Leaves.made, hlength] at htidy
    exact htidy
  | failed reached leaves => exact reached.tidy leaves hready (List.forall_mem_nil _)

/-- The plain form returns a copy of its input where the strict form fails. -/
theorem StrictEnd.plainTidy (h : StrictEnd scope secret v buffered outcome)
    (hready : Ready scope secret v) (report : Fault → Event) {input : Contents}
    (hinput : ∀ key, input ≠ .key key) :
    PlainTidy scope secret (v.untracked scope secret + (2 + buffered))
      (List.range' (v.cells.size + 1) buffered) v outcome.1
      (orCopy scope report input outcome) := by
  cases h with
  | opened buffers length leaves plain =>
    exact (StrictEnd.opened buffers length leaves plain).tidy hready
  | @failed fault derived buffers after reached leaves =>
    have hreport : Leaves scope secret derived (wipedBytes buffers) [] v
        (after.addEvent (report fault)) := leaves.congr rfl rfl
    have hcopy := hreport.addTracked hready.begun input
    have hid : after.cells.size = v.cells.size + (derived.toNat + buffers.length) := by
      rw [leaves.size, wipedBytes, List.length_map, List.length_nil, Nat.add_zero]
    have htidy := reached.tidy hcopy hready (List.forall_mem_singleton.2 hinput)
    rw [← hid] at htidy
    exact htidy

end

/-- The eight calls of a cipher leave the vault tidy, however they end. Here `d` is 0 if the secret
was tracked before and 1 otherwise, and new values stand from place `n` on. -/
theorem calls_leave_vault_tidy (cipher : FieldCipher) (context : String) {scope : ScopeId}
    {secret : ValueId} {v : Vault} (hready : Ready scope secret v) :
    let d := v.untracked scope secret
    let n := v.cells.size
    (∀ plaintext, Tidy scope secret (d + 1) ⟨[n], [], []⟩ v
      ((cipher.tryEncrypt scope secret context plaintext).run v).2) ∧
    (∀ plaintext, Tidy scope secret (d + 1) ⟨[n], [], []⟩ v
      ((cipher.tryEncryptText scope secret context plaintext).run v).2) ∧
    (∀ plaintext, Tidy scope secret (d + 1) ⟨[n], [], []⟩ v
      ((cipher.encrypt scope secret context plaintext).run v).2) ∧
    (∀ plaintext, Tidy scope secret (d + 1) ⟨[n], [], []⟩ v
      ((cipher.encryptText scope secret context plaintext).run v).2) ∧
    (∀ envelope, StrictTidy scope secret (d + 2) [] v
      ((cipher.tryDecrypt scope secret context envelope).run v)) ∧
    (∀ envelope, StrictTidy scope secret (d + 3) [n + 1] v
      ((cipher.tryDecryptText scope secret context envelope).run v)) ∧
    (∀ envelope, PlainTidy scope secret (d + 2) [] v
      ((cipher.tryDecrypt scope secret context envelope).run v).1
      ((cipher.decrypt scope secret context envelope).run v)) ∧
    ∀ envelope, PlainTidy scope secret (d + 3) [n + 1] v
      ((cipher.tryDecryptText scope secret context envelope).run v).1
      ((cipher.decryptText scope secret context envelope).run v) := by
  intro d n
  have hscope := hready.begun
  have hsealed : ∀ {after}, Leaves scope secret true [] [] v after →
      Tidy scope secret (d + 1) ⟨[n], [], []⟩ v after := fun h =>
    h.tidy hready (List.forall_mem_nil _) rfl
  have hbytes := fun envelope => cipher.strictEnd_tryDecrypt scope secret context hscope envelope
  have htext := fun envelope => cipher.strictEnd_tryDecryptText scope secret context hscope envelope
  refine ⟨fun plaintext => hsealed (cipher.leaves_tryEncrypt scope secret context hscope plaintext),
    fun plaintext => hsealed (cipher.leaves_tryEncryptText scope secret context hscope plaintext),
    fun plaintext => hsealed (cipher.leaves_encrypt scope secret context hscope plaintext),
    fun plaintext => hsealed (cipher.leaves_encryptText scope secret context hscope plaintext),
    fun envelope => (hbytes envelope).tidy hready, fun envelope => (htext envelope).tidy hready,
    fun envelope => ?_, fun envelope => ?_⟩
  · rw [decrypt_run]
    have hcopy : ∀ key, Contents.bytes envelope ≠ .key key := nofun
    exact (hbytes envelope).plainTidy hready (.decryptionFailed context envelope.length) hcopy
  · rw [decryptText_run]
    have hcopy : ∀ key, Contents.text envelope ≠ .key key := nofun
    exact (htext envelope).plainTidy hready
      (.decryptionFailed context (Bytes.ofText envelope).length) hcopy

/-- Encryption with an untracked secret makes the scope track two values, of which a flush destroys
one; a text too short to be an envelope makes it track nothing but the copy of the text. -/
theorem key_expired_and_secret_flushed :
    let v := Vault.ofTexts ["k"]
    let sealed := ((standard.tryEncryptText 0 0 "Person.name" "Ann").run v).2
    let copied := (standard.decryptText 0 0 "Person.name" "AAAA").run v
    Ready 0 0 v ∧
      sealed.trackedCount 0 = 2 ∧ sealed.contents? 1 = some (.key none) ∧ sealed.handlesOn 1 = 0 ∧
      ((flush 0).run sealed).1.expired = 1 ∧ ((flush 0).run sealed).1.destroyed = 1 ∧
      copied.2.trackedCount 0 = 1 ∧ copied.2.handlesOn copied.1 = 1 ∧
      ((flush 0).run copied.2).1.expired = 0 := by
  intro v sealed copied
  have hready : Ready 0 0 v := ⟨Nat.one_pos, List.forall_mem_nil _, Nat.one_pos⟩
  obtain ⟨-, hsealed, -, -, -, -, -, hcopied⟩ :=
    calls_leave_vault_tidy standard "Person.name" hready
  obtain ⟨hdestroyed, hgone⟩ := (hsealed "Ann").destroyed 1 (List.mem_singleton_self 1)
  have hcount : sealed.trackedCount 0 = 2 := (hsealed "Ann").count
  have hexpired : ((flush 0).run sealed).1.expired = 1 := (hsealed "Ann").expired
  have htotal := (hsealed "Ann").total
  refine ⟨hready, hcount, hdestroyed, hgone, hexpired, ?_, ?_⟩
  · rw [hcount, hexpired] at htotal
    exact Nat.succ.inj htotal
  · have hshort : ((standard.tryDecryptText 0 0 "Person.name" "AAAA").run v).1 =
        .error (.invalidEnvelope 3) := rfl
    have htidy := hcopied "AAAA"
    rw [hshort] at htidy
    obtain ⟨more, made, hmade, htidy⟩ := htidy
    cases hmade
    exact ⟨htidy.count, htidy.returned _ (List.mem_singleton_self _), htidy.expired⟩

end FieldCipher

/-! ### Sessions -/

/-- In every session that commands lead to, a client can make calls with each of its scopes and
values. -/
theorem Session.ready_of_run (nonces : Nat → Gcm.Nonce) (commands : List Session.Command)
    {name within : String} {scope : ScopeId} {secret : ValueId}
    (hscope : (run commands (empty nonces)).scopes.lookup within = some scope)
    (hsecret : (run commands (empty nonces)).handles.lookup name = some secret) :
    Vault.Ready scope secret (run commands (empty nonces)).vault := by
  have h := accounts_run (accounts_empty nonces) commands
  refine ⟨h.lt_of_mem_heldScopes (mem_map_snd_of_lookup hscope), h.made scope, ?_⟩
  exact h.mem_held_iff.1 (List.mem_append_left _ (mem_map_snd_of_lookup hsecret))

end FieldVault
