import FieldVault.Proofs.Service.Draws

/-!
# Nonces along a run

Ciphers, collections and the service draw their nonces from one source. Whatever is asked of them
one after the other, one nonce is drawn for each envelope that is made, and the envelopes start with
the nonces in the order of the draws. The only other draws are those for plaintexts that are longer
than AES-GCM allows: the nonce is drawn before the length is looked at, and goes to waste
(`exists_log_carryOut`). So no two envelopes start with the same nonce as long as the source does
not repeat itself (`nonces_along_run`).
-/

set_option autoImplicit false

namespace FieldVault.Service

open Document (Collection)
open Http (Request Response Route)
open Vault (DrawLog Draws leading)
open Wipe (ValueId)

/-! ### Operations -/

/-- What the calls of a cipher have in common. -/
structure CipherUse where
  cipher : FieldCipher
  scope : ScopeId
  secret : ValueId
  context : String

/-- What can be asked of the service, and of ciphers and collections on its vault. -/
inductive Operation where
  | tryEncrypt (use : CipherUse) (plaintext : Bytes)
  | tryEncryptText (use : CipherUse) (plaintext : String)
  | encrypt (use : CipherUse) (plaintext : Bytes)
  | encryptText (use : CipherUse) (plaintext : String)
  | tryDecrypt (use : CipherUse) (envelope : Bytes)
  | tryDecryptText (use : CipherUse) (envelope : String)
  | decrypt (use : CipherUse) (envelope : Bytes)
  | decryptText (use : CipherUse) (envelope : String)
  | sealDocument (c : Collection) (cipher : FieldCipher) (scope : ScopeId) (secret : ValueId)
    (document : Json)
  | openDocument (c : Collection) (cipher : FieldCipher) (scope : ScopeId) (secret : ValueId)
    (document : Json)
  | request (asked : Request)
  | setMaster (secret : String)
  | newText (text : String)
  | beginScope
  | flush (scope : ScopeId)
  | releaseScope (scope : ScopeId)

/-- Work on the vault, with what its result tells of the nonces drawn for it. -/
def told {α : Type} (work : VaultM α) (log : α → DrawLog) : ServiceM DrawLog := do
  return log (← (work : VaultM α))

/-- Carry out an operation. The log is read off its results: the envelope that a cipher gives, or
none if it fails, the texts of a document that have changed, and what a request shows. -/
def Operation.carryOut : Operation → ServiceM DrawLog
  | .tryEncrypt use plaintext =>
    told (use.cipher.tryEncrypt use.scope use.secret use.context plaintext) fun result =>
      [result.toOption.bind Envelope.inBytes?]
  | .tryEncryptText use plaintext =>
    told (use.cipher.tryEncryptText use.scope use.secret use.context plaintext) fun result =>
      [result.toOption.bind Envelope.inText?]
  | .encrypt use plaintext =>
    told (use.cipher.encrypt use.scope use.secret use.context plaintext) fun result =>
      [Envelope.inBytes? result]
  | .encryptText use plaintext =>
    told (use.cipher.encryptText use.scope use.secret use.context plaintext) fun result =>
      [Envelope.inText? result]
  | .tryDecrypt use envelope =>
    told (use.cipher.tryDecrypt use.scope use.secret use.context envelope) fun _ => []
  | .tryDecryptText use envelope =>
    told (use.cipher.tryDecryptText use.scope use.secret use.context envelope) fun _ => []
  | .decrypt use envelope =>
    told (use.cipher.decrypt use.scope use.secret use.context envelope) fun _ => []
  | .decryptText use envelope =>
    told (use.cipher.decryptText use.scope use.secret use.context envelope) fun _ => []
  | .sealDocument c cipher scope secret document =>
    told (c.sealDocument cipher scope secret document) fun (after, result) =>
      c.fieldLog document after ++ Document.failureLog result
  | .openDocument c cipher scope secret document =>
    told (c.openDocument cipher scope secret document) fun _ => []
  | .request asked => do
    let before ← get
    let response ← handle asked
    return shownBy asked (before.ids before.issued) response (← get)
  | .setMaster secret => do
    let _ ← Service.setMaster secret
    return []
  | .newText text => told (Vault.create (.text text)) fun _ => []
  | .beginScope => told Vault.beginScope fun _ => []
  | .flush scope => told (Vault.flush scope) fun _ => []
  | .releaseScope scope => told (Vault.releaseScope scope) fun _ => []

/-- Whether AES-GCM does not allow a plaintext of this length. -/
def isTooLong (plaintext : Bytes) : Bool := Gcm.plaintextLimit < plaintext.length

/-- Whether a plaintext of an operation is too long. Of a document, only the fields are encrypted;
what a request sends is never too long. -/
def Operation.isOverlong : Operation → Bool
  | .tryEncrypt _ plaintext => isTooLong plaintext
  | .tryEncryptText _ plaintext => isTooLong (Bytes.ofText plaintext)
  | .encrypt _ plaintext => isTooLong plaintext
  | .encryptText _ plaintext => isTooLong (Bytes.ofText plaintext)
  | .sealDocument c _ _ _ document =>
    !(Document.targets c.fields document).all (Document.fits document)
  | _ => false

/-- Whether an operation is one that encrypts. A request is, if it is for encrypting a value or for
storing a document. -/
def Operation.encrypts : Operation → Bool
  | .tryEncrypt _ _ | .tryEncryptText _ _ | .encrypt _ _ | .encryptText _ _ => true
  | .sealDocument _ _ _ _ _ => true
  | .request asked =>
    match Route.ofTarget? asked.target with
    | some .encrypt | some (.store _) => true
    | _ => false
  | _ => false

/-- The operation fails: with a fault, with the empty result that stands for one, or with a refusal.
The plain forms of decryption have a result in any case. -/
def Operation.Fails (s : Service) : Operation → Prop
  | .tryEncrypt use plaintext => ∃ fault,
    ((use.cipher.tryEncrypt use.scope use.secret use.context plaintext).run s.vault).1 =
      .error fault
  | .tryEncryptText use plaintext => ∃ fault,
    ((use.cipher.tryEncryptText use.scope use.secret use.context plaintext).run s.vault).1 =
      .error fault
  | .encrypt use plaintext =>
    ((use.cipher.encrypt use.scope use.secret use.context plaintext).run s.vault).1 = []
  | .encryptText use plaintext =>
    ((use.cipher.encryptText use.scope use.secret use.context plaintext).run s.vault).1 = ""
  | .tryDecrypt use envelope => ∃ fault,
    ((use.cipher.tryDecrypt use.scope use.secret use.context envelope).run s.vault).1 =
      .error fault
  | .tryDecryptText use envelope => ∃ fault,
    ((use.cipher.tryDecryptText use.scope use.secret use.context envelope).run s.vault).1 =
      .error fault
  | .sealDocument c cipher scope secret document => ∃ fault,
    ((c.sealDocument cipher scope secret document).run s.vault).1.2 = .error fault
  | .request asked => Refuses ((handle asked).run s).1
  | .setMaster secret => ∃ fault, ((Service.setMaster secret).run s).1 = .error fault
  | _ => False

/-- Carry out operations one after the other, with their logs. -/
def run : List Operation → ServiceM DrawLog
  | [] => return []
  | operation :: rest => do
    let log ← operation.carryOut
    return log ++ (← run rest)

/-! ### One operation -/

theorem draws_setMaster (secret : String) (s : Service) :
    Draws [] s.vault ((setMaster secret).run s).2.vault := by
  have hset : Draws [] s.vault ((s.master.set secret).run s.vault).2 := by
    rw [MasterHolder.set]
    cases s.master.secret with
    | none => exact .none_of_eq rfl rfl
    | some id => exact .refl s.vault
  have hlift : (liftM (s.master.set secret) : ServiceM _).run s =
      (((s.master.set secret).run s.vault).1,
        s.withVault ((s.master.set secret).run s.vault).2) := rfl
  rw [setMaster]
  simp only [run_bind, run_get, hlift]
  cases ((s.master.set secret).run s.vault).1 with
  | error fault => exact hset
  | ok holder => exact hset

section

variable (use : CipherUse) (s : Service)

/-- A call that encrypts has one entry in its log, for its plaintext. -/
theorem log_tryEncrypt (plaintext : Bytes) :
    ((Operation.tryEncrypt use plaintext).carryOut.run s).1 =
      [use.cipher.nextEnvelope use.secret use.context s.vault plaintext] :=
  congrArg ([·]) (use.cipher.tryEncrypt_result use.scope use.secret use.context s.vault plaintext)

theorem log_tryEncryptText (plaintext : String) :
    ((Operation.tryEncryptText use plaintext).carryOut.run s).1 =
      [use.cipher.nextEnvelope use.secret use.context s.vault (Bytes.ofText plaintext)] :=
  congrArg ([·])
    (use.cipher.tryEncryptText_result use.scope use.secret use.context s.vault plaintext)

theorem log_encrypt (plaintext : Bytes) :
    ((Operation.encrypt use plaintext).carryOut.run s).1 =
      [use.cipher.nextEnvelope use.secret use.context s.vault plaintext] :=
  congrArg ([·]) (use.cipher.encrypt_result use.scope use.secret use.context s.vault plaintext)

theorem log_encryptText (plaintext : String) :
    ((Operation.encryptText use plaintext).carryOut.run s).1 =
      [use.cipher.nextEnvelope use.secret use.context s.vault (Bytes.ofText plaintext)] :=
  congrArg ([·])
    (use.cipher.encryptText_result use.scope use.secret use.context s.vault plaintext)

end

/-- The nonces drawn for an operation are those that its results tell of. -/
theorem draws_carryOut (operation : Operation) (s : Service) :
    Draws (operation.carryOut.run s).1 s.vault (operation.carryOut.run s).2.vault := by
  cases operation with
  | tryEncrypt use plaintext =>
    rw [log_tryEncrypt]
    exact use.cipher.draws_tryEncrypt _ _ _ _ plaintext
  | tryEncryptText use plaintext =>
    rw [log_tryEncryptText]
    exact use.cipher.draws_tryEncryptText _ _ _ _ plaintext
  | encrypt use plaintext =>
    rw [log_encrypt]
    exact use.cipher.draws_encrypt _ _ _ _ plaintext
  | encryptText use plaintext =>
    rw [log_encryptText]
    exact use.cipher.draws_encryptText _ _ _ _ plaintext
  | tryDecrypt use envelope => exact use.cipher.draws_tryDecrypt _ _ _ _ envelope
  | tryDecryptText use envelope => exact use.cipher.draws_tryDecryptText _ _ _ _ envelope
  | decrypt use envelope => exact use.cipher.draws_decrypt _ _ _ _ envelope
  | decryptText use envelope => exact use.cipher.draws_decryptText _ _ _ _ envelope
  | sealDocument c cipher scope secret document =>
    exact (c.sealLog_sealDocument cipher scope secret document s.vault).draws
  | openDocument c cipher scope secret document => exact c.draws_openDocument _ _ _ document s.vault
  | request asked => exact (accounts_handle asked s).1
  | setMaster secret => exact draws_setMaster secret s
  | newText text => exact .none_of_eq rfl rfl
  | beginScope => exact .none_of_eq rfl rfl
  | flush scope => exact Vault.draws_flush s.vault scope
  | releaseScope scope => exact Vault.draws_releaseScope s.vault scope

theorem isTooLong_iff {plaintext : Bytes} :
    isTooLong plaintext = true ↔ Gcm.plaintextLimit < plaintext.length := decide_eq_true_iff

/-- The log of a plaintext has its envelope, or the nonce that was wasted on it. -/
theorem exists_log_nextEnvelope (cipher : FieldCipher) (secret : ValueId) (context : String)
    (v : Vault) (plaintext : Bytes) :
    ∃ made : List Bytes, [cipher.nextEnvelope secret context v plaintext] =
      made.map some ++ if isTooLong plaintext then [none] else [] := by
  have hnone : cipher.nextEnvelope secret context v plaintext = none ↔
      isTooLong plaintext = true :=
    (cipher.nextEnvelope_eq_none_iff secret context v).trans isTooLong_iff.symm
  cases hentry : cipher.nextEnvelope secret context v plaintext with
  | none =>
    rw [if_pos (hnone.1 hentry)]
    exact ⟨[], rfl⟩
  | some envelope =>
    have hfits : isTooLong plaintext ≠ true := by
      rw [Ne, ← hnone, hentry]
      exact Option.some_ne_none envelope
    rw [if_neg hfits]
    exact ⟨[envelope], rfl⟩

theorem exists_log_of_isSome {log : DrawLog} (h : ∀ entry ∈ log, entry.isSome) :
    ∃ made : List Bytes, log = made.map some ++ if false then [none] else [] := by
  refine ⟨log.envelopes, ?_⟩
  rw [Draws.map_some_envelopes h, if_neg Bool.false_ne_true, List.append_nil]

/-- Nothing but envelopes comes into the log, and a wasted nonce at the end if a plaintext is too
long. -/
theorem exists_log_carryOut (operation : Operation) (s : Service) :
    ∃ made : List Bytes, (operation.carryOut.run s).1 =
      made.map some ++ if operation.isOverlong then [none] else [] := by
  have hempty : ∃ made : List Bytes,
      ([] : DrawLog) = made.map some ++ if false then [none] else [] :=
    exists_log_of_isSome (List.forall_mem_nil _)
  cases operation with
  | tryEncrypt use plaintext =>
    rw [log_tryEncrypt]
    exact exists_log_nextEnvelope _ _ _ _ _
  | tryEncryptText use plaintext =>
    rw [log_tryEncryptText]
    exact exists_log_nextEnvelope _ _ _ _ _
  | encrypt use plaintext =>
    rw [log_encrypt]
    exact exists_log_nextEnvelope _ _ _ _ _
  | encryptText use plaintext =>
    rw [log_encryptText]
    exact exists_log_nextEnvelope _ _ _ _ _
  | sealDocument c cipher scope secret document =>
    have hseal := c.sealLog_sealDocument cipher scope secret document s.vault
    have hmade := Draws.map_some_envelopes hseal.envelopes
    have hlog : ((Operation.sealDocument c cipher scope secret document).carryOut.run s).1 = _ :=
      congrArg₂ (· ++ ·) hmade.symm hseal.failure
    rw [hlog, Operation.isOverlong]
    -- the envelopes of a document come first, and the field that ended the visit after them
    cases (Document.targets c.fields document).all (Document.fits document) with
    | true => exact ⟨_, rfl⟩
    | false => exact ⟨_, rfl⟩
  | request asked => exact exists_log_of_isSome (accounts_handle asked s).2
  | _ => exact hempty

theorem length_log_carryOut (operation : Operation) (s : Service) :
    let log := (operation.carryOut.run s).1
    log.length = log.envelopes.length + if operation.isOverlong then 1 else 0 := by
  obtain ⟨made, hlog⟩ := exists_log_carryOut operation s
  dsimp only
  rw [hlog]
  cases operation.isOverlong <;> simp [DrawLog.envelopes, List.reduceOption]

/-- An operation with a plaintext that is too long fails. -/
theorem fails_of_isOverlong {operation : Operation} (h : operation.isOverlong = true)
    (s : Service) : operation.Fails s := by
  cases operation with
  | tryEncrypt use plaintext =>
    exact (use.cipher.tryEncrypt_fails_iff _ _ _ _).2 (isTooLong_iff.1 h)
  | tryEncryptText use plaintext =>
    exact (use.cipher.tryEncryptText_fails_iff _ _ _ _).2 (isTooLong_iff.1 h)
  | encrypt use plaintext => exact (use.cipher.encrypt_fails_iff _ _ _ _).2 (isTooLong_iff.1 h)
  | encryptText use plaintext =>
    exact (use.cipher.encryptText_fails_iff _ _ _ _).2 (isTooLong_iff.1 h)
  | sealDocument c cipher scope secret document =>
    exact (c.sealDocument_fails_iff cipher scope secret document s.vault).2
      ((Bool.not_eq_true' _).mp h)
  | _ => cases h

/-- Of what encrypts, only requests fail for another reason. -/
theorem isOverlong_of_fails {operation : Operation} {s : Service} (h : operation.Fails s)
    (hencrypts : operation.encrypts = true) (hrequest : ∀ asked, operation ≠ .request asked) :
    operation.isOverlong = true := by
  cases operation with
  | tryEncrypt use plaintext =>
    exact isTooLong_iff.2 ((use.cipher.tryEncrypt_fails_iff _ _ _ _).1 h)
  | tryEncryptText use plaintext =>
    exact isTooLong_iff.2 ((use.cipher.tryEncryptText_fails_iff _ _ _ _).1 h)
  | encrypt use plaintext => exact isTooLong_iff.2 ((use.cipher.encrypt_fails_iff _ _ _ _).1 h)
  | encryptText use plaintext =>
    exact isTooLong_iff.2 ((use.cipher.encryptText_fails_iff _ _ _ _).1 h)
  | sealDocument c cipher scope secret document =>
    have hall := (c.sealDocument_fails_iff cipher scope secret document s.vault).1 h
    rw [Operation.isOverlong, hall]
    rfl
  | request asked => exact absurd rfl (hrequest asked)
  | _ => cases hencrypts

/-- What encrypts nothing has an empty log. -/
theorem log_of_not_encrypts {operation : Operation} (h : operation.encrypts = false)
    (s : Service) : (operation.carryOut.run s).1 = [] := by
  cases operation with
  | request asked =>
    change shownBy asked _ _ _ = []
    cases hroute : Route.ofTarget? asked.target with
    | none =>
      unfold shownBy
      rw [hroute]
    | some route =>
      rw [Operation.encrypts, hroute] at h
      unfold shownBy
      rw [hroute]
      cases route with
      | encrypt => cases h
      | store part => cases h
      | _ => rfl
  | _ => first | rfl | cases h

/-- What encrypts nothing draws nothing, and neither does what fails for another reason than a
plaintext that is too long. -/
theorem drawn_carryOut_of_idle {operation : Operation} {s : Service}
    (h : operation.encrypts = false ∨ operation.Fails s ∧ operation.isOverlong = false) :
    (operation.carryOut.run s).2.vault.drawn = s.vault.drawn := by
  have hlog : (operation.carryOut.run s).1 = [] := by
    rcases h with hnot | ⟨hfails, hfits⟩
    · exact log_of_not_encrypts hnot s
    · cases hencrypts : operation.encrypts with
      | false => exact log_of_not_encrypts hencrypts s
      | true =>
        -- only a request can fail here, and a refused one shows no envelope
        by_cases hrequest : ∃ asked, operation = .request asked
        · obtain ⟨asked, rfl⟩ := hrequest
          exact shownBy_of_refuses hfails _ _ _
        · have hlong := isOverlong_of_fails hfails hencrypts (not_exists.1 hrequest)
          rw [hfits] at hlong
          cases hlong
  have hdraws := draws_carryOut operation s
  rw [hlog] at hdraws
  exact hdraws.drawn

/-! ### Runs -/

/-- The nonces drawn along a run are those that the results tell of, in the order of the draws. -/
theorem draws_run (operations : List Operation) (s : Service) :
    Draws ((run operations).run s).1 s.vault ((run operations).run s).2.vault := by
  induction operations generalizing s with
  | nil => exact .refl s.vault
  | cons operation rest ih =>
    have hfirst := draws_carryOut operation s
    rw [run]
    simp only [run_bind, run_pure]
    exact hfirst.trans (ih _)

/-- One nonce is wasted for each operation with a plaintext that is too long. -/
theorem length_log_run (operations : List Operation) (s : Service) :
    let log := ((run operations).run s).1
    log.length = log.envelopes.length + operations.countP Operation.isOverlong := by
  -- on the operations: the rest of a run starts with the service that the first one leaves
  induction operations generalizing s with
  | nil => rfl
  | cons operation rest ih =>
    have hfirst := length_log_carryOut operation s
    have hrest := ih (operation.carryOut.run s).2
    rw [run]
    simp only [run_bind, run_pure] at hrest ⊢
    rw [DrawLog.envelopes_append, List.length_append, List.length_append, hfirst, hrest,
      List.countP_cons]
    omega

/-- Whatever is asked one after the other, one nonce is drawn for each entry of the log, which is an
envelope that starts with this nonce, or stands for an operation that failed on a plaintext longer
than AES-GCM allows. If there is no such plaintext, then as many nonces are drawn as envelopes are
made, and the envelopes start with the nonces in the order of the draws. Whatever does not encrypt,
and whatever fails for another reason, draws none. In any case, no two envelopes start with the same
nonce if no nonce is drawn twice. -/
theorem nonces_along_run (operations : List Operation) (s : Service) :
    let log := ((run operations).run s).1
    let t := ((run operations).run s).2
    t.vault.drawn = s.vault.drawn + log.length ∧
    log.length = log.envelopes.length + operations.countP Operation.isOverlong ∧
    (∀ (k : Nat) (envelope : Bytes), log[k]? = some (some envelope) →
      leading envelope = (s.vault.nonces (s.vault.drawn + k)).bytes) ∧
    ((∀ operation ∈ operations, operation.isOverlong = false) →
      t.vault.drawn = s.vault.drawn + log.envelopes.length ∧
      log.envelopes.map leading = s.vault.nextNonces log.envelopes.length) ∧
    (∀ (operation : Operation) (u : Service), operation.isOverlong = true →
      operation.Fails u ∧
      ∃ made : List Bytes, (operation.carryOut.run u).1 = made.map some ++ [none]) ∧
    (∀ (operation : Operation) (u : Service),
      operation.encrypts = false ∨ operation.Fails u ∧ operation.isOverlong = false →
      (operation.carryOut.run u).2.vault.drawn = u.vault.drawn) ∧
    ((s.vault.nextNonces log.length).Nodup → (log.envelopes.map leading).Nodup) := by
  intro log t
  have hdraws : Draws log s.vault t.vault := draws_run operations s
  have hlength : log.length = log.envelopes.length + operations.countP Operation.isOverlong :=
    length_log_run operations s
  refine ⟨hdraws.drawn, hlength, hdraws.starts, fun hfit => ?_, fun operation u hlong => ?_,
    fun _ _ => drawn_carryOut_of_idle, hdraws.nodup⟩
  -- nothing is wasted, so every entry of the log is an envelope
  · have hnone : operations.countP Operation.isOverlong = 0 := by
      rw [List.countP_eq_zero]
      intro operation hmem
      rw [hfit operation hmem]
      exact Bool.false_ne_true
    rw [hnone, Nat.add_zero] at hlength
    have hall : ∀ entry ∈ log, entry.isSome := List.reduceOption_length_eq_iff.1 hlength.symm
    exact ⟨hlength ▸ hdraws.drawn, hdraws.map_leading_eq hall⟩
  · obtain ⟨made, hlog⟩ := exists_log_carryOut operation u
    rw [hlong] at hlog
    exact ⟨fails_of_isOverlong hlong u, made, hlog⟩

/-- A service without collections, with the secret `k` on its vault and with nonces that count the
draws. -/
def ofCounter : Service :=
  .new { Vault.ofTexts ["k"] with
    nonces := fun n => ⟨Bytes.ofNat Gcm.nonceBytes n, Bytes.length_ofNat _ n⟩ } [] false 1024
    fun n => BitVec.ofNat 128 n

/-- Two names are encrypted with a failed decryption in between: they start with the first two
nonces. -/
theorem two_names_start_apart :
    let use : CipherUse := ⟨.standard, 0, 0, "Person.name"⟩
    let operations : List Operation :=
      [.tryEncryptText use "Ann", .tryDecryptText use "Ann", .encrypt use (Bytes.ofText "Bob")]
    let log := ((run operations).run ofCounter).1
    (∀ operation ∈ operations, operation.isOverlong = false) ∧
      (Operation.tryDecryptText use "Ann").encrypts = false ∧
      (ofCounter.vault.nextNonces log.length).Nodup ∧
      log.envelopes.map leading =
        [Bytes.ofNat Gcm.nonceBytes 0, Bytes.ofNat Gcm.nonceBytes 1] ∧
      (log.envelopes.map leading).Nodup := by
  intro use operations log
  have hfit : ∀ operation ∈ operations, operation.isOverlong = false := by decide +kernel
  have hlength : log.length = 2 := rfl
  have hdistinct : (ofCounter.vault.nextNonces log.length).Nodup := by
    rw [hlength]
    decide
  obtain ⟨hdrawn, -, -, hall, -, -, hnodup⟩ := nonces_along_run operations ofCounter
  obtain ⟨hmade, hleading⟩ := hall hfit
  have hcount : log.envelopes.length = 2 :=
    Nat.add_left_cancel (hmade.symm.trans (hdrawn.trans (congrArg _ hlength)))
  refine ⟨hfit, rfl, hdistinct, ?_, hnodup hdistinct⟩
  rw [hleading, hcount]
  rfl

theorem log_tryEncrypt_of_lt (use : CipherUse) (s : Service) {plaintext : Bytes}
    (h : Gcm.plaintextLimit < plaintext.length) :
    ((Operation.tryEncrypt use plaintext).carryOut.run s).1 = [none] := by
  rw [log_tryEncrypt, (use.cipher.nextEnvelope_eq_none_iff _ _ _).2 h]

/-- A plaintext that is too long fails with the next nonce drawn, and what is encrypted after it
gets the one after that. -/
theorem second_nonce_of_lt (use : CipherUse) (s : Service) {plaintext : Bytes} {text : String}
    (hlong : Gcm.plaintextLimit < plaintext.length)
    (hlimit : (Bytes.ofText text).length ≤ Gcm.plaintextLimit)
    (hne : (s.vault.nonces (s.vault.drawn + 1)).bytes ≠ (s.vault.nonces s.vault.drawn).bytes) :
    let overlong := Operation.tryEncrypt use plaintext
    let log := ((run [overlong, .tryEncryptText use text]).run s).1
    let t := ((run [overlong, .tryEncryptText use text]).run s).2
    overlong.Fails s ∧ (overlong.carryOut.run s).2.vault.drawn = s.vault.drawn + 1 ∧
      log.envelopes.map leading = [(s.vault.nonces (s.vault.drawn + 1)).bytes] ∧
      log.envelopes.map leading ≠ s.vault.nextNonces log.envelopes.length ∧
      t.vault.drawn = s.vault.drawn + 2 ∧
      t.vault.drawn ≠ s.vault.drawn + log.envelopes.length := by
  intro overlong log t
  have hfirst := log_tryEncrypt_of_lt use s hlong
  have hsecond := log_tryEncryptText use (overlong.carryOut.run s).2 text
  obtain ⟨envelope, hmade⟩ := Option.isSome_iff_exists.1
    (use.cipher.isSome_nextEnvelope use.secret use.context _ hlimit)
  rw [hmade] at hsecond
  have hlog : log = [none, some envelope] := by
    change ((run [overlong, .tryEncryptText use text]).run s).1 = _
    simp only [run, run_bind, run_pure]
    rw [hfirst, hsecond]
    rfl
  have hwasted := draws_carryOut overlong s
  have hdraws : Draws log s.vault t.vault := draws_run _ s
  rw [hfirst] at hwasted
  rw [hlog] at hdraws
  have hleading : log.envelopes.map leading = [(s.vault.nonces (s.vault.drawn + 1)).bytes] := by
    rw [hlog]
    exact congrArg ([·]) (hdraws.starts 1 envelope rfl)
  have hlength : log.envelopes.length = 1 := by
    rw [hlog]
    rfl
  refine ⟨(use.cipher.tryEncrypt_fails_iff _ _ _ _).2 hlong, hwasted.drawn, hleading, ?_,
    hdraws.drawn, ?_⟩
  · rw [hleading, hlength]
    exact fun heq => hne (List.singleton_inj.1 heq)
  · rw [hdraws.drawn, hlength]
    exact Nat.ne_of_gt (Nat.lt_succ_self _)

/-- A plaintext one byte longer than AES-GCM allows fails with the first nonce drawn: there are two
draws for one envelope, which does not start with the first one. -/
theorem overlong_plaintext_wastes_nonce :
    let use : CipherUse := ⟨.standard, 0, 0, "Person.name"⟩
    let overlong := Operation.tryEncrypt use (List.replicate (Gcm.plaintextLimit + 1) 0)
    let log := ((run [overlong, .tryEncryptText use "Ann"]).run ofCounter).1
    let t := ((run [overlong, .tryEncryptText use "Ann"]).run ofCounter).2
    overlong.Fails ofCounter ∧
      (overlong.carryOut.run ofCounter).2.vault.drawn = ofCounter.vault.drawn + 1 ∧
      log.envelopes.map leading =
        [(ofCounter.vault.nonces (ofCounter.vault.drawn + 1)).bytes] ∧
      log.envelopes.map leading ≠ ofCounter.vault.nextNonces log.envelopes.length ∧
      t.vault.drawn = ofCounter.vault.drawn + 2 ∧
      t.vault.drawn ≠ ofCounter.vault.drawn + log.envelopes.length := by
  intro use
  have hlong : Gcm.plaintextLimit <
      (List.replicate (Gcm.plaintextLimit + 1) 0 : Bytes).length := by
    rw [List.length_replicate]
    exact Nat.lt_succ_self _
  have hann : (Bytes.ofText "Ann").length ≤ Gcm.plaintextLimit := by decide +kernel
  have hne : (ofCounter.vault.nonces (ofCounter.vault.drawn + 1)).bytes ≠
      (ofCounter.vault.nonces ofCounter.vault.drawn).bytes := by
    decide
  exact second_nonce_of_lt use ofCounter hlong hann hne

end FieldVault.Service
