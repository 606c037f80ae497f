import FieldVault.Proofs.Binary64
import FieldVault.Settings

/-!
# Which settings are accepted

Settings are adjusted first and checked then, so what is checked is not what was given. A share
above one becomes one before it is checked. So does an infinite one, which the check alone would
refuse; apart from that, settings are accepted just if they are in order as given
(`accepted_iff_in_order_or_infinite_share`). The machine that computes the entropy of a master
secret may be any.
-/

set_option autoImplicit false

namespace FieldVault.Settings

variable {s accepted : Settings} {fault : Fault} {q : ℚ}

/-! ### The adjustments -/

theorem share_normalise (s : Settings) :
    s.normalise.share = if Binary64.one.lt s.share then .one else s.share := rfl

theorem threshold_normalise (s : Settings) :
    s.normalise.threshold = max minThreshold s.threshold := rfl

/-- A share that is a number becomes the least of it and one. -/
theorem number?_share_normalise (h : s.share.number? = some q) :
    s.normalise.share.number? = some (min q 1) := by
  rw [share_normalise]
  split
  · rename_i hlt
    rw [min_eq_right ((Binary64.lt_iff Binary64.number?_one h).1 hlt).le, Binary64.number?_one]
  · rename_i hnot
    rw [min_eq_left (not_lt.1 (mt (Binary64.lt_iff Binary64.number?_one h).2 hnot)), h]

/-- A share of at most one is kept. -/
theorem share_normalise_of_le_one (h : s.share.number? = some q) (hle : q ≤ 1) :
    s.normalise.share = s.share :=
  if_neg (mt (Binary64.lt_iff Binary64.number?_one h).1 (not_lt.2 hle))

theorem share_normalise_of_infinite (h : s.share.value = .infinite false) :
    s.normalise.share = .one :=
  if_pos (Binary64.one_lt_iff.2 (.inl h))

/-- No adjusted share is above one. -/
theorem not_one_lt_share_normalise (s : Settings) : Binary64.one.lt s.normalise.share ≠ true := by
  rw [share_normalise]
  split
  · decide
  · assumption

/-- Adjusted settings need no adjustment. -/
theorem normalise_normalise (s : Settings) : s.normalise.normalise = s.normalise := by
  have hthreshold : s.normalise.normalise.threshold = s.normalise.threshold :=
    max_eq_right (le_max_left _ _)
  have hshare : s.normalise.normalise.share = s.normalise.share :=
    if_neg (not_one_lt_share_normalise s)
  calc s.normalise.normalise = { s.normalise with
        threshold := s.normalise.normalise.threshold
        share := s.normalise.normalise.share } := rfl
    _ = s.normalise := by rw [hthreshold, hshare]

/-! ### The checks -/

theorem isPositiveShare_iff {share : Binary64} :
    isPositiveShare share = true ↔ ∃ q, share.number? = some q ∧ 0 < q := by
  rw [isPositiveShare, Bool.and_eq_true, Binary64.isFinite_iff]
  constructor
  · rintro ⟨⟨q, hq⟩, hlt⟩
    exact ⟨q, hq, (Binary64.lt_iff Binary64.number?_zero hq).1 hlt⟩
  · rintro ⟨q, hq, hlt⟩
    exact ⟨⟨q, hq⟩, (Binary64.lt_iff Binary64.number?_zero hq).2 hlt⟩

/-- An adjusted share is positive if the given one is, or if that is infinite. -/
theorem isPositiveShare_normalise_iff :
    isPositiveShare s.normalise.share = true ↔
      (∃ q, s.share.number? = some q ∧ 0 < q) ∨ s.share.value = .infinite false := by
  have hone : isPositiveShare .one = true := by decide
  -- what is above one, infinity included, is checked as one
  by_cases hlt : Binary64.one.lt s.share = true
  · rw [share_normalise, if_pos hlt, hone]
    refine (iff_true_left rfl).2 ?_
    rcases Binary64.one_lt_iff.1 hlt with hinfinite | ⟨q, hq, hgt⟩
    · exact .inr hinfinite
    · exact .inl ⟨q, hq, one_pos.trans hgt⟩
  · have hnot : s.share.value ≠ .infinite false := by
      intro h
      exact hlt (Binary64.one_lt_iff.2 (.inl h))
    rw [share_normalise, if_neg hlt, or_iff_left hnot]
    exact isPositiveShare_iff

/-- A schema directory, if one is given, does not consist of white space alone. -/
def HasNamedSchemaDir (s : Settings) : Prop :=
  ∀ dir, s.schemaDir = some dir → ∃ c ∈ dir.toList, Text.isWhiteSpace c = false

theorem hasNamedSchemaDir_iff :
    s.HasNamedSchemaDir ↔ s.schemaDir.any Text.isBlank = false := by
  rw [HasNamedSchemaDir]
  cases s.schemaDir with
  | none => simp
  | some dir => simp [Text.isBlank]

section

variable [Entropy.Machine]

/-- The length asked of a master secret is one that may be asked for. -/
theorem hasMinimum_secretLength (secret : String) :
    Entropy.hasMinimum secret secretLength = .ok (Entropy.isStrong secret secretLength) :=
  if_neg (by decide)

theorem validateSecret_eq (secret : String) :
    validateSecret secret =
      if Entropy.isStrong secret secretLength then .ok () else .error .weakMasterSecret := by
  rw [validateSecret, hasMinimum_secretLength]

/-- The faults that are looked for, in this order. -/
theorem validate_eq (s : Settings) :
    s.validate =
      if isPositiveShare s.share = false then .error .shareOutOfRange
      else if s.masterSecret.any fun secret => !Entropy.isStrong secret secretLength then
        .error .weakMasterSecret
      else if s.schemaDir.any Text.isBlank then .error .blankSchemaDir
      else .ok () := by
  unfold validate
  cases isPositiveShare s.share with
  | false => rfl
  | true =>
    cases s.masterSecret with
    | none => cases s.schemaDir.any Text.isBlank <;> rfl
    | some secret =>
      simp only [validateSecret_eq, Option.any_some]
      by_cases hstrong : Entropy.isStrong secret secretLength = true
      · simp only [hstrong]
        cases s.schemaDir.any Text.isBlank <;> rfl
      · rw [Bool.not_eq_true] at hstrong
        simp only [hstrong]
        rfl

/-- A master secret, if one is given, has the entropy asked for. -/
def HasStrongSecret (s : Settings) : Prop :=
  ∀ secret, s.masterSecret = some secret → Entropy.hasMinimum secret 22 = .ok true

theorem hasStrongSecret_iff :
    s.HasStrongSecret ↔
      s.masterSecret.any (fun secret => !Entropy.isStrong secret secretLength) = false := by
  have hgate (secret : String) : Entropy.hasMinimum secret 22 = .ok true ↔
      Entropy.isStrong secret secretLength = true := by
    change Entropy.hasMinimum secret secretLength = _ ↔ _
    rw [hasMinimum_secretLength, Except.ok.injEq]
  rw [HasStrongSecret]
  cases s.masterSecret with
  | none => simp
  | some secret => simp [hgate]

theorem validate_eq_ok_iff :
    s.validate = .ok () ↔
      isPositiveShare s.share = true ∧ s.HasStrongSecret ∧ s.HasNamedSchemaDir := by
  rw [validate_eq, hasStrongSecret_iff, hasNamedSchemaDir_iff]
  split
  · simp [*]
  · split
    · simp [*]
    · split <;> simp_all

theorem accept_eq (s : Settings) : s.accept = s.normalise.validate.map fun _ => s.normalise := by
  rw [accept]
  cases s.normalise.validate <;> rfl

theorem exists_accept_eq_ok_iff :
    (∃ accepted, s.accept = .ok accepted) ↔ s.normalise.validate = .ok () := by
  rw [accept_eq]
  cases s.normalise.validate <;> simp [Except.map]

theorem eq_of_accept_eq_ok (h : s.accept = .ok accepted) : accepted = s.normalise := by
  rw [accept_eq] at h
  cases hvalidate : s.normalise.validate with
  | error fault =>
    rw [hvalidate] at h
    cases h
  | ok =>
    rw [hvalidate] at h
    exact (Except.ok.inj h).symm

theorem validate_ne_misconfiguredGate (s : Settings) : s.validate ≠ .error .misconfiguredGate := by
  rw [validate_eq]
  split_ifs <;> simp

theorem accept_ne_misconfiguredGate (s : Settings) : s.accept ≠ .error .misconfiguredGate := by
  have hvalidate := validate_ne_misconfiguredGate s.normalise
  rw [accept_eq]
  cases h : s.normalise.validate with
  | error fault => simpa [Except.map, h] using hvalidate
  | ok => simp [Except.map]

/-! ### What is accepted -/

/-- On any machine, settings are accepted if their share is a positive number or infinity, their
master secret, if there is one, passes the gate, and their schema directory, if there is one, is not
blank. Then the share becomes the least of it and one, which for infinity is one, the threshold is
raised to 1024, and all else is as given. The length asked of a master secret is never at fault, and
what is adjusted needs no more adjustment. -/
theorem accepted_iff_in_order_or_infinite_share (s : Settings) :
    ((∃ accepted, s.accept = .ok accepted) ↔
      ((∃ q, s.share.number? = some q ∧ 0 < q) ∨ s.share.value = .infinite false) ∧
        s.HasStrongSecret ∧ s.HasNamedSchemaDir) ∧
    (∀ accepted, s.accept = .ok accepted →
      (∃ q, accepted.share.number? = some q ∧ 0 < q ∧ q ≤ 1 ∧
        (∀ given, s.share.number? = some given →
          q = min given 1 ∧ (given ≤ 1 → accepted.share = s.share)) ∧
        (s.share.value = .infinite false → accepted.share = .one)) ∧
      accepted.threshold = max s.threshold 1024 ∧
      accepted = { s with share := accepted.share, threshold := accepted.threshold }) ∧
    s.accept ≠ .error .misconfiguredGate ∧
    s.normalise.normalise = s.normalise := by
  refine ⟨?_, ?_, accept_ne_misconfiguredGate s, normalise_normalise s⟩
  · rw [exists_accept_eq_ok_iff, validate_eq_ok_iff, isPositiveShare_normalise_iff]
    rfl
  · intro accepted h
    have hvalidate := exists_accept_eq_ok_iff.1 ⟨accepted, h⟩
    obtain ⟨q, hq, hpos⟩ := isPositiveShare_iff.1 (validate_eq_ok_iff.1 hvalidate).1
    have hle : q ≤ 1 := by
      by_contra hgt
      apply not_one_lt_share_normalise s
      exact (Binary64.lt_iff Binary64.number?_one hq).2 (not_le.1 hgt)
    rw [eq_of_accept_eq_ok h]
    refine ⟨⟨q, hq, hpos, hle, ?_, share_normalise_of_infinite⟩,
      (threshold_normalise s).trans (max_comm _ _), rfl⟩
    intro given hgiven
    refine ⟨?_, share_normalise_of_le_one hgiven⟩
    exact Option.some.inj (hq.symm.trans (number?_share_normalise hgiven))

end

/-- A share of three and a small threshold are adjusted; a secret of 22 different characters passes
the gate. -/
theorem share_of_three_accepted_as_one :
    let given : Settings :=
      { masterSecret := some "Jx7#qL2m!Vb9@rT4wZ8$kP", share := .ofNat 3, threshold := 10,
        integrity := true, schemaDir := some " schemas", listenPort := 8080, endpoint := none,
        logLevel := "info" }
    given.share.number? = some 3 ∧ given.HasStrongSecret ∧ given.HasNamedSchemaDir ∧
      ∃ accepted, given.accept = .ok accepted ∧
        accepted.share.number? = some 1 ∧ accepted.threshold = 1024 ∧
        accepted.masterSecret = given.masterSecret ∧ accepted.schemaDir = given.schemaDir := by
  intro given
  have hshare : given.share.number? = some 3 := by
    have hvalue : given.share.value = .finite false (3 * 2 ^ 51) (-51) := by decide
    rw [Binary64.number?, hvalue]
    norm_num
  have hsecret : given.HasStrongSecret := by
    intro secret h
    cases h
    decide +kernel
  have hdir : given.HasNamedSchemaDir := by
    intro dir h
    cases h
    exact ⟨'s', by decide, by decide⟩
  obtain ⟨haccepts, hfields, -⟩ := accepted_iff_in_order_or_infinite_share given
  obtain ⟨accepted, haccepted⟩ := haccepts.2 ⟨.inl ⟨3, hshare, three_pos⟩, hsecret, hdir⟩
  obtain ⟨⟨q, hq, -, -, hgiven, -⟩, hthreshold, hothers⟩ := hfields accepted haccepted
  refine ⟨hshare, hsecret, hdir, accepted, haccepted, ?_, hthreshold, ?_, ?_⟩
  · rw [hq, (hgiven 3 hshare).1]
    norm_num
  · rw [hothers]
  · rw [hothers]

/-- An infinite share is accepted as one, although the check by itself would refuse it. -/
theorem infinite_share_accepted :
    let given : Settings :=
      { masterSecret := none, share := .infinity false, threshold := 16 * 1024 * 1024,
        integrity := true, schemaDir := none, listenPort := 8080, endpoint := none,
        logLevel := "info" }
    ofEnvironment [("WIPE_THREAD_LIMIT_PERCENTAGE", "inf")] = .ok given ∧
      given.validate = .error .shareOutOfRange ∧ given.accept = .ok { given with share := .one } ∧
      ¬ ((∃ accepted, given.accept = .ok accepted) ↔
        (∃ q, given.share.number? = some q ∧ 0 < q) ∧
          given.HasStrongSecret ∧ given.HasNamedSchemaDir) := by
  intro given
  have haccept : given.accept = .ok { given with share := .one } := rfl
  refine ⟨rfl, rfl, haccept, ?_⟩
  intro h
  obtain ⟨⟨q, hq, -⟩, -⟩ := h.1 ⟨_, haccept⟩
  cases hq

end FieldVault.Settings
