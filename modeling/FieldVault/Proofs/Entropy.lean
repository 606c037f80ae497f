import FieldVault.Entropy
import FieldVault.Proofs.Binary64.Rounding
import Mathlib.Data.List.Dedup

/-!
# What a strong secret is made of

On any machine, the entropy of a text is a sum over its different characters, each with the number
of its occurrences, in some order (`exists_order_shannon`). Machines may differ on whether the sum
falls below 3.5 bits, but not on the length and on the share of different characters: that share is
rounded, and still decides as the exact one would (`reachesDistinctFloor_iff`). What is reported of
a text is the same sum, and no less than the floor unless it is below (`le_bitsPerCharacter`).
-/

set_option autoImplicit false

namespace FieldVault.Entropy

open Binary64

variable {c other : Char} {n total distinct minimum : Nat} {secret : String}

/-! ### Tables of characters -/

section

variable {table : List (Char × Nat)}

theorem mem_keys_addTo :
    other ∈ (addTo c table).map Prod.fst ↔ other = c ∨ other ∈ table.map Prod.fst := by
  induction table with
  | nil => simp [addTo]
  | cons entry rest ih =>
    obtain ⟨found, n⟩ := entry
    rw [addTo]
    split
    · rename_i hfound
      rw [List.map_cons, List.map_cons, hfound, List.mem_cons]
      tauto
    · rw [List.map_cons, List.map_cons, List.mem_cons, ih, List.mem_cons]
      tauto

theorem nodup_keys_addTo (h : (table.map Prod.fst).Nodup) :
    ((addTo c table).map Prod.fst).Nodup := by
  induction table with
  | nil => simp [addTo]
  | cons entry rest ih =>
    obtain ⟨found, n⟩ := entry
    obtain ⟨hfresh, hrest⟩ := List.nodup_cons.1 h
    rw [addTo]
    split
    · exact h
    · rename_i hne
      refine List.nodup_cons.2 ⟨?_, ih hrest⟩
      rw [mem_keys_addTo, not_or]
      exact ⟨hne, hfresh⟩

/-- One more occurrence changes the entry of its character only. -/
theorem mem_addTo (h : (table.map Prod.fst).Nodup) (hmem : (other, n) ∈ addTo c table) :
    other ≠ c ∧ (other, n) ∈ table ∨
      other = c ∧ ((∃ k, (c, k) ∈ table ∧ n = k + 1) ∨ c ∉ table.map Prod.fst ∧ n = 1) := by
  induction table with
  | nil =>
    rw [addTo, List.mem_singleton] at hmem
    cases hmem
    exact .inr ⟨rfl, .inr ⟨List.not_mem_nil, rfl⟩⟩
  | cons entry rest ih =>
    obtain ⟨found, m⟩ := entry
    obtain ⟨hfresh, hrest⟩ := List.nodup_cons.1 h
    rw [addTo] at hmem
    split at hmem
    · rename_i hfound
      rcases List.mem_cons.1 hmem with heq | hmem
      · cases heq
        exact .inr ⟨hfound, .inl ⟨m, hfound ▸ List.mem_cons_self, rfl⟩⟩
      · refine .inl ⟨?_, List.mem_cons_of_mem _ hmem⟩
        rintro rfl
        exact hfresh (List.mem_map.2 ⟨_, hmem, hfound.symm⟩)
    · rename_i hne
      rcases List.mem_cons.1 hmem with heq | hmem
      · cases heq
        exact .inl ⟨hne, List.mem_cons_self⟩
      · rcases ih hrest hmem with ⟨hother, hmem⟩ | ⟨heq, ⟨k, hmem, hk⟩ | ⟨hnone, hone⟩⟩
        · exact .inl ⟨hother, List.mem_cons_of_mem _ hmem⟩
        · exact .inr ⟨heq, .inl ⟨k, List.mem_cons_of_mem _ hmem, hk⟩⟩
        · refine .inr ⟨heq, .inr ⟨?_, hone⟩⟩
          rw [List.map_cons, List.mem_cons, not_or]
          exact ⟨Ne.symm hne, hnone⟩

end

section

variable (characters : List Char)

theorem mem_keys_foldr_addTo :
    c ∈ (characters.foldr addTo []).map Prod.fst ↔ c ∈ characters := by
  induction characters with
  | nil => rfl
  | cons first rest ih => rw [List.foldr_cons, mem_keys_addTo, ih, List.mem_cons]

theorem nodup_keys_foldr_addTo : ((characters.foldr addTo []).map Prod.fst).Nodup := by
  induction characters with
  | nil => exact List.nodup_nil
  | cons first rest ih => exact nodup_keys_addTo ih

theorem eq_count_of_mem_foldr_addTo (h : (c, n) ∈ characters.foldr addTo []) :
    n = characters.count c := by
  induction characters generalizing n with
  | nil => cases h
  | cons first rest ih =>
    rcases mem_addTo (nodup_keys_foldr_addTo rest) h with
      ⟨hne, hmem⟩ | ⟨rfl, ⟨k, hmem, rfl⟩ | ⟨hnone, rfl⟩⟩
    · rw [List.count_cons_of_ne (Ne.symm hne), ih hmem]
    · rw [List.count_cons_self, ih hmem]
    · rw [mem_keys_foldr_addTo] at hnone
      rw [List.count_cons_self, List.count_eq_zero_of_not_mem hnone]

end

section

variable (text : String)

/-- A table lists the different characters of its text. -/
theorem keys_table_perm : ((table text).map Prod.fst).Perm text.toList.dedup := by
  have hkeys : ((table text).map Prod.fst).Nodup := nodup_keys_foldr_addTo text.toList
  refine (List.perm_ext_iff_of_nodup hkeys (List.nodup_dedup _)).2 fun c => ?_
  rw [List.mem_dedup]
  exact mem_keys_foldr_addTo text.toList

theorem length_table : (table text).length = text.toList.dedup.length := by
  rw [← (keys_table_perm text).length_eq, List.length_map]

/-- The entropy is the sum of what the different characters of a text add to it, by the number of
their occurrences. The order of the additions is the machine's. -/
theorem exists_order_shannon [Machine] :
    ∃ order : List Char, order.Perm text.toList.dedup ∧
      shannon text =
        (order.map fun c => bitsOf text.toList.length (text.toList.count c)).foldl add
          (zero false) := by
  have hperm := Machine.order_perm (table text)
  refine ⟨(Machine.order (table text)).map Prod.fst,
    (hperm.map Prod.fst).trans (keys_table_perm text), ?_⟩
  -- the terms are the same, since an entry of the table counts its character
  have hterms : (Machine.order (table text)).map (fun entry => bitsOf (size text) entry.2) =
      ((Machine.order (table text)).map Prod.fst).map
        fun c => bitsOf text.toList.length (text.toList.count c) := by
    rw [List.map_map]
    refine List.map_congr_left fun entry hentry => ?_
    rw [Function.comp_apply, ← eq_count_of_mem_foldr_addTo _ (hperm.mem_iff.1 hentry)]
    rfl
  rw [shannon, hterms]

end

/-! ### What is reported -/

theorem number?_leastBits : leastBits.number? = some (7 / 2) := by
  have hvalue : leastBits.value = .finite false (7 * 2 ^ 50) (-51) := by decide
  rw [number?, hvalue]
  norm_num

/-- The entropy that is reported in units of `1 / (2 * half)` bits is at least 3.5 bits, which are
`7 * half` units, if it does not fall below the floor. -/
theorem le_bitsPerCharacter [Machine] {text : String} {half : Nat}
    (hfinite : (shannon text).isFinite = true) (hfloor : (shannon text).lt leastBits = false)
    (hsmall : 7 * half < 2 ^ 53) : 7 * half ≤ bitsPerCharacter (2 * half) text := by
  obtain ⟨q, hq⟩ := isFinite_iff.1 hfinite
  have hge : (7 / 2 : ℚ) ≤ q := by
    rw [← not_lt, ← lt_iff hq number?_leastBits, hfloor]
    exact Bool.false_ne_true
  refine le_roundWord_mul hq (by linarith) (by omega) hsmall ?_
  push_cast
  have hhalf : (0 : ℚ) ≤ half := by positivity
  nlinarith only [hge, hhalf]

/-! ### The share of different characters -/

theorem number?_leastShare : leastShare.number? = some (1 / 4) := by
  have hvalue : leastShare.value = .finite false (2 ^ 52) (-54) := by decide
  rw [number?, hvalue]
  norm_num

/-- One quarter, and the double before it. -/
theorem numberOf_quarter :
    numberOf (1020 * 2 ^ 52 + 2 ^ 52) = 1 / 4 ∧
      numberOf (1019 * 2 ^ 52 + (2 ^ 53 - 1)) = 1 / 4 - 1 / 2 ^ 55 := by
  constructor
  · rw [numberOf_add (.inr le_rfl) (by decide), minExponent]
    norm_num
  · rw [numberOf_add (.inr (by decide)) (by decide), minExponent]
    norm_num

/-- The nearest double to a share of fewer than 2⁵³ characters is at least one quarter just if the
share is. -/
theorem quarter_le_numberOf_iff {k : Nat} (hpos : 0 < total) (hsmall : total < 2 ^ 53)
    (h : Nearest (distinct / total) k) : 1 / 4 ≤ numberOf k ↔ total ≤ 4 * distinct := by
  obtain ⟨hquarter, hbefore⟩ := numberOf_quarter
  have htotal : (0 : ℚ) < total := by exact_mod_cast hpos
  constructor
  · intro hge
    by_contra hlt
    -- the share is more than half the way to the double before one quarter away from it
    have hshare : (distinct / total : ℚ) ≤ 1 / 4 - 1 / 2 ^ 55 := by
      have hone : (4 * distinct + 1 : ℚ) ≤ total := by exact_mod_cast (by omega)
      have hbound : (total : ℚ) ≤ 2 ^ 53 := by exact_mod_cast hsmall.le
      rw [div_le_iff₀ htotal]
      linarith
    rw [← hbefore] at hshare
    have hle := numberOf_strictMono.monotone (h.le_of_le_numberOf hshare)
    rw [hbefore] at hle
    linarith
  · intro hle
    have hshare : (1 / 4 : ℚ) ≤ distinct / total := by
      rw [le_div_iff₀ htotal]
      have hcast : (total : ℚ) ≤ 4 * distinct := by exact_mod_cast hle
      linarith
    rw [← hquarter] at hshare ⊢
    exact numberOf_strictMono.monotone ((nearest_numberOf _).le h hshare)

/-- Rounding does not move a share of fewer than 2⁵³ characters past one quarter. -/
theorem reachesDistinctFloor_iff (hpos : 0 < total) (hle : distinct ≤ total)
    (hsmall : total < 2 ^ 53) :
    reachesDistinctFloor total distinct = true ↔ total ≤ 4 * distinct := by
  have htotal := number?_ofNat hsmall
  have hdistinct := number?_ofNat (hle.trans_lt hsmall)
  have hne : (total : ℚ) ≠ 0 := by exact_mod_cast hpos.ne'
  obtain ⟨k, hnearest, hk⟩ := exists_nearest_div hdistinct htotal hne
  have hshare : |(distinct / total : ℚ)| = distinct / total := abs_of_nonneg (by positivity)
  rw [hshare] at hnearest
  -- a share is at most one, so the quotient is not rounded to infinity
  have hone : (distinct / total : ℚ) ≤ numberOf (1022 * 2 ^ 52 + 2 ^ 52) := by
    rw [numberOf_one, div_le_one (by exact_mod_cast hpos)]
    exact_mod_cast hle
  have hfinite : k < infinityMagnitude :=
    (hnearest.le_of_le_numberOf hone).trans_lt (by decide)
  have hquotient : ((ofNat distinct).div (ofNat total)).number? = some (numberOf k) := by
    rw [hk, isNegative_ofNat, isNegative_ofNat, min_eq_left hfinite.le,
      number?_ofMagnitude hfinite]
    simp
  rw [reachesDistinctFloor, le_iff number?_leastShare hquotient]
  exact quarter_le_numberOf_iff hpos hsmall hnearest

/-- On any machine, a secret passes just if it has the length asked for, which is at least 22, if
its entropy does not fall below the floor, and if there are at most four characters for each
different one. -/
theorem hasMinimum_eq_ok_true_iff [Machine] (hsmall : secret.toList.length < 2 ^ 53) :
    hasMinimum secret minimum = .ok true ↔
      22 ≤ minimum ∧ minimum ≤ secret.toList.length ∧ (shannon secret).lt leastBits = false ∧
        secret.toList.length ≤ 4 * secret.toList.dedup.length := by
  by_cases hlow : minimum < floorLength
  · rw [hasMinimum, if_pos hlow]
    constructor
    · nofun
    · rintro ⟨hfloor, -⟩
      exact absurd hlow (Nat.not_lt_of_le hfloor)
  · have hfloor : 22 ≤ minimum := Nat.le_of_not_lt hlow
    rw [hasMinimum, if_neg hlow, Except.ok.injEq, isStrong, length_table, Bool.and_eq_true,
      Bool.and_eq_true, decide_eq_true_eq, Bool.not_eq_true', and_assoc, and_iff_right hfloor]
    refine and_congr_right fun hlength => and_congr_right fun _ => ?_
    -- a secret of the length asked for is not empty
    have hpos : 0 < secret.toList.length := (Nat.zero_lt_of_lt hfloor).trans_le hlength
    exact reachesDistinctFloor_iff hpos (List.dedup_sublist _).length_le hsmall

/-- With an entropy of 3.5 bits, which is rounded down, a text is weak. -/
example :
    hasMinimum "aaaaaaaaabbbbbbbbbccccccccccccdefghijklmnopqrstu" 22 = .ok false := by
  decide +kernel

end FieldVault.Entropy
