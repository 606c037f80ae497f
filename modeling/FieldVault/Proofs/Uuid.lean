import FieldVault.Uuid

/-!
# Reading identifiers back

The text that shows an identifier denotes that identifier (`parse?_toText`). It consists of
lowercase hexadecimal digits and hyphens (`mem_toText`), and is told apart from the other forms by
its length and its first character.
-/

set_option autoImplicit false

namespace FieldVault.Uuid

/-- A lowercase hexadecimal digit. -/
def IsDigit (c : Char) : Prop := ∃ d, d < 16 ∧ Nat.digitChar d = c

/-! ### Digits -/

theorem digitValue?_digitChar : ∀ d, d < 16 → digitValue? (Nat.digitChar d) = some d := by
  decide

/-- Digits are read from the left. -/
theorem valueOf?_append (first second : List Char) (n : Nat) :
    valueOf? (first ++ second) n = (valueOf? first n).bind (valueOf? second) := by
  induction first generalizing n with
  | nil => rfl
  | cons c rest ih =>
    rw [List.cons_append, valueOf?, valueOf?]
    cases digitValue? c with
    | none => rfl
    | some d => exact ih _

/-- The digits of a number are read back. -/
theorem valueOf?_toDigits (n : Nat) : valueOf? (Nat.toDigits 16 n) 0 = some n := by
  induction n using Nat.strongRecOn with
  | ind n ih =>
    rw [Nat.toDigits_eq_if (by decide)]
    -- the last digit stands behind those of the quotient
    split
    · rename_i hlt
      simp [valueOf?, digitValue?_digitChar n hlt]
    · rename_i hge
      have hdiv : n / 16 < n := by omega
      have hmod := digitValue?_digitChar (n % 16) (Nat.mod_lt n (by decide))
      have hsum : 16 * (n / 16) + n % 16 = n := Nat.div_add_mod n 16
      rw [valueOf?_append, ih _ hdiv, Option.bind_some]
      simp [valueOf?, hmod, hsum]

/-- Leading zeros count for nothing. -/
theorem valueOf?_replicate_zero (k : Nat) : valueOf? (List.replicate k '0') 0 = some 0 := by
  induction k with
  | zero => rfl
  | succ k ih => exact ih

theorem isDigit_of_mem_toDigits {n : Nat} {c : Char} (h : c ∈ Nat.toDigits 16 n) : IsDigit c := by
  induction n using Nat.strongRecOn with
  | ind n ih =>
    rw [Nat.toDigits_eq_if (by decide)] at h
    split at h
    · rename_i hlt
      exact ⟨n, hlt, (List.mem_singleton.1 h).symm⟩
    · rename_i hge
      rcases List.mem_append.1 h with hfirst | hlast
      · have hdiv : n / 16 < n := by omega
        exact ih _ hdiv hfirst
      · exact ⟨n % 16, Nat.mod_lt n (by decide), (List.mem_singleton.1 hlast).symm⟩

variable (id : Uuid)

theorem length_toDigits_le : (Nat.toDigits 16 id.toNat).length ≤ 32 := by
  rw [Nat.length_toDigits_le_iff (by decide) (by decide)]
  exact id.isLt

@[simp]
theorem length_digits : id.digits.length = 32 := by
  rw [digits, List.length_append, List.length_replicate]
  exact Nat.sub_add_cancel id.length_toDigits_le

theorem isDigit_of_mem_digits {c : Char} (h : c ∈ id.digits) : IsDigit c := by
  rcases List.mem_append.1 h with hzero | hdigit
  · exact ⟨0, by decide, (List.eq_of_mem_replicate hzero).symm⟩
  · exact isDigit_of_mem_toDigits hdigit

/-- The digits of an identifier denote it. -/
theorem ofDigits?_digits : ofDigits? id.digits = some id := by
  rw [ofDigits?, if_pos id.length_digits, digits, valueOf?_append, valueOf?_replicate_zero,
    Option.bind_some, valueOf?_toDigits, Option.map_some, BitVec.ofNat_toNat, BitVec.setWidth_eq]

/-! ### Groups -/

/-- Groups that fill a text are taken apart again. -/
theorem unhyphenate?_hyphenate {sizes : List Nat} (hsizes : sizes ≠ []) {text : List Char}
    (hlength : text.length = sizes.foldr (· + ·) 0) :
    unhyphenate? sizes (hyphenate sizes text) = some text := by
  induction sizes generalizing text with
  | nil => exact absurd rfl hsizes
  | cons size rest ih =>
    cases rest with
    | nil =>
      rw [List.foldr_cons, List.foldr_nil, Nat.add_zero] at hlength
      rw [hyphenate, unhyphenate?, if_pos hlength]
    | cons next sizes =>
      rw [List.foldr_cons] at hlength
      -- the hyphen is found where the first group ends
      have htake : (text.take size).length = size := by
        rw [List.length_take, Nat.min_eq_left (hlength ▸ Nat.le_add_right _ _)]
      have hdrop : (text.drop size).length = (next :: sizes).foldr (· + ·) 0 := by
        rw [List.length_drop, hlength, Nat.add_sub_cancel_left]
      have hrest := ih (List.cons_ne_nil _ _) hdrop
      rw [hyphenate, unhyphenate?, List.drop_left' htake]
      · simp only [hrest, Option.map_some, List.take_left' htake, List.take_append_drop]
      · intro h
        cases h
      · intro h
        cases h

/-- One hyphen stands between each two groups. -/
theorem length_hyphenate (sizes : List Nat) (text : List Char) :
    (hyphenate sizes text).length = text.length + (sizes.length - 1) := by
  fun_induction hyphenate sizes text with
  | case1 text => rfl
  | case2 text => rfl
  | case3 size sizes text hnot ih =>
    have hpositive : 0 < sizes.length := List.length_pos_iff.2 hnot
    rw [List.length_append, List.length_cons, ih, List.length_take, List.length_drop,
      List.length_cons]
    omega

theorem mem_hyphenate {sizes : List Nat} {text : List Char} {c : Char}
    (h : c ∈ hyphenate sizes text) : c ∈ text ∨ c = '-' := by
  fun_induction hyphenate sizes text with
  | case1 text => exact .inl h
  | case2 text => exact .inl h
  | case3 size sizes text hnot ih =>
    rcases List.mem_append.1 h with hfirst | hrest
    · exact .inl (List.mem_of_mem_take hfirst)
    · rcases List.mem_cons.1 hrest with rfl | hrest
      · exact .inr rfl
      · rcases ih hrest with hdrop | hhyphen
        · exact .inl (List.mem_of_mem_drop hdrop)
        · exact .inr hhyphen

/-! ### Texts -/

/-- The text of an identifier consists of digits and hyphens. -/
theorem mem_toText {c : Char} (h : c ∈ id.toText.toList) : IsDigit c ∨ c = '-' := by
  rw [toText, String.toList_ofList] at h
  rcases mem_hyphenate h with hdigit | hhyphen
  · exact .inl (id.isDigit_of_mem_digits hdigit)
  · exact .inr hhyphen

theorem digitChar_toLower_ne : ∀ d, d < 16 → (Nat.digitChar d).toLower ≠ 'u' := by
  decide

theorem digitChar_ne_brace : ∀ d, d < 16 → Nat.digitChar d ≠ '\x7b' := by
  decide

/-- The text of an identifier denotes it. -/
theorem parse?_toText : parse? id.toText = some id := by
  have hgroups : ofHyphenated? (hyphenate groups id.digits) = some id := by
    rw [ofHyphenated?, unhyphenate?_hyphenate (by decide) id.length_digits, Option.bind_some,
      ofDigits?_digits]
  have hlength : (hyphenate groups id.digits).length = 36 := by
    rw [length_hyphenate, length_digits]
    rfl
  rw [parse?, toText, String.toList_ofList, hlength, if_neg (by decide)]
  -- the first character rules the other forms out
  obtain ⟨c, rest, htext, d, hd, rfl⟩ : ∃ c rest, hyphenate groups id.digits = c :: rest ∧
      IsDigit c := by
    cases hdigits : id.digits with
    | nil =>
      have hempty := id.length_digits
      rw [hdigits] at hempty
      cases hempty
    | cons c rest =>
      refine ⟨c, _, rfl, id.isDigit_of_mem_digits ?_⟩
      rw [hdigits]
      exact List.mem_cons_self
  have hbraces : insideBraces? (hyphenate groups id.digits) = none := by
    rw [htext]
    unfold insideBraces?
    split
    · rename_i heq
      exact absurd (List.cons.inj heq).1 (digitChar_ne_brace d hd)
    · rfl
  have hword : afterWord? "urn:uuid:".toList (hyphenate groups id.digits) = none := by
    have hurn : "urn:uuid:".toList = 'u' :: "rn:uuid:".toList := rfl
    rw [htext, hurn, afterWord?, if_neg (digitChar_toLower_ne d hd)]
  rw [hbraces, hword]
  exact hgroups

end FieldVault.Uuid
