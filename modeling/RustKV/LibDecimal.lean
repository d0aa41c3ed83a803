import Mathlib.Data.List.Basic
import Mathlib.Tactic.IntervalCases
import Mathlib.Tactic.Linarith

/-! Byte strings, the UTF-8 view of Lean strings, and decimal numerals as byte
strings: what a number prints to, what a digit string reads back as, and that
reading undoes printing. -/
namespace Decimal

abbrev Bytes := List UInt8

/-- The UTF-8 bytes of a string. -/
def asBytes (s : String) : Bytes := s.toUTF8.data.toList

/-- The string with the given UTF-8 bytes, if they are valid UTF-8. -/
def fromUtf8 (b : Bytes) : Option String := String.fromUTF8? ⟨b.toArray⟩

theorem asBytes_eq_iff (s : String) (b : Bytes) :
    asBytes s = b ↔ s.toByteArray = ⟨b.toArray⟩ := by
  constructor
  · rintro rfl
    simp [asBytes]
  · intro h
    simp [asBytes, h]

theorem asBytes_injective : Function.Injective asBytes := by
  intro s t h
  have hs := (asBytes_eq_iff s _).mp h
  have ht := (asBytes_eq_iff t _).mp rfl
  exact String.toByteArray_inj.mp (hs.trans ht.symm)

theorem fromUtf8_eq_some_iff (b : Bytes) (s : String) :
    fromUtf8 b = some s ↔ asBytes s = b := by
  rw [asBytes_eq_iff]
  unfold fromUtf8 String.fromUTF8?
  constructor
  · intro h
    split at h
    · rw [← Option.some.inj h]
      rfl
    · exact absurd h (by simp)
  · intro h
    have hv : (⟨b.toArray⟩ : ByteArray).IsValidUTF8 := h ▸ s.isValidUTF8
    rw [dif_pos hv]
    apply congrArg some
    apply String.toByteArray_inj.mp
    exact h.symm

@[simp] theorem fromUtf8_asBytes (s : String) : fromUtf8 (asBytes s) = some s :=
  (fromUtf8_eq_some_iff _ s).mpr rfl

@[simp] theorem asBytes_append (s t : String) : asBytes (s ++ t) = asBytes s ++ asBytes t := by
  simp [asBytes]

/-- A string of ASCII characters has one byte for each character. -/
theorem asBytes_ofList_ascii (l : List Char) (h : ∀ c ∈ l, c.utf8Size = 1) :
    asBytes (String.ofList l) = l.map (fun c => c.toUInt8) := by
  induction l with
  | nil => rfl
  | cons c l ih =>
    have hc := h c List.mem_cons_self
    have hl := ih (fun d hd => h d (List.mem_cons_of_mem _ hd))
    simp only [asBytes, String.toUTF8, String.toByteArray_ofList] at hl ⊢
    rw [List.utf8Encode_cons, List.utf8Encode_singleton, String.utf8EncodeChar_eq_singleton hc]
    simp [hl]

/-- ASCII bytes are valid UTF-8. -/
theorem fromUtf8_ascii (b : Bytes) (h : ∀ x ∈ b, x.toNat < 128) : ∃ s, fromUtf8 b = some s := by
  refine ⟨String.ofList (b.map fun x => Char.ofNat x.toNat), ?_⟩
  rw [fromUtf8_eq_some_iff]
  have hval (x : UInt8) (hx : x.toNat < 128) : (Char.ofNat x.toNat).val = x.toNat.toUInt32 := by
    rw [Char.ofNat, dif_pos (Or.inl (by omega))]
    apply UInt32.toNat_inj.mp
    change x.toNat = x.toNat.toUInt32.toNat
    simp
  rw [asBytes_ofList_ascii]
  · rw [List.map_map]
    apply (List.map_congr_left fun x hx => ?_).trans (List.map_id b)
    simp only [Function.comp_apply, Char.toUInt8, hval x (h x hx), id_eq]
    apply UInt8.toNat_inj.mp
    simp
  · intro c hc
    obtain ⟨x, hx, rfl⟩ := List.mem_map.mp hc
    have hx128 := h x hx
    rw [Char.utf8Size_eq_one_iff, hval x hx128, UInt32.le_iff_toNat_le]
    simp
    omega

/-- The value of one ASCII digit. -/
def digitValue (b : UInt8) : Option ℕ :=
  if 48 ≤ b.toNat ∧ b.toNat ≤ 57 then some (b.toNat - 48) else none

/-- Accumulate a digit string, most significant digit first. -/
def digitsFrom (acc : ℕ) : Bytes → Option ℕ
  | [] => some acc
  | b :: bs => (digitValue b).bind fun d => digitsFrom (acc * 10 + d) bs

/-- The value of a non-empty digit string. -/
def digits (b : Bytes) : Option ℕ := if b = [] then none else digitsFrom 0 b

theorem digitsFrom_append (acc : ℕ) (xs ys : Bytes) :
    digitsFrom acc (xs ++ ys) = (digitsFrom acc xs).bind fun v => digitsFrom v ys := by
  induction xs generalizing acc with
  | nil => rfl
  | cons x xs ih =>
    simp only [List.cons_append, digitsFrom]
    cases digitValue x with
    | none => rfl
    | some d => exact ih _

/-- The decimal numeral of a natural number. -/
def numeral (n : ℕ) : Bytes := (Nat.toDigits 10 n).map (fun c => c.toUInt8)

theorem digitChar_byte (d : ℕ) (hd : d < 10) :
    (Nat.digitChar d).utf8Size = 1 ∧
      digitValue (Nat.digitChar d).toUInt8 = some d := by
  interval_cases d <;> decide

theorem numeral_of_lt (d : ℕ) (hd : d < 10) : digitsFrom 0 (numeral d) = some d := by
  rw [numeral, Nat.toDigits_of_lt_base hd]
  simp [digitsFrom, (digitChar_byte d hd).2]

theorem numeral_step (n : ℕ) (hn : 10 ≤ n) :
    numeral n = numeral (n / 10) ++ [(Nat.digitChar (n % 10)).toUInt8] := by
  simp [numeral, Nat.toDigits_of_base_le (by decide : 1 < 10) hn]

theorem digitsFrom_numeral (n : ℕ) : digitsFrom 0 (numeral n) = some n := by
  induction n using Nat.strong_induction_on with
  | _ n ih =>
    by_cases hn : n < 10
    · exact numeral_of_lt n hn
    · rw [numeral_step n (by omega), digitsFrom_append, ih (n / 10) (by omega)]
      have hd := (digitChar_byte (n % 10) (Nat.mod_lt _ (by decide))).2
      simp only [Option.bind_some, digitsFrom, hd, Option.some.injEq]
      omega

theorem numeral_ne_nil (n : ℕ) : numeral n ≠ [] := by
  simp [numeral, Nat.toDigits_ne_nil]

theorem digits_numeral (n : ℕ) : digits (numeral n) = some n := by
  rw [digits, if_neg (numeral_ne_nil n), digitsFrom_numeral]

theorem asBytes_toString_nat (n : ℕ) : asBytes (toString n) = numeral n := by
  rw [Nat.toString_eq_ofList_toDigits]
  apply asBytes_ofList_ascii
  intro c hc
  have hd := Nat.isDigit_of_mem_toDigits (by decide) (by decide) hc
  simp only [Char.isDigit, ge_iff_le, Bool.and_eq_true, decide_eq_true_eq] at hd
  rw [Char.utf8Size_eq_one_iff]
  exact UInt32.le_trans hd.2 (by decide)

/-- Every byte of a digit string that has a value is an ASCII digit. -/
theorem digitsFrom_mem {acc v : ℕ} {b : Bytes} (h : digitsFrom acc b = some v) :
    ∀ x ∈ b, 48 ≤ x.toNat ∧ x.toNat ≤ 57 := by
  induction b generalizing acc with
  | nil => simp
  | cons x xs ih =>
    simp only [digitsFrom] at h
    cases hd : digitValue x with
    | none => simp [hd] at h
    | some d =>
      rw [hd] at h
      have hx : 48 ≤ x.toNat ∧ x.toNat ≤ 57 := by
        by_contra hn
        simp [digitValue, hn] at hd
      intro y hy
      rcases List.mem_cons.mp hy with rfl | hy
      · exact hx
      · exact ih h y hy

theorem numeral_mem (n : ℕ) : ∀ x ∈ numeral n, 48 ≤ x.toNat ∧ x.toNat ≤ 57 :=
  digitsFrom_mem (digitsFrom_numeral n)

/-- Split an optional leading `+`. -/
def dropPlus : Bytes → Bytes
  | 43 :: b => b
  | b => b

/-- An unsigned numeral with an optional `+`, at most `max`. -/
def parseUnsigned (max : ℕ) (b : Bytes) : Option ℕ :=
  (digits (dropPlus b)).bind fun v => if v ≤ max then some v else none

/-- A non-empty string of ASCII digits, with its value. -/
def IsNumeral (ds : Bytes) (v : ℕ) : Prop :=
  ds ≠ [] ∧ (∀ b ∈ ds, 48 ≤ b.toNat ∧ b.toNat ≤ 57) ∧
    ds.foldl (fun acc b => acc * 10 + (b.toNat - 48)) 0 = v

theorem digitsFrom_eq_some_iff {acc v : ℕ} {b : Bytes} :
    digitsFrom acc b = some v ↔ (∀ x ∈ b, 48 ≤ x.toNat ∧ x.toNat ≤ 57) ∧
      b.foldl (fun acc x => acc * 10 + (x.toNat - 48)) acc = v := by
  induction b generalizing acc with
  | nil => simp [digitsFrom]
  | cons x xs ih =>
    simp only [digitsFrom, digitValue, List.forall_mem_cons, List.foldl_cons]
    by_cases hx : 48 ≤ x.toNat ∧ x.toNat ≤ 57
    · rw [if_pos hx, Option.bind_some, ih, and_iff_right hx]
    · rw [if_neg hx, Option.bind_none]
      exact iff_of_false nofun fun h => hx h.1.1

theorem digits_eq_some_iff {b : Bytes} {v : ℕ} : digits b = some v ↔ IsNumeral b v := by
  rw [digits, IsNumeral]
  split_ifs with hb
  · exact iff_of_false nofun fun h => h.1 hb
  · rw [digitsFrom_eq_some_iff, and_iff_right hb]

/-- The shape of an unsigned numeral: an optional plus and a digit string. -/
theorem parseUnsigned_eq_some_iff {max v : ℕ} {b : Bytes} :
    parseUnsigned max b = some v ↔
      ∃ ds, (b = ds ∨ b = 43 :: ds) ∧ IsNumeral ds v ∧ v ≤ max := by
  simp only [parseUnsigned, Option.bind_eq_some_iff, Option.ite_none_right_eq_some,
    Option.some.injEq, digits_eq_some_iff]
  constructor
  · rintro ⟨w, hw, hle, rfl⟩
    refine ⟨dropPlus b, ?_, hw, hle⟩
    unfold dropPlus
    split
    · exact Or.inr rfl
    · exact Or.inl rfl
  · rintro ⟨ds, rfl | rfl, hds, hle⟩
    · have hplus : dropPlus b = b := by
        unfold dropPlus
        split
        · exact absurd (hds.2.1 43 List.mem_cons_self) (by decide)
        · rfl
      rw [hplus]
      exact ⟨v, hds, hle, rfl⟩
    · exact ⟨v, hds, hle, rfl⟩

theorem parseUnsigned_ascii {max v : ℕ} {b : Bytes} (h : parseUnsigned max b = some v) :
    ∀ x ∈ b, x.toNat < 128 := by
  obtain ⟨ds, hb, hds, -⟩ := parseUnsigned_eq_some_iff.mp h
  have hlt : ∀ x ∈ ds, x.toNat < 128 := by
    intro x hx
    have hdigit := hds.2.1 x hx
    omega
  rcases hb with rfl | rfl
  · exact hlt
  · exact List.forall_mem_cons.mpr ⟨by decide, hlt⟩

/-- A signed numeral with an optional `+` or `-`, between `-bound` and `bound - 1`. -/
def parseSigned (bound : ℕ) : Bytes → Option ℤ
  | 45 :: b => (digits b).bind fun v => if v ≤ bound then some (-(v : ℤ)) else none
  | b => (digits (dropPlus b)).bind fun v => if v < bound then some (v : ℤ) else none

theorem dropPlus_numeral (n : ℕ) : dropPlus (numeral n) = numeral n := by
  unfold dropPlus
  split
  · rename_i b hb
    have := numeral_mem n 43 (by simp [hb])
    exact absurd this (by decide)
  · rfl

theorem parseUnsigned_numeral (max n : ℕ) (h : n ≤ max) :
    parseUnsigned max (numeral n) = some n := by
  simp [parseUnsigned, dropPlus_numeral, digits_numeral, h]

theorem parseSigned_numeral (bound n : ℕ) (h : n < bound) :
    parseSigned bound (numeral n) = some (n : ℤ) := by
  unfold parseSigned
  split
  · rename_i b hb
    have := numeral_mem n 45 (by simp [hb])
    exact absurd this (by decide)
  · simp [dropPlus_numeral, digits_numeral, h]

theorem parseSigned_neg_numeral (bound n : ℕ) (h : n ≤ bound) :
    parseSigned bound (45 :: numeral n) = some (-(n : ℤ)) := by
  simp [parseSigned, digits_numeral, h]

theorem parseSigned_range {bound : ℕ} (hb : 0 < bound) {b : Bytes} {v : ℤ}
    (h : parseSigned bound b = some v) : -(bound : ℤ) ≤ v ∧ v < bound := by
  unfold parseSigned at h
  split at h
  · simp only [Option.bind_eq_some_iff, Option.ite_none_right_eq_some, Option.some.injEq] at h
    obtain ⟨w, _, hw, rfl⟩ := h
    omega
  · simp only [Option.bind_eq_some_iff, Option.ite_none_right_eq_some, Option.some.injEq] at h
    obtain ⟨w, _, hw, rfl⟩ := h
    omega

/-- The shape of a signed numeral: an optional sign and a digit string. -/
theorem parseSigned_eq_some_iff {bound : ℕ} {b : Bytes} {v : ℤ} :
    parseSigned bound b = some v ↔ ∃ ds n, digits ds = some n ∧
      ((b = ds ∨ b = 43 :: ds) ∧ n < bound ∧ v = n ∨ b = 45 :: ds ∧ n ≤ bound ∧ v = -n) := by
  have hmem {ds : Bytes} {n : ℕ} (h : digits ds = some n) (x : UInt8) (hx : x ∈ ds) :
      48 ≤ x.toNat ∧ x.toNat ≤ 57 := by
    unfold digits at h
    split at h
    · simp at h
    · exact digitsFrom_mem h x hx
  constructor
  · intro h
    unfold parseSigned at h
    split at h
    · rename_i ds
      simp only [Option.bind_eq_some_iff, Option.ite_none_right_eq_some, Option.some.injEq] at h
      obtain ⟨n, hn, hb, rfl⟩ := h
      exact ⟨ds, n, hn, Or.inr ⟨rfl, hb, rfl⟩⟩
    · simp only [Option.bind_eq_some_iff, Option.ite_none_right_eq_some, Option.some.injEq] at h
      obtain ⟨n, hn, hb, rfl⟩ := h
      refine ⟨dropPlus b, n, hn, Or.inl ⟨?_, hb, rfl⟩⟩
      unfold dropPlus
      split
      · exact Or.inr rfl
      · exact Or.inl rfl
  · rintro ⟨ds, n, hn, ⟨hb | hb, hlt, rfl⟩ | ⟨rfl, hle, rfl⟩⟩
    · subst hb
      unfold parseSigned
      split
      · exact absurd (hmem hn 45 List.mem_cons_self) (by decide)
      · have hd : dropPlus b = b := by
          unfold dropPlus
          split
          · exact absurd (hmem hn 43 List.mem_cons_self) (by decide)
          · rfl
        simp [hd, hn, hlt]
    · subst hb
      simp [parseSigned, dropPlus, hn, hlt]
    · simp [parseSigned, hn, hle]

/-- A signed numeral is made of ASCII characters, none of them a line end. -/
theorem parseSigned_mem {bound : ℕ} {b : Bytes} {v : ℤ} (h : parseSigned bound b = some v) :
    b ≠ [] ∧ ∀ x ∈ b, x.toNat < 128 ∧ x ≠ 13 ∧ x ≠ 10 := by
  obtain ⟨ds, n, hn, hb⟩ := parseSigned_eq_some_iff.mp h
  unfold digits at hn
  split at hn
  · simp at hn
  · rename_i hne
    have hds : ∀ x ∈ ds, x.toNat < 128 ∧ x ≠ 13 ∧ x ≠ 10 := by
      intro x hx
      have hd := digitsFrom_mem hn x hx
      refine ⟨by omega, ?_, ?_⟩ <;> rintro rfl <;> exact absurd hd (by decide)
    rcases hb with ⟨rfl | rfl, _⟩ | ⟨rfl, _⟩
    · exact ⟨hne, hds⟩
    · refine ⟨by simp, fun x hx => ?_⟩
      rcases List.mem_cons.mp hx with rfl | hx
      · decide
      · exact hds x hx
    · refine ⟨by simp, fun x hx => ?_⟩
      rcases List.mem_cons.mp hx with rfl | hx
      · decide
      · exact hds x hx

/-- An integer in range prints to a numeral that reads back as itself. -/
theorem parseSigned_toString (bound : ℕ) (i : ℤ) (h₁ : -(bound : ℤ) ≤ i) (h₂ : i < bound) :
    parseSigned bound (asBytes (toString i)) = some i := by
  cases i with
  | ofNat n =>
    change parseSigned bound (asBytes (toString n)) = _
    rw [asBytes_toString_nat]
    exact parseSigned_numeral bound n (by simpa using h₂)
  | negSucc n =>
    change parseSigned bound (asBytes ("-" ++ toString (n + 1))) = _
    rw [asBytes_append, asBytes_toString_nat]
    exact parseSigned_neg_numeral bound (n + 1) (by omega)

/-- The bytes of a printed integer are digits and at most a minus sign. -/
theorem asBytes_toString_int_mem (i : ℤ) : ∀ x ∈ asBytes (toString i), x ≠ 13 ∧ x ≠ 10 := by
  have hn (n : ℕ) : ∀ x ∈ asBytes (toString n), x ≠ 13 ∧ x ≠ 10 := by
    rw [asBytes_toString_nat]
    intro x hx
    have := numeral_mem n x hx
    constructor <;> rintro rfl <;> exact absurd this (by decide)
  cases i with
  | ofNat n => exact hn n
  | negSucc n =>
    change ∀ x ∈ asBytes ("-" ++ toString (n + 1)), _
    rw [asBytes_append]
    intro x hx
    rcases List.mem_append.mp hx with hx | hx
    · have : asBytes "-" = [45] := by decide
      rw [this, List.mem_singleton] at hx
      subst hx
      decide
    · exact hn _ x hx

theorem digitsFrom_lt {acc v : ℕ} {b : Bytes} (h : digitsFrom acc b = some v) :
    v < (acc + 1) * 10^b.length := by
  induction b generalizing acc with
  | nil =>
    cases h
    simp
  | cons x xs ih =>
    simp only [digitsFrom, Option.bind_eq_some_iff] at h
    obtain ⟨d, hd, h⟩ := h
    have hlt : d < 10 := by
      unfold digitValue at hd
      split_ifs at hd
      cases hd
      omega
    calc v < (acc * 10 + d + 1) * 10^xs.length := ih h
      _ ≤ ((acc + 1) * 10) * 10^xs.length := Nat.mul_le_mul_right _ (by omega)
      _ = (acc + 1) * 10^(x :: xs).length := by
        rw [List.length_cons, Nat.pow_succ', Nat.mul_assoc]

theorem length_numeral_le {n k : ℕ} (hk : 0 < k) (h : n < 10^k) : (numeral n).length ≤ k := by
  induction k generalizing n with
  | zero => omega
  | succ k ih =>
    by_cases hn : n < 10
    · rw [numeral, Nat.toDigits_of_lt_base hn]
      simp
    · have hk : 0 < k := by
        rcases Nat.eq_zero_or_pos k with rfl | hk
        · omega
        · exact hk
      rw [numeral_step n (by omega), List.length_append, List.length_singleton]
      exact Nat.succ_le_succ (ih hk (Nat.div_lt_of_lt_mul (by rwa [Nat.pow_succ'] at h)))

/-- No digit string is shorter than the numeral of its value. -/
theorem length_numeral_le_of_digits {ds : Bytes} {n : ℕ} (h : digits ds = some n) :
    (numeral n).length ≤ ds.length := by
  unfold digits at h
  split_ifs at h with hne
  have hlt := digitsFrom_lt h
  rw [Nat.zero_add, Nat.one_mul] at hlt
  exact length_numeral_le (List.length_pos_iff.mpr hne) hlt

end Decimal
