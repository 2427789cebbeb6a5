import Mathlib.Data.List.Basic
import Mathlib.Data.Nat.Notation

/-!
# Hexadecimal digits

Bytes written with upper-case digits, and the bytes that a text of digits of either case denotes.  A text denotes some
bytes exactly when, with its letters made upper-case, it is how they are written (`decode_eq_some_iff`).
-/

namespace Hex

/-- The digit of `{:X}` -/
def upperDigit (n : ℕ) : Char := Char.ofNat (if n < 10 then '0'.toNat + n else 'A'.toNat + (n - 10))

/-- `{:02X}` of each byte -/
def encode (bytes : List UInt8) : List Char :=
  bytes.flatMap fun b => [upperDigit (b.toNat / 16), upperDigit (b.toNat % 16)]

/-- The value of a digit of either case -/
def value (c : Char) : Option ℕ :=
  if '0'.toNat ≤ c.toNat ∧ c.toNat ≤ '9'.toNat then some (c.toNat - '0'.toNat)
  else if 'A'.toNat ≤ c.toNat ∧ c.toNat ≤ 'F'.toNat then some (c.toNat - 'A'.toNat + 10)
  else if 'a'.toNat ≤ c.toNat ∧ c.toNat ≤ 'f'.toNat then some (c.toNat - 'a'.toNat + 10)
  else none

/-- The bytes that the digits denote, two for each byte -/
def decode : List Char → Option (List UInt8)
  | [] => some []
  | [_] => none
  | high :: low :: rest => do
    let high ← value high
    let low ← value low
    let bytes ← decode rest
    some (UInt8.ofNat (16 * high + low) :: bytes)

/-- The upper-case letter of a digit -/
def upper (c : Char) : Char :=
  if 'a'.toNat ≤ c.toNat ∧ c.toNat ≤ 'f'.toNat then Char.ofNat (c.toNat - 32) else c

variable {c : Char} {n : ℕ} {digits : List Char} {bytes : List UInt8}

theorem value_upperDigit (hn : n < 16) : value (upperDigit n) = some n := by
  revert n
  decide

theorem upperDigit_of_value (h : value c = some n) : n < 16 ∧ upper c = upperDigit n := by
  have h0 : '0'.toNat = 48 := rfl
  have h9 : '9'.toNat = 57 := rfl
  have hA : 'A'.toNat = 65 := rfl
  have hF : 'F'.toNat = 70 := rfl
  have ha : 'a'.toNat = 97 := rfl
  have hf : 'f'.toNat = 102 := rfl
  unfold value at h
  split at h
  · cases h
    refine ⟨by omega, ?_⟩
    rw [upper, if_neg (by omega), upperDigit, if_pos (by omega), Nat.add_sub_cancel' (by omega), Char.ofNat_toNat]
  · split at h
    · cases h
      refine ⟨by omega, ?_⟩
      rw [upper, if_neg (by omega), upperDigit, if_neg (by omega), Nat.add_sub_cancel, Nat.add_sub_cancel' (by omega),
        Char.ofNat_toNat]
    · split at h
      · cases h
        refine ⟨by omega, ?_⟩
        rw [upper, if_pos (by omega), upperDigit, if_neg (by omega)]
        congr 1
        omega
      · cases h

theorem value_upper (c : Char) : value (upper c) = value c := by
  unfold upper
  split
  · rename_i h
    have ha : 'a'.toNat = 97 := rfl
    have hf : 'f'.toNat = 102 := rfl
    have hchar : c = Char.ofNat c.toNat := (Char.ofNat_toNat c).symm
    have hcases : c.toNat = 97 ∨ c.toNat = 98 ∨ c.toNat = 99 ∨ c.toNat = 100 ∨ c.toNat = 101 ∨ c.toNat = 102 := by omega
    rcases hcases with h | h | h | h | h | h <;> rw [h] at hchar <;> subst hchar <;> decide
  · rfl

/-- A digit has a value exactly when its upper-case letter is how the value is written. -/
theorem value_eq_some_iff : value c = some n ↔ n < 16 ∧ upper c = upperDigit n := by
  constructor
  · exact upperDigit_of_value
  · rintro ⟨hn, h⟩
    rw [← value_upper, h, value_upperDigit hn]

/-- The bytes denoted are those that are written with the same digits, letters made upper-case. -/
theorem decode_eq_some_iff : decode digits = some bytes ↔ digits.map upper = encode bytes := by
  induction digits using decode.induct generalizing bytes with
  | case1 =>
    cases bytes with
    | nil => simp [decode, encode]
    | cons b bytes => simp [decode, encode]
  | case2 c =>
    cases bytes with
    | nil => simp [decode, encode]
    | cons b bytes => simp [decode, encode]
  | case3 high low rest ih =>
    cases bytes with
    | nil => simp [decode, encode, Option.bind_eq_some_iff]
    | cons b bytes =>
      have hb := b.toNat_lt
      have hwritten : (high :: low :: rest).map upper = encode (b :: bytes) ↔ upper high = upperDigit (b.toNat / 16) ∧
          upper low = upperDigit (b.toNat % 16) ∧ rest.map upper = encode bytes := by
        simp [encode]
      rw [hwritten, ← ih, decode]
      simp only [Option.bind_eq_bind, Option.bind_eq_some_iff, Option.some.injEq, List.cons.injEq]
      constructor
      · rintro ⟨h, hhigh, l, hlow, rest', hrest, hbyte, rfl⟩
        obtain ⟨hh, hhigh⟩ := value_eq_some_iff.1 hhigh
        obtain ⟨hl, hlow⟩ := value_eq_some_iff.1 hlow
        have hvalue : b.toNat = 16 * h + l := by
          rw [← hbyte, UInt8.toNat_ofNat']
          omega
        rw [hvalue, show (16 * h + l) / 16 = h by omega, show (16 * h + l) % 16 = l by omega]
        exact ⟨hhigh, hlow, hrest⟩
      · rintro ⟨hhigh, hlow, hrest⟩
        refine ⟨b.toNat / 16, value_eq_some_iff.2 ⟨by omega, hhigh⟩, b.toNat % 16,
          value_eq_some_iff.2 ⟨by omega, hlow⟩, bytes, hrest, ?_, rfl⟩
        rw [Nat.div_add_mod, UInt8.ofNat_toNat]

/-- An even number of digits denotes half as many bytes. -/
theorem exists_decode (hdigits : ∀ c ∈ digits, (value c).isSome) {k : ℕ} (hlen : digits.length = 2 * k) :
    ∃ bytes, decode digits = some bytes ∧ bytes.length = k := by
  induction digits using decode.induct generalizing k with
  | case1 =>
    obtain rfl : k = 0 := by
      rw [List.length_nil] at hlen
      omega
    exact ⟨[], rfl, rfl⟩
  | case2 c =>
    rw [List.length_singleton] at hlen
    omega
  | case3 high low rest ih =>
    rw [List.forall_mem_cons, List.forall_mem_cons] at hdigits
    obtain ⟨hhigh, hlow, hrest⟩ := hdigits
    obtain ⟨h, hh⟩ := Option.isSome_iff_exists.1 hhigh
    obtain ⟨l, hl⟩ := Option.isSome_iff_exists.1 hlow
    rw [List.length_cons, List.length_cons] at hlen
    obtain ⟨bytes, hbytes, hk⟩ := ih hrest (show rest.length = 2 * (k - 1) by omega)
    refine ⟨UInt8.ofNat (16 * h + l) :: bytes, ?_, ?_⟩
    · simp [decode, hh, hl, hbytes]
    · rw [List.length_cons, hk]
      omega

theorem length_encode (bytes : List UInt8) : (encode bytes).length = 2 * bytes.length := by
  induction bytes with
  | nil => rfl
  | cons b bytes ih =>
    rw [encode, List.flatMap_cons, List.length_append, ← encode, ih, List.length_cons]
    simp only [List.length_cons, List.length_nil]
    omega

/-- What is written has no lower-case letter. -/
theorem isLower_of_mem_encode (h : c ∈ encode bytes) : c.isLower = false := by
  have hupper {n : ℕ} (hn : n < 16) : (upperDigit n).isLower = false := by
    revert n
    decide
  obtain ⟨b, -, hc⟩ := List.mem_flatMap.1 h
  have hb := b.toNat_lt
  rcases List.mem_cons.1 hc with rfl | hc
  · exact hupper (by omega)
  · obtain rfl := List.mem_singleton.1 hc
    exact hupper (by omega)

theorem upper_of_not_isLower (h : c.isLower = false) : upper c = c := by
  refine if_neg fun hc => ?_
  have ha : 'a'.toNat ≤ c.toNat := hc.1
  have hz : c.toNat ≤ 'z'.toNat := Nat.le_trans hc.2 (by decide)
  have hlower : c.isLower = true := by
    change (decide ('a'.val ≤ c.val) && decide (c.val ≤ 'z'.val)) = true
    rw [Bool.and_eq_true, decide_eq_true_eq, decide_eq_true_eq]
    exact ⟨UInt32.le_iff_toNat_le.2 ha, UInt32.le_iff_toNat_le.2 hz⟩
  rw [hlower] at h
  cases h

end Hex
