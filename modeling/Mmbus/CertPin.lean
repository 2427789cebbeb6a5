import Mmbus.BridgeMesh
import Mmbus.Lib.Hex
import Mmbus.Lib.StringBytes

/-!
# Pinned certificates

`PinnedFingerprintVerifier` compares the configured fingerprint, as a text, with the upper-case text that `fingerprint_der`
writes.  The validation of the configuration admits lower-case digits too, which are never found equal.

The verifier accepts exactly the pinned certificate when the digits have no lower-case letter, or are not 64
(`pin_exact_iff`).
-/

namespace Mmbus.Bridge

/-- A digest of SHA-256 -/
abbrev Digest := { bytes : Bytes // bytes.length = 32 }

/-- `fingerprint_der`, for a digest function -/
def fingerprintDer (sha256 : Bytes → Digest) (der : Bytes) : String :=
  "sha256:" ++ String.ofList (Hex.encode (sha256 der).1)

def ctEq (a b : Bytes) : Bool :=
  if a.length ≠ b.length then false
  else (a.zip b).foldl (fun diff xy => diff ||| (xy.1 ^^^ xy.2)) 0 == 0

/-- `QUIC cert pin mismatch` -/
structure PinMismatch where
  expected : String
  got : String
  deriving DecidableEq

/-- `PinnedFingerprintVerifier::verify_server_cert` -/
def verifyServerCert (sha256 : Bytes → Digest) (expectedFp : String) (endEntity : Bytes) : Except PinMismatch Unit :=
  let actual := fingerprintDer sha256 endEntity
  if ¬ctEq (asBytes actual) (asBytes expectedFp) then .error ⟨expectedFp, actual⟩ else .ok ()

/-- The digits behind the scheme -/
def fingerprintDigits (fp : String) : List Char := fp.toList.drop "sha256:".toList.length

variable {sha256 : Bytes → Digest} {peer fp : String} {der a b : Bytes}

/-! ### Comparing texts -/

private theorem foldl_or_eq_zero (l : List (UInt8 × UInt8)) (diff : UInt8) :
    l.foldl (fun diff xy => diff ||| (xy.1 ^^^ xy.2)) diff = 0 ↔ diff = 0 ∧ ∀ xy ∈ l, xy.1 = xy.2 := by
  induction l generalizing diff with
  | nil => simp
  | cons xy l ih =>
    rw [List.foldl_cons, ih, List.forall_mem_cons, UInt8.or_eq_zero_iff, UInt8.xor_eq_zero_iff, and_assoc]

private theorem zip_eq (hlen : a.length = b.length) : (∀ xy ∈ a.zip b, xy.1 = xy.2) ↔ a = b := by
  induction a generalizing b with
  | nil =>
    obtain rfl : b = [] := List.length_eq_zero_iff.1 hlen.symm
    simp
  | cons x a ih =>
    cases b with
    | nil => cases hlen
    | cons y b =>
      rw [List.zip_cons_cons, List.forall_mem_cons, ih (Nat.succ.inj hlen), List.cons.injEq]

/-- The comparison finds all differences. -/
theorem ctEq_iff : ctEq a b = true ↔ a = b := by
  unfold ctEq
  by_cases hlen : a.length = b.length
  · rw [if_neg (not_not.2 hlen), beq_iff_eq, foldl_or_eq_zero, zip_eq hlen]
    simp only [true_and]
  · rw [if_pos hlen]
    constructor
    · intro h
      cases h
    · rintro rfl
      exact absurd rfl hlen

/-- The verifier accepts a certificate whose fingerprint is written as it is configured. -/
theorem verifyServerCert_ok_iff : verifyServerCert sha256 fp der = .ok () ↔ fp = fingerprintDer sha256 der := by
  have htext : ctEq (asBytes (fingerprintDer sha256 der)) (asBytes fp) = true ↔ fp = fingerprintDer sha256 der := by
    rw [ctEq_iff]
    constructor
    · intro h
      exact (StringBytes.toUTF8_injective h).symm
    · rintro rfl
      rfl
  rw [← htext, verifyServerCert]
  cases ctEq (asBytes (fingerprintDer sha256 der)) (asBytes fp) with
  | true => simp
  | false => simp

/-! ### Validated fingerprints -/

/-- A validated fingerprint is the scheme and its digits. -/
theorem toList_of_validate (h : validateCertFingerprint peer fp = .ok ()) :
    fp.toList = "sha256:".toList ++ fingerprintDigits fp ∧ ∀ c ∈ fingerprintDigits fp, isAsciiHexdigit c := by
  unfold validateCertFingerprint at h
  by_cases hscheme : "sha256:".toList.isPrefixOf fp.toList = true
  · simp only [hscheme, not_true_eq_false, if_false] at h
    split at h
    · cases h
    · rename_i hdigits
      obtain ⟨rest, hrest⟩ := List.isPrefixOf_iff_prefix.1 hscheme
      refine ⟨?_, List.all_eq_true.1 (not_not.1 (not_or.1 hdigits).2)⟩
      rw [fingerprintDigits, ← hrest, List.drop_left]
  · simp only [if_pos hscheme] at h
    cases h

/-- Each character that the validation admits is a digit. -/
theorem isSome_value_of_isAsciiHexdigit {c : Char} (h : isAsciiHexdigit c) : (Hex.value c).isSome := by
  have hle (a b : Char) : a ≤ b ↔ a.toNat ≤ b.toNat := UInt32.le_iff_toNat_le
  simp only [isAsciiHexdigit, decide_eq_true_eq, hle] at h
  unfold Hex.value
  rcases h with h | h | h
  · rw [if_pos h]
    rfl
  · by_cases h₁ : '0'.toNat ≤ c.toNat ∧ c.toNat ≤ '9'.toNat
    · rw [if_pos h₁]
      rfl
    · by_cases h₂ : 'A'.toNat ≤ c.toNat ∧ c.toNat ≤ 'F'.toNat
      · rw [if_neg h₁, if_pos h₂]
        rfl
      · rw [if_neg h₁, if_neg h₂, if_pos h]
        rfl
  · by_cases h₁ : '0'.toNat ≤ c.toNat ∧ c.toNat ≤ '9'.toNat
    · rw [if_pos h₁]
      rfl
    · rw [if_neg h₁, if_pos h]
      rfl

theorem eq_fingerprintDer_iff (h : validateCertFingerprint peer fp = .ok ()) :
    fp = fingerprintDer sha256 der ↔ fingerprintDigits fp = Hex.encode (sha256 der).1 := by
  rw [← String.toList_inj, (toList_of_validate h).1, fingerprintDer, String.toList_append, List.append_cancel_left_eq,
    String.toList_ofList]

/-- The verifier accepts the certificates with the pinned digest, and no others. -/
def PinsExactly (fp : String) : Prop := ∀ (sha256 : Bytes → Digest) (der : Bytes),
  verifyServerCert sha256 fp der = .ok () ↔ Hex.decode (fingerprintDigits fp) = some (sha256 der).1

/-- A validated fingerprint pins exactly one digest if and only if it has no lower-case digit or does not have 64 digits;
with a lower-case digit no certificate is accepted. -/
theorem pin_exact_iff (peer fp : String) (h : validateCertFingerprint peer fp = .ok ()) :
    (PinsExactly fp ↔ ((fingerprintDigits fp).length = 64 → ∀ c ∈ fingerprintDigits fp, c.isLower = false)) ∧
    ((∃ c ∈ fingerprintDigits fp, c.isLower = true) → ∀ sha256 der, verifyServerCert sha256 fp der ≠ .ok ()) := by
  have hlower : (∃ c ∈ fingerprintDigits fp, c.isLower = true) →
      ∀ sha256 der, verifyServerCert sha256 fp der ≠ .ok () := by
    rintro ⟨c, hc, hlower⟩ sha256 der hok
    rw [verifyServerCert_ok_iff, eq_fingerprintDer_iff h] at hok
    rw [hok] at hc
    rw [Hex.isLower_of_mem_encode hc] at hlower
    cases hlower
  refine ⟨⟨fun hexact hlen c hc => ?_, fun hcase sha256 der => ?_⟩, hlower⟩
  · -- the digest that the digits denote is one that the verifier must accept
    have hvalues := fun c hc => isSome_value_of_isAsciiHexdigit ((toList_of_validate h).2 c hc)
    obtain ⟨bytes, hbytes, hlength⟩ := Hex.exists_decode hvalues (show _ = 2 * 32 from hlen)
    have hok := (hexact (fun _ => ⟨bytes, hlength⟩) []).2 hbytes
    by_contra hc'
    exact hlower ⟨c, hc, by simpa using hc'⟩ _ _ hok
  · rw [verifyServerCert_ok_iff, eq_fingerprintDer_iff h, Hex.decode_eq_some_iff]
    by_cases hlen : (fingerprintDigits fp).length = 64
    · have hupper : (fingerprintDigits fp).map Hex.upper = fingerprintDigits fp := by
        rw [List.map_congr_left fun c hc => Hex.upper_of_not_isLower (hcase hlen c hc), List.map_id']
      rw [hupper]
    · have hencode : (Hex.encode (sha256 der).1).length = 64 := by rw [Hex.length_encode, (sha256 der).2]
      constructor
      · intro heq
        exact absurd (heq ▸ hencode) hlen
      · intro heq
        rw [← heq, List.length_map] at hencode
        exact absurd hencode hlen

/-- A fingerprint with upper-case digits, which is the only one to be accepted -/
theorem pin_exact_upper : PinsExactly ("sha256:" ++ String.ofList (List.replicate 64 'A')) := by
  have hvalid : validateCertFingerprint "peer" ("sha256:" ++ String.ofList (List.replicate 64 'A')) = .ok () := by
    decide
  refine (pin_exact_iff "peer" _ hvalid).1.2 fun _ c hc => ?_
  rw [fingerprintDigits, String.toList_append, List.drop_left, String.toList_ofList] at hc
  have hupper : c = 'A' := List.eq_of_mem_replicate hc
  rw [hupper]
  rfl

/-- The digits of the digest in lower case, as other tools print them, are valid and never accepted. -/
theorem pin_not_exact : validateCertFingerprint "peer" ("sha256:" ++ String.ofList (List.replicate 64 'a')) = .ok () ∧
    ¬PinsExactly ("sha256:" ++ String.ofList (List.replicate 64 'a')) := by
  refine ⟨by decide, fun h => ?_⟩
  have hok := (h (fun _ => ⟨List.replicate 32 0xAA, rfl⟩) []).2 (by decide)
  exact absurd (verifyServerCert_ok_iff.1 hok) (by decide)

end Mmbus.Bridge
