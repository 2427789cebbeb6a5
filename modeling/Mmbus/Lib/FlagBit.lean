import Mathlib.Data.Nat.Bitwise

/-!
# A flag in the top bit of a counter, wrapping subtraction, and rounding down

A counter below `2 ^ k` leaves the bit `k` of its machine word free, and the bit can carry a flag.  `setFlag`,
`hasFlag` and `dropFlag` are the three bit operations `n | (1 << k)`, `n & (1 << k) != 0` and `n & !(1 << k)`
on a word of `k + 1` bits.  `wrappingSub w` is subtraction on words of `w` bits, and
`clearLow` the mask that rounds down to a power of two.
-/

namespace FlagBit

/-- `n | (1 << k)` -/
def setFlag (k n : Nat) : Nat := n ||| 2 ^ k

/-- `n & (1 << k) != 0` -/
def hasFlag (k n : Nat) : Bool := n &&& 2 ^ k != 0

/-- `n & !(1 << k)`, on a word of `k + 1` bits -/
def dropFlag (k n : Nat) : Nat := n &&& (2 ^ k - 1)

variable {k n m : Nat}

theorem setFlag_eq (h : n < 2 ^ k) : setFlag k n = 2 ^ k + n := by
  rw [setFlag, Nat.or_comm]
  simpa using (Nat.two_pow_add_eq_or_of_lt h 1).symm

theorem hasFlag_of_lt (h : n < 2 ^ k) : hasFlag k n = false := by
  simp [hasFlag, Nat.and_two_pow, Nat.testBit_lt_two_pow h]

theorem hasFlag_setFlag (h : n < 2 ^ k) : hasFlag k (setFlag k n) = true := by
  simp [hasFlag, setFlag_eq h, Nat.and_two_pow, Nat.testBit_two_pow_add_eq, Nat.testBit_lt_two_pow h]

theorem dropFlag_of_lt (h : n < 2 ^ k) : dropFlag k n = n := by
  rw [dropFlag, Nat.and_two_pow_sub_one_eq_mod, Nat.mod_eq_of_lt h]

theorem dropFlag_setFlag (h : n < 2 ^ k) : dropFlag k (setFlag k n) = n := by
  rw [dropFlag, setFlag_eq h, Nat.and_two_pow_sub_one_eq_mod, Nat.add_mod_left, Nat.mod_eq_of_lt h]

theorem setFlag_ne (hn : n < 2 ^ k) (hm : m < 2 ^ k) : setFlag k n ≠ m := by
  rw [setFlag_eq hn]
  omega

theorem lt_of_hasFlag_eq_false (hn : n < 2 ^ (k + 1)) (h : hasFlag k n = false) : n < 2 ^ k := by
  have hbit : n.testBit k = false := by
    cases hb : n.testBit k with
    | false => rfl
    | true => simp [hasFlag, Nat.and_two_pow, hb] at h
  refine Nat.lt_pow_two_of_testBit n fun i hi => ?_
  rcases Nat.eq_or_lt_of_le hi with rfl | hlt
  · exact hbit
  · exact Nat.testBit_lt_two_pow (hn.trans_le (Nat.pow_le_pow_right (by decide) hlt))

theorem dropFlag_lt (k n : Nat) : dropFlag k n < 2 ^ k :=
  Nat.and_lt_two_pow _ (Nat.sub_lt (Nat.two_pow_pos k) Nat.one_pos)

theorem dropFlag_le (k n : Nat) : dropFlag k n ≤ n := Nat.and_le_left

theorem setFlag_lt (h : n < 2 ^ k) : setFlag k n < 2 ^ (k + 1) := by
  rw [setFlag_eq h, Nat.pow_succ]
  omega

/-! ### Wrapping subtraction -/

/-- `a.wrapping_sub(b)` on words of `w` bits -/
def wrappingSub (w a b : Nat) : Nat := (a + 2 ^ w - b) % 2 ^ w

variable {w a b : Nat}

theorem wrappingSub_of_le (h : b ≤ a) (ha : a < 2 ^ w) : wrappingSub w a b = a - b := by
  have e : a + 2 ^ w - b = (a - b) + 2 ^ w := by omega
  rw [wrappingSub, e, Nat.add_mod_right, Nat.mod_eq_of_lt (by omega)]

theorem wrappingSub_le (w : Nat) (h : b ≤ a) : wrappingSub w a b ≤ a - b := by
  have e : a + 2 ^ w - b = (a - b) + 2 ^ w := Nat.sub_add_comm h
  rw [wrappingSub, e, Nat.add_mod_right]
  exact Nat.mod_le ..

/-! ### Rounding down -/

/-- `n & !(2 ^ k - 1)` on words of `w` bits -/
def clearLow (w k n : Nat) : Nat := n &&& (2 ^ w - 1 - (2 ^ k - 1))

/-- Clearing the low bits rounds down to a multiple of `2 ^ k`. -/
theorem clearLow_eq {w k n : Nat} (hk : k ≤ w) (h : n < 2 ^ w) : clearLow w k n = n / 2 ^ k * 2 ^ k := by
  have hmask : 2 ^ k - 1 < 2 ^ w := by
    have := Nat.pow_le_pow_right (show 0 < 2 by decide) hk
    have := Nat.two_pow_pos k
    omega
  refine Nat.eq_of_testBit_eq fun i => ?_
  rw [clearLow, Nat.testBit_and, show 2 ^ w - 1 - (2 ^ k - 1) = 2 ^ w - (2 ^ k - 1 + 1) by omega,
    Nat.testBit_two_pow_sub_succ hmask, Nat.testBit_two_pow_sub_one, Nat.testBit_mul_two_pow, Nat.testBit_div_two_pow]
  by_cases hi : k ≤ i
  · rw [Nat.sub_add_cancel hi]
    by_cases hiw : i < w
    · simp [hi, hiw]
    · have : n.testBit i = false := Nat.testBit_lt_two_pow (h.trans_le (Nat.pow_le_pow_right (by decide) (by omega)))
      simp [this]
  · simp [hi]
    omega

end FlagBit
