import Mathlib.Algebra.Group.Nat.Defs
import Mathlib.Data.List.Basic
import Mathlib.Data.List.Range

/-!
# Little-endian words and byte memory

`leBytes n v` are the `n` low bytes of `v`, the lowest first, and `ofLe` reads such bytes back.

A memory is a function from addresses to bytes.  A memory with nothing but zeros behind some bytes at its start is
given by these bytes (`ofBytes`); the rules say what a store at their end (`store_end`) or in their midst (`store_mid`)
makes of them, and what a load finds there (`load_mid`).
-/

namespace ByteMemory

/-! ### Words -/

/-- The `n` low bytes of `v`, in little-endian order -/
def leBytes (n v : Nat) : List UInt8 := (List.range n).map fun i => UInt8.ofNat (v / 256 ^ i)

/-- The number with the given little-endian bytes -/
def ofLe : List UInt8 → Nat
  | [] => 0
  | b :: bs => b.toNat + 256 * ofLe bs

@[simp] theorem length_leBytes (n v : Nat) : (leBytes n v).length = n := by
  simp [leBytes]

theorem leBytes_succ (n v : Nat) : leBytes (n + 1) v = UInt8.ofNat v :: leBytes n (v / 256) := by
  simp only [leBytes, List.range_succ_eq_map, List.map_cons, List.map_map, Nat.pow_zero, Nat.div_one]
  congr 1
  refine List.map_congr_left fun i _ => ?_
  simp only [Function.comp_apply, Nat.succ_eq_add_one, Nat.pow_succ]
  rw [Nat.mul_comm, Nat.div_div_eq_div_mul]

/-- Of a number only its `n` low bytes are kept. -/
theorem ofLe_leBytes_mod (n v : Nat) : ofLe (leBytes n v) = v % 256 ^ n := by
  induction n generalizing v with
  | zero => rw [Nat.pow_zero, Nat.mod_one]; rfl
  | succ n ih =>
    have hbyte : (UInt8.ofNat v).toNat = v % 256 := by simp
    rw [leBytes_succ, ofLe, ih, hbyte, Nat.pow_succ, Nat.mul_comm (256 ^ n), Nat.mod_mul]

theorem ofLe_leBytes {n v : Nat} (h : v < 256 ^ n) : ofLe (leBytes n v) = v := by
  rw [ofLe_leBytes_mod, Nat.mod_eq_of_lt h]

theorem leBytes_ofLe (bs : List UInt8) : leBytes bs.length (ofLe bs) = bs := by
  induction bs with
  | nil => rfl
  | cons b bs ih =>
    have hb : b.toNat < 256 := b.toNat_lt
    have hdiv : (b.toNat + 256 * ofLe bs) / 256 = ofLe bs := by omega
    have hmod : (b.toNat + 256 * ofLe bs) % 256 = b.toNat := by omega
    have hbyte : UInt8.ofNat (b.toNat + 256 * ofLe bs) = b := by
      rw [← UInt8.toNat_inj, UInt8.toNat_ofNat', Nat.pow_succ]
      simp [hmod]
    rw [List.length_cons, leBytes_succ, ofLe, hdiv, ih, hbyte]

theorem ofLe_lt (bs : List UInt8) : ofLe bs < 256 ^ bs.length := by
  induction bs with
  | nil => exact Nat.one_pos
  | cons b bs ih =>
    have hb : b.toNat < 256 := b.toNat_lt
    rw [ofLe, List.length_cons, Nat.pow_succ]
    omega

/-! ### Parts of byte lists -/

/-- `bs[a..a + n]` -/
def slice (bs : List UInt8) (a n : Nat) : List UInt8 := (bs.drop a).take n

theorem slice_mid {pre w post : List UInt8} {a n : Nat} (ha : a = pre.length) (hn : n = w.length) :
    slice (pre ++ w ++ post) a n = w := by
  rw [slice, ha, hn, List.append_assoc, List.drop_left, List.take_left]

theorem slice_end {pre w : List UInt8} {a n : Nat} (ha : a = pre.length) (hn : n = w.length) :
    slice (pre ++ w) a n = w := by
  rw [slice, ha, hn, List.drop_left, List.take_length]

theorem slice_start {w post : List UInt8} {n : Nat} (hn : n = w.length) : slice (w ++ post) 0 n = w := by
  rw [slice, hn, List.drop_zero, List.take_left]

theorem length_slice {bs : List UInt8} {a n : Nat} (h : a + n ≤ bs.length) : (slice bs a n).length = n := by
  rw [slice, List.length_take, List.length_drop]
  omega

/-- Two parts next to each other -/
theorem slice_add (bs : List UInt8) (a n k : Nat) : slice bs a (n + k) = slice bs a n ++ slice bs (a + n) k := by
  rw [slice, List.take_add, List.drop_drop, slice, slice]

theorem slice_slice {bs : List UInt8} {a n i k : Nat} (h : i + k ≤ n) :
    slice (slice bs a n) i k = slice bs (a + i) k := by
  rw [slice, slice, slice, List.drop_take, List.take_take, List.drop_drop, Nat.min_eq_left (by omega)]

theorem slice_of_initial {got w : List UInt8} {a n : Nat} (h : got <+: w) (hn : a + n ≤ got.length) :
    slice got a n = slice w a n := by
  obtain ⟨rest, rfl⟩ := h
  rw [slice, slice, List.drop_append_of_le_length (by omega), List.take_append_of_le_length (by simp; omega)]

/-- One more byte of what is being read -/
theorem prefix_concat {got w : List UInt8} (h : got <+: w) (hlt : got.length < w.length) :
    got ++ [w[got.length]] <+: w := by
  obtain ⟨rest, rfl⟩ := h
  cases rest with
  | nil => simp at hlt
  | cons b rest => exact ⟨rest, by simp⟩

theorem eq_of_initial {got w : List UInt8} (h : got <+: w) (hle : w.length ≤ got.length) : got = w :=
  h.eq_of_length (Nat.le_antisymm h.length_le hle)

/-! ### Memory -/

abbrev Memory := Nat → UInt8

/-- The `n` bytes from `a` on -/
def load (m : Memory) (a n : Nat) : List UInt8 := (List.range n).map fun i => m (a + i)

/-- Write bytes from `a` on. -/
def store (m : Memory) (a : Nat) (bs : List UInt8) : Memory := fun x =>
  if x < a then m x else (bs[x - a]?).getD (m x)

/-- The bytes, and zeros behind them -/
def ofBytes (bs : List UInt8) : Memory := fun x => (bs[x]?).getD 0

variable {m : Memory} {pre w w' post bs bs' : List UInt8} {a i n k : Nat}

@[simp] theorem length_load (m : Memory) (a n : Nat) : (load m a n).length = n := by
  simp [load]

theorem store_end (bs bs' : List UInt8) : store (ofBytes bs) bs.length bs' = ofBytes (bs ++ bs') := by
  funext x
  simp only [store, ofBytes]
  split
  · rename_i hlt
    rw [List.getElem?_append_left hlt]
  · rename_i hge
    have hnone : bs[x]? = none := List.getElem?_eq_none (not_lt.1 hge)
    rw [List.getElem?_append_right (not_lt.1 hge), hnone, Option.getD_none]

theorem store_mid (pre w post : List UInt8) (h : w'.length = w.length) :
    store (ofBytes (pre ++ w ++ post)) pre.length w' = ofBytes (pre ++ w' ++ post) := by
  funext x
  simp only [store, ofBytes, List.append_assoc]
  rcases Nat.lt_or_ge x pre.length with hlt | hge
  · rw [if_pos hlt, List.getElem?_append_left hlt, List.getElem?_append_left hlt]
  · rw [if_neg (not_lt.2 hge), List.getElem?_append_right hge, List.getElem?_append_right hge]
    rcases Nat.lt_or_ge (x - pre.length) w.length with hlt' | hge'
    · have hlt'' : x - pre.length < w'.length := hlt'.trans_eq h.symm
      rw [List.getElem?_append_left hlt', List.getElem?_append_left hlt'', List.getElem?_eq_getElem hlt'',
        Option.getD_some, Option.getD_some]
    · have hge'' : w'.length ≤ x - pre.length := h.trans_le hge'
      rw [List.getElem?_append_right hge', List.getElem?_append_right hge'', List.getElem?_eq_none hge'',
        Option.getD_none, h]

theorem ofBytes_append_zeros (bs : List UInt8) (k : Nat) : ofBytes (bs ++ List.replicate k 0) = ofBytes bs := by
  funext x
  simp only [ofBytes]
  rcases Nat.lt_or_ge x bs.length with hlt | hge
  · rw [List.getElem?_append_left hlt]
  · rw [List.getElem?_append_right hge, List.getElem?_eq_none hge, List.getElem?_replicate]
    split <;> rfl

theorem ofBytes_mid (pre post : List UInt8) (hi : i < w.length) : ofBytes (pre ++ w ++ post) (pre.length + i) = w[i] := by
  rw [ofBytes, List.append_assoc, List.getElem?_append_right (Nat.le_add_right ..), Nat.add_sub_cancel_left,
    List.getElem?_append_left hi, List.getElem?_eq_getElem hi]
  rfl

theorem load_mid (pre w post : List UInt8) : load (ofBytes (pre ++ w ++ post)) pre.length w.length = w := by
  refine List.ext_getElem (length_load ..) fun i _ hi => ?_
  simp only [load, List.getElem_map, List.getElem_range]
  exact ofBytes_mid pre post hi

theorem ofBytes_slice (h : i < (slice bs a n).length) : ofBytes bs (a + i) = (slice bs a n)[i] := by
  have hi : i < n ∧ a + i < bs.length := by
    simp only [slice, List.length_take, List.length_drop] at h
    omega
  simp only [ofBytes, slice, List.getElem_take, List.getElem_drop, List.getElem?_eq_getElem hi.2, Option.getD_some]

theorem load_ofBytes (h : a + n ≤ bs.length) : load (ofBytes bs) a n = slice bs a n := by
  have hlength := length_slice h
  refine List.ext_getElem (by rw [length_load, hlength]) fun i _ hi => ?_
  simp only [load, List.getElem_map, List.getElem_range]
  exact ofBytes_slice hi

/-- Nothing but zeros is found behind the bytes. -/
theorem load_zeros (h : bs.length ≤ a) (n : Nat) : load (ofBytes bs) a n = List.replicate n 0 := by
  refine List.ext_getElem (by simp) fun i _ _ => ?_
  simp only [load, List.getElem_map, List.getElem_range, ofBytes, List.getElem_replicate]
  rw [List.getElem?_eq_none (h.trans (Nat.le_add_right ..)), Option.getD_none]

/-- A part of a load -/
theorem load_slice (h : i + k ≤ n) : load m (a + i) k = slice (load m a n) i k := by
  refine List.ext_getElem (by simp [slice]; omega) fun j _ _ => ?_
  simp [load, slice, Nat.add_assoc]

end ByteMemory
