import Mathlib.Data.List.Basic

/-!
# The bytes of strings

`ByteArray.toList` reads the array from its beginning to its end, and a string is determined by its bytes.
-/

namespace StringBytes

private theorem loop_eq (bs : ByteArray) (i : Nat) (got : List UInt8) :
    ByteArray.toList.loop bs i got = got.reverse ++ bs.data.toList.drop i := by
  induction i, got using ByteArray.toList.loop.induct bs with
  | case1 i got hlt ih =>
    have hi : i < bs.data.toList.length := hlt
    rw [ByteArray.toList.loop, if_pos hlt, ih, List.reverse_cons, List.append_assoc, List.drop_eq_getElem_cons hi]
    congr 2
    simp [ByteArray.get!, hlt]
  | case2 i got hge =>
    have hi : bs.data.toList.length ≤ i := Nat.le_of_not_lt hge
    rw [ByteArray.toList.loop, if_neg hge, List.drop_eq_nil_of_le hi, List.append_nil]

theorem toList_eq (bs : ByteArray) : bs.toList = bs.data.toList := by
  rw [ByteArray.toList, loop_eq]
  rfl

/-- Two strings with the same bytes are the same. -/
theorem toUTF8_injective : Function.Injective fun s : String => s.toUTF8.toList := by
  intro s t h
  have hdata : s.toByteArray.data = t.toByteArray.data := by
    rw [← Array.toList_inj, ← toList_eq, ← toList_eq]
    exact h
  exact String.toByteArray_inj.1 (ByteArray.ext hdata)

theorem length_toUTF8 (s : String) : s.toUTF8.toList.length = s.utf8ByteSize := by
  rw [toList_eq]
  rfl

/-- A string of one repeated ASCII character -/
theorem utf8ByteSize_replicate {c : Char} (hc : c.utf8Size = 1) (n : Nat) :
    (String.ofList (List.replicate n c)).utf8ByteSize = n := by
  induction n with
  | zero => rfl
  | succ n ih =>
    rw [List.replicate_succ', String.ofList_append, String.utf8ByteSize_append, ih, ← String.singleton_eq_ofList,
      String.utf8ByteSize_singleton, hc]

end StringBytes
