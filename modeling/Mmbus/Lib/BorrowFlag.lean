import Mathlib.Data.List.Basic

/-!
# Borrows checked at run time

A cell lets out any number of shared borrows or one exclusive borrow at a time.  It keeps no list of them but a flag,
which counts the shared ones, and refuses a borrow that the flag does not allow.  `Counts`: the flag says which borrows
are out.  Then a borrow is refused exactly when one is out that it does not go together with (`tryBorrow_eq_none`).
-/

namespace BorrowFlag

inductive Borrow
  | shared
  | exclusive
  deriving DecidableEq

/-- The two borrows may be out together. -/
def Borrow.Compatible : Borrow → Borrow → Bool
  | shared, shared => true
  | _, _ => false

inductive Flag
  | shared (n : Nat)
  | exclusive
  deriving DecidableEq

/-- The flag with one more borrow out, or a refusal -/
def Flag.tryBorrow : Flag → Borrow → Option Flag
  | shared n, .shared => some (shared (n + 1))
  | shared 0, .exclusive => some exclusive
  | _, _ => none

/-- The flag when a borrow has been given back -/
def Flag.giveBack : Flag → Flag
  | shared n => shared (n - 1)
  | exclusive => shared 0

/-- The flag stands for the borrows that are out. -/
def Counts : Flag → List Borrow → Prop
  | .shared n, out => out = List.replicate n .shared
  | .exclusive, out => out = [.exclusive]

variable {flag flag' : Flag} {out front back : List Borrow} {b : Borrow}

theorem counts_nil : Counts (.shared 0) [] := rfl

/-- Beside a shared borrow there are only shared ones. -/
theorem Counts.eq_shared (h : Counts flag out) (hshared : .shared ∈ out) : ∀ o ∈ out, o = .shared := by
  cases flag with
  | shared n =>
    rw [show out = List.replicate n .shared from h]
    exact fun o ho => (List.mem_replicate.1 ho).2
  | exclusive =>
    rw [show out = [.exclusive] from h] at hshared
    cases List.mem_singleton.1 hshared

theorem tryBorrow_eq_none (h : Counts flag out) : flag.tryBorrow b = none ↔ ∃ o ∈ out, b.Compatible o = false := by
  cases flag with
  | exclusive =>
    rw [show out = [.exclusive] from h]
    cases b <;> simp [Flag.tryBorrow, Borrow.Compatible]
  | shared n =>
    rw [show out = List.replicate n .shared from h]
    cases b with
    | shared => simp [Flag.tryBorrow, Borrow.Compatible]
    | exclusive => cases n <;> simp [Flag.tryBorrow, Borrow.Compatible]

theorem Counts.borrow (h : Counts flag out) (hb : flag.tryBorrow b = some flag') : Counts flag' (out ++ [b]) := by
  cases flag with
  | exclusive => cases b <;> cases hb
  | shared n =>
    have hout : out = List.replicate n .shared := h
    cases b with
    | shared =>
      cases hb
      rw [hout]
      exact (List.replicate_succ' ..).symm
    | exclusive =>
      cases n with
      | zero =>
        cases hb
        rw [hout]
        rfl
      | succ n => cases hb

theorem Counts.giveBack (h : Counts flag (front ++ b :: back)) : Counts flag.giveBack (front ++ back) := by
  cases flag with
  | shared n =>
    have hout : front ++ b :: back = List.replicate n .shared := h
    obtain ⟨hlen, hall⟩ := List.eq_replicate_iff.1 hout
    refine List.eq_replicate_iff.2 ⟨?_, fun o ho => hall o ?_⟩
    · simp only [List.length_append, List.length_cons] at hlen ⊢
      omega
    · rcases List.mem_append.1 ho with ho | ho
      · exact List.mem_append_left _ ho
      · exact List.mem_append_right _ (List.mem_cons_of_mem _ ho)
  | exclusive =>
    have hout : front ++ b :: back = [.exclusive] := h
    have hlen := congrArg List.length hout
    simp only [List.length_append, List.length_cons, List.length_nil] at hlen
    have hfront : front = [] := List.eq_nil_of_length_eq_zero (by omega)
    have hback : back = [] := List.eq_nil_of_length_eq_zero (by omega)
    rw [hfront, hback]
    rfl

end BorrowFlag
