import Mmbus.Lib.Attempt
import Mathlib.Data.List.Basic

/-!
# Logs that grow at their end

A log shows whether it takes another entry, the position of that entry, and the entries so far.  What an operation on
it may do is to change nothing of this (`Same`), to add an entry (`Adds`), or to fail and leave everything as it was
(`Kept`).  The rules compose them along a chain of operations.
-/

structure AppendLog (σ ρ : Type*) where
  /-- The log takes an entry, now and after each entry. -/
  Ready : σ → Prop
  next : σ → Nat
  entries : σ → List ρ

namespace AppendLog

variable {σ ρ ι : Type*} (L : AppendLog σ ρ)

/-- The log is ready and shows what it showed. -/
structure Same (s s' : σ) : Prop where
  ready : L.Ready s'
  next : L.next s' = L.next s
  entries : L.entries s' = L.entries s

/-- The log is ready and shows one more entry. -/
structure Adds (r : ρ) (s s' : σ) : Prop where
  ready : L.Ready s'
  next : L.next s' = L.next s + 1
  entries : L.entries s' = L.entries s ++ [r]

/-- There was a fault, and the log is as it was. -/
structure Kept (fault : Prop) (s s' : σ) : Prop where
  fault : fault
  same : L.Same s s'

variable {L} {s s' s'' : σ} {r : ρ} {fault : Prop}

theorem Same.refl (h : L.Ready s) : L.Same s s := ⟨h, rfl, rfl⟩

theorem Same.trans (h : L.Same s s') (h' : L.Same s' s'') : L.Same s s'' :=
  ⟨h'.ready, h'.next.trans h.next, h'.entries.trans h.entries⟩

theorem Same.adds (h : L.Same s s') (h' : L.Adds r s' s'') : L.Adds r s s'' :=
  ⟨h'.ready, h'.next.trans (by rw [h.next]), h'.entries.trans (by rw [h.entries])⟩

theorem Adds.same (h : L.Adds r s s') (h' : L.Same s' s'') : L.Adds r s s'' :=
  ⟨h'.ready, h'.next.trans h.next, h'.entries.trans h.entries⟩

theorem Same.kept (h : L.Same s s') (h' : L.Kept fault s' s'') : L.Kept fault s s'' := ⟨h'.fault, h.trans h'.same⟩

end AppendLog
