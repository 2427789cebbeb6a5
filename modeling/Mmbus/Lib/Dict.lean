import Mathlib.Data.List.Nodup

/-!
# Dictionaries in the order of insertion

A dictionary keeps its items in the order in which their keys came; a key that is set again keeps its place.
-/

structure Dict (κ β : Type*) where
  entries : List (κ × β)
  nodup : (entries.map Prod.fst).Nodup

namespace Dict

variable {κ β : Type*}

/-- The keys, in the order in which they came -/
def keys (d : Dict κ β) : List κ := d.entries.map Prod.fst

def values (d : Dict κ β) : List β := d.entries.map Prod.snd

def empty : Dict κ β := ⟨[], List.nodup_nil⟩

/-- A key has one value. -/
theorem value_unique {d : Dict κ β} {k : κ} {v v' : β} (h : (k, v) ∈ d.entries) (h' : (k, v') ∈ d.entries) : v = v' := by
  have heq : ((k, v) : κ × β) = (k, v') := List.inj_on_of_nodup_map d.nodup h h' rfl
  exact congrArg Prod.snd heq

theorem mem_keys_iff {d : Dict κ β} {k : κ} : k ∈ d.keys ↔ ∃ v, (k, v) ∈ d.entries := by
  rw [keys, List.mem_map]
  constructor
  · rintro ⟨e, he, rfl⟩
    exact ⟨e.2, he⟩
  · rintro ⟨v, hv⟩
    exact ⟨(k, v), hv, rfl⟩

variable [DecidableEq κ] (d : Dict κ β) (k : κ) (v : β)

/-- `d[k] = v` on the items -/
def setEntries : List (κ × β) → List (κ × β)
  | [] => [(k, v)]
  | e :: es => if e.1 = k then (k, v) :: es else e :: setEntries es

theorem setEntries_keys (es : List (κ × β)) :
    (setEntries k v es).map Prod.fst = if k ∈ es.map Prod.fst then es.map Prod.fst else es.map Prod.fst ++ [k] := by
  induction es with
  | nil => simp [setEntries]
  | cons e es ih =>
    rw [setEntries]
    by_cases hk : e.1 = k
    · rw [if_pos hk, List.map_cons, List.map_cons, hk, if_pos (List.mem_cons_self ..)]
    · rw [if_neg hk, List.map_cons, List.map_cons, ih]
      by_cases hmem : k ∈ es.map Prod.fst
      · rw [if_pos hmem, if_pos (List.mem_cons_of_mem _ hmem)]
      · rw [if_neg hmem, if_neg (by simpa using ⟨Ne.symm hk, by simpa using hmem⟩), List.cons_append]

/-- `d[k] = v` -/
def set : Dict κ β where
  entries := setEntries k v d.entries
  nodup := by
    rw [setEntries_keys]
    split
    · exact d.nodup
    · rename_i hk
      rw [← List.concat_eq_append]
      exact d.nodup.concat hk

/-- `d.pop(k, None)` without its result -/
def erase : Dict κ β where
  entries := d.entries.filter fun e => e.1 ≠ k
  nodup := (d.nodup.sublist (List.filter_sublist.map _))

variable {d k v} {k' : κ} {v' : β}

theorem keys_set : (d.set k v).keys = if k ∈ d.keys then d.keys else d.keys ++ [k] := setEntries_keys k v d.entries

/-- A new key comes last. -/
theorem entries_set_of_not_mem (h : k ∉ d.keys) : (d.set k v).entries = d.entries ++ [(k, v)] := by
  rw [keys] at h
  change setEntries k v d.entries = _
  generalize d.entries = es at h ⊢
  induction es with
  | nil => rfl
  | cons e es ih =>
    rw [List.map_cons, List.mem_cons, not_or] at h
    rw [setEntries, if_neg (Ne.symm h.1), ih h.2, List.cons_append]

theorem mem_keys_set : k' ∈ (d.set k v).keys ↔ k' = k ∨ k' ∈ d.keys := by
  rw [keys_set]
  split
  · rename_i hk
    refine ⟨.inr, fun h => ?_⟩
    rcases h with rfl | h
    · exact hk
    · exact h
  · rw [List.mem_append, List.mem_singleton, or_comm]

theorem mem_keys_erase : k' ∈ (d.erase k).keys ↔ k' ≠ k ∧ k' ∈ d.keys := by
  simp only [keys, erase, List.mem_map, List.mem_filter]
  constructor
  · rintro ⟨e, ⟨he, hk⟩, rfl⟩
    exact ⟨by simpa using hk, e, he, rfl⟩
  · rintro ⟨hk, e, he, rfl⟩
    exact ⟨e, ⟨he, by simpa using hk⟩, rfl⟩

theorem mem_entries_erase : (k', v') ∈ (d.erase k).entries ↔ k' ≠ k ∧ (k', v') ∈ d.entries := by
  rw [erase, List.mem_filter, decide_eq_true_iff]
  exact and_comm

private theorem mem_setEntries {es : List (κ × β)} (hnodup : (es.map Prod.fst).Nodup) :
    (k', v') ∈ setEntries k v es ↔ if k' = k then v' = v else (k', v') ∈ es := by
  induction es with
  | nil =>
    by_cases hk : k' = k
    · simp [setEntries, hk]
    · simp [setEntries, hk]
  | cons e es ih =>
    rw [List.map_cons, List.nodup_cons] at hnodup
    rw [setEntries]
    by_cases he : e.1 = k
    · rw [if_pos he, List.mem_cons, Prod.mk.injEq]
      by_cases hk : k' = k
      · -- no other item has the key
        have hno : (k', v') ∉ es := fun hmem => hnodup.1 (List.mem_map.2 ⟨_, hmem, hk.trans he.symm⟩)
        rw [if_pos hk]
        exact ⟨fun h => (h.resolve_right hno).2, fun h => .inl ⟨hk, h⟩⟩
      · have hne : (k', v') ≠ e := fun heq => hk ((congrArg Prod.fst heq).trans he)
        rw [if_neg hk, List.mem_cons]
        exact ⟨fun h => .inr (h.resolve_left fun heq => hk heq.1), fun h => .inr (h.resolve_left hne)⟩
    · rw [if_neg he, List.mem_cons, ih hnodup.2]
      by_cases hk : k' = k
      · have hne : (k', v') ≠ e := fun heq => he ((congrArg Prod.fst heq).symm.trans hk)
        rw [if_pos hk, if_pos hk]
        exact ⟨fun h => h.resolve_left hne, .inr⟩
      · rw [if_neg hk, if_neg hk, List.mem_cons]

/-- After `d[k] = v` the key has that value, and the others have theirs. -/
theorem mem_entries_set : (k', v') ∈ (d.set k v).entries ↔ if k' = k then v' = v else (k', v') ∈ d.entries :=
  mem_setEntries d.nodup

theorem length_keys_erase_le : (d.erase k).keys.length ≤ d.keys.length := by
  simp only [keys, erase, List.length_map]
  exact List.length_filter_le ..

end Dict
