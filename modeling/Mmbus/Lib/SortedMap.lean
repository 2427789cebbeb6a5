import Mathlib.Algebra.GroupWithZero.Nat
import Mathlib.Data.List.Basic
import Mathlib.Order.Lattice

/-!
# Maps as lists in ascending order of their keys

A map keeps its entries in strictly ascending order of the keys.  Logs use it in one way most of the time: a new key is
above all others (`entries_insert_of_lt`), what changes is the last entry (`entries_modify_last`), and what goes is the
first one (`entries_erase_head`).
-/

structure SortedMap (κ β : Type*) [LinearOrder κ] where
  entries : List (κ × β)
  ascending : entries.Pairwise fun p q => p.1 < q.1

namespace SortedMap

variable {κ β : Type*} [LinearOrder κ]

def empty : SortedMap κ β := ⟨[], .nil⟩

variable (m : SortedMap κ β)

def keys : List κ := m.entries.map Prod.fst

def lookup (k : κ) : Option β := (m.entries.find? fun p => p.1 = k).map Prod.snd

def last? : Option (κ × β) := m.entries.getLast?

/-! ### Changes -/

/-- The entry `(k, v)` in its place, instead of the entry of `k` if there is one -/
def insertEntry (k : κ) (v : β) : List (κ × β) → List (κ × β)
  | [] => [(k, v)]
  | p :: l =>
    if k < p.1 then (k, v) :: p :: l
    else if k = p.1 then (k, v) :: l
    else p :: insertEntry k v l

theorem mem_insertEntry {k : κ} {v : β} {l : List (κ × β)} {p : κ × β} (h : p ∈ insertEntry k v l) :
    p = (k, v) ∨ p ∈ l := by
  induction l with
  | nil => simpa [insertEntry] using h
  | cons q l ih =>
    unfold insertEntry at h
    split at h
    · exact List.mem_cons.1 h
    · split at h
      · exact (List.mem_cons.1 h).imp_right (List.mem_cons_of_mem _)
      · rcases List.mem_cons.1 h with rfl | h
        · exact .inr (List.mem_cons_self ..)
        · exact (ih h).imp_right (List.mem_cons_of_mem _)

theorem ascending_insertEntry {k : κ} {v : β} {l : List (κ × β)} (h : l.Pairwise fun p q => p.1 < q.1) :
    (insertEntry k v l).Pairwise fun p q => p.1 < q.1 := by
  induction l with
  | nil => exact List.pairwise_singleton ..
  | cons q l ih =>
    obtain ⟨hq, hl⟩ := List.pairwise_cons.1 h
    unfold insertEntry
    split
    · rename_i hlt
      refine List.pairwise_cons.2 ⟨fun p hp => ?_, h⟩
      rcases List.mem_cons.1 hp with rfl | hp
      · exact hlt
      · exact hlt.trans (hq p hp)
    · split
      · rename_i heq
        subst heq
        exact List.pairwise_cons.2 ⟨hq, hl⟩
      · rename_i hnlt hne
        refine List.pairwise_cons.2 ⟨fun p hp => ?_, ih hl⟩
        rcases mem_insertEntry hp with rfl | hp
        · exact lt_of_le_of_ne (not_lt.1 hnlt) (Ne.symm hne)
        · exact hq p hp

def insert (k : κ) (v : β) : SortedMap κ β := ⟨insertEntry k v m.entries, ascending_insertEntry m.ascending⟩

def erase (k : κ) : SortedMap κ β := ⟨m.entries.filter fun p => p.1 ≠ k, m.ascending.filter _⟩

/-- Apply `f` to every value. -/
def map {γ : Type*} (f : κ → β → γ) : SortedMap κ γ :=
  ⟨m.entries.map fun p => (p.1, f p.1 p.2), List.pairwise_map.2 m.ascending⟩

/-- Apply `f` to the value of the key `k`. -/
def modify (k : κ) (f : β → β) : SortedMap κ β := m.map fun k' v => if k' = k then f v else v

/-! ### Entries after a change -/

variable {m}

theorem mem_keys {k : κ} : k ∈ m.keys ↔ ∃ v, (k, v) ∈ m.entries := by
  simp [keys]

theorem mem_keys_insert (m : SortedMap κ β) (k : κ) (v : β) : k ∈ (m.insert k v).keys := by
  change k ∈ (insertEntry k v m.entries).map Prod.fst
  induction m.entries with
  | nil => simp [insertEntry]
  | cons p l ih =>
    simp only [insertEntry]
    split
    · simp
    · split
      · simp
      · exact List.mem_cons_of_mem _ ih

theorem mem_keys_insert_of_mem {j k : κ} (h : k ∈ m.keys) (v : β) : k ∈ (m.insert j v).keys := by
  change k ∈ (insertEntry j v m.entries).map Prod.fst
  rw [keys] at h
  generalize m.entries = l at h
  induction l with
  | nil => cases h
  | cons p l ih =>
    simp only [insertEntry]
    split
    · exact List.mem_cons_of_mem _ h
    · split
      · rename_i heq
        rw [List.map_cons, heq]
        exact h
      · rcases List.mem_cons.1 h with rfl | h
        · exact List.mem_cons_self ..
        · exact List.mem_cons_of_mem _ (ih h)

theorem mem_keys_insert_iff {j k : κ} {v : β} : k ∈ (m.insert j v).keys ↔ k = j ∨ k ∈ m.keys := by
  refine ⟨fun h => ?_, fun h => ?_⟩
  · obtain ⟨v', hv'⟩ := mem_keys.1 h
    rcases mem_insertEntry hv' with heq | hmem
    · exact .inl (congrArg Prod.fst heq)
    · exact .inr (mem_keys.2 ⟨v', hmem⟩)
  · rcases h with rfl | h
    · exact m.mem_keys_insert ..
    · exact mem_keys_insert_of_mem h v

theorem mem_keys_erase {j k : κ} : k ∈ (m.erase j).keys ↔ k ∈ m.keys ∧ k ≠ j := by
  simp only [mem_keys, erase, List.mem_filter, decide_eq_true_eq]
  exact exists_and_right

theorem keys_ascending (m : SortedMap κ β) : m.keys.Pairwise (· < ·) := List.pairwise_map.2 m.ascending

/-- Maps with the same keys list them in the same order. -/
theorem keys_eq_of_mem {γ : Type*} {m' : SortedMap κ γ} (h : ∀ k, k ∈ m.keys ↔ k ∈ m'.keys) : m.keys = m'.keys := by
  have hperm : m.keys.Perm m'.keys := (List.perm_ext_iff_of_nodup (m.keys_ascending.imp fun h => ne_of_lt h)
    (m'.keys_ascending.imp fun h => ne_of_lt h)).2 h
  exact hperm.eq_of_pairwise (fun a b _ _ hab hba => absurd (hab.trans hba) (lt_irrefl a)) m.keys_ascending
    m'.keys_ascending

private theorem insertEntry_of_lt {k : κ} (v : β) {l : List (κ × β)} (h : ∀ p ∈ l, p.1 < k) :
    insertEntry k v l = l ++ [(k, v)] := by
  induction l with
  | nil => rfl
  | cons p l ih =>
    have hp : p.1 < k := h p (List.mem_cons_self ..)
    have hrest := ih fun q hq => h q (List.mem_cons_of_mem _ hq)
    simp only [insertEntry, if_neg (not_lt_of_gt hp), if_neg (ne_of_gt hp), hrest, List.cons_append]

theorem entries_insert_of_lt {k : κ} (v : β) (h : ∀ p ∈ m.entries, p.1 < k) :
    (m.insert k v).entries = m.entries ++ [(k, v)] := insertEntry_of_lt v h

theorem lt_of_entries_append {l : List (κ × β)} {q : κ × β} (h : m.entries = l ++ [q]) :
    ∀ p ∈ l, p.1 < q.1 := by
  have hasc := m.ascending
  rw [h] at hasc
  exact fun p hp => (List.pairwise_append.1 hasc).2.2 p hp q (List.mem_singleton_self q)

theorem last?_eq_some {q : κ × β} (h : m.last? = some q) : ∃ l, m.entries = l ++ [q] := List.getLast?_eq_some_iff.1 h

/-- The key of the last entry is the greatest. -/
theorem le_of_last? {q : κ × β} (h : m.last? = some q) {p : κ × β} (hp : p ∈ m.entries) : p.1 ≤ q.1 := by
  obtain ⟨l, hl⟩ := last?_eq_some h
  have hlt := lt_of_entries_append hl
  simp only [hl, List.mem_append, List.mem_singleton] at hp
  rcases hp with hp | rfl
  · exact (hlt p hp).le
  · exact le_rfl

theorem entries_modify_last {l : List (κ × β)} {k : κ} {v : β} (h : m.entries = l ++ [(k, v)]) (f : β → β) :
    (m.modify k f).entries = l ++ [(k, f v)] := by
  have hlt := lt_of_entries_append h
  have hl : l.map (fun p => (p.1, if p.1 = k then f p.2 else p.2)) = l :=
    (List.map_congr_left fun p hp => by rw [if_neg (ne_of_lt (hlt p hp))]).trans (List.map_id' l)
  simp [modify, map, h, hl]

theorem entries_erase_head {l : List (κ × β)} {k : κ} {v : β} (h : m.entries = (k, v) :: l) :
    (m.erase k).entries = l := by
  have hasc := m.ascending
  rw [h] at hasc
  have hl : l.filter (fun p => p.1 ≠ k) = l :=
    List.filter_eq_self.2 fun p hp => by simpa using ne_of_gt ((List.pairwise_cons.1 hasc).1 p hp)
  simpa [erase, h] using hl

theorem lookup_head {l : List (κ × β)} {k : κ} {v : β} (h : m.entries = (k, v) :: l) : m.lookup k = some v := by
  simp [lookup, h]

theorem lookup_last {l : List (κ × β)} {k : κ} {v : β} (h : m.entries = l ++ [(k, v)]) : m.lookup k = some v := by
  have hlt := lt_of_entries_append h
  have hnone : l.find? (fun p => p.1 = k) = none :=
    List.find?_eq_none.2 fun p hp => by simpa using ne_of_lt (hlt p hp)
  simp [lookup, h, hnone]

@[simp] theorem keys_map {γ : Type*} (f : κ → β → γ) : (m.map f).keys = m.keys := by
  simp [keys, map, Function.comp_def]

@[simp] theorem keys_modify (k : κ) (f : β → β) : (m.modify k f).keys = m.keys := keys_map _

/-! ### Changes of a map under a function -/

variable {γ : Type*} {f : κ → β → γ}

private theorem ext {m m' : SortedMap κ γ} (h : m.entries = m'.entries) : m = m' := by
  cases m
  cases m'
  simpa using h

instance [DecidableEq γ] : DecidableEq (SortedMap κ γ) := fun m m' =>
  decidable_of_iff (m.entries = m'.entries) ⟨ext, fun h => by rw [h]⟩

theorem map_congr {g : κ → β → γ} (h : ∀ p ∈ m.entries, f p.1 p.2 = g p.1 p.2) : m.map f = m.map g :=
  ext (List.map_congr_left fun p hp => by rw [h p hp])

theorem map_eq_self {g : κ → β → β} (h : ∀ p ∈ m.entries, g p.1 p.2 = p.2) : m.map g = m :=
  ext ((List.map_congr_left fun p hp => by rw [h p hp]).trans (List.map_id' m.entries))

theorem map_map {δ : Type*} (g : κ → γ → δ) : (m.map f).map g = m.map fun k v => g k (f k v) :=
  ext (by simp [map])

theorem map_insert (k : κ) (v : β) : (m.insert k v).map f = (m.map f).insert k (f k v) := by
  refine ext ?_
  simp only [map, insert]
  induction m.entries with
  | nil => rfl
  | cons p l ih =>
    simp only [insertEntry, List.map_cons]
    split
    · rfl
    · split
      · rfl
      · rw [List.map_cons, ih]

theorem map_erase (k : κ) : (m.erase k).map f = (m.map f).erase k := by
  refine ext ?_
  simp only [map, erase, List.filter_map, Function.comp_def]

theorem map_modify (k : κ) {g : β → β} {g' : γ → γ} (h : ∀ v, (k, v) ∈ m.entries → f k (g v) = g' (f k v)) :
    (m.modify k g).map f = (m.map f).modify k g' := by
  rw [modify, modify, map_map, map_map]
  refine map_congr fun p hp => ?_
  by_cases hk : p.1 = k
  · obtain ⟨k', v⟩ := p
    subst hk
    simpa using h v hp
  · simp [hk]

/-! ### A change at one key and a change at another -/

theorem modify_insert {j k : κ} (h : j ≠ k) (g : β → β) (v : β) :
    (m.insert j v).modify k g = (m.modify k g).insert j v := by
  rw [modify, map_insert, if_neg h, modify]

theorem modify_erase (j k : κ) (g : β → β) : (m.erase j).modify k g = (m.modify k g).erase j := map_erase j

theorem modify_modify {j k : κ} (h : j ≠ k) (g g' : β → β) : (m.modify j g').modify k g = (m.modify k g).modify j g' := by
  refine map_modify j fun v _ => ?_
  rw [if_neg h, if_neg h]

/-- What is stored last stays. -/
theorem modify_const (k : κ) (v v' : β) : (m.modify k fun _ => v).modify k (fun _ => v') = m.modify k fun _ => v' := by
  rw [modify, modify, map_map]
  refine map_congr fun p _ => ?_
  split <;> rfl

theorem modify_eq_self {k : κ} {v : β} (h : ∀ v', (k, v') ∈ m.entries → v' = v) : (m.modify k fun _ => v) = m := by
  refine map_eq_self fun p hp => ?_
  split
  · rename_i hk
    subst hk
    exact (h p.2 hp).symm
  · rfl

theorem lookup_map (k : κ) : (m.map f).lookup k = (m.lookup k).map (f k) := by
  simp only [lookup, map, List.find?_map, Function.comp_def, Option.map_map]
  cases hfind : m.entries.find? fun p => p.1 = k with
  | none => rfl
  | some p =>
    have hk : p.1 = k := by simpa using List.find?_some hfind
    simp [hk]

theorem last?_map : (m.map f).last? = m.last?.map fun p => (p.1, f p.1 p.2) := List.getLast?_map ..

theorem lookup_eq_some {k : κ} {v : β} (h : m.lookup k = some v) : (k, v) ∈ m.entries := by
  obtain ⟨p, hp, rfl⟩ := Option.map_eq_some_iff.1 h
  have hk : p.1 = k := by simpa using List.find?_some hp
  subst hk
  exact List.mem_of_find?_eq_some hp

theorem mem_keys_of_lookup {k : κ} {v : β} (h : m.lookup k = some v) : k ∈ m.keys := mem_keys.2 ⟨v, lookup_eq_some h⟩

theorem lookup_of_mem {p : κ × β} (h : p ∈ m.entries) : m.lookup p.1 = some p.2 := by
  obtain ⟨l₁, l₂, hl⟩ := List.append_of_mem h
  have hasc := m.ascending
  rw [hl, List.pairwise_append] at hasc
  have hnone : l₁.find? (fun q => q.1 = p.1) = none :=
    List.find?_eq_none.2 fun q hq => by simpa using ne_of_lt (hasc.2.2 q hq p (List.mem_cons_self ..))
  simp [lookup, hl, hnone]

theorem not_mem_keys_of_lookup {k : κ} (h : m.lookup k = none) : k ∉ m.keys := by
  intro hk
  obtain ⟨v, hv⟩ := mem_keys.1 hk
  have hlookup : m.lookup k = some v := lookup_of_mem hv
  rw [h] at hlookup
  cases hlookup

theorem ne_of_lookup {j k : κ} {v : β} (hj : m.lookup j = some v) (hk : m.lookup k = none) : j ≠ k := by
  rintro rfl
  rw [hk] at hj
  cases hj

theorem mem_insert (m : SortedMap κ β) (k : κ) (v : β) : (k, v) ∈ (m.insert k v).entries := by
  change (k, v) ∈ insertEntry k v m.entries
  induction m.entries with
  | nil => simp [insertEntry]
  | cons p l ih =>
    simp only [insertEntry]
    split
    · exact List.mem_cons_self ..
    · split
      · exact List.mem_cons_self ..
      · exact List.mem_cons_of_mem _ ih

theorem lookup_insert (m : SortedMap κ β) (k : κ) (v : β) : (m.insert k v).lookup k = some v :=
  lookup_of_mem (p := (k, v)) (m.mem_insert k v)

theorem lookup_insert_of_ne {j k : κ} (h : j ≠ k) (m : SortedMap κ β) (v : β) :
    (m.insert k v).lookup j = m.lookup j := by
  have hfind : ∀ l : List (κ × β), (insertEntry k v l).find? (fun p => p.1 = j) = l.find? fun p => p.1 = j := by
    intro l
    induction l with
    | nil => simp [insertEntry, h.symm]
    | cons p l ih =>
      unfold insertEntry
      split
      · simp [List.find?_cons, h.symm]
      · split
        · rename_i hk
          simp [h.symm, ← hk]
        · simp only [List.find?_cons, ih]
  exact congrArg (Option.map Prod.snd) (hfind m.entries)

theorem lookup_modify (m : SortedMap κ β) (k : κ) (g : β → β) : (m.modify k g).lookup k = (m.lookup k).map g := by
  rw [modify, lookup_map]
  simp only [if_true]

theorem lookup_modify_of_ne {j k : κ} (h : j ≠ k) (g : β → β) : (m.modify k g).lookup j = m.lookup j := by
  rw [modify, lookup_map]
  simp only [if_neg h, Option.map_id']

theorem lookup_erase {k k' : κ} (h : k ≠ k') : (m.erase k').lookup k = m.lookup k := by
  cases hk : m.lookup k with
  | some v =>
    have hmem : (k, v) ∈ (m.erase k').entries := List.mem_filter.2 ⟨lookup_eq_some hk, by simpa using h⟩
    exact lookup_of_mem hmem
  | none =>
    cases hk' : (m.erase k').lookup k with
    | none => rfl
    | some v =>
      have hmem := List.mem_of_mem_filter (lookup_eq_some hk')
      rw [lookup_of_mem (p := (k, v)) hmem] at hk
      cases hk

theorem lookup_erase_eq_some {j k : κ} {v : β} (h : (m.erase k).lookup j = some v) : j ≠ k ∧ m.lookup j = some v := by
  have hne : j ≠ k := (mem_keys_erase.1 (mem_keys_of_lookup h)).2
  exact ⟨hne, (lookup_erase hne).symm.trans h⟩

/-- A new entry that contributes nothing -/
theorem flatMap_insert_nil {γ : Type*} {g : β → List γ} {k : κ} {v : β} (hk : k ∉ m.keys) (hv : g v = []) :
    (m.insert k v).entries.flatMap (fun p => g p.2) = m.entries.flatMap fun p => g p.2 := by
  rw [keys] at hk
  change (insertEntry k v m.entries).flatMap _ = _
  generalize m.entries = l at hk ⊢
  induction l with
  | nil => simp [insertEntry, hv]
  | cons p l ih =>
    simp only [List.map_cons, List.mem_cons, not_or] at hk
    simp only [insertEntry]
    split
    · rw [List.flatMap_cons, hv, List.nil_append]
    · rw [if_neg hk.1, List.flatMap_cons, List.flatMap_cons, ih hk.2]

theorem keys_eq {l : List (κ × β)} (h : m.entries = l) : m.keys = l.map Prod.fst := by
  rw [keys, h]

theorem keys_erase_head {l : List κ} {k : κ} (h : m.keys = k :: l) : (m.erase k).keys = l := by
  cases hm : m.entries with
  | nil => simp [keys, hm] at h
  | cons p rest =>
    obtain ⟨k', v⟩ := p
    obtain ⟨rfl, hrest⟩ : k' = k ∧ rest.map Prod.fst = l := by simpa [keys, hm] using h
    rw [keys_eq (entries_erase_head hm), hrest]

theorem length_keys_erase {k : κ} (h : k ∈ m.keys) : (m.erase k).keys.length < m.keys.length := by
  obtain ⟨v, hv⟩ := mem_keys.1 h
  simp only [keys, erase, List.length_map]
  exact List.length_filter_lt_length_iff_exists.2 ⟨(k, v), hv, by simp⟩

/-! ### Sums over the values -/

theorem sum_insert {m : SortedMap κ Nat} {k : κ} (h : k ∉ m.keys) (v : Nat) :
    ((m.insert k v).entries.map Prod.snd).sum = (m.entries.map Prod.snd).sum + v := by
  rw [keys] at h
  change ((insertEntry k v m.entries).map Prod.snd).sum = _
  generalize m.entries = l at h ⊢
  induction l with
  | nil => simp [insertEntry]
  | cons p l ih =>
    simp only [List.map_cons, List.mem_cons, not_or] at h
    simp only [insertEntry, if_neg h.1]
    split
    · simp only [List.map_cons, List.sum_cons]
      omega
    · have := ih h.2
      simp only [List.map_cons, List.sum_cons]
      omega

theorem sum_erase {m : SortedMap κ Nat} (k : κ) :
    ((m.erase k).entries.map Prod.snd).sum + (m.lookup k).getD 0 = (m.entries.map Prod.snd).sum := by
  have hasc := m.ascending
  simp only [erase, lookup]
  generalize m.entries = l at hasc ⊢
  induction l with
  | nil => rfl
  | cons p l ih =>
    obtain ⟨hp, hl⟩ := List.pairwise_cons.1 hasc
    by_cases hk : p.1 = k
    · have hrest : l.filter (fun q => decide (q.1 ≠ k)) = l :=
        List.filter_eq_self.2 fun q hq => by simpa using ne_of_gt (hk ▸ hp q hq)
      simp only [ne_eq, decide_not] at hrest
      simp [hk, hrest, Nat.add_comm]
    · have := ih hl
      simp only [ne_eq, decide_not] at this
      simp only [ne_eq, decide_not, List.filter_cons, hk, decide_false, Bool.not_false, if_true, List.map_cons,
        List.sum_cons, List.find?_cons]
      omega

private theorem sum_lookup_entries {l : List (κ × β)} (hl : l.Pairwise fun p q => p.1 < q.1) {n : SortedMap κ Nat}
    (h : ∀ k ∈ n.keys, k ∈ l.map Prod.fst) :
    (l.map fun p => (n.lookup p.1).getD 0).sum = (n.entries.map Prod.snd).sum := by
  induction l generalizing n with
  | nil =>
    have hnil : n.keys = [] := List.eq_nil_iff_forall_not_mem.2 fun k hk => List.not_mem_nil (h k hk)
    rw [List.map_eq_nil_iff.1 hnil]
    rfl
  | cons p l ih =>
    obtain ⟨hp, hl⟩ := List.pairwise_cons.1 hl
    have herase : ∀ k ∈ (n.erase p.1).keys, k ∈ l.map Prod.fst := by
      intro k hk
      obtain ⟨hmem, hne⟩ := mem_keys_erase.1 hk
      exact (List.mem_cons.1 (h k hmem)).resolve_left hne
    have hrest : l.map (fun q => (n.lookup q.1).getD 0) = l.map fun q => ((n.erase p.1).lookup q.1).getD 0 :=
      List.map_congr_left fun q hq => by rw [lookup_erase (hp q hq).ne']
    rw [List.map_cons, List.sum_cons, hrest, ih hl herase, Nat.add_comm, sum_erase]

/-- The values of a map at the keys of another one that has all its keys -/
theorem sum_lookup {m : SortedMap κ β} {n : SortedMap κ Nat} (h : ∀ k ∈ n.keys, k ∈ m.keys) :
    (m.entries.map fun p => (n.lookup p.1).getD 0).sum = (n.entries.map Prod.snd).sum :=
  sum_lookup_entries m.ascending h

end SortedMap
