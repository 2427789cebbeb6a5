import Mathlib.Data.List.Range
import Mathlib.Data.List.Basic

/-!
# Sequences kept in chapters

A sequence of numbered entries is kept in chapters, each named by the number of its first entry.  `Covers n l m` says
that the chapters `l` hold the numbers from `n` up to `m`, each once and in order.  The sequence grows in its last
chapter, or by a new chapter, and loses its first ones; whoever reads it from `c` on may begin with the last chapter
whose name is at most `c` (`filter_flatMap`).
-/

namespace Chapters

variable {ρ : Type*} {number : ρ → Nat} {n m k c : Nat} {rs rs' : List ρ} {l l' : List (Nat × List ρ)}

/-- The entries have the numbers from `n` on. -/
def Numbered (number : ρ → Nat) (n : Nat) (rs : List ρ) : Prop := rs.map number = List.range' n rs.length

theorem numbered_nil : Numbered number n [] := rfl

theorem numbered_append : Numbered number n (rs ++ rs') ↔ Numbered number n rs ∧ Numbered number (n + rs.length) rs' := by
  simp only [Numbered, List.map_append, List.length_append, ← List.range'_append_1]
  constructor
  · intro h
    exact List.append_inj h (by simp)
  · rintro ⟨h, h'⟩
    rw [h, h']

theorem numbered_singleton {r : ρ} : Numbered number n [r] ↔ number r = n := by
  simp [Numbered]

theorem Numbered.mem (h : Numbered number n rs) {r : ρ} (hr : r ∈ rs) : n ≤ number r ∧ number r < n + rs.length := by
  have hmem : number r ∈ rs.map number := List.mem_map_of_mem hr
  rw [h, List.mem_range'_1] at hmem
  exact hmem

theorem Numbered.take (h : Numbered number n rs) (i : Nat) : Numbered number n (rs.take i) := by
  rw [← List.take_append_drop i rs, numbered_append] at h
  exact h.1

theorem Numbered.getLast (h : Numbered number n rs) {r : ρ} (hr : rs.getLast? = some r) :
    number r + 1 = n + rs.length := by
  obtain ⟨init, rfl⟩ := List.getLast?_eq_some_iff.1 hr
  obtain ⟨-, hlast⟩ := numbered_append.1 h
  rw [numbered_singleton] at hlast
  rw [List.length_append, List.length_singleton]
  omega

/-- What is read from `c` on -/
theorem Numbered.filter (h : Numbered number n rs) (hc : n ≤ c) :
    rs.filter (fun r => c ≤ number r) = rs.drop (c - n) := by
  have htake : ∀ r ∈ rs.take (c - n), ¬c ≤ number r := by
    intro r hr
    have hlt := ((h.take (c - n)).mem hr).2
    have := List.length_take_le (c - n) rs
    omega
  have hdrop : ∀ r ∈ rs.drop (c - n), c ≤ number r := by
    intro r hr
    rcases Nat.lt_or_ge (c - n) rs.length with hlt | hge
    · rw [← List.take_append_drop (c - n) rs, numbered_append, List.length_take, Nat.min_eq_left hlt.le] at h
      have := (h.2.mem hr).1
      omega
    · rw [List.drop_eq_nil_of_le hge] at hr
      cases hr
  conv_lhs => rw [← List.take_append_drop (c - n) rs, List.filter_append]
  rw [List.filter_eq_nil_iff.2 (by simpa using htake), List.filter_eq_self.2 (by simpa using hdrop), List.nil_append]

/-- The chapters hold the numbers from `n` up to `m`. -/
def Covers (number : ρ → Nat) : Nat → List (Nat × List ρ) → Nat → Prop
  | n, [], m => n = m
  | n, (k, rs) :: l, m => k = n ∧ Numbered number n rs ∧ Covers number (n + rs.length) l m

theorem covers_append : Covers number n (l ++ l') m ↔ ∃ k, Covers number n l k ∧ Covers number k l' m := by
  induction l generalizing n with
  | nil => simp [Covers]
  | cons p l ih =>
    simp only [List.cons_append, Covers, ih]
    constructor
    · rintro ⟨hk, hrs, k, hl, hl'⟩
      exact ⟨k, ⟨hk, hrs, hl⟩, hl'⟩
    · rintro ⟨k, ⟨hk, hrs, hl⟩, hl'⟩
      exact ⟨hk, hrs, k, hl, hl'⟩

theorem covers_concat :
    Covers number n (l ++ [(k, rs)]) m ↔ Covers number n l k ∧ Numbered number k rs ∧ m = k + rs.length := by
  rw [covers_append]
  simp only [Covers]
  constructor
  · rintro ⟨k', hl, rfl, hrs, rfl⟩
    exact ⟨hl, hrs, rfl⟩
  · rintro ⟨hl, hrs, rfl⟩
    exact ⟨k, hl, rfl, hrs, rfl⟩

/-- A new chapter at the end -/
theorem Covers.concat (h : Covers number n l m) : Covers number n (l ++ [(m, [])]) m :=
  covers_concat.2 ⟨h, numbered_nil, rfl⟩

/-- The last chapter grows. -/
theorem Covers.extend (h : Covers number n (l ++ [(k, rs)]) m) (hrs : Numbered number m rs') :
    Covers number n (l ++ [(k, rs ++ rs')]) (m + rs'.length) := by
  obtain ⟨hl, hnum, rfl⟩ := covers_concat.1 h
  refine covers_concat.2 ⟨hl, numbered_append.2 ⟨hnum, hrs⟩, ?_⟩
  rw [List.length_append, Nat.add_assoc]

/-- The last chapter loses its end. -/
theorem Covers.cut (h : Covers number n (l ++ [(k, rs)]) m) (i : Nat) :
    Covers number n (l ++ [(k, rs.take i)]) (k + (rs.take i).length) := by
  obtain ⟨hl, hnum, -⟩ := covers_concat.1 h
  exact covers_concat.2 ⟨hl, hnum.take i, rfl⟩

theorem Covers.le (h : Covers number n l m) : n ≤ m := by
  induction l generalizing n with
  | nil => exact h.le
  | cons p l ih =>
    obtain ⟨-, -, hl⟩ := h
    exact (Nat.le_add_right ..).trans (ih hl)

/-- The names lie in the range. -/
theorem Covers.name_mem (h : Covers number n l m) {p : Nat × List ρ} (hp : p ∈ l) : n ≤ p.1 ∧ p.1 ≤ m := by
  induction l generalizing n with
  | nil => cases hp
  | cons q l ih =>
    obtain ⟨rfl, -, hl⟩ := h
    have hle := hl.le
    rcases List.mem_cons.1 hp with rfl | hp
    · exact ⟨le_rfl, by omega⟩
    · have := ih hl hp
      omega

/-- All entries, without the chapters -/
theorem Covers.flatMap (h : Covers number n l m) :
    Numbered number n (l.flatMap Prod.snd) ∧ n + (l.flatMap Prod.snd).length = m := by
  induction l generalizing n with
  | nil => exact ⟨numbered_nil, h⟩
  | cons p l ih =>
    obtain ⟨-, hrs, hl⟩ := h
    obtain ⟨hnum, hlen⟩ := ih hl
    rw [List.flatMap_cons]
    refine ⟨numbered_append.2 ⟨hrs, hnum⟩, ?_⟩
    rw [List.length_append]
    omega

/-- What the chapters hold from `c` on -/
theorem Covers.map_filter (h : Covers number n l m) (hc : n ≤ c) :
    ((l.flatMap Prod.snd).filter fun r => c ≤ number r).map number = List.range' c (m - c) := by
  obtain ⟨hnum, hlen⟩ := h.flatMap
  rw [hnum.filter hc, List.map_drop, hnum, List.drop_range', ← hlen]
  congr 1 <;> omega

/-- The chapters hold the end of a sequence; what comes before it has smaller numbers. -/
theorem Covers.below (h : Covers number n l m) {start : Nat} {gone : List ρ}
    (hnum : Numbered number start (gone ++ l.flatMap Prod.snd))
    (hend : gone ≠ [] → start + (gone ++ l.flatMap Prod.snd).length = m) : ∀ r ∈ gone, number r < n := by
  intro r hr
  have hlen := h.flatMap.2
  have hm := hend (List.ne_nil_of_mem hr)
  have hlt := ((numbered_append.1 hnum).1.mem hr).2
  rw [List.length_append] at hm
  omega

/-- Nothing from `c` on comes before the chapters. -/
theorem Covers.filter_append (h : Covers number n l m) {start : Nat} {gone : List ρ}
    (hnum : Numbered number start (gone ++ l.flatMap Prod.snd))
    (hend : gone ≠ [] → start + (gone ++ l.flatMap Prod.snd).length = m) (hc : n ≤ c) :
    (gone ++ l.flatMap Prod.snd).filter (fun r => c ≤ number r) =
      (l.flatMap Prod.snd).filter fun r => c ≤ number r := by
  have hgone : gone.filter (fun r => c ≤ number r) = [] := by
    refine List.filter_eq_nil_iff.2 fun r hr => ?_
    have hlt := h.below hnum hend r hr
    simp only [decide_eq_true_eq]
    omega
  rw [List.filter_append, hgone, List.nil_append]

/-- Nothing from `c` on lies in a chapter before the one named `k`. -/
theorem Covers.filter_flatMap (h : Covers number n l m) (hk : k ∈ l.map Prod.fst) (hc : k ≤ c) :
    ((l.filter fun p => k ≤ p.1).flatMap Prod.snd).filter (fun r => c ≤ number r) =
      (l.flatMap Prod.snd).filter fun r => c ≤ number r := by
  induction l generalizing n with
  | nil => rfl
  | cons p l ih =>
    obtain ⟨rfl, hrs, hl⟩ := h
    by_cases hkp : k ≤ p.1
    · -- all names from here on are at least `k`
      have hall : ∀ q ∈ p :: l, k ≤ q.1 := by
        intro q hq
        rcases List.mem_cons.1 hq with rfl | hq
        · exact hkp
        · have := (hl.name_mem hq).1
          omega
      have hself : (p :: l).filter (fun q => k ≤ q.1) = p :: l := List.filter_eq_self.2 fun q hq => by simpa using hall q hq
      rw [hself]
    · have hkl : k ∈ l.map Prod.fst := by
        rcases List.mem_cons.1 hk with rfl | hk
        · exact absurd le_rfl hkp
        · exact hk
      obtain ⟨q, hq, rfl⟩ := List.mem_map.1 hkl
      have hle := (hl.name_mem hq).1
      have hnone : p.2.filter (fun r => c ≤ number r) = [] := by
        refine List.filter_eq_nil_iff.2 fun r hr => ?_
        have := (hrs.mem hr).2
        simp only [decide_eq_true_eq]
        omega
      rw [List.filter_cons_of_neg (by simpa using hkp), List.flatMap_cons, List.filter_append, hnone, List.nil_append]
      exact ih hl hkl

end Chapters
