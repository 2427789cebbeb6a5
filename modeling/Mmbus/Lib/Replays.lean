import Mmbus.Lib.Chapters

/-!
# Replays of sequences kept in segments

A sequence of numbered entries is kept in named segments.  A replay opens one segment after the other and returns, of
each, the entries from a floor on; `Source` says how a segment is opened and how the next entry of an open one is read.

A source that serves its readers (`Serves`) is replayed to its end (`yields_segments`), and a replay that begins where
`segmentsFrom` says returns all entries from its floor on (`Source.Serves.reads`).
-/

namespace Replays

variable {ε α ρ : Type*}

/-- Segments that can be opened and read.  A read returns an entry, an error, or nothing at the end of the segment;
`rounds` bounds the entries that an open segment has left. -/
structure Source (ε α ρ : Type*) where
  «open» : Nat → Except ε ρ
  next : ρ → Option (Except ε α) × ρ
  rounds : ρ → Nat
  number : α → Nat

/-- The segments that are not open yet, the floor, and the open segment -/
structure Replayer (ρ : Type*) where
  segments : List Nat
  floor : Nat
  current : Option ρ

namespace Source

variable (src : Source ε α ρ)

/-- The next entry from the floor on, with at most `n` reads -/
def nextFrom (floor : Nat) : (n : Nat) → ρ → Option (Except ε α) × ρ
  | 0, rd => (none, rd)
  | n + 1, rd =>
    match src.next rd with
    | (some (.ok r), rd) => if src.number r < floor then nextFrom floor n rd else (some (.ok r), rd)
    | item => item

/-- The open segment returns something, or is at its end (`none`). -/
def read (p : Replayer ρ) (rd : ρ) : Option (Except ε α × Replayer ρ) :=
  match src.nextFrom p.floor (src.rounds rd + 1) rd with
  | (some item, rd) => some (item, { p with current := some rd })
  | (none, _) => none

/-- Open segments until one returns something. -/
def openFrom (floor : Nat) : List Nat → Option (Except ε α) × Replayer ρ
  | [] => (none, ⟨[], floor, none⟩)
  | k :: segments =>
    match src.open k with
    | .error e => (some (.error e), ⟨segments, floor, none⟩)
    | .ok rd =>
      match src.read ⟨segments, floor, none⟩ rd with
      | some (item, p) => (some item, p)
      | none => openFrom floor segments

/-- The next item of the replay -/
def replayNext (p : Replayer ρ) : Option (Except ε α) × Replayer ρ :=
  match p.current.bind (src.read p) with
  | some (item, p) => (some item, p)
  | none => src.openFrom p.floor p.segments

/-- The replay returns the entries `rs` one after the other, and then nothing. -/
inductive Yields : Replayer ρ → List α → Prop
  | done {p p' : Replayer ρ} (h : src.replayNext p = (none, p')) : Yields p []
  | entry {p p' : Replayer ρ} {r : α} {rs : List α} (h : src.replayNext p = (some (.ok r), p')) (hrest : Yields p' rs) :
      Yields p (r :: rs)

/-- The readers of which `Before` holds have the given entries left, and return them. -/
structure Serves (Before : ρ → List α → Prop) : Prop where
  nil : ∀ {rd}, Before rd [] → (src.next rd).1 = none
  cons : ∀ {rd r rs}, Before rd (r :: rs) → ∃ rd', src.next rd = (some (.ok r), rd') ∧ Before rd' rs
  le_rounds : ∀ {rd rs}, Before rd rs → rs.length ≤ src.rounds rd

/-- The entries that a loop over an open segment gets, with at most `n` reads -/
def entries : (n : Nat) → ρ → List α
  | 0, _ => []
  | n + 1, rd =>
    match src.next rd with
    | (some (.ok r), rd) => r :: entries n rd
    | _ => []

variable {src} {Before : ρ → List α → Prop} {rd : ρ} {rs later : List α} {floor n : Nat} {segments : List Nat}

theorem Serves.entries (h : src.Serves Before) (hrd : Before rd rs) (hn : rs.length ≤ n) : src.entries n rd = rs := by
  induction rs generalizing rd n with
  | nil =>
    cases n with
    | zero => rfl
    | succ n =>
      obtain ⟨rd', hnext⟩ : ∃ rd', src.next rd = (none, rd') := ⟨_, Prod.ext (h.nil hrd) rfl⟩
      simp only [Source.entries, hnext]
  | cons r rs ih =>
    obtain ⟨rd', hnext, hrd'⟩ := h.cons hrd
    cases n with
    | zero => simp at hn
    | succ n => simp only [Source.entries, hnext, ih hrd' (Nat.le_of_succ_le_succ hn)]

/-- Entries below the floor are skipped. -/
theorem Serves.nextFrom (floor : Nat) (h : src.Serves Before) (hrd : Before rd rs) (hn : rs.length < n) :
    (∃ r rest rd', rs.filter (fun r => floor ≤ src.number r) = r :: rest.filter (fun r => floor ≤ src.number r) ∧
        rest.length < rs.length ∧ src.nextFrom floor n rd = (some (.ok r), rd') ∧ Before rd' rest) ∨
      rs.filter (fun r => floor ≤ src.number r) = [] ∧ (src.nextFrom floor n rd).1 = none := by
  induction rs generalizing rd n with
  | nil =>
    cases n with
    | zero => simp at hn
    | succ n =>
      obtain ⟨rd', hnext⟩ : ∃ rd', src.next rd = (none, rd') := ⟨_, Prod.ext (h.nil hrd) rfl⟩
      exact .inr ⟨rfl, by simp only [Source.nextFrom, hnext]⟩
  | cons r rs ih =>
    cases n with
    | zero => simp at hn
    | succ n =>
      obtain ⟨rd', hnext, hrd'⟩ := h.cons hrd
      simp only [Source.nextFrom, hnext]
      by_cases hlt : src.number r < floor
      · rw [if_pos hlt, List.filter_cons_of_neg (by simpa using hlt)]
        rcases ih hrd' (Nat.lt_of_succ_lt_succ hn) with ⟨q, rest, rd'', hfilter, hlen, hq⟩ | hnone
        · exact .inl ⟨q, rest, rd'', hfilter, hlen.trans (Nat.lt_succ_self _), hq⟩
        · exact .inr hnone
      · rw [if_neg hlt, List.filter_cons_of_pos (by simpa using hlt)]
        exact .inl ⟨r, rs, rd', rfl, Nat.lt_succ_self _, rfl, hrd'⟩

theorem Yields.of_eq {p p' : Replayer ρ} (h : src.Yields p' rs) (hnext : src.replayNext p = src.replayNext p') :
    src.Yields p rs := by
  cases h with
  | done h => exact .done (hnext.trans h)
  | entry h hrest => exact .entry (hnext.trans h) hrest

/-- The rest of the open segment, then the segments behind it -/
theorem Serves.yields_current (h : src.Serves Before) (hrd : Before rd rs)
    (hlater : src.Yields ⟨segments, floor, none⟩ later) :
    src.Yields ⟨segments, floor, some rd⟩ (rs.filter (fun r => floor ≤ src.number r) ++ later) := by
  induction hlen : rs.length using Nat.strong_induction_on generalizing rs rd with
  | _ n ih =>
    rcases h.nextFrom floor hrd (Nat.lt_succ_of_le (h.le_rounds hrd)) with
      ⟨r, rest, rd', hfilter, hlt, hnext, hrd'⟩ | ⟨hfilter, hnone⟩
    · have hrest := ih rest.length (hlen ▸ hlt) hrd' rfl
      rw [hfilter, List.cons_append]
      refine Yields.entry ?_ hrest
      simp only [replayNext, Option.bind_some, read, hnext]
    · -- the segment is at its end
      have hread : src.read ⟨segments, floor, some rd⟩ rd = none := by
        obtain ⟨rd', heq⟩ : ∃ rd', src.nextFrom floor (src.rounds rd + 1) rd = (none, rd') := ⟨_, Prod.ext hnone rfl⟩
        simp only [read, heq]
      rw [hfilter, List.nil_append]
      refine hlater.of_eq ?_
      simp only [replayNext, Option.bind_some, hread, Option.bind_none]

/-- A replay of segments that can all be opened -/
theorem Serves.yields_segments (h : src.Serves Before) (floor : Nat) {l : List (Nat × List α)}
    (hopen : ∀ p ∈ l, ∃ rd, src.open p.1 = .ok rd ∧ Before rd p.2) :
    src.Yields ⟨l.map Prod.fst, floor, none⟩ ((l.flatMap Prod.snd).filter fun r => floor ≤ src.number r) := by
  induction l with
  | nil => exact .done rfl
  | cons p l ih =>
    obtain ⟨rd, hrd, hbefore⟩ := hopen p (List.mem_cons_self ..)
    have hrest := ih fun q hq => hopen q (List.mem_cons_of_mem _ hq)
    rw [List.flatMap_cons, List.filter_append]
    refine (h.yields_current hbefore hrest).of_eq ?_
    simp only [replayNext, Option.bind_none, Option.bind_some, List.map_cons, openFrom, hrd]
    rfl

/-! ### Replays that run into an error -/

/-- The open segment returns entries, at most `n`, and then an error. -/
inductive Fails (src : Source ε α ρ) : Nat → ρ → Prop
  | error {n : Nat} {rd rd' : ρ} {e : ε} (h : src.next rd = (some (.error e), rd')) : Fails src n rd
  | entry {n : Nat} {rd rd' : ρ} {r : α} (h : src.next rd = (some (.ok r), rd')) (hrest : Fails src n rd') :
      Fails src (n + 1) rd

/-- An error is to come, from the open segment or from one that is not open yet. -/
def Broken (src : Source ε α ρ) (p : Replayer ρ) : Prop :=
  (∃ rd, p.current = some rd ∧ src.Fails (src.rounds rd) rd) ∨
    ∃ k ∈ p.segments, ∃ rd, src.open k = .ok rd ∧ src.Fails (src.rounds rd) rd

theorem Fails.mono (h : src.Fails n rd) {m : Nat} (hm : n ≤ m) : src.Fails m rd := by
  induction h generalizing m with
  | error h => exact .error h
  | entry h _ ih =>
    obtain ⟨m, rfl⟩ := Nat.exists_eq_add_of_lt (Nat.lt_of_lt_of_le (Nat.lt_succ_self _) hm)
    exact .entry h (ih (Nat.le_add_right ..))

/-- A segment with an error to come returns it, or an entry with the error still to come. -/
theorem Fails.nextFrom (h : src.Fails n rd) (floor : Nat) {m : Nat} (hm : n < m) :
    (∃ e rd', src.nextFrom floor m rd = (some (.error e), rd')) ∨
      ∃ r rd', src.nextFrom floor m rd = (some (.ok r), rd') ∧ src.Fails n rd' := by
  induction h generalizing m with
  | @error n rd rd' e h =>
    obtain ⟨m, rfl⟩ := Nat.exists_eq_add_of_lt hm
    exact .inl ⟨e, rd', by simp only [Source.nextFrom, h]⟩
  | @entry n rd rd' r h hrest ih =>
    cases m with
    | zero => cases hm
    | succ m =>
      simp only [Source.nextFrom, h]
      by_cases hlt : src.number r < floor
      · rw [if_pos hlt]
        rcases ih (Nat.lt_of_succ_lt_succ hm) with herr | ⟨q, rd'', hq, hrest'⟩
        · exact .inl herr
        · exact .inr ⟨q, rd'', hq, hrest'.mono (Nat.le_succ _)⟩
      · rw [if_neg hlt]
        exact .inr ⟨r, rd', rfl, hrest.mono (Nat.le_succ _)⟩

section
variable (hrounds : ∀ rd, src.rounds (src.next rd).2 = src.rounds rd)
include hrounds

theorem rounds_nextFrom (floor : Nat) (m : Nat) (rd : ρ) : src.rounds (src.nextFrom floor m rd).2 = src.rounds rd := by
  induction m generalizing rd with
  | zero => rfl
  | succ m ih =>
    have hnext := hrounds rd
    unfold Source.nextFrom
    split
    · rename_i heq
      rw [heq] at hnext
      split
      · exact (ih _).trans hnext
      · exact hnext
    · exact hnext

/-- The next item of an open segment with an error to come -/
theorem Fails.read {p : Replayer ρ} (h : src.Fails (src.rounds rd) rd) :
    ∃ item p', src.read p rd = some (item, p') ∧ ∀ r, item = .ok r → src.Broken p' := by
  have hkeeps := rounds_nextFrom hrounds p.floor (src.rounds rd + 1) rd
  rcases h.nextFrom p.floor (Nat.lt_succ_self _) with ⟨e, rd', hnext⟩ | ⟨r, rd', hnext, hrest⟩
  · exact ⟨.error e, { p with current := some rd' }, by simp only [Source.read, hnext], nofun⟩
  · rw [hnext] at hkeeps
    have hkeeps : src.rounds rd' = src.rounds rd := hkeeps
    refine ⟨.ok r, { p with current := some rd' }, by simp only [Source.read, hnext], fun _ _ => .inl ⟨rd', rfl, ?_⟩⟩
    rw [hkeeps]
    exact hrest

/-- The next item of a replay with an error to come -/
theorem Broken.replayNext {p : Replayer ρ} (h : src.Broken p) :
    ∃ item p', src.replayNext p = (some item, p') ∧ ∀ r, item = .ok r → src.Broken p' := by
  have hopen (k : Nat) (hk : ∃ rd, src.open k = .ok rd ∧ src.Fails (src.rounds rd) rd) (segments : List Nat)
      (hmem : k ∈ segments) : ∃ item p', src.openFrom p.floor segments = (some item, p') ∧
        ∀ r, item = .ok r → src.Broken p' := by
    induction segments with
    | nil => cases hmem
    | cons j segments ih =>
      simp only [Source.openFrom]
      cases hj : src.open j with
      | error e => exact ⟨.error e, ⟨segments, p.floor, none⟩, rfl, nofun⟩
      | ok rd =>
        simp only
        cases hread : src.read ⟨segments, p.floor, none⟩ rd with
        | some item =>
          refine ⟨item.1, item.2, rfl, fun r hr => ?_⟩
          rcases List.mem_cons.1 hmem with rfl | hmem
          · obtain ⟨rd', hrd', hfails⟩ := hk
            obtain rfl : rd' = rd := Except.ok.inj (hrd'.symm.trans hj)
            obtain ⟨item', p', hread', hbroken⟩ := hfails.read hrounds (p := ⟨segments, p.floor, none⟩)
            obtain rfl : item = (item', p') := Option.some.inj (hread.symm.trans hread')
            exact hbroken r hr
          · have hsegments : item.2.segments = segments := by
              simp only [Source.read] at hread
              split at hread
              · cases hread
                rfl
              · cases hread
            exact .inr ⟨k, by rw [hsegments]; exact hmem, hk⟩
        | none =>
          rcases List.mem_cons.1 hmem with rfl | hmem
          · obtain ⟨rd', hrd', hfails⟩ := hk
            obtain rfl : rd' = rd := Except.ok.inj (hrd'.symm.trans hj)
            obtain ⟨item', p', hread', -⟩ := hfails.read hrounds (p := ⟨segments, p.floor, none⟩)
            cases hread.symm.trans hread'
          · exact ih hmem
  unfold Source.replayNext
  cases hcurrent : p.current.bind (src.read p) with
  | some item =>
    refine ⟨item.1, item.2, rfl, fun r hr => ?_⟩
    obtain ⟨rd, hrd, hread⟩ := Option.bind_eq_some_iff.1 hcurrent
    rcases h with ⟨rd', hrd', hfails⟩ | ⟨k, hk, hfails⟩
    · obtain rfl : rd' = rd := Option.some.inj (hrd'.symm.trans hrd)
      obtain ⟨item', p', hread', hbroken⟩ := hfails.read hrounds (p := p)
      obtain rfl : item = (item', p') := Option.some.inj (hread.symm.trans hread')
      exact hbroken r hr
    · have hsegments : item.2.segments = p.segments := by
        simp only [Source.read] at hread
        split at hread
        · cases hread
          rfl
        · cases hread
      exact .inr ⟨k, by rw [hsegments]; exact hk, hfails⟩
  | none =>
    rcases h with ⟨rd, hrd, hfails⟩ | ⟨k, hk, hfails⟩
    · obtain ⟨item', p', hread', -⟩ := hfails.read hrounds (p := p)
      rw [hrd, Option.bind_some, hread'] at hcurrent
      cases hcurrent
    · exact hopen k hfails p.segments hk

theorem Broken.not_yields {p : Replayer ρ} (h : src.Broken p) : ¬src.Yields p rs := by
  intro hyields
  induction hyields with
  | done hnext =>
    obtain ⟨item, p', hitem, -⟩ := h.replayNext hrounds
    cases hnext.symm.trans hitem
  | entry hnext _ ih =>
    obtain ⟨item, p', hitem, hbroken⟩ := h.replayNext hrounds
    obtain ⟨hitem', rfl⟩ := Prod.mk.inj (hitem.symm.trans hnext)
    exact ih (hbroken _ (Option.some.inj hitem'))

end

end Source

/-! ### Where a replay begins -/

/-- The segments to replay from `c` on: from the last one named by at most `c`, unless `c` is before the oldest one -/
def segmentsFrom (names : List Nat) (c : Nat) : Except Nat (List Nat) :=
  match names with
  | [] => .ok []
  | oldest :: _ =>
    if c < oldest then .error oldest
    else
      let containing := ((names.filter fun k => k ≤ c).getLast?).getD oldest
      .ok (names.filter fun k => containing ≤ k)

private theorem containing_mem (names : List Nat) {oldest c : Nat} (hmem : oldest ∈ names) (hc : oldest ≤ c) :
    ((names.filter fun k => k ≤ c).getLast?).getD oldest ∈ names ∧
      ((names.filter fun k => k ≤ c).getLast?).getD oldest ≤ c := by
  cases hlast : (names.filter fun k => k ≤ c).getLast? with
  | none =>
    have hnil := List.getLast?_eq_none_iff.1 hlast
    have := List.filter_eq_nil_iff.1 hnil oldest hmem
    simp [hc] at this
  | some k =>
    have hk := List.mem_filter.1 (List.mem_of_getLast? hlast)
    exact ⟨hk.1, by simpa using hk.2⟩

/-- Without segments there is nothing to replay; else the replay begins with a segment named by at most `c`. -/
theorem segmentsFrom_ok {names segments : List Nat} {c : Nat} (h : segmentsFrom names c = .ok segments) :
    names = [] ∧ segments = [] ∨
      ∃ oldest k, names.head? = some oldest ∧ oldest ≤ c ∧ k ∈ names ∧ k ≤ c ∧ segments = names.filter fun j => k ≤ j := by
  cases names with
  | nil => exact .inl ⟨rfl, (Except.ok.inj h).symm⟩
  | cons oldest names =>
    simp only [segmentsFrom] at h
    split at h
    · cases h
    · rename_i hc
      obtain ⟨hmem, hle⟩ := containing_mem _ (List.mem_cons_self ..) (not_lt.1 hc)
      exact .inr ⟨oldest, _, rfl, not_lt.1 hc, hmem, hle, (Except.ok.inj h).symm⟩

open Chapters in
/-- Nothing from `c` on is missed. -/
theorem segmentsFrom_covers {number : α → Nat} {n m c : Nat} {l : List (Nat × List α)} (h : Covers number n l m)
    (hc : n ≤ c) : ∃ l' : List (Nat × List α), segmentsFrom (l.map Prod.fst) c = .ok (l'.map Prod.fst) ∧ (∀ p ∈ l', p ∈ l) ∧
      (l'.flatMap Prod.snd).filter (fun r => c ≤ number r) = (l.flatMap Prod.snd).filter fun r => c ≤ number r := by
  cases l with
  | nil => exact ⟨[], rfl, nofun, rfl⟩
  | cons p l =>
    have hn : p.1 = n := h.1
    have hfirst : p.1 ∈ (p :: l).map Prod.fst := by simp
    obtain ⟨hmem, hle⟩ := containing_mem _ hfirst (hn.trans_le hc)
    generalize hk : ((((p :: l).map Prod.fst).filter fun k => k ≤ c).getLast?).getD p.1 = k at hmem hle
    refine ⟨(p :: l).filter fun q => k ≤ q.1, ?_, fun q hq => List.mem_of_mem_filter hq, h.filter_flatMap hmem hle⟩
    have hnames : ((p :: l).filter fun q => k ≤ q.1).map Prod.fst = ((p :: l).map Prod.fst).filter fun k' => k ≤ k' := by
      rw [List.filter_map]
      rfl
    rw [hnames, ← hk]
    simp only [segmentsFrom, List.map_cons, if_neg (not_lt.2 (hn.trans_le hc))]

open Chapters in
/-- The replay that begins where `segmentsFrom` says returns all entries from `c` on. -/
theorem Source.Serves.reads {src : Source ε α ρ} {Before : ρ → List α → Prop} {n m c : Nat} {l : List (Nat × List α)}
    (h : src.Serves Before) (hl : Covers src.number n l m) (hc : n ≤ c)
    (hopen : ∀ p ∈ l, ∃ rd, src.open p.1 = .ok rd ∧ Before rd p.2) :
    ∃ segments, segmentsFrom (l.map Prod.fst) c = .ok segments ∧
      src.Yields ⟨segments, c, none⟩ ((l.flatMap Prod.snd).filter fun r => c ≤ src.number r) := by
  obtain ⟨l', hfrom, hl', hentries⟩ := segmentsFrom_covers hl hc
  exact ⟨_, hfrom, hentries ▸ h.yields_segments c fun p hp => hopen p (hl' p hp)⟩

theorem segmentsFrom_too_old {names : List Nat} {oldest c : Nat} (h : names.head? = some oldest) (hc : c < oldest) :
    segmentsFrom names c = .error oldest := by
  obtain ⟨rest, rfl⟩ := List.head?_eq_some_iff.1 h
  simp only [segmentsFrom, if_pos hc]

end Replays
