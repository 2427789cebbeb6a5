import Mathlib.Data.List.Basic

/-!
# Streams of frames

A stream of bytes comes in chunks.  A reader keeps what it cannot decode yet; of each chunk it decodes all frames that
are complete, and hands them on one by one to a handler, which may stop it.

A decoder is stable (`Stable`) when what it has found does not change with what comes later.  What a reader with a
stable decoder does depends on the bytes only, not on the chunks that they come in (`feedAll_eq_drain`).  It decodes as
many frames as there are complete ones (`count`) at most.
-/

namespace Framing

variable {β φ ε σ : Type*}

/-- What a decoder finds at the beginning of its bytes: a frame of `n` bytes, an error, or too little -/
inductive Decoded (φ ε : Type*)
  | incomplete
  | frame (f : φ) (n : Nat)
  | error (e : ε)

/-- A frame takes some of the bytes, and more bytes change neither a frame nor an error. -/
structure Stable (decode : List β → Decoded φ ε) : Prop where
  frame : ∀ {buf f n}, decode buf = .frame f n → 0 < n ∧ n ≤ buf.length ∧ ∀ more, decode (buf ++ more) = .frame f n
  error : ∀ {buf e}, decode buf = .error e → ∀ more, decode (buf ++ more) = .error e

/-- A reader waits with the bytes it could not decode, or has stopped. -/
inductive Status (β σ : Type*)
  | waiting (s : σ) (buf : List β)
  | stopped (s : σ)

/-- The handler's state -/
def Status.state : Status β σ → σ
  | .waiting s _ => s
  | .stopped s => s

section
variable (decode : List β → Decoded φ ε) (handle : σ → φ → Nat → σ × Bool) (fail : σ → ε → σ)

/-- Decode at most `n` frames.  `handle` says whether to go on. -/
def drainWithin : (n : Nat) → σ → List β → Status β σ
  | 0, s, buf => .waiting s buf
  | n + 1, s, buf =>
    match decode buf with
    | .incomplete => .waiting s buf
    | .error e => .stopped (fail s e)
    | .frame f len =>
      match handle s f len with
      | (s, true) => drainWithin n s (buf.drop len)
      | (s, false) => .stopped s

/-- Decode all complete frames; each takes a byte at least. -/
def drain (s : σ) (buf : List β) : Status β σ := drainWithin decode handle fail (buf.length + 1) s buf

def feed (r : Status β σ) (chunk : List β) : Status β σ :=
  match r with
  | .waiting s buf => drain decode handle fail s (buf ++ chunk)
  | .stopped s => .stopped s

def feedAll (r : Status β σ) (chunks : List (List β)) : Status β σ := chunks.foldl (feed decode handle fail) r

end

/-- The number of complete frames at the beginning of the bytes, among the first `n` -/
def countWithin (decode : List β → Decoded φ ε) : (n : Nat) → List β → Nat
  | 0, _ => 0
  | n + 1, buf =>
    match decode buf with
    | .frame _ len => countWithin decode n (buf.drop len) + 1
    | .incomplete => 0
    | .error _ => 0

/-- The number of complete frames that follow one another at the beginning of the bytes -/
def count (decode : List β → Decoded φ ε) (buf : List β) : Nat := countWithin decode (buf.length + 1) buf

variable {decode : List β → Decoded φ ε} {handle : σ → φ → Nat → σ × Bool} {fail : σ → ε → σ} {s : σ}
  {buf more : List β} {n : Nat}

/-- Enough rounds are as good as one more than there are bytes. -/
theorem Stable.drainWithin_eq (h : Stable decode) (hn : buf.length < n) :
    drainWithin decode handle fail n s buf = drain decode handle fail s buf := by
  induction n using Nat.strongRecOn generalizing s buf with
  | ind n ih =>
    cases n with
    | zero => omega
    | succ n =>
      rw [drain, drainWithin, drainWithin]
      cases hd : decode buf with
      | incomplete => rfl
      | error e => rfl
      | frame f len =>
        obtain ⟨hpos, hle, -⟩ := h.frame hd
        simp only
        split
        · have hlen : (buf.drop len).length < buf.length := by
            rw [List.length_drop]
            omega
          rw [ih n (Nat.lt_succ_self n) (by omega)]
          rcases Nat.lt_or_ge buf.length n with hlt | hge
          · rw [ih buf.length (by omega) hlen]
          · obtain rfl : buf.length = n := by omega
            rw [ih buf.length (Nat.lt_succ_self _) hlen]
        · rfl

theorem Stable.drain_eq (h : Stable decode) (s : σ) (buf : List β) : drain decode handle fail s buf =
    match decode buf with
    | .incomplete => .waiting s buf
    | .error e => .stopped (fail s e)
    | .frame f len =>
      match handle s f len with
      | (s, true) => drain decode handle fail s (buf.drop len)
      | (s, false) => .stopped s := by
  conv_lhs => rw [drain, drainWithin]
  cases hd : decode buf with
  | incomplete => rfl
  | error e => rfl
  | frame f len =>
    obtain ⟨hpos, hle, -⟩ := h.frame hd
    have hlen : (buf.drop len).length < buf.length := by
      rw [List.length_drop]
      omega
    simp only [h.drainWithin_eq hlen]

/-- The frames in some bytes, and then the frames in what is left of them and more -/
theorem Stable.drain_append (h : Stable decode) (s : σ) (buf more : List β) :
    drain decode handle fail s (buf ++ more) = feed decode handle fail (drain decode handle fail s buf) more := by
  induction hlen : buf.length using Nat.strongRecOn generalizing s buf with
  | ind k ih =>
    rw [h.drain_eq s buf]
    cases hd : decode buf with
    | incomplete => rfl
    | error e =>
      rw [h.drain_eq s (buf ++ more), h.error hd more]
      rfl
    | frame f len =>
      obtain ⟨hpos, hle, hmore⟩ := h.frame hd
      rw [h.drain_eq s (buf ++ more), hmore more]
      simp only
      cases handle s f len with
      | mk s' go =>
        cases go with
        | false => rfl
        | true =>
          have hdrop : (buf ++ more).drop len = buf.drop len ++ more := List.drop_append_of_le_length hle
          have hlt : (buf.drop len).length < k := by
            rw [List.length_drop]
            omega
          simp only [hdrop]
          exact ih _ hlt s' (buf.drop len) rfl

/-- The bytes that a reader waits with have no complete frame. -/
theorem Stable.drain_incomplete (h : Stable decode) {s' : σ} {buf' : List β}
    (hd : drain decode handle fail s buf = .waiting s' buf') : decode buf' = .incomplete := by
  induction hlen : buf.length using Nat.strongRecOn generalizing s buf with
  | ind k ih =>
    rw [h.drain_eq] at hd
    cases hdec : decode buf with
    | incomplete =>
      rw [hdec] at hd
      obtain ⟨-, rfl⟩ : s = s' ∧ buf = buf' := by simpa using hd
      exact hdec
    | error e =>
      rw [hdec] at hd
      simp at hd
    | frame f len =>
      rw [hdec] at hd
      obtain ⟨hpos, hle, -⟩ := h.frame hdec
      have hlt : (buf.drop len).length < k := by
        rw [List.length_drop]
        omega
      cases hh : handle s f len with
      | mk s₁ go =>
        cases go with
        | false => simp [hh] at hd
        | true =>
          simp only [hh] at hd
          exact ih _ hlt hd rfl

theorem Stable.drain_waiting (h : Stable decode) {s' : σ} {buf' : List β}
    (hd : drain decode handle fail s buf = .waiting s' buf') :
    drain decode handle fail s' buf' = .waiting s' buf' := by
  rw [h.drain_eq, h.drain_incomplete hd]

/-- What has been decoded does not depend on the chunks. -/
theorem Stable.feedAll_drain (h : Stable decode) (s : σ) (buf : List β) (chunks : List (List β)) :
    feedAll decode handle fail (drain decode handle fail s buf) chunks =
      drain decode handle fail s (buf ++ chunks.flatten) := by
  induction chunks generalizing buf with
  | nil => rw [List.flatten_nil, List.append_nil]; rfl
  | cons chunk chunks ih =>
    rw [feedAll, List.foldl_cons, ← h.drain_append, List.flatten_cons, ← List.append_assoc]
    exact ih (buf ++ chunk)

/-- A reader does with the chunks what it does with all bytes at once. -/
theorem Stable.feedAll_eq_drain (h : Stable decode) (hnil : decode [] = .incomplete) (s : σ) (chunks : List (List β)) :
    feedAll decode handle fail (.waiting s []) chunks = drain decode handle fail s chunks.flatten := by
  have hempty : drain decode handle fail s [] = .waiting s [] := by rw [h.drain_eq, hnil]
  rw [← hempty, h.feedAll_drain, List.nil_append]

/-! ### The number of rounds -/

theorem Stable.countWithin_eq (h : Stable decode) (hn : buf.length < n) :
    countWithin decode n buf = count decode buf := by
  induction n using Nat.strongRecOn generalizing buf with
  | ind n ih =>
    cases n with
    | zero => omega
    | succ n =>
      rw [count, countWithin, countWithin]
      cases hd : decode buf with
      | incomplete => rfl
      | error e => rfl
      | frame f len =>
        obtain ⟨hpos, hle, -⟩ := h.frame hd
        have hlen : (buf.drop len).length < buf.length := by
          rw [List.length_drop]
          omega
        simp only
        rw [ih n (Nat.lt_succ_self n) (by omega)]
        rcases Nat.lt_or_ge buf.length n with hlt | hge
        · rw [ih buf.length (by omega) hlen]
        · obtain rfl : buf.length = n := by omega
          rw [ih buf.length (Nat.lt_succ_self _) hlen]

theorem Stable.count_frame (h : Stable decode) {f : φ} {len : Nat} (hd : decode buf = .frame f len) :
    count decode buf = count decode (buf.drop len) + 1 := by
  obtain ⟨hpos, hle, -⟩ := h.frame hd
  have hlen : (buf.drop len).length < buf.length := by
    rw [List.length_drop]
    omega
  rw [count, countWithin, hd]
  simp only [h.countWithin_eq hlen]

/-- As many rounds as there are complete frames, and one that finds no more of them, are enough. -/
theorem Stable.drainWithin_of_count (h : Stable decode) (hn : count decode buf < n) :
    drainWithin decode handle fail n s buf = drain decode handle fail s buf := by
  induction n generalizing s buf with
  | zero => omega
  | succ n ih =>
    rw [drainWithin, h.drain_eq]
    cases hd : decode buf with
    | incomplete => rfl
    | error e => rfl
    | frame f len =>
      have hcount := h.count_frame hd
      simp only
      split
      · rw [ih (by omega)]
      · rfl

/-- What a frame raises by one at most is raised by the number of complete frames at most. -/
theorem Stable.drainWithin_measure (h : Stable decode) (μ : σ → Nat) (hhandle : ∀ s f len, μ (handle s f len).1 ≤ μ s + 1)
    (hfail : ∀ s e, μ (fail s e) = μ s) :
    μ (drainWithin decode handle fail n s buf).state ≤ μ s + count decode buf := by
  induction n generalizing s buf with
  | zero => exact Nat.le_add_right ..
  | succ n ih =>
    rw [drainWithin]
    cases hd : decode buf with
    | incomplete => exact Nat.le_add_right ..
    | error e =>
      have heq : μ (fail s e) = μ s := hfail s e
      simp only [Status.state]
      omega
    | frame f len =>
      have hcount := h.count_frame hd
      have hone := hhandle s f len
      simp only
      split
      · rename_i s₁ heq
        have hrest := @ih s₁ (buf.drop len)
        rw [heq] at hone
        simp only at hone
        omega
      · rename_i s₁ heq
        rw [heq] at hone
        simp only [Status.state]
        simp only at hone
        omega

/-! ### Encoded frames -/

/-- The decoder finds the frames that fit where they have been encoded, and nothing in a part of one; some others it
refuses. -/
structure Encodes (decode : List β → Decoded φ ε) (encode : φ → List β) (fits refused : φ → Prop) : Prop where
  frame : ∀ {f}, fits f → ∀ rest, decode (encode f ++ rest) = .frame f (encode f).length
  part : ∀ {f buf}, fits f → buf <+: encode f → buf ≠ encode f → decode buf = .incomplete
  error : ∀ {f}, refused f → ∃ e, decode (encode f) = .error e

/-- The bytes of the frames, one after the other -/
def encodeAll (encode : φ → List β) (frames : List φ) : List β := (frames.map encode).flatten

/-- Hand the frames to the handler until it stops. -/
def handleAll (handle : σ → φ → Nat → σ × Bool) (encode : φ → List β) : σ → List φ → σ × Bool
  | s, [] => (s, true)
  | s, f :: fs =>
    match handle s f (encode f).length with
    | (s, true) => handleAll handle encode s fs
    | (s, false) => (s, false)

/-- The first `n` frames have arrived with the bytes, and no more: all of them fit, and the next one does not, or has
bytes that are missing. -/
structure Arrived (encode : φ → List β) (fits : φ → Prop) (frames : List φ) (bytes : List β) (n : Nat) : Prop where
  le : n ≤ frames.length
  fit : ∀ f ∈ frames.take n, fits f
  whole : encodeAll encode (frames.take n) <+: bytes
  next : ∀ f, frames[n]? = some f → ¬fits f ∨ ¬encodeAll encode (frames.take (n + 1)) <+: bytes

variable {encode : φ → List β} {fits refused : φ → Prop} {frames : List φ} {bytes : List β} {f : φ}

@[simp] theorem encodeAll_nil : encodeAll encode [] = [] := rfl

@[simp] theorem encodeAll_cons (f : φ) (fs : List φ) : encodeAll encode (f :: fs) = encode f ++ encodeAll encode fs := by
  rw [encodeAll, List.map_cons, List.flatten_cons, encodeAll]

/-- Of a frame that it refuses the decoder never makes one. -/
theorem Encodes.not_frame (h : Encodes decode encode fits refused) (hstable : Stable decode) (hrefused : refused f)
    {rest : List β} (hbuf : buf <+: encode f ++ rest) (g : φ) (len : Nat) : decode buf ≠ .frame g len := by
  intro hframe
  obtain ⟨more, hmore⟩ := hbuf
  obtain ⟨e, herror⟩ := h.error hrefused
  have hwhole : decode (encode f ++ rest) = .frame g len := by
    rw [← hmore]
    exact (hstable.frame hframe).2.2 more
  rw [hstable.error herror rest] at hwhole
  cases hwhole

/-- A reader that finds no frame hands none on. -/
theorem Stable.drain_of_not_frame (h : Stable decode) (hno : ∀ f len, decode buf ≠ .frame f len) (s : σ) :
    (drain decode handle fail s buf).state = s ∨ ∃ e, (drain decode handle fail s buf).state = fail s e := by
  rw [h.drain_eq]
  cases hd : decode buf with
  | incomplete => exact .inl rfl
  | error e => exact .inr ⟨e, rfl⟩
  | frame f len => exact absurd hd (hno f len)

theorem Arrived.none (hno : ∀ f, frames[0]? = some f → ¬fits f ∨ ¬encode f <+: bytes) :
    Arrived encode fits frames bytes 0 where
  le := Nat.zero_le _
  fit := by
    intro f hf
    rw [List.take_zero] at hf
    cases hf
  whole := List.nil_prefix
  next := by
    intro f hf
    have htake : frames.take (0 + 1) = [f] := by
      rw [List.take_add_one, hf, List.take_zero]
      rfl
    rw [htake, encodeAll_cons, encodeAll_nil, List.append_nil]
    exact hno f hf

theorem Arrived.cons (h : Arrived encode fits frames bytes n) (hf : fits f) :
    Arrived encode fits (f :: frames) (encode f ++ bytes) (n + 1) where
  le := Nat.succ_le_succ h.le
  fit := by
    intro g hg
    rcases List.mem_cons.1 hg with rfl | hg
    · exact hf
    · exact h.fit g hg
  whole := by
    rw [List.take_succ_cons, encodeAll_cons]
    exact (List.prefix_append_right_inj _).2 h.whole
  next := by
    intro g hg
    rw [List.take_succ_cons, encodeAll_cons, List.prefix_append_right_inj]
    exact h.next g hg

/-- A reader that gets the beginning of encoded frames hands on those that have arrived. -/
theorem Encodes.drain_encodeAll (h : Encodes decode encode fits refused) (hstable : Stable decode)
    (hframes : ∀ f ∈ frames, ¬fits f → refused f) {rest : List β}
    (hrest : ∀ buf, buf <+: rest → ∀ f len, decode buf ≠ .frame f len) (hbytes : bytes <+: encodeAll encode frames ++ rest)
    (s : σ) : ∃ n, Arrived encode fits frames bytes n ∧
      ((drain decode handle fail s bytes).state = (handleAll handle encode s (frames.take n)).1 ∨
        ∃ e, (drain decode handle fail s bytes).state = fail (handleAll handle encode s (frames.take n)).1 e) := by
  induction frames generalizing s bytes with
  | nil =>
    refine ⟨0, .none (fun f hf => by cases hf), ?_⟩
    exact hstable.drain_of_not_frame (hrest bytes hbytes) s
  | cons f fs ih =>
    rw [encodeAll_cons, List.append_assoc] at hbytes
    by_cases hfits : fits f
    · by_cases hwhole : encode f <+: bytes
      · obtain ⟨more, rfl⟩ := hwhole
        rw [List.prefix_append_right_inj] at hbytes
        rw [hstable.drain_eq, h.frame hfits more]
        simp only [List.drop_left]
        cases hhandle : handle s f (encode f).length with
        | mk s' go =>
          obtain ⟨n, harrived, hstate⟩ := ih (fun g hg => hframes g (List.mem_cons_of_mem _ hg)) hbytes s'
          refine ⟨n + 1, harrived.cons hfits, ?_⟩
          rw [List.take_succ_cons, handleAll, hhandle]
          cases go with
          | true => exact hstate
          | false => exact .inl rfl
      · -- a part of the frame
        refine ⟨0, .none fun g hg => ?_, .inl ?_⟩
        · cases hg
          exact .inr hwhole
        · have hlen : bytes.length ≤ (encode f).length := by
            by_contra hlt
            exact hwhole (List.prefix_of_prefix_length_le (List.prefix_append ..) hbytes (by omega))
          have hpart : bytes <+: encode f := List.prefix_of_prefix_length_le hbytes (List.prefix_append ..) hlen
          have hne : bytes ≠ encode f := by
            rintro rfl
            exact hwhole List.prefix_rfl
          rw [hstable.drain_eq, h.part hfits hpart hne]
          rfl
    · refine ⟨0, .none fun g hg => ?_, ?_⟩
      · cases hg
        exact .inl hfits
      · have hrefused : refused f := hframes f (List.mem_cons_self ..) hfits
        exact hstable.drain_of_not_frame (h.not_frame hstable hrefused hbytes) s

end Framing
