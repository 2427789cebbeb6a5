import Mathlib.Data.List.Infix
import Mathlib.Data.Set.Basic

/-!
# The names of channels and their topics

`validate_channel_name`, and the topics that a broadcast derives from a channel and a shard.  A name may contain the
separator, so two channels can share a topic: they do so exactly when one shard's id ends with a separator and the id of
another (`topics_apart_iff`).  A public channel never shares a topic with the presence of any channel.
-/

namespace Mmbus.Cast

def RESERVED_PREFIX : String := "_"

def MAX_CHANNEL_NAME_LEN : Nat := 256

/-- `[A-Za-z0-9_.-]` -/
def allowedChar (c : Char) : Bool :=
  ('A' ≤ c ∧ c ≤ 'Z') ∨ ('a' ≤ c ∧ c ≤ 'z') ∨ ('0' ≤ c ∧ c ≤ '9') ∨ c = '_' ∨ c = '.' ∨ c = '-'

inductive InvalidChannelError
  | empty
  | tooLong (length : Nat)
  | reserved (channel : String)
  | traversal (channel : String)
  | charset (channel : String)
  deriving DecidableEq

def validateChannelName (channel : String) (internal : Bool) : Except InvalidChannelError String :=
  if channel = "" then .error .empty
  else if MAX_CHANNEL_NAME_LEN < channel.toList.length then .error (.tooLong channel.toList.length)
  else if internal = false ∧ RESERVED_PREFIX.toList <+: channel.toList then .error (.reserved channel)
  else if channel = "." ∨ channel = ".." ∨ "..".toList <:+: channel.toList then .error (.traversal channel)
  else if ¬channel.toList.all allowedChar then .error (.charset channel)
  else .ok channel

/-! ### Topics -/

/-- The shards of a broadcast: no shard is the single-publisher mode. -/
structure Broadcast where
  workerId : Option String
  peers : Option (List String)

/-- The ids of the peers, each validated -/
def validateIds (ids : List String) : Except InvalidChannelError (List String) :=
  ids.mapM fun id => validateChannelName id true

/-- `Broadcast.__init__` -/
def Broadcast.init (workerId : Option String) (peers : Option (List String)) : Except InvalidChannelError Broadcast :=
  match workerId.map (validateChannelName · true), peers.map validateIds with
  | some (.error e), _ => .error e
  | _, some (.error e) => .error e
  | _, some (.ok ids) => .ok ⟨workerId, some ids⟩
  | _, none => .ok ⟨workerId, none⟩

def Broadcast.peersOrDefault (b : Broadcast) : List (Option String) :=
  if b.workerId = none ∧ b.peers = none then [none] else (b.peers.getD []).map some

/-- `_topic_for` -/
def topicFor (name : String) (peer : Option String) : String :=
  match peer with
  | none => name
  | some peer => name ++ "." ++ peer

/-- `_presence_topic` -/
def presenceTopic (channel : String) : String := RESERVED_PREFIX ++ "presence." ++ channel

/-! ### What the validation accepts -/

/-- A channel name that callers may use -/
def Public (channel : String) : Prop := validateChannelName channel false = .ok channel

/-- The id of a worker or of a peer -/
def Admitted (id : String) : Prop := validateChannelName id true = .ok id

/-- The characters of a valid name -/
structure Valid (l : List Char) : Prop where
  ne_nil : l ≠ []
  length_le : l.length ≤ MAX_CHANNEL_NAME_LEN
  ne_dot : l ≠ ['.']
  no_dots : ¬['.', '.'] <:+: l
  allowed : ∀ c ∈ l, allowedChar c = true

theorem validateChannelName_eq_ok {channel : String} {internal : Bool} :
    validateChannelName channel internal = .ok channel ↔
      Valid channel.toList ∧ (internal = false → ¬['_'] <+: channel.toList) := by
  have hempty : channel = "" ↔ channel.toList = [] := by rw [← String.toList_inj]; rfl
  have hdot : channel = "." ↔ channel.toList = ['.'] := by rw [← String.toList_inj]; rfl
  have hdots : channel = ".." → ['.', '.'] <:+: channel.toList := by
    rintro rfl
    exact List.infix_rfl
  unfold validateChannelName
  constructor
  · intro h
    split_ifs at h with h₁ h₂ h₃ h₄ h₅
    push Not at h₄
    refine ⟨⟨fun h => h₁ (hempty.2 h), not_lt.1 h₂, fun h => h₄.1 (hdot.2 h), h₄.2.2, ?_⟩, fun hi hp => h₃ ⟨hi, hp⟩⟩
    simpa using h₅
  · rintro ⟨⟨h₁, h₂, h₃, h₄, h₅⟩, h₆⟩
    rw [if_neg (fun h => h₁ (hempty.1 h)), if_neg (not_lt.2 h₂), if_neg (fun h => h₆ h.1 h.2), if_neg, if_neg]
    · simpa using h₅
    · rintro (h | h | h)
      · exact h₃ (hdot.1 h)
      · exact h₄ (hdots h)
      · exact h₄ h

theorem public_iff {channel : String} : Public channel ↔ Valid channel.toList ∧ ¬['_'] <+: channel.toList := by
  rw [Public, validateChannelName_eq_ok]
  simp

theorem admitted_iff {id : String} : Admitted id ↔ Valid id.toList := by
  rw [Admitted, validateChannelName_eq_ok]
  simp

/-- A channel of one letter, with a separator and any allowed characters behind it -/
theorem valid_cons_channel {l : List Char} (hlength : l.length + 2 ≤ MAX_CHANNEL_NAME_LEN) (hdot : ¬['.'] <+: l)
    (hdots : ¬['.', '.'] <:+: l) (hallowed : ∀ c ∈ l, allowedChar c = true) : Valid ('a' :: '.' :: l) where
  ne_nil := by simp
  length_le := by
    rw [List.length_cons, List.length_cons]
    exact hlength
  ne_dot := by simp
  no_dots hi := by
    rcases List.infix_cons_iff.1 hi with hp | hi
    · simp at hp
    · rcases List.infix_cons_iff.1 hi with hp | hi
      · exact hdot (by simpa using hp)
      · exact hdots hi
  allowed c hc := by
    simp only [List.mem_cons] at hc
    rcases hc with rfl | rfl | hc
    · decide
    · decide
    · exact hallowed c hc

/-- A valid name does not go on with a second separator. -/
theorem Valid.not_dot {c x : List Char} (h : Valid (c ++ '.' :: x)) : ¬['.'] <+: x := by
  rintro ⟨y, rfl⟩
  exact h.no_dots ⟨c, y, by simp⟩

/-! ### When two topics are the same -/

/-- The shards that broadcasts publish on or subscribe to -/
def shards (bs : Set Broadcast) : Set (Option String) := {p | ∃ b ∈ bs, p = b.workerId ∨ p ∈ b.peersOrDefault}

theorem eq_of_validate {channel name : String} {internal : Bool} (h : validateChannelName channel internal = .ok name) :
    name = channel := by
  unfold validateChannelName at h
  split_ifs at h
  exact (Except.ok.inj h).symm

theorem admitted_of_validateIds {peers ids : List String} (h : validateIds peers = .ok ids) : ∀ id ∈ ids, Admitted id := by
  unfold validateIds at h
  induction peers generalizing ids with
  | nil =>
    cases h
    intro id hid
    cases hid
  | cons peer peers ih =>
    rw [List.mapM_cons] at h
    cases hpeer : validateChannelName peer true with
    | error e =>
      rw [hpeer] at h
      cases h
    | ok name =>
      cases hpeers : peers.mapM fun p => validateChannelName p true with
      | error e =>
        rw [hpeer, hpeers] at h
        cases h
      | ok names =>
        rw [hpeer, hpeers] at h
        cases h
        obtain rfl := eq_of_validate hpeer
        exact List.forall_mem_cons.2 ⟨hpeer, ih hpeers⟩

theorem init_eq_ok {workerId : Option String} {peers : Option (List String)} {b : Broadcast}
    (hb : Broadcast.init workerId peers = .ok b) :
    b.workerId = workerId ∧ (∀ id, workerId = some id → Admitted id) ∧
      ∀ ids, b.peers = some ids → ∀ id ∈ ids, Admitted id := by
  have hworker (hok : ∀ e, workerId.map (validateChannelName · true) ≠ some (.error e)) (id : String)
      (hid : workerId = some id) : Admitted id := by
    subst hid
    cases hvalid : validateChannelName id true with
    | error e => exact absurd (congrArg some hvalid) (hok e)
    | ok name =>
      obtain rfl := eq_of_validate hvalid
      exact hvalid
  unfold Broadcast.init at hb
  split at hb
  · cases hb
  · cases hb
  · rename_i hids hok
    cases hb
    obtain ⟨peers, -, hpeers⟩ := Option.map_eq_some_iff.1 hids
    refine ⟨rfl, hworker fun e he => hok e he, fun ids' hids' => ?_⟩
    cases hids'
    exact admitted_of_validateIds hpeers
  · rename_i hok
    cases hb
    exact ⟨rfl, hworker fun e he => hok e he, fun ids hids => by cases hids⟩

theorem admitted_of_init {workerId : Option String} {peers : Option (List String)} {b : Broadcast}
    (hb : Broadcast.init workerId peers = .ok b) {id : String} (hid : some id = b.workerId ∨ some id ∈ b.peersOrDefault) :
    Admitted id := by
  obtain ⟨hsame, hworker, hpeers⟩ := init_eq_ok hb
  rcases hid with hid | hid
  · exact hworker id (hsame ▸ hid.symm)
  · unfold Broadcast.peersOrDefault at hid
    split at hid
    · simp at hid
    · cases hids : b.peers with
      | none => simp [hids] at hid
      | some ids =>
        refine hpeers ids hids id ?_
        simpa [hids] using hid

/-- No id ends with a separator and another id, unless what is left begins with a separator; and next to broadcasts
without a shard every id begins with a separator or is too long to follow the name of a channel. -/
def Separated (ps : Set (Option String)) : Prop :=
  (∀ p p' x, some p ∈ ps → some p' ∈ ps → p.toList = x ++ '.' :: p'.toList → ['.'] <+: x) ∧
  (none ∈ ps → ∀ p, some p ∈ ps → ['.'] <+: p.toList ∨ MAX_CHANNEL_NAME_LEN < p.toList.length + 2)

/-- Different channels and shards have different topics, and no public channel has the topic of a channel's presence. -/
def TopicsApart (ps : Set (Option String)) : Prop :=
  ∀ c c' p p', Public c → Public c' → p ∈ ps → p' ∈ ps →
    (topicFor c p = topicFor c' p' → c = c' ∧ p = p') ∧ topicFor c p ≠ topicFor (presenceTopic c') p'

theorem topicFor_some_toList (c p : String) : (topicFor c (some p)).toList = c.toList ++ '.' :: p.toList := by
  simp [topicFor, String.toList_append]

/-- Where the two names have their last separator -/
theorem append_separator {c c' p p' : List Char} (h : c ++ '.' :: p = c' ++ '.' :: p') :
    (c = c' ∧ p = p') ∨ (∃ x, c' = c ++ '.' :: x ∧ p = x ++ '.' :: p') ∨
      ∃ x, c = c' ++ '.' :: x ∧ p' = x ++ '.' :: p := by
  rcases List.append_eq_append_iff.1 h with ⟨x, hc', hp⟩ | ⟨x, hc, hp'⟩
  · cases x with
    | nil =>
      rw [List.append_nil] at hc'
      rw [List.nil_append, List.cons.injEq] at hp
      exact .inl ⟨hc'.symm, hp.2⟩
    | cons ch x =>
      rw [List.cons_append, List.cons.injEq] at hp
      obtain ⟨rfl, hp⟩ := hp
      exact .inr (.inl ⟨x, hc', hp⟩)
  · cases x with
    | nil =>
      rw [List.append_nil] at hc
      rw [List.nil_append, List.cons.injEq] at hp'
      exact .inl ⟨hc, hp'.2.symm⟩
    | cons ch x =>
      rw [List.cons_append, List.cons.injEq] at hp'
      obtain ⟨rfl, hp'⟩ := hp'
      exact .inr (.inr ⟨x, hc, hp'⟩)

/-- A topic begins with the name of its channel. -/
theorem initial_topicFor (c : String) (p : Option String) : c.toList <+: (topicFor c p).toList := by
  cases p with
  | none => exact List.prefix_rfl
  | some p => exact ⟨_, (topicFor_some_toList c p).symm⟩

/-- A public channel does not have the topic of a presence, which begins with the reserved character. -/
theorem topicFor_ne_presence {c : String} (c' : String) (p p' : Option String) (hc : Public c) :
    topicFor c p ≠ topicFor (presenceTopic c') p' := by
  intro heq
  have hne := (public_iff.1 hc).1.ne_nil
  have hreserved : ['_'] <+: (topicFor c p).toList := by
    rw [heq]
    refine List.IsPrefix.trans ?_ (initial_topicFor _ p')
    exact ⟨"presence.".toList ++ c'.toList, by simp [presenceTopic, RESERVED_PREFIX, String.toList_append]⟩
  refine (public_iff.1 hc).2 ?_
  refine List.prefix_of_prefix_length_le hreserved (initial_topicFor c p) ?_
  exact List.length_pos_iff.2 hne

theorem topicsApart_of_separated {ps : Set (Option String)} (h : Separated ps) : TopicsApart ps := by
  intro c c' p p' hc hc' hp hp'
  refine ⟨fun heq => ?_, topicFor_ne_presence c' p p' hc⟩
  have hlist : (topicFor c p).toList = (topicFor c' p').toList := by rw [heq]
  have hvalid := (public_iff.1 hc).1
  have hvalid' := (public_iff.1 hc').1
  -- a channel whose topic without a shard is a topic with a shard
  have hnone {d d' q : String} (hd : Valid d.toList) (hd' : Valid d'.toList) (hn : none ∈ ps) (hq : some q ∈ ps)
      (hdd : d.toList = d'.toList ++ '.' :: q.toList) : False := by
    rw [hdd] at hd
    rcases h.2 hn q hq with hdot | hlong
    · exact hd.not_dot hdot
    · have hlength := hd.length_le
      have hpos := List.length_pos_iff.2 hd'.ne_nil
      rw [List.length_append, List.length_cons] at hlength
      omega
  cases p with
  | none =>
    cases p' with
    | none => exact ⟨heq, rfl⟩
    | some q =>
      rw [topicFor_some_toList] at hlist
      exact (hnone hvalid hvalid' hp hp' hlist).elim
  | some q =>
    cases p' with
    | none =>
      rw [topicFor_some_toList] at hlist
      exact (hnone hvalid' hvalid hp' hp hlist.symm).elim
    | some q' =>
      rw [topicFor_some_toList, topicFor_some_toList] at hlist
      rcases append_separator hlist with ⟨hcc, hqq⟩ | ⟨x, hcc, hqq⟩ | ⟨x, hcc, hqq⟩
      · exact ⟨String.toList_inj.1 hcc, congrArg some (String.toList_inj.1 hqq)⟩
      · rw [hcc] at hvalid'
        exact (hvalid'.not_dot (h.1 q q' x hp hp' hqq)).elim
      · rw [hcc] at hvalid
        exact (hvalid.not_dot (h.1 q' q x hp' hp hqq)).elim

theorem separated_of_topicsApart {ps : Set (Option String)} (hps : ∀ id, some id ∈ ps → Admitted id)
    (h : TopicsApart ps) : Separated ps := by
  have hpublic {l : List Char} (hl : Valid ('a' :: '.' :: l)) : Public (String.ofList ('a' :: '.' :: l)) := by
    rw [public_iff, String.toList_ofList]
    exact ⟨hl, by simp⟩
  have ha : Public "a" := rfl
  constructor
  · intro p p' x hp hp' hpx
    by_contra hdot
    have hvalid := admitted_iff.1 (hps p hp)
    have hne := (admitted_iff.1 (hps p' hp')).ne_nil
    rw [hpx] at hvalid
    have hlength := hvalid.length_le
    have hpos := List.length_pos_iff.2 hne
    rw [List.length_append, List.length_cons] at hlength
    have hx : Valid ('a' :: '.' :: x) := by
      refine valid_cons_channel (by omega) hdot ?_ fun c hc => hvalid.allowed c (List.mem_append_left _ hc)
      exact fun hi => hvalid.no_dots (hi.trans (List.prefix_append ..).isInfix)
    have hsame : topicFor "a" (some p) = topicFor (String.ofList ('a' :: '.' :: x)) (some p') := by
      rw [← String.toList_inj, topicFor_some_toList, topicFor_some_toList, String.toList_ofList, hpx]
      simp
    have hname := ((h _ _ _ _ ha (hpublic hx) hp hp').1 hsame).1
    rw [← String.toList_inj, String.toList_ofList] at hname
    simp at hname
  · intro hn p hp
    by_contra hlong
    push Not at hlong
    have hvalid := admitted_iff.1 (hps p hp)
    have hx := valid_cons_channel hlong.2 hlong.1 hvalid.no_dots hvalid.allowed
    have hsame : topicFor "a" (some p) = topicFor (String.ofList ('a' :: '.' :: p.toList)) none := by
      rw [← String.toList_inj, topicFor_some_toList, topicFor, String.toList_ofList]
      simp
    have hname := ((h _ _ _ _ ha (hpublic hx) hp hn).1 hsame).2
    cases hname

/-- The topics of the broadcasts are apart if and only if their shards are separated. -/
theorem topics_apart_iff {bs : Set Broadcast} (hbs : ∀ b ∈ bs, ∃ workerId peers, Broadcast.init workerId peers = .ok b) :
    TopicsApart (shards bs) ↔ Separated (shards bs) := by
  refine ⟨separated_of_topicsApart fun id hid => ?_, topicsApart_of_separated⟩
  obtain ⟨b, hb, hid⟩ := hid
  obtain ⟨workerId, peers, hinit⟩ := hbs b hb
  exact admitted_of_init hinit hid

/-- The channel `a.b` with the peer `c` and the channel `a` with the peer `b.c` have the same topic. -/
theorem topics_apart_fails : ∃ b, Broadcast.init (some "c") (some ["c", "b.c"]) = .ok b ∧ Public "a" ∧ Public "a.b" ∧
    some "c" ∈ b.peersOrDefault ∧ some "b.c" ∈ b.peersOrDefault ∧
      topicFor "a.b" (some "c") = topicFor "a" (some "b.c") ∧ ¬TopicsApart (shards {b}) := by
  refine ⟨⟨some "c", some ["c", "b.c"]⟩, rfl, rfl, rfl, by decide, by decide, rfl, fun h => ?_⟩
  have hc : some "c" ∈ shards {⟨some "c", some ["c", "b.c"]⟩} := ⟨_, rfl, .inl rfl⟩
  have hbc : some "b.c" ∈ shards {⟨some "c", some ["c", "b.c"]⟩} := ⟨_, rfl, .inr (by decide)⟩
  have hsame := ((h "a.b" "a" (some "c") (some "b.c") rfl rfl hc hbc).1 rfl).1
  exact absurd hsame (by decide)

/-- Workers with numbers as their ids -/
theorem topics_apart_numbered : TopicsApart (shards {⟨some "0", some ["0", "1"]⟩}) := by
  have hid (p : Option String) (hp : p ∈ shards {⟨some "0", some ["0", "1"]⟩}) : p = some "0" ∨ p = some "1" := by
    obtain ⟨b, rfl, rfl | hp⟩ := hp
    · exact .inl rfl
    · simpa [Broadcast.peersOrDefault] using hp
  refine (topics_apart_iff fun b hb => ⟨some "0", some ["0", "1"], by cases hb; rfl⟩).2 ⟨fun p p' x hp _ heq => ?_, fun hn => ?_⟩
  · have hdot : '.' ∈ p.toList := by
      rw [heq]
      simp
    rcases hid _ hp with h | h <;> cases h <;> simp at hdot
  · rcases hid _ hn with h | h <;> cases h

end Mmbus.Cast
