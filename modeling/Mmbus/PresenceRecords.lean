import Mmbus.Presence

/-!
# The records of the presence topic

Any process can put any bytes on the topic of a channel's presence.  The consume loop parses each message with
`json.loads` and applies the records among them; `_publish` writes the records of the member itself with `json.dumps`,
whose escapes are the ones of `ensure_ascii`.

The parser lets the `RecursionError` of `json.loads` through, and that is the only thing that ends the loop
(`loop_survives_iff`).  The records that the member itself writes are always short enough to be read again.
-/

namespace Mmbus.Cast

/-- What `json.loads` does with some bytes -/
inductive Loaded
  | value (v : Json)
  | valueError
  | unicodeDecodeError
  | recursionError

/-- What `_parse_presence_message` raises -/
inductive Raised
  | recursionError

/-- `_parse_presence_message`.  `RecursionError` is neither a `ValueError` nor a `UnicodeDecodeError`. -/
def parsePresenceBytes (loads : List UInt8 → Loaded) (data : List UInt8) : Except Raised (Option (Str × Kind)) :=
  if MAX_PRESENCE_PAYLOAD < data.length then .ok none
  else
    match loads data with
    | .valueError | .unicodeDecodeError => .ok none
    | .recursionError => .error .recursionError
    | .value v => .ok (parsePresenceMessage data.length (some v))

/-- A message of the topic, or a scan of the eviction loop -/
inductive Event (T : Type)
  | message (data : List UInt8) (now : T)
  | scan (now : T)

/-- A handle, and whether its consume loop still runs -/
structure Handle (T : Type) where
  presence : Presence T
  consuming : Bool

section
variable {T : Type} [Sub T] [LT T] [DecidableLT T]

/-- One round of `_consume_loop` or of `_eviction_loop`.  What the parser raises ends the consume loop. -/
def Handle.step (loads : List UInt8 → Loaded) (h : Handle T) : Event T → Handle T
  | .message data now =>
    if h.consuming then
      match parsePresenceBytes loads data with
      | .error _ => { h with consuming := false }
      | .ok none => h
      | .ok (some (member, kind)) => { h with presence := h.presence.apply member kind now }
    else h
  | .scan now => { h with presence := h.presence.evictExpired now }

def Handle.run (loads : List UInt8 → Loaded) (h : Handle T) (events : List (Event T)) : Handle T :=
  events.foldl (Handle.step loads) h

end

/-! ### Records -/

/-- The bytes are a JSON object with a member and a kind. -/
def IsRecord (loads : List UInt8 → Loaded) (data : List UInt8) (member : Str) (kind : Kind) : Prop :=
  data.length ≤ MAX_PRESENCE_PAYLOAD ∧ ∃ get, loads data = .value (.object get) ∧
    get (str "member") = some (.string member) ∧ member ≠ [] ∧ member.length ≤ MAX_MEMBER_ID_LEN ∧
    get (str "kind") = some (.string kind.name)

variable {T : Type} {loads : List UInt8 → Loaded} {data : List UInt8} {member : Str} {kind : Kind} {loaded : Option Json}

theorem Kind.ofStr_eq_some_iff {s : Str} : Kind.ofStr s = some kind ↔ s = kind.name := by
  constructor
  · intro h
    have := List.find?_some h
    exact (of_decide_eq_true this).symm
  · rintro rfl
    cases kind <;> decide +kernel

theorem parsePresenceMessage_eq_some_iff {length : Nat} :
    parsePresenceMessage length loaded = some (member, kind) ↔ length ≤ MAX_PRESENCE_PAYLOAD ∧
      ∃ get, loaded = some (.object get) ∧ get (str "member") = some (.string member) ∧ member ≠ [] ∧
        member.length ≤ MAX_MEMBER_ID_LEN ∧ get (str "kind") = some (.string kind.name) := by
  unfold parsePresenceMessage
  constructor
  · intro h
    split at h
    · cases h
    · rename_i hlen
      split at h
      · rename_i get
        split at h
        · rename_i member' kind' hmember hkind
          split at h
          · cases h
          · rename_i hvalid
            rw [not_or] at hvalid
            simp only [Option.map_eq_some_iff, Prod.mk.injEq] at h
            obtain ⟨kind'', hofStr, rfl, rfl⟩ := h
            rw [Kind.ofStr_eq_some_iff] at hofStr
            subst hofStr
            exact ⟨Nat.le_of_not_lt hlen, get, rfl, hmember, hvalid.1, Nat.le_of_not_lt hvalid.2, hkind⟩
        · cases h
      · cases h
  · rintro ⟨hlen, get, rfl, hmember, hne, hshort, hkind⟩
    have hvalid : ¬(member = [] ∨ MAX_MEMBER_ID_LEN < member.length) := not_or.2 ⟨hne, Nat.not_lt.2 hshort⟩
    rw [if_neg (Nat.not_lt.2 hlen)]
    simp only [hmember, hkind, if_neg hvalid, Kind.ofStr_eq_some_iff.2 rfl, Option.map_some]

/-- The parser accepts the records, each as what it is. -/
theorem parsePresenceBytes_eq_some_iff :
    parsePresenceBytes loads data = .ok (some (member, kind)) ↔ IsRecord loads data member kind := by
  unfold parsePresenceBytes IsRecord
  by_cases hlen : MAX_PRESENCE_PAYLOAD < data.length
  · rw [if_pos hlen]
    constructor
    · intro h
      cases h
    · intro h
      omega
  · rw [if_neg hlen]
    cases hloads : loads data with
    | value v =>
      simp only [Except.ok.injEq, parsePresenceMessage_eq_some_iff, Option.some.injEq, Loaded.value.injEq]
    | valueError => simp
    | unicodeDecodeError => simp
    | recursionError => simp

theorem parsePresenceBytes_eq_error_iff : (∃ e, parsePresenceBytes loads data = .error e) ↔
    data.length ≤ MAX_PRESENCE_PAYLOAD ∧ loads data = .recursionError := by
  unfold parsePresenceBytes
  by_cases hlen : MAX_PRESENCE_PAYLOAD < data.length
  · rw [if_pos hlen]
    simp
    omega
  · rw [if_neg hlen]
    cases hloads : loads data with
    | recursionError => exact ⟨fun _ => ⟨Nat.le_of_not_lt hlen, rfl⟩, fun _ => ⟨.recursionError, rfl⟩⟩
    | value v => simp
    | valueError => simp
    | unicodeDecodeError => simp

/-! ### The consume loop -/

section
variable [Sub T] [LT T] [DecidableLT T]

/-- `s'` is `s` after the records among the messages, in their order, and after the scans. -/
inductive Applied (loads : List UInt8 → Loaded) : Presence T → List (Event T) → Presence T → Prop
  | nil {s} : Applied loads s [] s
  | record {s s' data member kind now events} (hrecord : IsRecord loads data member kind)
      (hrest : Applied loads (s.apply member kind now) events s') : Applied loads s (.message data now :: events) s'
  | junk {s s' data now events} (hjunk : ∀ member kind, ¬IsRecord loads data member kind)
      (hrest : Applied loads s events s') : Applied loads s (.message data now :: events) s'
  | scan {s s' now events} (hrest : Applied loads (s.evictExpired now) events s') :
      Applied loads s (.scan now :: events) s'

/-- A message on which `json.loads` runs out of the stack -/
def Event.TooDeep (loads : List UInt8 → Loaded) : Event T → Prop
  | .message data _ => data.length ≤ MAX_PRESENCE_PAYLOAD ∧ loads data = .recursionError
  | .scan _ => False

variable {s : Presence T} {h : Handle T} {e : Event T} {events : List (Event T)}

theorem Handle.run_cons : h.run loads (e :: events) = (h.step loads e).run loads events := rfl

theorem Handle.step_ended (hended : h.consuming = false) : (h.step loads e).consuming = false := by
  cases e with
  | message data now => simp [Handle.step, hended]
  | scan now => exact hended

theorem Handle.run_ended (hended : h.consuming = false) : (h.run loads events).consuming = false := by
  induction events generalizing h with
  | nil => exact hended
  | cons e events ih => exact ih (Handle.step_ended hended)

/-- Such a message ends the loop. -/
theorem Handle.step_tooDeep (hdeep : e.TooDeep loads) : (h.step loads e).consuming = false := by
  cases e with
  | scan now => exact hdeep.elim
  | message data now =>
    obtain ⟨error, herror⟩ := parsePresenceBytes_eq_error_iff.2 hdeep
    by_cases hc : h.consuming = true
    · simp only [Handle.step, hc, if_true, herror]
    · simp only [Handle.step, hc, Bool.false_eq_true, if_false]

theorem Handle.run_tooDeep (he : e ∈ events) (hdeep : e.TooDeep loads) : (h.run loads events).consuming = false := by
  induction events generalizing h with
  | nil => cases he
  | cons e' events ih =>
    rw [Handle.run_cons]
    rcases List.mem_cons.1 he with rfl | he
    · exact Handle.run_ended (Handle.step_tooDeep hdeep)
    · exact ih he

/-- Any other message leaves the loop running, and its record is applied if it is one. -/
theorem Handle.run_applied (hno : ∀ e ∈ events, ¬e.TooDeep loads) :
    ∃ s', Handle.run loads ⟨s, true⟩ events = ⟨s', true⟩ ∧ Applied loads s events s' := by
  induction events generalizing s with
  | nil => exact ⟨s, rfl, .nil⟩
  | cons e events ih =>
    have hrest := fun e' he' => hno e' (List.mem_cons_of_mem _ he')
    cases e with
    | scan now =>
      obtain ⟨s', hrun, happlied⟩ := ih hrest (s := s.evictExpired now)
      exact ⟨s', hrun, .scan happlied⟩
    | message data now =>
      have hdeep : ¬∃ error, parsePresenceBytes loads data = .error error := fun herror =>
        hno _ (List.mem_cons_self ..) (parsePresenceBytes_eq_error_iff.1 herror)
      cases hparse : parsePresenceBytes loads data with
      | error error => exact absurd ⟨error, hparse⟩ hdeep
      | ok parsed =>
        cases parsed with
        | none =>
          obtain ⟨s', hrun, happlied⟩ := ih hrest (s := s)
          have hjunk : ∀ member kind, ¬IsRecord loads data member kind := by
            intro member kind hrecord
            rw [parsePresenceBytes_eq_some_iff.2 hrecord] at hparse
            cases hparse
          refine ⟨s', ?_, .junk hjunk happlied⟩
          rw [Handle.run_cons, ← hrun]
          simp only [Handle.step, if_true, hparse]
        | some record =>
          obtain ⟨member, kind⟩ := record
          obtain ⟨s', hrun, happlied⟩ := ih hrest (s := s.apply member kind now)
          refine ⟨s', ?_, .record (parsePresenceBytes_eq_some_iff.1 hparse) happlied⟩
          rw [Handle.run_cons, ← hrun]
          simp only [Handle.step, if_true, hparse]

end

/-! ### The writer -/

/-- `'{0:04x}'`, one digit of it -/
def hexDigit (n : Nat) : UInt8 := UInt8.ofNat (if n < 10 then 0x30 + n else 0x61 + (n - 10))

/-- `'\\u{0:04x}'.format(n)` -/
def escapeUnit (n : Nat) : List UInt8 :=
  [0x5C, 0x75, hexDigit (n / 4096 % 16), hexDigit (n / 256 % 16), hexDigit (n / 16 % 16), hexDigit (n % 16)]

/-- What `py_encode_basestring_ascii` writes for a code point -/
def escapeChar (c : Nat) : List UInt8 :=
  if c = 0x5C then [0x5C, 0x5C]
  else if c = 0x22 then [0x5C, 0x22]
  else if c = 0x08 then [0x5C, 0x62]
  else if c = 0x0C then [0x5C, 0x66]
  else if c = 0x0A then [0x5C, 0x6E]
  else if c = 0x0D then [0x5C, 0x72]
  else if c = 0x09 then [0x5C, 0x74]
  else if 0x20 ≤ c ∧ c ≤ 0x7E then [UInt8.ofNat c]
  else if c < 0x10000 then escapeUnit c
  else -- a surrogate pair
    let n := c - 0x10000
    escapeUnit (0xD800 + n / 0x400 % 0x400) ++ escapeUnit (0xDC00 + n % 0x400)

/-- `py_encode_basestring_ascii` -/
def encodeBasestringAscii (s : Str) : List UInt8 := [0x22] ++ s.flatMap (fun c => escapeChar c.val) ++ [0x22]

/-- `float.__repr__` of a finite number: a sign, seventeen digits with a point, and an exponent of three digits at most -/
structure FloatRepr where
  text : List UInt8
  length_le : text.length ≤ 24

/-- The values in a presence record -/
inductive Value
  | string (s : Str)
  | float (ts : FloatRepr)

def Value.text : Value → List UInt8
  | .string s => encodeBasestringAscii s
  | .float ts => ts.text

/-- `json.dumps` of a dictionary, with the separators `","` and `":"` -/
def dumps (items : List (Str × Value)) : List UInt8 :=
  [0x7B] ++ [0x2C].intercalate (items.map fun e => encodeBasestringAscii e.1 ++ [0x3A] ++ e.2.text) ++ [0x7D]

def Value.json : Value → Json
  | .string s => .string s
  | .float _ => .other

/-- The object that a dictionary is -/
def asObject (items : List (Str × Value)) : Json :=
  .object fun key => (items.find? fun e => e.1 = key).map fun e => e.2.json

/-- The check of `member_id` in `Presence.__init__` -/
def checkMemberId (memberId : Str) : Except String Unit :=
  if memberId = [] then .error "member_id must be a non-empty str"
  else if MAX_MEMBER_ID_LEN < memberId.length then
    .error ("member_id too long (" ++ toString memberId.length ++ " > " ++ toString MAX_MEMBER_ID_LEN ++ ")")
  else .ok ()

def recordItems (memberId : Str) (kind : Kind) (ts : FloatRepr) : List (Str × Value) :=
  [(str "member", .string memberId), (str "kind", .string kind.name), (str "ts", .float ts)]

/-- The payload of `_publish` -/
def publishPayload (memberId : Str) (kind : Kind) (ts : FloatRepr) : List UInt8 := dumps (recordItems memberId kind ts)

variable {memberId : Str} {ts : FloatRepr}

/-- A surrogate pair is the longest escape. -/
theorem length_escapeChar_le (c : Nat) : (escapeChar c).length ≤ 12 := by
  unfold escapeChar
  split_ifs <;> simp [escapeUnit]

theorem length_encodeBasestringAscii_le (s : Str) : (encodeBasestringAscii s).length ≤ 12 * s.length + 2 := by
  have hchars : (s.flatMap fun c => escapeChar c.val).length ≤ 12 * s.length := by
    induction s with
    | nil => exact Nat.zero_le _
    | cons c s ih =>
      have hc := length_escapeChar_le c.val
      rw [List.flatMap_cons, List.length_append, List.length_cons]
      omega
  simp only [encodeBasestringAscii, List.length_append, List.length_singleton]
  omega

theorem checkMemberId_ok (h : checkMemberId memberId = .ok ()) :
    memberId ≠ [] ∧ memberId.length ≤ MAX_MEMBER_ID_LEN := by
  unfold checkMemberId at h
  split at h
  · cases h
  · split at h
    · cases h
    · exact ⟨‹_›, Nat.le_of_not_lt ‹_›⟩

theorem length_publishPayload_le (h : memberId.length ≤ MAX_MEMBER_ID_LEN) (kind : Kind) (ts : FloatRepr) :
    (publishPayload memberId kind ts).length ≤ MAX_PRESENCE_PAYLOAD := by
  have hmember : (encodeBasestringAscii (str "member")).length = 8 := by decide +kernel
  have hkind : (encodeBasestringAscii (str "kind")).length = 6 := by decide +kernel
  have hts : (encodeBasestringAscii (str "ts")).length = 4 := by decide +kernel
  have hname : (encodeBasestringAscii kind.name).length ≤ 11 := by cases kind <;> decide +kernel
  have hid := length_encodeBasestringAscii_le memberId
  have htext := ts.length_le
  have hmax : MAX_MEMBER_ID_LEN = 256 := rfl
  have hpayload : MAX_PRESENCE_PAYLOAD = 4096 := rfl
  simp only [publishPayload, dumps, recordItems, Value.text, List.map_cons, List.map_nil, List.intercalate,
    List.intersperse, List.flatten_cons, List.flatten_nil, List.length_append, List.length_cons, List.length_nil,
    hmember, hkind, hts]
  omega

/-- What `_publish` writes is a record of the member. -/
theorem isRecord_publishPayload (hid : checkMemberId memberId = .ok ())
    (hloads : loads (publishPayload memberId kind ts) = .value (asObject (recordItems memberId kind ts))) :
    IsRecord loads (publishPayload memberId kind ts) memberId kind := by
  obtain ⟨hne, hshort⟩ := checkMemberId_ok hid
  have hkeys : str "member" ≠ str "kind" := by decide +kernel
  refine ⟨length_publishPayload_le hshort kind ts, _, hloads, ?_, hne, hshort, ?_⟩
  · simp [recordItems, Value.json]
  · simp [recordItems, hkeys, Value.json]

/-- If `json.loads` reads the member's own records, then whatever comes on the topic, the loop runs on, exactly the records
have been applied, and what the member writes is a record of it, if and only if `json.loads` has run out of the stack on
none of the messages that are short enough. -/
theorem loop_survives_iff [Sub T] [LT T] [DecidableLT T] (s : Presence T) (events : List (Event T))
    (hid : checkMemberId s.memberId = .ok ())
    (hloads : ∀ kind ts,
      loads (publishPayload s.memberId kind ts) = .value (asObject (recordItems s.memberId kind ts))) :
    ((∃ s', Handle.run loads ⟨s, true⟩ events = ⟨s', true⟩ ∧ Applied loads s events s') ∧
      ∀ kind ts, IsRecord loads (publishPayload s.memberId kind ts) s.memberId kind ∧
        parsePresenceBytes loads (publishPayload s.memberId kind ts) = .ok (some (s.memberId, kind))) ↔
      ∀ e ∈ events, ¬e.TooDeep loads := by
  constructor
  · rintro ⟨⟨s', hrun, -⟩, -⟩ e he hdeep
    have hended : (Handle.run loads ⟨s, true⟩ events).consuming = false := Handle.run_tooDeep he hdeep
    rw [hrun] at hended
    cases hended
  · intro hno
    refine ⟨Handle.run_applied hno, fun kind ts => ?_⟩
    have hrecord := isRecord_publishPayload hid (hloads kind ts)
    exact ⟨hrecord, parsePresenceBytes_eq_some_iff.2 hrecord⟩

/-! ### A message of brackets -/

/-- The beginning of a record of the member `me` -/
def recordStart (kind : Kind) : List UInt8 :=
  [0x7B] ++ encodeBasestringAscii (str "member") ++ [0x3A] ++ encodeBasestringAscii (str "me") ++ [0x2C] ++
    encodeBasestringAscii (str "kind") ++ [0x3A] ++ encodeBasestringAscii kind.name ++ [0x2C] ++
    encodeBasestringAscii (str "ts") ++ [0x3A]

/-- `json.loads` on the records of the member `me`, on brackets that are nested too deep, on bytes that are no UTF-8 from
the first on, and on what is no JSON -/
def sampleLoads (data : List UInt8) : Loaded :=
  match [Kind.join, .leave, .heartbeat].find? fun kind => (recordStart kind).isPrefixOf data with
  | some kind => .value (asObject (recordItems (str "me") kind ⟨[], Nat.zero_le _⟩))
  | none =>
    match data.head? with
    | some 0x5B => .recursionError
    | some 0x80 => .unicodeDecodeError
    | _ => .valueError

/-- The object does not tell the time. -/
theorem asObject_recordItems (memberId : Str) (kind : Kind) (ts ts' : FloatRepr) :
    asObject (recordItems memberId kind ts) = asObject (recordItems memberId kind ts') := by
  unfold asObject recordItems
  congr 1
  funext key
  simp only [List.find?_cons, List.find?_nil]
  cases decide (str "member" = key) with
  | true => rfl
  | false =>
    cases decide (str "kind" = key) with
    | true => rfl
    | false => cases decide (str "ts" = key) <;> rfl

theorem publishPayload_me (kind : Kind) (ts : FloatRepr) :
    publishPayload (str "me") kind ts = recordStart kind ++ (ts.text ++ [0x7D]) := by
  simp only [publishPayload, dumps, recordItems, recordStart, Value.text, List.map_cons, List.map_nil, List.intercalate,
    List.intersperse, List.flatten_cons, List.flatten_nil, List.append_assoc, List.append_nil]

theorem sampleLoads_publishPayload (kind : Kind) (ts : FloatRepr) :
    sampleLoads (publishPayload (str "me") kind ts) = .value (asObject (recordItems (str "me") kind ts)) := by
  rw [asObject_recordItems (str "me") kind ts ⟨[], Nat.zero_le _⟩, publishPayload_me]
  have hself (kind : Kind) : (recordStart kind).isPrefixOf (recordStart kind ++ (ts.text ++ [0x7D])) = true :=
    List.isPrefixOf_iff_prefix.2 (List.prefix_append ..)
  -- a shorter record is no beginning of a longer one
  have hother (kind kind' : Kind) (hlen : (recordStart kind').length ≤ (recordStart kind).length)
      (hne : ¬recordStart kind' <+: recordStart kind) :
      (recordStart kind').isPrefixOf (recordStart kind ++ (ts.text ++ [0x7D])) = false := by
    rw [← Bool.not_eq_true, List.isPrefixOf_iff_prefix]
    exact fun hprefix => hne (List.prefix_of_prefix_length_le hprefix (List.prefix_append ..) hlen)
  cases kind with
  | join => simp only [sampleLoads, List.find?_cons, hself]
  | leave =>
    have hjoin := hother .leave .join (by decide +kernel) (by decide +kernel)
    simp only [sampleLoads, List.find?_cons, hjoin, hself]
  | heartbeat =>
    have hjoin := hother .heartbeat .join (by decide +kernel) (by decide +kernel)
    have hleave := hother .heartbeat .leave (by decide +kernel) (by decide +kernel)
    simp only [sampleLoads, List.find?_cons, hjoin, hleave, hself]

theorem find?_recordStart {b : UInt8} (rest : List UInt8) (hb : b ≠ 0x7B) :
    [Kind.join, .leave, .heartbeat].find? (fun kind => (recordStart kind).isPrefixOf (b :: rest)) = none := by
  have hstart (kind : Kind) : (recordStart kind).isPrefixOf (b :: rest) = false := by
    simp [recordStart, List.isPrefixOf, Ne.symm hb]
  simp [hstart]

theorem sampleLoads_bracket (rest : List UInt8) : sampleLoads (0x5B :: rest) = .recursionError := by
  rw [sampleLoads, find?_recordStart rest (by decide)]
  rfl

theorem sampleLoads_noUtf8 (rest : List UInt8) : sampleLoads (0x80 :: rest) = .unicodeDecodeError := by
  rw [sampleLoads, find?_recordStart rest (by decide)]
  rfl

/-- Two thousand brackets, opened and closed -/
def brackets : List UInt8 := List.replicate 2000 0x5B ++ List.replicate 2000 0x5D

theorem brackets_tooDeep (now : Int) : (Event.message brackets now).TooDeep sampleLoads := by
  refine ⟨?_, ?_⟩
  · rw [brackets, List.length_append, List.length_replicate, List.length_replicate]
    decide
  · have hhead : brackets = 0x5B :: (List.replicate 1999 0x5B ++ List.replicate 2000 0x5D) := rfl
    rw [hhead, sampleLoads_bracket]

/-- The time `1.5` -/
def oneAndHalf : FloatRepr := ⟨[0x31, 0x2E, 0x35], by decide⟩

/-- Bytes that are no UTF-8, a heartbeat, and a scan before the heartbeat is too old -/
def noiseAndHeartbeat : List (Event Int) :=
  [.message [0x80, 0x80] 1, .message (publishPayload (str "me") .heartbeat oneAndHalf) 8, .scan 15]

theorem loop_survives_noise : ∃ s', Handle.run sampleLoads ⟨.enter (str "me") (10 : Int) 4 0, true⟩ noiseAndHeartbeat =
      ⟨s', true⟩ ∧ Applied sampleLoads (.enter (str "me") (10 : Int) 4 0) noiseAndHeartbeat s' ∧
    IsRecord sampleLoads (publishPayload (str "me") .heartbeat oneAndHalf) (str "me") .heartbeat := by
  have hno : ∀ e ∈ noiseAndHeartbeat, ¬e.TooDeep sampleLoads := by
    intro e he hdeep
    simp only [noiseAndHeartbeat, List.mem_cons, List.not_mem_nil, or_false] at he
    rcases he with rfl | rfl | rfl
    · rw [Event.TooDeep, sampleLoads_noUtf8] at hdeep
      cases hdeep.2
    · rw [Event.TooDeep, sampleLoads_publishPayload] at hdeep
      cases hdeep.2
    · exact hdeep
  obtain ⟨⟨s', hrun, happlied⟩, hrecord⟩ :=
    (loop_survives_iff (.enter (str "me") (10 : Int) 4 0) noiseAndHeartbeat rfl sampleLoads_publishPayload).2 hno
  exact ⟨s', hrun, happlied, (hrecord .heartbeat oneAndHalf).1⟩

/-- The brackets end the loop. -/
theorem loop_ended_by_brackets : ¬∀ loads : List UInt8 → Loaded,
    (∀ kind ts, loads (publishPayload (str "me") kind ts) = .value (asObject (recordItems (str "me") kind ts))) →
    ∀ events : List (Event Int),
      (Handle.run loads ⟨.enter (str "me") (10 : Int) 4 0, true⟩ events).consuming = true := by
  intro hall
  have hended : (Handle.run sampleLoads ⟨.enter (str "me") (10 : Int) 4 0, true⟩ [.message brackets 1]).consuming = false :=
    Handle.run_tooDeep (List.mem_singleton_self _) (brackets_tooDeep 1)
  rw [hall sampleLoads sampleLoads_publishPayload] at hended
  cases hended

end Mmbus.Cast
