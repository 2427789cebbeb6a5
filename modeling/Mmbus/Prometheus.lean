import Mmbus.Lib.Exposition

/-!
# The Prometheus exporter

`render_all` writes the statistics of the topics one topic after the other, each with the help and the type of every
metric.  Its output is read again, with the names of the topics in the labels (`parse_renderAll`), but two topics have
the same families, and the text is then not valid (`render_valid_iff`).
-/

namespace Mmbus.Prometheus

open Exposition

structure RingStats where
  tail : Nat
  activeSubscribers : Nat
  lags : List Nat

structure WalStats where
  pendingCursor : Nat
  durableCursor : Nat
  totalWalBytes : Nat
  segments : Nat
  appendsTotal : Nat
  appendBytesTotal : Nat
  flushesTotal : Nat

structure TopicStats where
  ring : RingStats
  connectedSockets : Nat
  wal : Option WalStats
  publishedTotal : Nat
  fullRejectedTotal : Nat
  subscribersDroppedTotal : Nat
  wakeupsSentTotal : Nat

/-- `escape_label` -/
def escapeLabel (raw : Text) : Text :=
  raw.flatMap fun c =>
    if c = backslash then [backslash, backslash]
    else if c = dquote then [backslash, dquote]
    else if c = newline then [backslash, 'n']
    else if c.toNat < 0x20 then ['_']
    else [c]

/-- A metric with its value for a topic -/
structure Metric where
  name : String
  help : String
  kind : String
  value : Nat

/-- The metrics of the `WAL` block -/
def walMetrics (w : WalStats) : List Metric := [
  ⟨"mmbus_wal_appends_total", "Successful WAL appends.", "counter", w.appendsTotal⟩,
  ⟨"mmbus_wal_append_bytes_total", "Payload bytes appended to the WAL.", "counter", w.appendBytesTotal⟩,
  ⟨"mmbus_wal_flushes_total", "Completed flush_sync calls.", "counter", w.flushesTotal⟩,
  ⟨"mmbus_wal_pending_cursor", "Highest cursor appended.", "counter", w.pendingCursor⟩,
  ⟨"mmbus_wal_durable_cursor", "Highest cursor fsynced to disk.", "counter", w.durableCursor⟩,
  ⟨"mmbus_wal_replay_lag", "pending_cursor − durable_cursor; how many records aren't yet durable.", "gauge",
    w.pendingCursor - w.durableCursor⟩,
  ⟨"mmbus_wal_total_bytes", "Total on-disk bytes across all segments.", "gauge", w.totalWalBytes⟩,
  ⟨"mmbus_wal_segments", "Number of segment files on disk.", "gauge", w.segments⟩]

/-- What `render_into` writes of a topic, in its order -/
def metrics (s : TopicStats) : List Metric := [
  ⟨"mmbus_published_total", "Successful publishes since publisher creation.", "counter", s.publishedTotal⟩,
  ⟨"mmbus_full_rejected_total", "Publishes rejected with Error::Full under BackpressurePolicy::Error.", "counter",
    s.fullRejectedTotal⟩,
  ⟨"mmbus_subscribers_dropped_total", "Subscribers dropped by the publisher because their wakeup call failed.", "counter",
    s.subscribersDroppedTotal⟩,
  ⟨"mmbus_wakeups_sent_total", "Wakeup syscalls fired (coalesced; below published_total under bursts).", "counter",
    s.wakeupsSentTotal⟩,
  ⟨"mmbus_connected_sockets", "Subscriber sockets currently accepted.", "gauge", s.connectedSockets⟩,
  ⟨"mmbus_ring_tail", "Next slot the producer will write (monotonic during a publisher's lifetime).", "counter",
    s.ring.tail⟩,
  ⟨"mmbus_active_subscribers", "Number of subscribers with a claimed cursor slot.", "gauge", s.ring.activeSubscribers⟩,
  ⟨"mmbus_max_subscriber_lag", "Highest per-subscriber lag (tail − cursor) across all active subscribers.", "gauge",
    s.ring.lags.max?.getD 0⟩] ++
  match s.wal with
  | none => []
  | some w => walMetrics w

/-- The three `writeln!` of a metric; `topic` is escaped. -/
def writeMetric (topic : Text) (m : Metric) : Text :=
  "# HELP ".toList ++ m.name.toList ++ [' '] ++ m.help.toList ++ [newline] ++
  "# TYPE ".toList ++ m.name.toList ++ [' '] ++ m.kind.toList ++ [newline] ++
  m.name.toList ++ "\x7btopic=\x22".toList ++ topic ++ "\x22\x7d ".toList ++ (toString m.value).toList ++ [newline]

def renderInto (topic : Text) (s : TopicStats) : Text := (metrics s).flatMap (writeMetric (escapeLabel topic))

def renderAll (topics : List (Text × TopicStats)) : Text := topics.flatMap fun t => renderInto t.1 t.2

/-! ### What it writes -/

variable {topic : Text} {m : Metric} {t : Text × TopicStats} {topics : List (Text × TopicStats)}

/-- Without control characters other than the newline -/
def NoControl (topic : Text) : Prop := ∀ c ∈ topic, c = newline ∨ 0x20 ≤ c.toNat

instance (topic : Text) : Decidable (NoControl topic) := List.decidableBAll ..

/-- The family that a topic has of a metric -/
def Metric.family (topic : Text) (m : Metric) : Family :=
  ⟨m.name.toList, m.help.toList, m.kind.toList, [("topic".toList, topic)], (toString m.value).toList⟩

def families (topics : List (Text × TopicStats)) : List Family :=
  topics.flatMap fun t => (metrics t.2).map (Metric.family t.1)

theorem escapeLabel_eq (h : NoControl topic) : escapeLabel topic = escape topic := by
  induction topic with
  | nil => rfl
  | cons c topic ih =>
    have hc := h c (List.mem_cons_self ..)
    have hrest := ih fun d hd => h d (List.mem_cons_of_mem c hd)
    rw [escapeLabel, List.flatMap_cons, ← escapeLabel, hrest]
    change _ = escapeChar c ++ escape topic
    rw [escapeChar]
    congr 1
    split_ifs with h₁ h₂ h₃ h₄
    · rfl
    · rfl
    · rfl
    · rcases hc with rfl | hc
      · exact absurd rfl h₃
      · omega
    · rfl

theorem unescape_escapeLabel (h : NoControl topic) : unescape (escapeLabel topic) = some topic := by
  rw [escapeLabel_eq h, unescape_escape]

/-- A family of one sample with one label, as text -/
private theorem print_family (name help kind label value topic : Text) :
    print (Family.lines ⟨name, help, kind, [(label, topic)], value⟩) =
      helpStart ++ name ++ [' '] ++ help ++ [newline] ++ typeStart ++ name ++ [' '] ++ kind ++ [newline] ++
      name ++ (['{'] ++ (label ++ ['=', dquote])) ++ escape topic ++ ([dquote] ++ ['}', ' ']) ++ value ++ [newline] := by
  simp only [print, Family.lines, List.flatMap_cons, List.flatMap_nil, Line.print, Line.printLabels, Line.printLabel,
    List.append_assoc, List.append_nil]

theorem writeMetric_eq (h : NoControl topic) (m : Metric) :
    writeMetric (escapeLabel topic) m = print (m.family topic).lines := by
  have hhelp : "# HELP ".toList = helpStart := by decide +kernel
  have htype : "# TYPE ".toList = typeStart := by decide +kernel
  have hopen : "\x7btopic=\x22".toList = ['{'] ++ ("topic".toList ++ ['=', dquote]) := by decide +kernel
  have hclose : "\x22\x7d ".toList = [dquote] ++ ['}', ' '] := by decide +kernel
  have hfamily : print (m.family topic).lines = _ :=
    print_family m.name.toList m.help.toList m.kind.toList "topic".toList (toString m.value).toList topic
  rw [hfamily]
  unfold writeMetric
  rw [escapeLabel_eq h]
  simp only [hhelp, htype, hopen, hclose]

theorem renderAll_eq (h : ∀ t ∈ topics, NoControl t.1) :
    renderAll topics = print ((families topics).flatMap Family.lines) := by
  have hmetrics (topic : Text) (ht : NoControl topic) (ms : List Metric) :
      ms.flatMap (writeMetric (escapeLabel topic)) = print ((ms.map (Metric.family topic)).flatMap Family.lines) := by
    induction ms with
    | nil => rfl
    | cons m ms ih =>
      rw [List.flatMap_cons, ih, writeMetric_eq ht, List.map_cons, List.flatMap_cons, print, print, print,
        List.flatMap_append]
  induction topics with
  | nil => rfl
  | cons t topics ih =>
    have ht := hmetrics t.1 (h t (List.mem_cons_self ..)) (metrics t.2)
    have hrest := ih fun u hu => h u (List.mem_cons_of_mem t hu)
    have hfamilies : families (t :: topics) = (metrics t.2).map (Metric.family t.1) ++ families topics := rfl
    rw [renderAll, List.flatMap_cons, ← renderAll, hrest, renderInto, ht, hfamilies, List.flatMap_append, print, print,
      print, List.flatMap_append]

/-- What is written of a metric before its values -/
def Metric.head (m : Metric) : String × String × String := (m.name, m.help, m.kind)

/-- Statistics with and without the `WAL` block -/
def blank (wal : Bool) : TopicStats := ⟨⟨0, 0, []⟩, 0, if wal then some ⟨0, 0, 0, 0, 0, 0, 0⟩ else none, 0, 0, 0, 0⟩

/-- The names and texts do not depend on the values. -/
theorem heads_eq (s : TopicStats) : (metrics s).map Metric.head = (metrics (blank s.wal.isSome)).map Metric.head := by
  obtain ⟨ring, connectedSockets, wal, publishedTotal, fullRejectedTotal, subscribersDroppedTotal, wakeupsSentTotal⟩ := s
  cases wal <;> rfl

theorem heads_printable (wal : Bool) : ∀ head ∈ (metrics (blank wal)).map Metric.head,
    Line.IsName head.1.toList ∧ newline ∉ head.2.1.toList ∧ head.2.2.toList ∈ kinds := by
  cases wal <;> decide +kernel

theorem heads_nodup (wal : Bool) : (((metrics (blank wal)).map Metric.head).map fun head => head.1.toList).Nodup := by
  cases wal <;> decide +kernel

/-- The first family of every topic -/
theorem published_mem (wal : Bool) :
    "mmbus_published_total".toList ∈ ((metrics (blank wal)).map Metric.head).map fun head => head.1.toList := by
  cases wal <;> decide +kernel

theorem isNumber_toString (n : Nat) : IsNumber (toString n).toList := by
  have htoList : (toString n).toList = Nat.toDigits 10 n := Nat.toList_repr
  rw [htoList]
  exact ⟨Nat.toDigits_ne_nil, fun c hc => Nat.isDigit_of_mem_toDigits (by decide) (by decide) hc⟩

theorem lines_printable (topics : List (Text × TopicStats)) :
    ∀ line ∈ (families topics).flatMap Family.lines, line.Printable := by
  intro line hline
  obtain ⟨f, hf, hline⟩ := List.mem_flatMap.1 hline
  obtain ⟨t, -, hf⟩ := List.mem_flatMap.1 hf
  obtain ⟨m, hm, rfl⟩ := List.mem_map.1 hf
  have hhead : m.head ∈ (metrics (blank t.2.wal.isSome)).map Metric.head := by
    rw [← heads_eq]
    exact List.mem_map_of_mem hm
  obtain ⟨hname, hhelp, hkind⟩ := heads_printable _ m.head hhead
  have hlabel : Line.IsName "topic".toList := by decide +kernel
  rw [Family.lines, List.mem_cons, List.mem_cons, List.mem_singleton] at hline
  rcases hline with rfl | rfl | rfl
  · exact ⟨hname, hhelp⟩
  · exact ⟨hname, hkind⟩
  · refine ⟨hname, fun label hl => ?_, isNumber_toString m.value⟩
    obtain rfl := List.mem_singleton.1 hl
    exact hlabel

/-- The output is read as the lines of the topics, with their names in the labels. -/
theorem parse_renderAll (h : ∀ t ∈ topics, NoControl t.1) :
    parse (renderAll topics) = some ((families topics).flatMap Family.lines) := by
  rw [renderAll_eq h, parse_print (lines_printable topics)]

theorem familyNames_eq (topic : Text) (s : TopicStats) :
    ((metrics s).map (Metric.family topic)).map Family.name =
      ((metrics (blank s.wal.isSome)).map Metric.head).map fun head => head.1.toList := by
  rw [← heads_eq, List.map_map, List.map_map]
  rfl

/-- The samples of the topics -/
def samples (topics : List (Text × TopicStats)) : List (Text × List (Text × Text)) :=
  topics.flatMap fun t => (metrics t.2).map fun m => (m.name.toList, [("topic".toList, t.1)])

theorem sampleKeys_eq (topics : List (Text × TopicStats)) :
    ((families topics).flatMap Family.lines).filterMap Line.sampleKey = samples topics := by
  rw [filterMap_lines Line.sampleKey (fun f => (f.name, f.labels)) (fun _ => rfl), families, List.map_flatMap, samples]
  congr 1
  funext t
  rw [List.map_map]
  rfl

/-- One topic has each family once. -/
theorem valid_of_length_le (h : topics.length ≤ 1) : Valid ((families topics).flatMap Family.lines) := by
  refine valid_of_nodup ?_
  cases topics with
  | nil => exact List.nodup_nil
  | cons t rest =>
    obtain rfl : rest = [] := by
      rw [List.length_cons] at h
      exact List.eq_nil_of_length_eq_zero (by omega)
    rw [families, List.flatMap_singleton, familyNames_eq]
    exact heads_nodup _

/-- Two topics have the same families. -/
theorem not_valid_of_two (h : 1 < topics.length) : ¬Valid ((families topics).flatMap Family.lines) := by
  intro hvalid
  have hnodup := hvalid.oneHelp
  rw [helpNames_lines] at hnodup
  cases topics with
  | nil => exact absurd h (by decide)
  | cons t rest =>
    cases rest with
    | nil => exact absurd h (Nat.lt_irrefl 1)
    | cons u rest =>
      have hfirst (v : Text × TopicStats) (vs : List (Text × TopicStats)) :
          "mmbus_published_total".toList ∈ (families (v :: vs)).map Family.name := by
        rw [families, List.flatMap_cons, List.map_append, familyNames_eq]
        exact List.mem_append_left _ (published_mem _)
      have hsplit : (families (t :: u :: rest)).map Family.name =
          (families [t]).map Family.name ++ (families (u :: rest)).map Family.name := by
        rw [← List.map_append]
        simp only [families, List.flatMap_cons, List.flatMap_nil, List.append_nil]
      rw [hsplit, List.nodup_append] at hnodup
      exact hnodup.2.2 _ (hfirst t []) _ (hfirst u rest) rfl

/-- Whatever the topics are called, without control characters other than the newline, the output is valid, has the
samples of the topics with their names, and each label stands for its name, if and only if there is one topic at most. -/
theorem render_valid_iff (topics : List (Text × TopicStats)) (hcontrol : ∀ t ∈ topics, NoControl t.1) :
    (∃ lines, parse (renderAll topics) = some lines ∧ Valid lines ∧ lines.filterMap Line.sampleKey = samples topics ∧
        ∀ t ∈ topics, unescape (escapeLabel t.1) = some t.1) ↔
      topics.length ≤ 1 := by
  have hparse := parse_renderAll hcontrol
  constructor
  · rintro ⟨lines, hlines, hvalid, -, -⟩
    rw [hparse, Option.some.injEq] at hlines
    subst hlines
    exact Nat.le_of_not_lt fun hmore => not_valid_of_two hmore hvalid
  · intro hone
    exact ⟨_, hparse, valid_of_length_le hone, sampleKeys_eq topics, fun t ht => unescape_escapeLabel (hcontrol t ht)⟩

/-- A topic with a quote, a backslash and a newline in its name, and a log -/
theorem render_valid_iff_quoted : ∃ lines,
    parse (renderAll [([dquote, backslash, 'n', newline], blank true)]) = some lines ∧ Valid lines := by
  have hcontrol : ∀ t ∈ [([dquote, backslash, 'n', newline], blank true)], NoControl t.1 := by
    intro t ht
    obtain rfl := List.mem_singleton.1 ht
    exact (by decide : NoControl [dquote, backslash, 'n', newline])
  obtain ⟨lines, hlines, hvalid, -⟩ := (render_valid_iff _ hcontrol).2 (by decide)
  exact ⟨lines, hlines, hvalid⟩

/-- The topics `a` and `b` -/
theorem two_topics_not_valid : ¬∀ topics : List (Text × TopicStats), (topics.map Prod.fst).Nodup →
    (∀ t ∈ topics, NoControl t.1) → ∃ lines, parse (renderAll topics) = some lines ∧ Valid lines := by
  intro hall
  have hcontrol : ∀ t ∈ [(['a'], blank false), (['b'], blank false)], NoControl t.1 := by
    have hboth : ∀ name ∈ [['a'], ['b']], NoControl name := by decide
    intro t ht
    exact hboth t.1 (List.mem_map_of_mem (f := Prod.fst) ht)
  obtain ⟨lines, hlines, hvalid⟩ := hall [(['a'], blank false), (['b'], blank false)] (by decide) hcontrol
  rw [parse_renderAll hcontrol, Option.some.injEq] at hlines
  subst hlines
  exact not_valid_of_two (by decide) hvalid

end Mmbus.Prometheus
