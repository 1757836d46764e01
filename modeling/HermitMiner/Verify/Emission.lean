import HermitMiner.Config.Load
import HermitMiner.Verify.Objects
import HermitMiner.Verify.Redaction
import HermitMiner.Verify.Script

/-!
# Emitted JSON

* `logLine_eq`, `healthSnapshot_eq`: a log line and a health snapshot, as objects.
* `logLine_json_iff`, `healthSnapshot_json_iff`: when each of them is JSON for what it shows.
* `emitted_json_iff`: when what is emitted is JSON.
-/

namespace HermitMiner

open Rfc8259 (Value ValueText Document NumberText IsUtf8)

/-! ## What is emitted -/

section Texts

/-- `std::fixed << std::setprecision(2)` before a number of so many hundredths. -/
def fixed2 (hundredths : Nat) : Bytes :=
  dec (hundredths / 100) ++ ch '.' :: (dec (hundredths / 10 % 10) ++ dec (hundredths % 10))

/-- The members of a log line. -/
def logFields (now : UtcTime) (entry : LogEntry) : List Field :=
  [.string (str "timestamp") now.timestamp, .string (str "level") entry.level.name,
    .string (str "component") entry.component, .string (str "node_id") entry.nodeId,
    .string (str "message") (redactSensitiveFields entry.message)]
  ++ if redactSensitiveFields entry.context = [] then []
    else [.string (str "context") (redactSensitiveFields entry.context)]

/-- The members of a health snapshot. -/
def snapshotFields (cfg : MinerConfig) (stats : SessionStats) (durationSec hundredths : Nat) :
    List Field :=
  [.string (str "node_id") cfg.nodeId, .string (str "status") (computeReadinessStatus stats),
    .number (str "accepted_count") (dec stats.acceptedCount),
    .number (str "jobs_received") (dec stats.jobsReceived),
    .number (str "shares_found") (dec stats.sharesFound),
    .number (str "submits_attempted") (dec stats.submitsAttempted),
    .number (str "submit_failures") (dec stats.submitFailures),
    .number (str "reconnect_events") (dec stats.reconnectEvents),
    .number (str "session_failures") (dec stats.sessionFailures),
    .number (str "session_duration_sec") (dec durationSec),
    .number (str "accepted_per_min") (fixed2 hundredths),
    .string (str "last_job_id") stats.lastJobId]

/-- The digits and the letters of a time. -/
def isTimestamp (c : UInt8) : Bool := isDigit c || (str "-T:.Z").contains c

theorem isTimestamp_timestamp (t : UtcTime) : ∀ c ∈ t.timestamp, isTimestamp c = true := by
  have hdec : ∀ n, ∀ c ∈ dec n, isTimestamp c = true := by
    intro n c hc
    rw [isTimestamp, isDigit_of_mem_dec hc, Bool.true_or]
  have hpadded : ∀ width n, ∀ c ∈ zeroPadded width n, isTimestamp c = true := by
    intro width n c hc
    rw [zeroPadded, List.leftpad] at hc
    rcases List.mem_append.1 hc with hc | hc
    · obtain rfl := List.eq_of_mem_replicate hc
      decide
    · exact hdec n c hc
  have hmark : ∀ w : Bytes, (w.all isTimestamp) = true → ∀ c ∈ w, isTimestamp c = true :=
    fun w hw => List.all_eq_true.1 hw
  simp only [UtcTime.timestamp, List.forall_mem_append]
  and_intros <;> first
    | exact hdec _
    | exact hpadded _ _
    | exact hmark _ (by decide +kernel)

theorem jsonEscape_timestamp (t : UtcTime) : jsonEscape t.timestamp = t.timestamp := by
  apply jsonEscape_self
  intro c hc
  have hstamp := isTimestamp_timestamp t c hc
  have hne : ∀ d : UInt8, isTimestamp d = false → c ≠ d := by
    rintro d hd rfl
    rw [hd] at hstamp
    cases hstamp
  unfold jsonEscapeByte
  rw [if_neg (hne _ (by decide)), if_neg (hne _ (by decide)), if_neg (hne _ (by decide)),
    if_neg (hne _ (by decide)), if_neg (hne _ (by decide))]

theorem jsonEscape_eq_nil {s : Bytes} : jsonEscape s = [] ↔ s = [] := by
  constructor
  · intro h
    cases s with
    | nil => rfl
    | cons c s =>
      have hbyte : jsonEscapeByte c = [] := (List.append_eq_nil_iff.1 h).1
      unfold jsonEscapeByte at hbyte
      repeat' split at hbyte
      all_goals cases hbyte
  · rintro rfl
    rfl

theorem logLine_eq (now : UtcTime) (entry : LogEntry) :
    logLine now entry = objectText (logFields now entry) := by
  have hlevel : jsonEscape entry.level.name = entry.level.name := by
    cases entry.level <;> decide
  have hcontext : (if jsonEscape (redactSensitiveFields entry.context) ≠ [] then
      str ",\"context\":\"" ++ jsonEscape (redactSensitiveFields entry.context) ++ str "\""
      else []) = membersTail (if redactSensitiveFields entry.context = [] then []
        else [.string (str "context") (redactSensitiveFields entry.context)]) := by
    by_cases hnil : redactSensitiveFields entry.context = []
    · rw [hnil]
      rfl
    · rw [if_pos (mt jsonEscape_eq_nil.1 hnil), if_neg hnil]
      simp [membersTail, Field.text, Field.key, Field.valueText, Rfc8259.quoted, str, ch]
  delta logLine logFields
  dsimp only
  rw [hcontext, List.cons_append, objectText, membersText_cons]
  simp [membersTail, Field.text, Field.key, Field.valueText, Rfc8259.quoted,
    jsonEscape_timestamp, hlevel, str, ch]

theorem text_number (key text : Bytes) :
    (Field.number key text).text = str "\"" ++ (key ++ (str "\":" ++ text)) := by
  simp [Field.text, Field.key, Field.valueText, Rfc8259.quoted, str, ch]

theorem text_string (key s : Bytes) :
    (Field.string key s).text = str "\"" ++ (key ++ (str "\":\"" ++ (jsonEscape s ++ str "\""))) := by
  simp [Field.text, Field.key, Field.valueText, Rfc8259.quoted, str, ch]

theorem healthSnapshot_eq (cfg : MinerConfig) (stats : SessionStats)
    (durationSec hundredths : Nat) :
    healthSnapshot cfg stats (computeReadinessStatus stats) durationSec (fixed2 hundredths) =
      objectText (snapshotFields cfg stats durationSec hundredths) := by
  have hnode : str "\x7b\"node_id\":\"" =
      ch '\x7b' :: (str "\"" ++ (str "node_id" ++ str "\":\"")) := rfl
  have hstatus : str "\"status\":\"" = str "\"" ++ (str "status" ++ str "\":\"") := rfl
  have h0 : str "\"accepted_count\":" = str "\"" ++ (str "accepted_count" ++ str "\":") := rfl
  have h1 : str "\"jobs_received\":" = str "\"" ++ (str "jobs_received" ++ str "\":") := rfl
  have h2 : str "\"shares_found\":" = str "\"" ++ (str "shares_found" ++ str "\":") := rfl
  have h3 : str "\"submits_attempted\":" = str "\"" ++ (str "submits_attempted" ++ str "\":") := rfl
  have h4 : str "\"submit_failures\":" = str "\"" ++ (str "submit_failures" ++ str "\":") := rfl
  have h5 : str "\"reconnect_events\":" = str "\"" ++ (str "reconnect_events" ++ str "\":") := rfl
  have h6 : str "\"session_failures\":" = str "\"" ++ (str "session_failures" ++ str "\":") := rfl
  have h7 : str "\"session_duration_sec\":" = str "\"" ++ (str "session_duration_sec" ++ str "\":") := rfl
  have h8 : str "\"accepted_per_min\":" = str "\"" ++ (str "accepted_per_min" ++ str "\":") := rfl
  have hlast : str "\"last_job_id\":\"" = str "\"" ++ (str "last_job_id" ++ str "\":\"") := rfl
  have hquote : str "\"," = str "\"" ++ [ch ','] := rfl
  have hcomma : str "," = [ch ','] := rfl
  have hend : str "\"\x7d" = str "\"" ++ [ch '\x7d'] := rfl
  delta healthSnapshot snapshotFields
  simp only [objectText, membersText, text_number, text_string, hnode, hstatus, h0, h1, h2, h3, h4, h5, h6, h7, h8, hlast, hquote, hcomma, hend,
    List.append_assoc, List.cons_append, List.nil_append]

/-- A printed number is one of JSON, of digits and dots. -/
theorem sound_dec (key : Bytes) (n : Nat) : (Field.number key (dec n)).Sound :=
  ⟨valueText_dec n, fun _ hc => .inl (isDigit_of_mem_dec hc)⟩

theorem sound_fixed2 (key : Bytes) (hundredths : Nat) :
    (Field.number key (fixed2 hundredths)).Sound := by
  have hfrac : Rfc8259.Digits (dec (hundredths / 10 % 10) ++ dec (hundredths % 10)) := by
    refine ⟨by simp [dec_ne_nil], ?_⟩
    intro d hd
    rcases List.mem_append.1 hd with hd | hd <;> exact isDigit_of_mem_dec hd
  constructor
  · have hint : (dec (hundredths / 100)).head? = some 0x30 → dec (hundredths / 100) = [0x30] := by
      intro h
      rw [head_dec h]
      rfl
    have hnumber : NumberText [] (dec (hundredths / 100))
        (ch '.' :: (dec (hundredths / 10 % 10) ++ dec (hundredths % 10))) [] :=
      ⟨by simp, ⟨digits_dec _, hint⟩, .inr ⟨_, hfrac, rfl⟩, .inl rfl⟩
    simpa [fixed2] using ValueText.number hnumber
  · intro c hc
    rcases List.mem_append.1 hc with hc | hc
    · exact .inl (isDigit_of_mem_dec hc)
    · rcases List.mem_cons.1 hc with rfl | hc
      · exact .inr rfl
      · exact .inl (hfrac.2 c hc)

end Texts

/-! ## Emitted JSON -/

section Emission

/-- The strings of the entry are in UTF-8. -/
structure LogEntry.InUtf8 (entry : LogEntry) : Prop where
  component : IsUtf8 entry.component
  nodeId : IsUtf8 entry.nodeId
  message : IsUtf8 entry.message
  context : IsUtf8 entry.context

theorem printed_timestamp (t : UtcTime) : ∀ c ∈ t.timestamp, 0x20 ≤ c ∧ c < 0x80 := by
  intro c hc
  have hstamp := isTimestamp_timestamp t c hc
  rw [isTimestamp, Bool.or_eq_true, isDigit_iff] at hstamp
  rcases hstamp with hdigit | hmark
  · rw [UInt8.le_iff_toNat_le, UInt8.lt_iff_toNat_lt]
    exact ⟨Nat.le_trans (by decide) hdigit.1, Nat.lt_of_le_of_lt hdigit.2 (by decide)⟩
  · have hmarks : ∀ c ∈ str "-T:.Z", (0x20 : UInt8) ≤ c ∧ c < 0x80 := by decide +kernel
    exact hmarks c (List.contains_iff_mem.1 hmark)

theorem printed_level (level : LogLevel) : ∀ c ∈ level.name, 0x20 ≤ c ∧ c < 0x80 := by
  cases level <;> decide +kernel

theorem printed_status (stats : SessionStats) :
    ∀ c ∈ computeReadinessStatus stats, 0x20 ≤ c ∧ c < 0x80 := by
  unfold computeReadinessStatus
  split
  · decide +kernel
  split
  · decide +kernel
  · decide +kernel

theorem utf8_of_printed {s : Bytes} (h : ∀ c ∈ s, 0x20 ≤ c ∧ c < 0x80) : IsUtf8 s :=
  Rfc8259.isUtf8_ascii fun c hc => (h c hc).2

theorem escapable_of_printed {s : Bytes} (h : ∀ c ∈ s, 0x20 ≤ c ∧ c < 0x80) : Escapable s :=
  fun c hc => .inl (h c hc).1

theorem keys_of_all {fs : List Field} {keys : List Bytes} (h : fs.map Field.key = keys)
    (hkeys : keys.all isKey = true) : ∀ f ∈ fs, isKey f.key = true := by
  intro f hf
  rw [← h] at hkeys
  exact List.all_eq_true.1 hkeys _ (List.mem_map_of_mem hf)

/-- What holds of the member `context`, where there is one. -/
theorem forall_context {P : Field → Prop} {context : Bytes}
    (h : P (.string (str "context") context)) :
    ∀ f ∈ (if context = [] then [] else [.string (str "context") context] : List Field), P f := by
  intro f hf
  split at hf
  · cases hf
  · obtain rfl := List.mem_singleton.1 hf
    exact h

/-- **Log lines**: the line of an entry is JSON for the entry, redacted, exactly when all its
control bytes are escaped. -/
theorem logLine_json_iff (now : UtcTime) {entry : LogEntry} (h : entry.InUtf8) :
    JsonLine (logLine now entry) (objectValue (logFields now entry)) ↔
      Escapable entry.component ∧ Escapable entry.nodeId ∧
        Escapable (redactSensitiveFields entry.message) ∧
          Escapable (redactSensitiveFields entry.context) := by
  have hcontext : isKey (str "context") = true := by decide +kernel
  have hkeys : ∀ f ∈ logFields now entry, isKey f.key = true := by
    rw [logFields, List.forall_mem_append]
    have hall : [Field.string (str "timestamp") now.timestamp, .string (str "level") entry.level.name,
        .string (str "component") entry.component, .string (str "node_id") entry.nodeId,
        .string (str "message") (redactSensitiveFields entry.message)].map Field.key =
        [str "timestamp", str "level", str "component", str "node_id", str "message"] := rfl
    exact ⟨keys_of_all hall (by decide +kernel), forall_context hcontext⟩
  have hsound : ∀ f ∈ logFields now entry, f.Sound := by
    simp only [logFields, List.forall_mem_append, List.forall_mem_cons, Field.Sound]
    exact ⟨⟨utf8_of_printed (printed_timestamp now), utf8_of_printed (printed_level entry.level),
      h.component, h.nodeId, utf8_redact h.message, fun f hf => by cases hf⟩,
      forall_context (utf8_redact h.context)⟩
  rw [logLine_eq, jsonLine_iff (by simp [logFields]) hkeys hsound]
  constructor
  · intro hescapable
    simp only [logFields, List.forall_mem_append, List.forall_mem_cons, Field.Escapable]
      at hescapable
    obtain ⟨⟨-, -, hcomponent, hnode, hmessage, -⟩, hcontext⟩ := hescapable
    refine ⟨hcomponent, hnode, hmessage, ?_⟩
    by_cases hnil : redactSensitiveFields entry.context = []
    · rw [hnil]
      exact fun c hc => by cases hc
    · rw [if_neg hnil] at hcontext
      exact hcontext _ (List.mem_singleton_self _)
  · rintro ⟨hcomponent, hnode, hmessage, hcontext⟩
    simp only [logFields, List.forall_mem_append, List.forall_mem_cons, Field.Escapable]
    exact ⟨⟨escapable_of_printed (printed_timestamp now),
      escapable_of_printed (printed_level entry.level), hcomponent, hnode, hmessage,
      fun f hf => by cases hf⟩, forall_context hcontext⟩

/-- **Snapshots**: a health snapshot is JSON for what it shows exactly when the control bytes of the
node id and of the last job id are escaped. -/
theorem healthSnapshot_json_iff {cfg : MinerConfig} {stats : SessionStats}
    (durationSec hundredths : Nat) (hnode : IsUtf8 cfg.nodeId) (hjob : IsUtf8 stats.lastJobId) :
    JsonLine (healthSnapshot cfg stats (computeReadinessStatus stats) durationSec
        (fixed2 hundredths)) (objectValue (snapshotFields cfg stats durationSec hundredths)) ↔
      Escapable cfg.nodeId ∧ Escapable stats.lastJobId := by
  have hkeys : ∀ f ∈ snapshotFields cfg stats durationSec hundredths, isKey f.key = true := by
    have hall : (snapshotFields cfg stats durationSec hundredths).map Field.key =
        [str "node_id", str "status", str "accepted_count", str "jobs_received",
          str "shares_found", str "submits_attempted", str "submit_failures",
          str "reconnect_events", str "session_failures", str "session_duration_sec",
          str "accepted_per_min", str "last_job_id"] := rfl
    exact keys_of_all hall (by decide +kernel)
  have hsound : ∀ f ∈ snapshotFields cfg stats durationSec hundredths, f.Sound := by
    delta snapshotFields
    simp only [List.forall_mem_cons]
    exact ⟨hnode, utf8_of_printed (printed_status stats), sound_dec _ _, sound_dec _ _,
      sound_dec _ _, sound_dec _ _, sound_dec _ _, sound_dec _ _, sound_dec _ _, sound_dec _ _,
      sound_fixed2 _ _, hjob, fun f hf => by cases hf⟩
  rw [healthSnapshot_eq, jsonLine_iff (by simp [snapshotFields]) hkeys hsound]
  constructor
  · intro hescapable
    exact ⟨hescapable (.string (str "node_id") cfg.nodeId) (by simp [snapshotFields]),
      hescapable (.string (str "last_job_id") stats.lastJobId) (by simp [snapshotFields])⟩
  · rintro ⟨hnode, hjob⟩
    delta snapshotFields
    simp only [List.forall_mem_cons, Field.Escapable]
    exact ⟨hnode, escapable_of_printed (printed_status stats), trivial, trivial, trivial, trivial,
      trivial, trivial, trivial, trivial, trivial, hjob, fun f hf => by cases hf⟩

/-- **Emitted JSON**: log lines and health snapshots are single lines of JSON for what they show
exactly when the control bytes in them are ones that are escaped. -/
theorem emitted_json_iff (now : UtcTime) (entry : LogEntry) (cfg : MinerConfig)
    (stats : SessionStats) (durationSec hundredths : Nat) (hentry : entry.InUtf8)
    (hnode : IsUtf8 cfg.nodeId) (hjob : IsUtf8 stats.lastJobId) :
    (JsonLine (logLine now entry) (objectValue (logFields now entry)) ↔
      Escapable entry.component ∧ Escapable entry.nodeId ∧
        Escapable (redactSensitiveFields entry.message) ∧
          Escapable (redactSensitiveFields entry.context)) ∧
    (JsonLine (healthSnapshot cfg stats (computeReadinessStatus stats) durationSec
        (fixed2 hundredths)) (objectValue (snapshotFields cfg stats durationSec hundredths)) ↔
      Escapable cfg.nodeId ∧ Escapable stats.lastJobId) :=
  ⟨logLine_json_iff now hentry, healthSnapshot_json_iff durationSec hundredths hnode hjob⟩

/-- An entry of the node with a secret in its context. -/
def firstEntry (cfg : MinerConfig) : LogEntry where
  level := .info
  component := str "miner"
  nodeId := cfg.nodeId
  message := str "Independent miner starting"
  context := str "token=a"

def firstTime : UtcTime := ⟨2024, 1, 2, 3, 4, 5, 67⟩

theorem emitted_json_firstEntry :
    JsonLine (logLine firstTime (firstEntry scriptConfig))
        (objectValue (logFields firstTime (firstEntry scriptConfig))) ∧
      JsonLine (healthSnapshot scriptConfig {} (computeReadinessStatus {}) 60 (fixed2 0))
        (objectValue (snapshotFields scriptConfig {} 60 0)) := by
  have hascii : ∀ s : Bytes, (s.all (· < 0x80)) = true → IsUtf8 s := by
    intro s hs
    apply Rfc8259.isUtf8_ascii
    intro c hc
    simpa using List.all_eq_true.1 hs c hc
  have hentry : (firstEntry scriptConfig).InUtf8 :=
    ⟨hascii _ (by decide +kernel), hascii _ (by decide +kernel), hascii _ (by decide +kernel),
      hascii _ (by decide +kernel)⟩
  obtain ⟨hline, hsnapshot⟩ := emitted_json_iff firstTime (firstEntry scriptConfig) scriptConfig {}
    60 0 hentry (hascii _ (by decide +kernel)) (hascii _ (by decide +kernel))
  exact ⟨hline.2 (by decide +kernel), hsnapshot.2 (by decide +kernel)⟩

/-- A configuration file with a node id of one backspace. -/
def backspaceDocument : Bytes := str "\x7b\"node_id\":\"\\b\"\x7d"

/-- The file is accepted, and with its node id neither the line nor a snapshot is JSON. -/
theorem emitted_json_backspace :
    (loadConfig 1 backspaceDocument).1 = true ∧
      (∀ now v, ¬Document (logLine now (firstEntry (loadConfig 1 backspaceDocument).2)) v) ∧
      ∀ stats durationSec hundredths v,
        ¬Document (healthSnapshot (loadConfig 1 backspaceDocument).2 stats
          (computeReadinessStatus stats) durationSec (fixed2 hundredths)) v := by
  have hnode : (loadConfig 1 backspaceDocument).2.nodeId = [8] := by decide +kernel
  refine ⟨by decide +kernel, ?_, ?_⟩
  · intro now v h
    have hmem : (8 : UInt8) ∈ logLine now (firstEntry (loadConfig 1 backspaceDocument).2) := by
      rw [logLine_eq]
      apply @mem_objectText _ _ (str "node_id") [8]
      · rw [← hnode]
        simp [logFields, firstEntry]
      · decide
    exact absurd (h.not_control hmem) (by decide)
  · intro stats durationSec hundredths v h
    have hmem : (8 : UInt8) ∈ healthSnapshot (loadConfig 1 backspaceDocument).2 stats
        (computeReadinessStatus stats) durationSec (fixed2 hundredths) := by
      rw [healthSnapshot_eq]
      apply @mem_objectText _ _ (str "node_id") [8]
      · rw [← hnode]
        simp [snapshotFields]
      · decide
    exact absurd (h.not_control hmem) (by decide)

end Emission

end HermitMiner
