import HermitMiner.Verify.Escapes
import HermitMiner.Verify.JobTexts
import HermitMiner.Verify.Reading
import HermitMiner.Verify.Shares

/-!
# Job ids there and back

A job id comes in through the search of `parse_notify`, which takes the first text of a line that
looks like the parameters of a job as it is, and goes out through `json_escape`.

* `Notification`: a line that announces a job, with its id and prefix as JSON writes them.
* `Survives`: the job that the pool announced is hashed and submitted.
* `survives_iff_firstJob`: it is when the first such text of the line has its id and its prefix.
* `job_survives_iff`: when that is so.
-/

namespace HermitMiner

open Oracle
open Regex Regex.Pat
open Rfc8259 (Chars Document Value)

/-! ## Notifications -/

section Notifications

/-- The JSON white space that can stand in a line. -/
def InlineWs (a : Bytes) : Prop := ∀ c ∈ a, c = ch ' ' ∨ c = ch '\t'

/-- A line that announces a job: what stands before its `params`, the first four of them, with white
space between the tokens, and whatever follows. -/
structure Notification where
  jobId : Bytes
  /-- `prefix`. -/
  prefixText : Bytes
  /-- What stands between the quotes of the job id. -/
  jobCode : Bytes
  prefixCode : Bytes
  difficulty : Bytes
  cleanJob : Bool
  front : Bytes
  gap : Nat → Bytes
  rest : Bytes
  jobId_ne : jobId ≠ []
  printable : ∀ c ∈ jobId ++ prefixText, 0x20 ≤ c
  jobChars : Chars jobCode jobId
  prefixChars : Chars prefixCode prefixText
  digits : difficulty ≠ [] ∧ ∀ d ∈ difficulty, isDigit d = true
  gaps : ∀ i, InlineWs (gap i)
  method : ∃ a b, InlineWs a ∧ InlineWs b ∧
    (methodMember a b <:+: front ∨ methodMember a b <:+: rest)
  frontInLine : InLine front
  restInLine : InLine rest

theorem inlineWs_nil : InlineWs [] := fun c hc => by cases hc

theorem isSpace_of_inlineWs {a : Bytes} (ha : InlineWs a) : ∀ c ∈ a, isSpace c = true := by
  intro c hc
  rcases ha c hc with rfl | rfl <;> decide

namespace Notification

variable (n : Notification)

/-- The text from the key `"params"` on. -/
def params : Bytes :=
  jobParams n.gap n.jobCode n.prefixCode n.difficulty n.cleanJob n.rest

def text : Bytes := n.front ++ n.params

/-- Nothing before the parameters looks like the parameters of a job. -/
def Clear : Prop := JobFree n.front n.params

theorem jobCode_ne : n.jobCode ≠ [] := by
  intro hnil
  have hchars := n.jobChars
  rw [hnil] at hchars
  exact n.jobId_ne (List.eq_nil_of_length_eq_zero (Nat.le_zero.1 hchars.length_le))

variable {n}

/-- The parameters are taken as they are written when no quote is escaped in them. -/
theorem Clear.firstJob (hclear : n.Clear) (hjob : ch '"' ∉ n.jobCode)
    (hpre : ch '"' ∉ n.prefixCode) : FirstJob n.text n.jobCode n.prefixCode n.difficulty :=
  ⟨n.front, n.params, rfl, hclear, paramsKey, n.gap, boolText n.cleanJob, n.rest,
    ⟨by decide, fun i => isSpace_of_inlineWs (n.gaps i), n.jobCode_ne, hjob, hpre, n.digits,
      isFlag_boolText n.cleanJob⟩, rfl⟩

variable (n)

theorem search_method : (search methodPattern n.text).isSome := by
  obtain ⟨a, b, ha, hb, hmem⟩ := n.method
  have hrest : n.rest <:+ n.text := by
    rw [text, params, jobParams, jobText]
    simp only [← List.append_assoc, ← List.cons_append]
    exact List.suffix_append _ _
  have hinfix : methodMember a b <:+: n.text := by
    rcases hmem with hmem | hmem
    · exact hmem.trans (List.prefix_append _ _).isInfix
    · exact hmem.trans hrest.isInfix
  exact search_methodMember (isSpace_of_inlineWs ha) (isSpace_of_inlineWs hb) hinfix

theorem inLine_text : InLine n.text := by
  have hspace : ∀ i, InLine (n.gap i) := by
    intro i c hc
    rcases n.gaps i c hc with rfl | rfl <;> decide
  have hcode : ∀ {code s : Bytes}, Chars code s → InLine code := by
    intro code s h c hc
    have hprint := h.not_control hc
    constructor <;> rintro rfl <;> exact absurd hprint (by decide)
  have hdigits : InLine n.difficulty := by
    intro c hc
    have hdigit := n.digits.2 c hc
    constructor <;> rintro rfl <;> exact absurd hdigit (by decide)
  have hclean : InLine (boolText n.cleanJob) := by
    cases n.cleanJob <;> simp [InLine, boolText, str, ch]
  have hcons : ∀ {c : UInt8} {s : Bytes}, c ≠ ch '\n' ∧ c ≠ ch '\r' → InLine s →
      InLine (c :: s) := fun hc hs => List.forall_mem_cons.2 ⟨hc, hs⟩
  have hkey : InLine paramsKey := by simp [InLine, paramsKey, str, ch]
  have hquote : ch '"' ≠ ch '\n' ∧ ch '"' ≠ ch '\r' := by decide
  have hcomma : ch ',' ≠ ch '\n' ∧ ch ',' ≠ ch '\r' := by decide
  have hend : InLine (n.difficulty ++ (n.gap 7 ++ ch ',' :: (n.gap 8 ++
      (boolText n.cleanJob ++ n.rest)))) :=
    hdigits.append ((hspace 7).append (hcons hcomma
      ((hspace 8).append (hclean.append n.restInLine))))
  have hpre : InLine (n.prefixCode ++ ch '"' :: (n.gap 5 ++ ch ',' :: (n.gap 6 ++ _))) :=
    (hcode n.prefixChars).append (hcons hquote
      ((hspace 5).append (hcons hcomma ((hspace 6).append hend))))
  have hjob : InLine (n.jobCode ++ ch '"' :: (n.gap 3 ++ ch ',' :: (n.gap 4 ++ ch '"' :: _))) :=
    (hcode n.jobChars).append (hcons hquote
      ((hspace 3).append (hcons hcomma ((hspace 4).append (hcons hquote hpre)))))
  exact n.frontInLine.append (hkey.append ((hspace 0).append (hcons (by decide)
    ((hspace 1).append (hcons (by decide) ((hspace 2).append (hcons hquote hjob)))))))

/-- **What is taken of a notification**: the first text in it that looks like a job. -/
theorem accepts_iff_firstJob {jobCode prefixCode : Bytes} :
    (∃ job, Accepts n.text job ∧ job.jobId = jobCode ∧ job.prefixText = prefixCode) ↔
      n.text.length ≤ StratumClient.kMaxJsonLineBytes ∧
        ∃ number, FirstJob n.text jobCode prefixCode number := by
  constructor
  · rintro ⟨job, haccepts, rfl, rfl⟩
    obtain ⟨hfit, hparse⟩ := (accepts_iff n.inLine_text job).1 haccepts
    obtain ⟨-, number, hfirst, -⟩ := parseNotify_iff.1 ⟨job.cleanJob, hparse⟩
    exact ⟨hfit, number, hfirst⟩
  · rintro ⟨hfit, number, hfirst⟩
    obtain ⟨cleanJob, hparse⟩ := parseNotify_iff.2 ⟨n.search_method, number, hfirst, rfl⟩
    exact ⟨_, (accepts_iff n.inLine_text _).2 ⟨hfit, hparse⟩, rfl, rfl⟩

end Notification

end Notifications

/-! ## The way back -/

section Survival

/-- The job id in a submitted share, the second of its parameters. -/
def submittedJobId : Value → Option Bytes
  | .object members =>
    match members.lookup (str "params") with
    | some (.array (_ :: .string jobId :: _)) => some jobId
    | _ => none
  | _ => none

/-- The pool reads this job id in a line. -/
def NamesJob (jobId line : Bytes) : Prop :=
  ∃ v, Document line v ∧ submittedJobId v = some jobId

/-- In every run of `mine`, whatever is hashed starts with the text. -/
def HashesBehind (prefixText : Bytes) (cfg : MinerConfig) : Prop :=
  ∀ hash256 e events, ∀ p ∈ Proc.rounds (mineRound hash256 cfg) {} e events, ∀ tid,
    (p.1.workers tid).pc = .hashing → prefixText <+: (p.1.workers tid).hashNext.payload

/-- Every share for the job names it so, and so does every submit of a run that follows its
delivery. -/
def SubmitsAs (jobId : Bytes) (cfg : MinerConfig) (job : StratumJob) : Prop :=
  (∀ id nonce, NamesJob jobId (submitRequest id (poolUsername cfg) job.jobId nonce)) ∧
    ∀ events, Along (fun t o => ∀ line, o = .sent line → IsSubmit line →
        (connection t).delivered.getLast? = some job → NamesJob jobId line)
      ((runStratumLoop cfg).run {} events).state.env.trace

/-- The job is accepted, the payloads hashed for it start with its prefix, and every share submitted
for it, under a user name that can be sent at all, names it as the pool did. -/
def Survives (n : Notification) : Prop :=
  ∃ job, Accepts n.text job ∧ ∀ cfg, validateConfig cfg = .ok () →
    (n.prefixText ≠ [] → HashesBehind n.prefixText (miningConfig cfg job)) ∧
    (Escapable (poolUsername cfg) → SubmitsAs n.jobId cfg job)

theorem submittedJobId_value (id : Nat) (username jobId : Bytes) (nonce : UInt32) :
    submittedJobId ((Request.submit username jobId nonce).value id) = some jobId := rfl

/-- The job id that the pool reads in a share is the one the share was submitted with. -/
theorem submitted_eq {id : Nat} {username jobId : Bytes} {nonce : UInt32} {v : Value}
    (h : Document (submitRequest id username jobId nonce) v) :
    submittedJobId v = some jobId := by
  have hline := Request.document_line id (.submit username jobId nonce)
    (Request.escapable_of_document (r := .submit username jobId nonce) h)
  rw [Document.unique h hline, submittedJobId_value]

theorem document_submit {id : Nat} {username jobId : Bytes} {nonce : UInt32}
    (husername : Escapable username) (hjob : Escapable jobId) :
    NamesJob jobId (submitRequest id username jobId nonce) := by
  have hdigits : Escapable (Request.nonceDigits nonce) := by
    have hall : ∀ c ∈ str "0123456789abcdef", (0x20 : UInt8) ≤ c := by decide +kernel
    intro c hc
    exact .inl (hall c (mem_nonceDigits hc))
  have hparams : ∀ s ∈ (Request.submit username jobId nonce).params, Escapable s := by
    intro s hs
    simp only [Request.params, List.mem_cons, List.not_mem_nil, or_false] at hs
    rcases hs with rfl | rfl | rfl
    · exact husername
    · exact hjob
    · exact hdigits
  exact ⟨_, Request.document_line id _ hparams, submittedJobId_value id username jobId nonce⟩

/-- What the payloads of two nonces start with, they start with before the nonce. -/
theorem prefix_of_payloads {p q : Bytes} (h0 : p <+: q ++ leBytes 4 0) (h1 : p <+: q ++ leBytes 4 1) :
    p <+: q := by
  by_cases hlen : p.length ≤ q.length
  · exact List.prefix_of_prefix_length_le h0 (List.prefix_append _ _) hlen
  · have hpre : q <+: p :=
      List.prefix_of_prefix_length_le (List.prefix_append _ _) h0 (by omega)
    obtain ⟨t, rfl⟩ := hpre
    cases t with
    | nil => simp
    | cons c t =>
      have h0 := (List.prefix_append_right_inj q).1 h0
      have h1 := (List.prefix_append_right_inj q).1 h1
      have hc0 : c = 0 := (List.cons_prefix_cons.1 h0).1
      have hc1 : c = 1 := (List.cons_prefix_cons.1 h1).1
      rw [hc0] at hc1
      exact absurd hc1 (by decide)

/-- Where the prefix is what its text starts with, no quote is escaped in it. -/
theorem Notification.prefixCode_quoteless (n : Notification) (h : n.prefixText <+: n.prefixCode) :
    ch '"' ∉ n.prefixCode := by
  intro hmem
  obtain ⟨a, rest, hcode, ha⟩ := List.eq_append_cons_of_mem hmem
  obtain ⟨b, rest', htext, hlt⟩ := n.prefixChars.quote_before hcode ha
  rw [hcode, htext] at h
  have hfront : b ++ [0x22] <+: a ++ 0x22 :: rest := by
    refine List.IsPrefix.trans ⟨rest', ?_⟩ h
    rw [List.append_assoc, List.singleton_append]
  have hbefore : b ++ [0x22] <+: a :=
    List.prefix_of_prefix_length_le hfront (List.prefix_append _ _)
      (by rw [List.length_append, List.length_singleton]; omega)
  exact ha (hbefore.subset (List.mem_append_right _ (List.mem_singleton_self _)))

/-- A valid configuration with two threads, whose payloads start with the job's prefix, even when it
is empty. -/
def bareConfig : MinerConfig := { scriptConfig with prefixText := [], threadCount := 2 }

theorem validateConfig_bareConfig : validateConfig bareConfig = .ok () := by rfl

theorem escapable_bareConfig : Escapable (poolUsername bareConfig) := by decide +kernel

theorem prefixText_bareConfig (job : StratumJob) :
    (miningConfig bareConfig job).prefixText = job.prefixText := by
  unfold miningConfig
  by_cases hne : job.prefixText = [] <;> simp [hne, bareConfig]

/-- Both workers are started and come to their first hash. -/
def bothScript : List Event :=
  [.reporter [] [], .reporter [] [], .worker 0, .worker 0, .worker 1, .worker 1]

theorem hashing_bothScript (job : StratumJob) :
    ∃ p ∈ Proc.rounds (mineRound doubleSha256 (miningConfig bareConfig job)) {} {} bothScript,
      ∀ tid < 2, (p.1.workers tid).pc = .hashing ∧ (p.1.workers tid).nonce64 = tid := by
  refine ⟨_, List.mem_of_getLast? rfl, ?_⟩
  intro tid htid
  obtain rfl | rfl : tid = 0 ∨ tid = 1 := by omega
  · exact ⟨rfl, rfl⟩
  · exact ⟨rfl, rfl⟩

/-- What is hashed first by two workers shows the prefix of the job. -/
theorem HashesBehind.prefix_bareConfig {prefixText : Bytes} {job : StratumJob}
    (h : HashesBehind prefixText (miningConfig bareConfig job)) : prefixText <+: job.prefixText := by
  obtain ⟨p, hp, hhashing⟩ := hashing_bothScript job
  have hsound := rounds_of_steps (e := {}) stepInvariant_sound .initial bothScript p hp
  have hpayload : ∀ tid < 2, prefixText <+: job.prefixText ++ leBytes 4 tid.toUInt32.toNat := by
    intro tid htid
    obtain ⟨hpc, hnonce⟩ := hhashing tid htid
    have hbehind := h doubleSha256 {} bothScript p hp tid hpc
    rw [hsound.hashNext_payload tid (by simp [hpc]), payloadOf, prefixText_bareConfig, hnonce]
      at hbehind
    exact hbehind
  exact prefix_of_payloads (hpayload 0 (by decide)) (hpayload 1 (by decide))

/-- All payloads of a job with a prefix start with it. -/
theorem hashesBehind {prefixText : Bytes} {cfg : MinerConfig} {job : StratumJob}
    (hne : prefixText ≠ []) (hpre : prefixText <+: job.prefixText) :
    HashesBehind prefixText (miningConfig cfg job) := by
  intro hash256 e events p hp tid hpc
  have hsound := rounds_of_steps stepInvariant_sound .initial events p hp
  have hjob : job.prefixText ≠ [] := by
    intro hnil
    rw [hnil, List.prefix_nil] at hpre
    exact hne hpre
  rw [hsound.hashNext_payload tid (by simp [hpc]), payloadOf, miningConfig, if_pos hjob]
  exact hpre.trans (List.prefix_append _ _)

theorem submitsAs {cfg : MinerConfig} {job : StratumJob} (husername : Escapable (poolUsername cfg))
    (hjob : Escapable job.jobId) : SubmitsAs job.jobId cfg job := by
  refine ⟨fun id nonce => document_submit husername hjob, fun events => ?_⟩
  refine (run_ledger cfg events).along.mono ?_
  intro t o h line ho hsubmit hlast
  subst ho
  obtain ⟨job', hlast', id, nonce, rfl, -⟩ := h.submits hsubmit
  obtain rfl : job' = job := Option.some.inj (hlast'.symm.trans hlast)
  exact document_submit husername hjob

/-- A job survives when it is the first that the line seems to announce. -/
theorem survives_iff_firstJob (n : Notification) :
    Survives n ↔ n.text.length ≤ StratumClient.kMaxJsonLineBytes ∧
      ∃ prefixCode number, FirstJob n.text n.jobId prefixCode number ∧
        n.prefixText <+: prefixCode := by
  constructor
  · rintro ⟨job, haccepts, hjob⟩
    obtain ⟨hhashes, hsubmits⟩ := hjob bareConfig validateConfig_bareConfig
    obtain ⟨v, hdocument, hid⟩ := (hsubmits escapable_bareConfig).1 0 0
    rw [submitted_eq hdocument, Option.some_inj] at hid
    have hpre : n.prefixText <+: job.prefixText := by
      by_cases hne : n.prefixText = []
      · rw [hne]
        exact List.nil_prefix
      · exact (hhashes hne).prefix_bareConfig
    obtain ⟨hfit, number, hfirst⟩ := n.accepts_iff_firstJob.1 ⟨job, haccepts, hid, rfl⟩
    exact ⟨hfit, job.prefixText, number, hfirst, hpre⟩
  · rintro ⟨hfit, prefixCode, number, hfirst, hpre⟩
    obtain ⟨job, haccepts, hid, hpref⟩ := n.accepts_iff_firstJob.2 ⟨hfit, number, hfirst⟩
    refine ⟨job, haccepts, fun cfg _ => ⟨fun hne => ?_, fun husername => ?_⟩⟩
    · exact hashesBehind hne (hpref ▸ hpre)
    · rw [← hid]
      refine submitsAs husername ?_
      intro c hc
      rw [hid] at hc
      exact .inl (n.printable c (List.mem_append_left _ hc))

/-- **Jobs there and back**: a job survives exactly when its line fits, nothing is escaped in its id,
and the text of its prefix starts with the prefix. Where an earlier text of the line looks like the
parameters of a job, that one has to have its id and its prefix. -/
theorem job_survives_iff (n : Notification) :
    Survives n ↔ n.text.length ≤ StratumClient.kMaxJsonLineBytes ∧
      (n.Clear ∧ ch '\\' ∉ n.jobCode ∧ n.prefixText <+: n.prefixCode ∨
        ¬n.Clear ∧ ∃ prefixCode number, FirstJob n.text n.jobId prefixCode number ∧
          n.prefixText <+: prefixCode) := by
  rw [survives_iff_firstJob]
  by_cases hclear : n.Clear
  · simp only [hclear, true_and, not_true_eq_false, false_and, or_false]
    refine and_congr_right fun _ => ⟨?_, ?_⟩
    · rintro ⟨prefixCode, number, hfirst, hpre⟩
      obtain ⟨hjob_quote, hprefix_quote⟩ := hfirst.quoteless
      have hjob : ch '"' ∉ n.jobCode := fun hmem => hjob_quote (n.jobChars.quote_mem hmem)
      have hpref : ch '"' ∉ n.prefixCode := fun hmem =>
        hprefix_quote (hpre.subset (n.prefixChars.quote_mem hmem))
      obtain ⟨hid, rfl, -⟩ := hfirst.unique (hclear.firstJob hjob hpref)
      exact ⟨n.jobChars.eq_iff.1 hid.symm, hpre⟩
    · rintro ⟨hslash, hpre⟩
      have hfirst := hclear.firstJob (n.jobChars.not_quote hslash) (n.prefixCode_quoteless hpre)
      rw [n.jobChars.eq_iff.2 hslash] at hfirst
      exact ⟨n.prefixCode, n.difficulty, hfirst, hpre⟩
  · simp only [hclear, false_and, not_false_eq_true, true_and, false_or]

/-- The pool announces the job `a\b`. -/
def slashNotification : Notification where
  jobId := str "a\\b"
  prefixText := str "p"
  jobCode := str "a\\\\b"
  prefixCode := str "p"
  difficulty := str "1"
  cleanJob := true
  front := str "\x7b\"id\":null,\"method\":\"mining.notify\","
  gap := fun _ => []
  rest := str "]\x7d"
  jobId_ne := by decide
  printable := by decide +kernel
  jobChars := .unescaped (by decide) (by decide) (by decide)
    (.escape (.short (e := 0x5C) (c := 0x5C) (by decide))
      (chars_self (by decide +kernel)))
  prefixChars := chars_self (by decide +kernel)
  digits := by decide +kernel
  gaps := fun _ => inlineWs_nil
  method := ⟨[], [], inlineWs_nil, inlineWs_nil, .inl ⟨str "\x7b\"id\":null,", str ",", rfl⟩⟩
  frontInLine := by simp [InLine, str, ch]
  restInLine := by simp [InLine, str, ch]

/-- The share for `a\b` names another job. -/
theorem job_survives_slash :
    (∀ c ∈ slashNotification.jobId ++ slashNotification.prefixText, 0x20 ≤ c) ∧
      slashNotification.text.length ≤ StratumClient.kMaxJsonLineBytes ∧
      ¬Survives slashNotification := by
  refine ⟨by decide +kernel, by decide +kernel, ?_⟩
  intro h
  obtain ⟨-, prefixCode, number, hfirst, -⟩ := (survives_iff_firstJob _).1 h
  have htaken : FirstJob slashNotification.text (str "a\\\\b") (str "p") (str "1") :=
    search_iff.1 ⟨str "true", by rfl⟩
  exact absurd (hfirst.unique htaken).1 (by decide)

end Survival

end HermitMiner
