import HermitMiner.Verify.Loss
import HermitMiner.Verify.Replies

/-!
# The jobs of the fake pool

What the fake pool announces for any lines it gets, and how a reader can take it.

* `serve_cases`: a response to each line, and a notification or none after it.
* `Faithful`, `inLine_serve`: no tail of an answer announces anything but what the answer does.
* `notices_session`: the jobs announced to a session, by the number of its shares.
* `notices_sublist`: of what was announced, a reader of the lines gets some, in order.
-/

namespace HermitMiner

open FakePool Regex Regex.Pat

/-! ## Tails of lines -/

/-- No tail of the line announces anything but what the line does. -/
def Faithful (line : Bytes) : Prop :=
  ∀ tail, tail <:+ line → ∀ job, parseNotify tail = some job → parseNotify line = some job

theorem faithful_of_none {line : Bytes} (h : parseNotify line = none) : Faithful line := by
  intro tail htail job hjob
  have hsome := parseNotify_mono htail (by rw [hjob]; rfl)
  rw [h] at hsome
  cases hsome

theorem keyTest_params : KeyTest (fun c d => lower d == lower c) (str "params") where
  quote d := beq_iff_eq.trans (lower_eq_quote d)
  noQuote c hc := by
    have hall : (str "params").all fun c => !(lower (ch '"') == lower c) := rfl
    simpa using List.all_eq_true.1 hall c hc
  opens := by
    refine ⟨ch 'p', str "arams", rfl, ?_⟩
    intro d hd
    simp only [closes, ends, Bool.or_eq_true, beq_iff_eq] at hd
    rcases hd with rfl | (rfl | rfl) | rfl <;> rfl

/-- What the pattern of a notification takes, in any tail of the line, is what stands behind
`params`. -/
theorem search_jobPattern_notifyLine {params : Bytes} (hparams : IsValue params) :
    ∃ value text, ∀ tail, tail <:+ notifyLine params → ∀ cs, search jobPattern tail = some cs →
      Pat.matchAt value text = some cs := by
  obtain ⟨r₁, r₂, r₃, hline⟩ := notifyLine_members hparams
  obtain ⟨value, hspaceless, hpattern⟩ : ∃ value, Spaceless value ∧ jobPattern =
      member (.word (quotedKey (fun c d => lower d == lower c) (str "params"))) value :=
    ⟨_, spaceless_cat (spaceless_byte rfl rfl), rfl⟩
  refine ⟨value, r₃.dropWhile isSpace, fun tail htail cs hcs => ?_⟩
  obtain ⟨t, ht, hmatch⟩ := firstSuffix_sound hcs
  rw [hpattern] at hmatch
  obtain ⟨s, text, hmem, hlen, hs, hvalue⟩ :=
    member_of_match hline (ht.trans htail) keyTest_params hspaceless hmatch
  simp only [List.mem_cons, Prod.mk.injEq, List.not_mem_nil, or_false] at hmem
  rcases hmem with ⟨rfl, -⟩ | ⟨rfl, -⟩ | ⟨-, rfl⟩
  · cases hlen
  · cases hs
  · exact hvalue

theorem faithful_notifyLine {params : Bytes} (hparams : IsValue params) :
    Faithful (notifyLine params) := by
  obtain ⟨value, text, hsearch⟩ := search_jobPattern_notifyLine hparams
  intro tail htail job hjob
  have hline := parseNotify_mono htail (by rw [hjob]; rfl)
  have hnone : (search methodPattern tail).isNone = false ∧
      (search methodPattern (notifyLine params)).isNone = false := by
    constructor
    · by_contra hnone
      rw [parseNotify, if_pos (Bool.not_eq_false _ ▸ hnone)] at hjob
      cases hjob
    · by_contra hnone
      rw [parseNotify, if_pos (Bool.not_eq_false _ ▸ hnone)] at hline
      cases hline
  have hfound : ∀ json, (parseNotify json).isSome → ∃ cs, search jobPattern json = some cs := by
    intro json h
    unfold parseNotify at h
    split at h
    · cases h
    · split at h
      · exact ⟨_, ‹_›⟩
      · cases h
  obtain ⟨cs, hcs⟩ := hfound tail (by rw [hjob]; rfl)
  obtain ⟨cs', hcs'⟩ := hfound _ hline
  have hsame : some cs = some cs' :=
    (hsearch tail htail cs hcs).symm.trans (hsearch _ (List.suffix_refl _) cs' hcs')
  rw [← hjob, parseNotify, parseNotify, hnone.1, hnone.2, hcs, hcs', hsame]

/-! ## Answers -/

/-- The job that the pool announces with the number `jobSeq`. -/
def announced (jobSeq : UInt32) : StratumJob := poolJob jobSeq.toNat

theorem parseNotify_notify_eq (jobSeq : UInt32) :
    parseNotify (notify jobSeq) = some (announced jobSeq) := by
  have h := parseNotify_notify jobSeq.toNat_lt
  rwa [UInt32.ofNat_toNat] at h

/-- What the pool sends as `params`. -/
theorem exists_notifyLine (jobSeq : UInt32) :
    ∃ params, IsValue params ∧ notify jobSeq = notifyLine params := by
  have hstring : ∀ name : Bytes, ch '"' ∉ name → ch '\\' ∉ name →
      IsValue (ch '"' :: (name ++ dec jobSeq.toNat) ++ [ch '"']) := by
    intro name hquote hslash
    refine .string _ (fun h => ?_) fun h => ?_
    · exact (List.mem_append.1 h).elim hquote (quote_not_mem_dec _)
    · refine (List.mem_append.1 h).elim hslash fun hmem => ?_
      cases isDigit_of_mem_dec hmem
  have hnumber : IsValue (str "20") := .number _ fun c hc => by
    have hall : (str "20").all isDigit := rfl
    exact .inl (List.all_eq_true.1 hall c hc)
  refine ⟨_, .array [_, _, _, _] (List.forall_mem_cons.2 ⟨hstring (str "job-") ?_ ?_,
    List.forall_mem_cons.2 ⟨hstring (str "offline-job-") ?_ ?_, List.forall_mem_cons.2 ⟨hnumber,
      List.forall_mem_cons.2 ⟨.bool true, nofun⟩⟩⟩⟩), ?_⟩
  case refine_5 => simp [notify, notifyLine, str, ch, List.intercalate]
  all_goals simp [str, ch]

/-- What the pool does not know it answers with this. -/
def unknownMethod : Bytes := str "[20,\"unknown method\",null]"

theorem isValue_unknownMethod : IsValue unknownMethod := by
  have htext : unknownMethod = ch '[' :: [ch ','].intercalate [str "20",
      ch '"' :: str "unknown method" ++ [ch '"'], str "null"] ++ [ch ']'] := rfl
  have hnumber : IsValue (str "20") := .number _ fun c hc => by
    have hall : (str "20").all isDigit := rfl
    exact .inl (List.all_eq_true.1 hall c hc)
  have hstring : IsValue (ch '"' :: str "unknown method" ++ [ch '"']) := by
    refine .string _ ?_ ?_ <;> simp [str, ch]
  rw [htext]
  exact .array _ (List.forall_mem_cons.2 ⟨hnumber, List.forall_mem_cons.2 ⟨hstring,
    List.forall_mem_cons.2 ⟨.null, nofun⟩⟩⟩)

theorem inLine_response (n : Nat) {result error : Bytes} (hresult : InLine result)
    (herror : InLine error) : InLine (jsonResp n result error) := by
  have hopen : InLine (str "\x7b\"id\":") := inLine_of_all rfl
  have hmiddle : InLine (str ",\"result\":") := inLine_of_all rfl
  have hnext : InLine (str ",\"error\":") := inLine_of_all rfl
  have hclose : InLine (str "\x7d") := inLine_of_all rfl
  exact ((((((hopen.append (inLine_dec n)).append hmiddle).append hresult).append hnext).append
    herror).append hclose)

/-- A response of the pool. -/
structure IsResponse (line : Bytes) : Prop where
  inLine : InLine line
  silent : parseNotify line = none

theorem isResponse_jsonResp (n : Nat) {result error : Bytes} (hresult : IsValue result)
    (herror : IsValue error) (hresult' : InLine result) (herror' : InLine error) :
    IsResponse (jsonResp n result error) :=
  ⟨inLine_response n hresult' herror', parseNotify_response (n := n) hresult herror⟩

/-- What the pool sends for a line: a response, and after it a notification or none. -/
theorem serve_cases (s : State) (line : Bytes) : ∃ response, IsResponse response ∧
    ((serve s line).2 = [response] ∧ (serve s line).1 = s ∧
        (handler line = some .authorize → s.notified = true) ∧ handler line ≠ some .submit ∨
      (serve s line).2 = [response, notify (serve s line).1.jobSeq] ∧
        (handler line = some .authorize ∧ s.notified = false ∧
            (serve s line).1 = { s with notified := true } ∨
          handler line = some .submit ∧
            (serve s line).1 = { s with jobSeq := s.jobSeq + 1 })) := by
  have hanswer : ∀ {result}, IsValue result → InLine result →
      IsResponse (jsonResp (parseId line) result) := fun hvalue hline =>
    isResponse_jsonResp _ hvalue .null hline (inLine_of_all rfl)
  have htrue := hanswer (.bool true) (inLine_of_all rfl)
  unfold serve
  cases handler line with
  | none =>
    exact ⟨_, isResponse_jsonResp _ (.bool false) isValue_unknownMethod (inLine_of_all rfl)
      (inLine_of_all rfl), .inl ⟨rfl, rfl, nofun, nofun⟩⟩
  | some method =>
    cases method with
    | subscribe =>
      exact ⟨_, hanswer isValue_subscription (inLine_of_all rfl), .inl ⟨rfl, rfl, nofun, nofun⟩⟩
    | authorize =>
      cases hnotified : s.notified with
      | true => exact ⟨_, htrue, .inl ⟨by simp, by simp, fun _ => rfl, nofun⟩⟩
      | false => exact ⟨_, htrue, .inr ⟨by simp, .inl ⟨rfl, rfl, by simp⟩⟩⟩
    | submit => exact ⟨_, htrue, .inr ⟨rfl, .inr ⟨rfl, rfl⟩⟩⟩

theorem inLine_serve {s : State} {line l : Bytes} (h : l ∈ (serve s line).2) :
    InLine l ∧ Faithful l := by
  obtain ⟨response, hresponse, ⟨hlines, -⟩ | ⟨hlines, -⟩⟩ := serve_cases s line
  · rw [hlines, List.mem_singleton] at h
    subst h
    exact ⟨hresponse.inLine, faithful_of_none hresponse.silent⟩
  · rw [hlines, List.mem_cons, List.mem_singleton] at h
    rcases h with rfl | rfl
    · exact ⟨hresponse.inLine, faithful_of_none hresponse.silent⟩
    · obtain ⟨params, hparams, heq⟩ := exists_notifyLine (serve s line).1.jobSeq
      exact ⟨inLine_notify _, heq ▸ faithful_notifyLine hparams⟩

theorem inLine_serveAll {s : State} {lines : List Bytes} {l : Bytes}
    (h : l ∈ (serveAll s lines).2) : InLine l ∧ Faithful l := by
  induction lines using List.reverseRecOn with
  | nil => cases h
  | append_singleton lines line ih =>
    rw [serveAll_concat] at h
    exact (List.mem_append.1 h).elim ih inLine_serve

/-! ## A session with the pool -/

/-- The first `n` jobs that the pool announces to a session; it counts them in 32 bits. -/
def poolJobs (n : Nat) : List StratumJob := (List.range n).map fun i => announced (.ofNat (i + 1))

@[simp] theorem length_poolJobs (n : Nat) : (poolJobs n).length = n := by simp [poolJobs]

theorem poolJobs_succ (n : Nat) : poolJobs (n + 1) = poolJobs n ++ [announced (.ofNat (n + 1))] := by
  simp [poolJobs, List.range_succ]

theorem filterMap_notify (n : Nat) {response : Bytes} (h : IsResponse response) :
    [response, notify (.ofNat n)].filterMap parseNotify = [announced (.ofNat n)] := by
  simp [h.silent, parseNotify_notify_eq]

/-- **The jobs of a session**: one for its authorization, and one for each of its shares. -/
theorem notices_session (cfg : MinerConfig) (shares : List (Bytes × UInt32)) :
    (serveAll {} (sessionLines cfg shares)).1 = ⟨true, .ofNat (shares.length + 1)⟩ ∧
      (serveAll {} (sessionLines cfg shares)).2.filterMap parseNotify =
        poolJobs (shares.length + 1) := by
  induction shares using List.reverseRecOn with
  | nil =>
    have hlines : sessionLines cfg [] = [] ++ [Request.line 1 (.subscribe userAgent)] ++
        [Request.line 2 (.authorize (poolUsername cfg) cfg.poolPassword)] := rfl
    obtain ⟨response, hresponse, ⟨hfirst, hsame, -⟩ | ⟨-, ⟨hother, -⟩ | ⟨hother, -⟩⟩⟩ :=
      serve_cases {} (Request.line 1 (.subscribe userAgent))
    · obtain ⟨response', hresponse', ⟨-, -, hother, -⟩ | ⟨hsecond, ⟨-, -, hnext⟩ | ⟨hother, -⟩⟩⟩ :=
        serve_cases {} (Request.line 2 (.authorize (poolUsername cfg) cfg.poolPassword))
      · cases hother (handler_line _ _)
      · have hnone : [response].filterMap parseNotify = [] := by simp [hresponse.silent]
        have hempty : serveAll {} [] = ({}, []) := rfl
        rw [hlines, serveAll_concat, serveAll_concat, hempty, hsame, hfirst, hsecond, hnext,
          List.nil_append, List.filterMap_append, hnone, List.nil_append]
        exact ⟨rfl, filterMap_notify 1 hresponse'⟩
      · rw [handler_line] at hother
        cases hother
    · rw [handler_line] at hother
      cases hother
    · rw [handler_line] at hother
      cases hother
  | append_singleton shares share ih =>
    obtain ⟨hstate, hnotices⟩ := ih
    obtain ⟨response, hresponse, ⟨-, -, -, hother⟩ | ⟨hlines, ⟨hother, -⟩ | ⟨-, hnext⟩⟩⟩ :=
      serve_cases ⟨true, .ofNat (shares.length + 1)⟩
        (Request.line (shares.length + 3) (.submit (poolUsername cfg) share.1 share.2))
    · exact absurd (handler_line _ _) hother
    · rw [handler_line] at hother
      cases hother
    · have hseq : UInt32.ofNat (shares.length + 1) + 1 = .ofNat (shares.length + 1 + 1) := by
        rw [← UInt32.ofNat_one, ← UInt32.ofNat_add]
      have hlength : (shares ++ [share]).length = shares.length + 1 := List.length_append
      rw [sessionLines_concat, serveAll_concat, hstate, hlines, hnext, hseq, List.filterMap_append,
        hnotices, filterMap_notify _ hresponse, hlength, ← poolJobs_succ]
      exact ⟨rfl, rfl⟩

/-! ## What a client gets -/

/-- Whole lines are read as they were written. -/
theorem streamLines_wire {lines : List Bytes} (hlines : ∀ l ∈ lines, InLine l) :
    streamLines (wire lines) = lines := by
  have hwhole : lines.map (·.filter (!isCR ·)) = lines := by
    refine List.map_congr_left (fun l hl => ?_) |>.trans (List.map_id lines)
    refine List.filter_eq_self.2 fun c hc => ?_
    simpa [isCR] using (hlines l hl c hc).2
  exact (Framing.lines_flatMap fun l hl hnl => (hlines l hl _ hnl).1 rfl).trans hwhole

/-- What a reader makes of the beginning of faithful lines is some of what they announce, in order,
whatever it was cut off from. -/
theorem notices_sublist {readings : List Reading} {lines : List Bytes}
    (hwhole : readings.map Reading.whole <+: lines)
    (hheld : ∀ r ∈ readings, r.held <:+ r.whole) (hlines : ∀ l ∈ lines, Faithful l) :
    (readings.filterMap Reading.notice).Sublist (lines.filterMap parseNotify) := by
  induction readings generalizing lines with
  | nil => exact List.nil_sublist _
  | cons r readings ih =>
    obtain ⟨rest, rfl⟩ := hwhole
    have htail := ih (List.prefix_append _ rest) (fun r' hr' => hheld r' (List.mem_cons_of_mem r hr'))
      fun l hl => hlines l (List.mem_cons_of_mem r.whole hl)
    have hfaithful := hlines r.whole (by simp)
    cases hnotice : r.notice with
    | none =>
      rw [List.filterMap_cons_none hnotice]
      exact htail.trans ((List.sublist_cons_self _ _).filterMap _)
    | some job =>
      have hjob : parseNotify r.held = some job := by
        unfold Reading.notice at hnotice
        split at hnotice
        · cases hnotice
        · exact hnotice
      have hline := hfaithful r.held (hheld r List.mem_cons_self) job hjob
      rw [List.filterMap_cons_some hnotice, List.map_cons, List.cons_append,
        List.filterMap_cons_some hline]
      exact htail.cons_cons job

end HermitMiner
