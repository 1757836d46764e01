import HermitMiner.Verify.Bookkeeping

/-!
# Submitted shares

* `hexValue_nonceToHex`: the nonce of a submit is eight hexadecimal digits that denote it.
* `submitted_shares_valid`: every submit carries a share that is valid for the job delivered last.
-/

namespace HermitMiner

open Oracle

/-! ## The text of a nonce -/

/-- The value of a lower-case hexadecimal digit. -/
def hexDigitValue (c : UInt8) : Option Nat :=
  if isDigit c then some (c.toNat - 48)
  else if ch 'a' ≤ c ∧ c ≤ ch 'f' then some (c.toNat - 87)
  else none

/-- The number a string of hexadecimal digits denotes. -/
def hexValue (ds : Bytes) : Option Nat :=
  ds.foldlM (fun v d => (16 * v + ·) <$> hexDigitValue d) 0

theorem hexDigitValue_digitChar : ∀ r < 16, hexDigitValue (ch (Nat.digitChar r)) = some r := by
  decide

theorem hexValue_concat (ds : Bytes) (d : UInt8) :
    hexValue (ds ++ [d]) = (hexValue ds).bind fun v => (16 * v + ·) <$> hexDigitValue d := by
  rw [hexValue, List.foldlM_append]
  simp [hexValue]

theorem hexValue_toDigits (n : Nat) : hexValue ((Nat.toDigits 16 n).map ch) = some n := by
  induction n using Nat.strongRecOn with
  | ind n ih =>
    rw [Nat.toDigits_eq_if (by decide)]
    split
    · have hdigit := hexDigitValue_digitChar n ‹_›
      simp [hexValue, hdigit]
    · have hdigit := hexDigitValue_digitChar (n % 16) (Nat.mod_lt n (by decide))
      rw [List.map_append, List.map_singleton, hexValue_concat, ih (n / 16) (by omega), hdigit]
      simp only [Option.bind_some, Option.map_eq_map, Option.map_some]
      congr 1
      omega

/-- Zeros in front change nothing. -/
theorem hexValue_zeros (k : Nat) (ds : Bytes) :
    hexValue (List.replicate k (ch '0') ++ ds) = hexValue ds := by
  have hzero : hexDigitValue (ch '0') = some 0 := by decide
  induction k with
  | zero => rfl
  | succ k ih =>
    rw [List.replicate_succ, List.cons_append]
    simpa [hexValue, hzero] using ih

theorem length_nonceToHex (nonce : UInt32) : (nonceToHex nonce).length = 8 := by
  have hlen : (Nat.toDigits 16 nonce.toNat).length ≤ 8 :=
    (Nat.length_toDigits_le_iff (by decide) (by decide)).2 nonce.toNat_lt
  rw [nonceToHex, List.length_leftpad, List.length_map]
  omega

theorem hexValue_nonceToHex (nonce : UInt32) : hexValue (nonceToHex nonce) = some nonce.toNat := by
  rw [nonceToHex, List.leftpad, hexValue_zeros, hexValue_toDigits]

/-! ## Submits -/

/-- A `mining.submit` line. -/
def IsSubmit (line : Bytes) : Prop :=
  ∃ id rest, line = str "\x7b\"id\":" ++ dec id ++ str ",\"method\":\"mining.submit\"" ++ rest

theorem dec_append_inj {m n : Nat} {r s : Bytes} (hr : ∀ c ∈ r.head?, isDigit c = false)
    (hs : ∀ c ∈ s.head?, isDigit c = false) (h : dec m ++ r = dec n ++ s) : m = n ∧ r = s := by
  have htake : ∀ (k : Nat) (t : Bytes), (∀ c ∈ t.head?, isDigit c = false) →
      (dec k ++ t).takeWhile isDigit = dec k := by
    intro k t ht
    rw [List.takeWhile_append_of_pos fun d hd => isDigit_of_mem_dec hd]
    cases t with
    | nil => simp
    | cons c t => rw [List.takeWhile_cons_of_neg (by simp [ht c (by simp)]), List.append_nil]
  have hdec : dec m = dec n := by rw [← htake m r hr, h, htake n s hs]
  obtain rfl := dec_injective hdec
  exact ⟨rfl, List.append_cancel_left h⟩

/-- A line with another method is no submit. -/
theorem not_isSubmit {id : Nat} {method rest : Bytes} (hcomma : method.head? = some (ch ','))
    (hmethod : ∀ rest', method ++ rest ≠ str ",\"method\":\"mining.submit\"" ++ rest') :
    ¬IsSubmit (str "\x7b\"id\":" ++ dec id ++ method ++ rest) := by
  rintro ⟨id', rest', h⟩
  rw [List.append_assoc, List.append_assoc, List.append_assoc, List.append_assoc] at h
  refine hmethod rest' (dec_append_inj ?_ ?_ (List.append_cancel_left h)).2
  · intro c hc
    rw [List.head?_append, hcomma, Option.some_or, Option.mem_some_iff] at hc
    subst hc
    decide
  · intro c hc
    have hhead : (str ",\"method\":\"mining.submit\"").head? = some (ch ',') := by decide
    rw [List.head?_append, hhead, Option.some_or, Option.mem_some_iff] at hc
    subst hc
    decide

theorem not_isSubmit_subscribeRequest (id : Nat) (userAgent : Bytes) :
    ¬IsSubmit (subscribeRequest id userAgent) := by
  rw [subscribeRequest, List.append_assoc, List.append_assoc]
  apply not_isSubmit (by decide)
  intro rest' h
  have hfront := congrArg (List.take 24) h
  revert hfront
  rw [List.take_append_of_le_length (by decide), List.take_append_of_le_length (by decide)]
  decide

theorem not_isSubmit_authorizeRequest (id : Nat) (username password : Bytes) :
    ¬IsSubmit (authorizeRequest id username password) := by
  simp only [authorizeRequest, List.append_assoc]
  rw [← List.append_assoc, ← List.append_assoc]
  apply not_isSubmit (by decide)
  intro rest' h
  have hfront := congrArg (List.take 24) h
  revert hfront
  rw [List.take_append_of_le_length (by decide), List.take_append_of_le_length (by decide)]
  decide

/-- The line submits a nonce for the job, which is valid for it. -/
def SubmitsValid (cfg : MinerConfig) (job : StratumJob) (line : Bytes) : Prop :=
  ∃ id nonce, line = submitRequest id (poolUsername cfg) job.jobId nonce ∧
    (nonceToHex nonce).length = 8 ∧ hexValue (nonceToHex nonce) = some nonce.toNat ∧
    ValidShare cfg job nonce

/-- A submit that may be sent carries a valid share of the job delivered last. -/
theorem Lawful.submits {cfg : MinerConfig} {k : Connection} {line : Bytes}
    (h : Lawful (poolUsername cfg) (ValidShare cfg) k (.sent line)) (hsubmit : IsSubmit line) :
    ∃ job, k.delivered.getLast? = some job ∧ SubmitsValid cfg job line := by
  obtain ⟨id, hrequest, -, -⟩ := h
  cases hrequest with
  | subscribe userAgent => exact absurd hsubmit (not_isSubmit_subscribeRequest id userAgent)
  | authorize password => exact absurd hsubmit (not_isSubmit_authorizeRequest id _ password)
  | submit job nonce hjob hvalid =>
    exact ⟨job, hjob, id, nonce, rfl, length_nonceToHex nonce, hexValue_nonceToHex nonce, hvalid⟩

/-- **Submitted shares**: in every run, every submit that is sent carries the id of the job that
`wait_for_job` delivered last, and a nonce that is valid for this job. -/
theorem submitted_shares_valid (cfg : MinerConfig) (events : List Event) :
    Along (fun t o => ∀ line, o = .sent line → IsSubmit line →
        ∃ job, (connection t).delivered.getLast? = some job ∧ SubmitsValid cfg job line)
      ((runStratumLoop cfg).run {} events).state.env.trace := by
  refine (run_ledger cfg events).along.mono ?_
  intro t o h line ho hsubmit
  subst ho
  exact h.submits hsubmit

end HermitMiner
