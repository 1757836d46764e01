import HermitMiner.FakePool
import HermitMiner.Verify.Announced

/-!
# Notifications as they are written

* `announcement`: the fake pool's notification, with white space between its tokens and any further
  parameters.
* `parseNotify_announcement`: `parse_notify` gives back what was announced.
-/

namespace HermitMiner

/-! ## The text -/

/-- What stands before the parameters. -/
def opening (gap : Nat → Bytes) : Bytes :=
  gap 0 ++ ch '\x7b' :: (gap 1 ++ (str "\"id\"" ++ (gap 2 ++ ch ':' :: (gap 3 ++ (str "null" ++
    (gap 4 ++ ch ',' :: (gap 5 ++ (methodMember (gap 6) (gap 7) ++ (gap 8 ++ ch ',' ::
      gap 9)))))))))

/-- A notification of a job as the fake pool writes it, with a gap before each token, and with
`further` for what follows the fourth parameter in the list. -/
def announcement (jobId prefixText : Bytes) (difficulty : UInt32) (cleanJob : Bool)
    (gap : Nat → Bytes) (further : Bytes) : Bytes :=
  opening gap ++ jobParams (fun i => gap (10 + i)) jobId prefixText (dec difficulty.toNat) cleanJob
    (further ++ ch ']' :: (gap 19 ++ ch '\x7d' :: gap 20))

/-- The fake pool leaves no gaps and adds no parameters. -/
theorem notify_eq (jobSeq : UInt32) :
    FakePool.notify jobSeq = announcement (str "job-" ++ dec jobSeq.toNat)
      (str "offline-job-" ++ dec jobSeq.toNat) 20 true (fun _ => []) [] := by
  have htwenty : dec 20 = str "20" := by rfl
  simp [FakePool.notify, announcement, opening, methodMember, jobParams, jobText, boolText, htwenty,
    paramsKey, str, ch]

/-! ## No key before the parameters -/

/-- In a text without a `p` no key starts. -/
theorem keyless_of_letters {front : Bytes} (h : ∀ c ∈ front, lower c ≠ ch 'p') : Keyless front := by
  intro t ht hne hkey
  have hkeyText : paramsKey = ch '"' :: ch 'p' :: str "arams\"" := rfl
  obtain ⟨c, t, rfl⟩ := List.exists_cons_of_ne_nil hne
  have hsuffix := (List.mem_tails _ _).1 ht
  cases t with
  | nil =>
    rw [hkeyText, List.cons_append, List.map_cons, List.cons_prefix_cons] at hkey
    exact absurd (List.cons_prefix_cons.1 hkey.2).1 (by decide)
  | cons d t =>
    rw [hkeyText, List.cons_append, List.cons_append, List.map_cons, List.map_cons,
      List.cons_prefix_cons] at hkey
    exact h d (hsuffix.subset (by simp)) (List.cons_prefix_cons.1 hkey.2).1.symm

theorem keyless_opening {gap : Nat → Bytes} (hgap : ∀ i, ∀ c ∈ gap i, isSpace c = true) :
    Keyless (opening gap) := by
  have hspace : ∀ i, ∀ c ∈ gap i, lower c ≠ ch 'p' := by
    intro i c hc heq
    have hc' := hgap i c hc
    rw [lower_of_isSpace hc'] at heq
    rw [heq] at hc'
    revert hc'
    decide
  apply keyless_of_letters
  simp only [opening, methodMember, List.forall_mem_append, List.forall_mem_cons]
  exact ⟨hspace 0, by decide, hspace 1, by decide +kernel, hspace 2, by decide, hspace 3,
    by decide +kernel, hspace 4, by decide, hspace 5, ⟨by decide +kernel, hspace 6, by decide,
      hspace 7, by decide +kernel⟩, hspace 8, by decide, hspace 9⟩

theorem methodMember_opening (gap : Nat → Bytes) :
    methodMember (gap 6) (gap 7) <:+: opening gap := by
  refine ⟨gap 0 ++ ch '\x7b' :: (gap 1 ++ (str "\"id\"" ++ (gap 2 ++ ch ':' :: (gap 3 ++
    (str "null" ++ (gap 4 ++ ch ',' :: gap 5)))))), gap 8 ++ ch ',' :: gap 9, ?_⟩
  simp only [opening, List.append_assoc, List.cons_append]

/-! ## What `parse_notify` makes of it -/

theorem isSpace_of_isWs {c : UInt8} (h : Rfc8259.isWs c = true) : isSpace c = true := by
  have hcases : c = 0x20 ∨ c = 0x09 ∨ c = 0x0A ∨ c = 0x0D := by
    simpa [Rfc8259.isWs, or_assoc] using h
  rcases hcases with rfl | rfl | rfl | rfl <;> decide

/-- The number is the one that was written. -/
theorem parseU32_dec (n fallback : UInt32) : parseU32 (dec n.toNat) fallback = n := by
  apply UInt32.toNat_inj.1
  have hn := n.toNat_lt
  rw [parseU32_digits (dec_ne_nil _) (fun _ => isDigit_of_mem_dec), digitsValue_dec, if_pos hn]

/-- **Notify decoding undoes notify encoding**: for every job id and prefix without a quote,
whatever they contain besides, every difficulty and flag, any white space between the tokens, and
whatever follows the fourth parameter. -/
theorem parseNotify_announcement (jobId prefixText : Bytes) (difficulty : UInt32) (cleanJob : Bool)
    (gap : Nat → Bytes) (further : Bytes) (hne : jobId ≠ []) (hjob : ch '"' ∉ jobId)
    (hpre : ch '"' ∉ prefixText) (hgap : ∀ i, Rfc8259.Ws (gap i)) :
    parseNotify (announcement jobId prefixText difficulty cleanJob gap further) =
      some ⟨jobId, prefixText, difficulty, cleanJob⟩ := by
  have hspace : ∀ i, ∀ c ∈ gap i, isSpace c = true := fun i c hc => isSpace_of_isWs (hgap i c hc)
  have hmethod := (methodMember_opening gap).trans (List.prefix_append (opening gap)
    (jobParams (fun i => gap (10 + i)) jobId prefixText (dec difficulty.toNat) cleanJob
      (further ++ ch ']' :: (gap 19 ++ ch '\x7d' :: gap 20)))).isInfix
  rw [announcement, parseNotify_jobParams (keyless_opening hspace) (hspace 6) (hspace 7) hmethod
    (fun i => hspace (10 + i)) hne hjob hpre ⟨dec_ne_nil _, fun _ => isDigit_of_mem_dec⟩,
    parseU32_dec]

/-- A job id and a prefix that look like the rest of the line. -/
theorem parseNotify_announcement_tokens :
    parseNotify (announcement (str "params:[mining.notify,") (str "],true") 4294967295 false
      (fun _ => str "\r\n\t ") (str ",\"params\":[\"x\",\"y\",1,true]")) =
      some ⟨str "params:[mining.notify,", str "],true", 4294967295, false⟩ :=
  parseNotify_announcement _ _ _ _ _ _ (by decide) (by decide) (by decide) fun _ => by
    unfold Rfc8259.Ws
    decide +kernel

end HermitMiner
