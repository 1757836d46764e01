import HermitMiner.Stratum.Codec

/-!
# What the searches find in a message

* `run_member`: a pattern `KEY\s*:\s*VALUE` at a given place.
* `parseNotify_mono`: a notification in the tail of a line is one in the line.
* `parseMessageId_request`: the id that `parse_message_id` finds in a request is the request's.
-/

namespace HermitMiner

open Regex Regex.Pat

/-! ## Members -/

/-- The pattern does not match at a space. -/
def Spaceless (value : Pat UInt8) : Prop :=
  ∀ {β : Type} (c : UInt8) (t : Bytes) (cs : List Bytes) (k : Bytes → List Bytes → Option β),
    isSpace c = true → run value (c :: t) cs k = none

section Member

variable {β : Type} {s : Bytes} {cs : List Bytes} {k : Bytes → List Bytes → Option β}

theorem run_lit {w : String} :
    run (lit w) s cs k =
      if startsWith ((str w).map fun c d => d == c) s then k (s.drop (str w).length) cs
      else none := by
  rw [lit, run_word, List.length_map]

theorem run_litNocase {w : String} :
    run (litNocase w) s cs k =
      if startsWith ((str w).map fun c d => lower d == lower c) s
      then k (s.drop (str w).length) cs else none := by
  rw [litNocase, run_word, List.length_map]

/-- `\s*` before a pattern that does not match at a space. -/
theorem run_spaces {value : Pat UInt8} (hvalue : Spaceless value) :
    (run spaces s cs fun s' cs' => run value s' cs' k) = run value (s.dropWhile isSpace) cs k :=
  run_many_det fun c t hc => hvalue c t cs k hc

theorem spaceless_word {p : UInt8 → Bool} {ps : List (UInt8 → Bool)}
    (hp : ∀ c, isSpace c = true → p c = false) : Spaceless (.word (p :: ps)) := by
  intro β c t cs k hc
  rw [run_word]
  simp [startsWith, hp c hc]

theorem spaceless_lit {w : String} (hw : ∀ c ∈ (str w).head?, isSpace c = false)
    (hne : str w ≠ []) : Spaceless (lit w) := by
  obtain ⟨a, as, ha⟩ := List.exists_cons_of_ne_nil hne
  rw [lit, ha, List.map_cons]
  apply spaceless_word
  intro c hc
  have hspace := hw a (by simp [ha])
  rw [beq_eq_false_iff_ne]
  rintro rfl
  rw [hc] at hspace
  cases hspace

/-- A pattern for a member matches at `s` when the key is there, then a colon, and the value. -/
theorem run_member {ps : List (UInt8 → Bool)} {value : Pat UInt8} (hvalue : Spaceless value) :
    run (member (.word ps) value) s cs k =
      if startsWith ps s then
        match (s.drop ps.length).dropWhile isSpace with
        | c :: t => if c = ch ':' then run value (t.dropWhile isSpace) cs k else none
        | [] => none
      else none := by
  have hcolon : Spaceless (lit ":") := spaceless_lit (by decide +kernel) (by decide)
  rw [member, run_cat_cons, run_word]
  refine ite_congr rfl (fun _ => ?_) fun _ => rfl
  have hrest : ∀ s' : Bytes, (run spaces s' cs fun s'' cs'' =>
      run (cat [lit ":", spaces, value]) s'' cs'' k) =
      match s'.dropWhile isSpace with
        | c :: t => if c = ch ':' then run value (t.dropWhile isSpace) cs k else none
        | [] => none := by
    intro s'
    simp only [run_cat_cons, run_cat_nil]
    rw [run_spaces hcolon, run_lit]
    cases s'.dropWhile isSpace with
    | nil => rfl
    | cons c t =>
      have hstart : startsWith ((str ":").map fun c d => d == c) (c :: t) = (c == ch ':') := by
        simp [str, startsWith]
      rw [hstart]
      by_cases hc : c = ch ':'
      · rw [if_pos (by simp [hc])]
        dsimp only
        rw [if_pos hc]
        exact run_spaces hvalue
      · rw [if_neg (by simp [hc])]
        dsimp only
        rw [if_neg hc]
  rw [← hrest, run_cat_cons]

end Member

/-! ## Ids -/

section Ids

theorem spaceless_digits : Spaceless (.group digits) := by
  intro β c t cs k hc
  have hd : isDigit c = false := by
    cases hd : isDigit c with
    | false => rfl
    | true =>
      rw [not_isSpace_of_isDigit hd] at hc
      cases hc
  rw [run_group, digits, run_seq, run_one_cons, hd]
  rfl

/-- `([0-9]+)` captures all the digits that are there, if the rest matches after them. -/
theorem run_digits {β : Type} {ds rest : Bytes} {cs : List Bytes}
    {k : Bytes → List Bytes → Option β} (hne : ds ≠ []) (hds : ∀ d ∈ ds, isDigit d = true)
    (hrest : ∀ c ∈ rest.head?, isDigit c = false) (hk : (k rest (cs ++ [ds])).isSome) :
    run (.group digits) (ds ++ rest) cs k = k rest (cs ++ [ds]) := by
  obtain ⟨d, ds, rfl⟩ := List.exists_cons_of_ne_nil hne
  have hall : ∀ x ∈ ds, isDigit x = true := fun x hx => hds x (List.mem_cons_of_mem d hx)
  have hdrop : (ds ++ rest).dropWhile isDigit = rest := by
    rw [List.dropWhile_append_of_pos hall]
    cases rest with
    | nil => rfl
    | cons c rest => exact List.dropWhile_cons_of_neg (by simp [hrest c (by simp)])
  have htake : (d :: ds ++ rest).take ((d :: ds ++ rest).length - rest.length) = d :: ds := by
    rw [List.length_append, Nat.add_sub_cancel, List.take_left]
  rw [run_group, digits, run_seq, List.cons_append, run_one_cons,
    if_pos (hds d List.mem_cons_self), run_many_greedy]
  · rw [hdrop, ← List.cons_append, htake]
  · rw [hdrop, ← List.cons_append, htake]
    exact hk

/-- No member starts before its quote. -/
theorem matchAt_member_none {ps : List (UInt8 → Bool)} {value : Pat UInt8}
    (hvalue : Spaceless value) {s : Bytes} (hs : startsWith ps s = false) :
    (member (.word ps) value).matchAt s = none := by
  rw [matchAt, run_member hvalue, hs]
  rfl

theorem matchAt_id {ds rest : Bytes} (hne : ds ≠ []) (hds : ∀ d ∈ ds, isDigit d = true)
    (hrest : ∀ c ∈ rest.head?, isDigit c = false) :
    idPattern.matchAt (str "\"id\":" ++ (ds ++ rest)) = some [ds] := by
  have hkey : str "\"id\":" = str "\"id\"" ++ [ch ':'] := by decide
  obtain ⟨d, ds', hcons⟩ := List.exists_cons_of_ne_nil hne
  have hspace : (ds ++ rest).dropWhile isSpace = ds ++ rest := by
    rw [hcons, List.cons_append]
    exact List.dropWhile_cons_of_neg
      (by simp [not_isSpace_of_isDigit (hds d (by simp [hcons]))])
  rw [matchAt, idPattern, lit, run_member spaceless_digits, hkey, List.append_assoc,
    startsWith_map (by simp), if_pos rfl, List.length_map, List.drop_left, List.singleton_append,
    List.dropWhile_cons_of_neg (by decide)]
  dsimp only
  rw [if_pos rfl, hspace, run_digits hne hds hrest rfl]
  rfl

/-- The id of a message whose first quote starts its id. -/
theorem parseMessageId_of_front {front ds rest : Bytes} (hfront : ch '"' ∉ front) (hne : ds ≠ [])
    (hds : ∀ d ∈ ds, isDigit d = true) (hrest : ∀ c ∈ rest.head?, isDigit c = false) :
    parseMessageId (front ++ (str "\"id\":" ++ (ds ++ rest))) = stoull ds := by
  have hsearch : search idPattern (front ++ (str "\"id\":" ++ (ds ++ rest))) = some [ds] := by
    rw [search, firstSuffix_append]
    · exact firstSuffix_of_eq_some (matchAt_id hne hds hrest)
    · intro x y hxy hy
      obtain ⟨c, y, rfl⟩ := List.exists_cons_of_ne_nil hy
      have hc : c ≠ ch '"' := by
        rintro rfl
        exact hfront (by simp [hxy])
      apply matchAt_member_none spaceless_digits
      simp [str, startsWith, hc]
  rw [parseMessageId, hsearch]

/-- The id in a request is the one it was made with, as long as it has 64 bits. -/
theorem parseMessageId_request {id : Nat} {rest : Bytes} (hrest : rest.head? = some (ch ',')) :
    parseMessageId (str "\x7b\"id\":" ++ dec id ++ rest) =
      if 2 ^ 64 ≤ id then none else some id := by
  have hopen : str "\x7b\"id\":" = [ch '\x7b'] ++ str "\"id\":" := by decide
  rw [hopen, List.append_assoc, List.append_assoc,
    parseMessageId_of_front (by decide) (dec_ne_nil id) (fun _ => isDigit_of_mem_dec),
    stoull_digits (dec_ne_nil id) (fun _ => isDigit_of_mem_dec), digitsValue_dec]
  intro c hc
  rw [hrest, Option.mem_some_iff] at hc
  subst hc
  decide

theorem parseMessageId_subscribeRequest (id : Nat) (userAgent : Bytes) :
    parseMessageId (subscribeRequest id userAgent) = if 2 ^ 64 ≤ id then none else some id := by
  simp only [subscribeRequest, List.append_assoc]
  rw [← List.append_assoc]
  exact parseMessageId_request (by simp [str])

theorem parseMessageId_authorizeRequest (id : Nat) (username password : Bytes) :
    parseMessageId (authorizeRequest id username password) =
      if 2 ^ 64 ≤ id then none else some id := by
  simp only [authorizeRequest, List.append_assoc]
  rw [← List.append_assoc]
  exact parseMessageId_request (by simp [str])

theorem parseMessageId_submitRequest (id : Nat) (username jobId : Bytes) (nonce : UInt32) :
    parseMessageId (submitRequest id username jobId nonce) =
      if 2 ^ 64 ≤ id then none else some id := by
  simp only [submitRequest, List.append_assoc]
  rw [← List.append_assoc]
  exact parseMessageId_request (by simp [str])

end Ids

/-! ## Notifications -/

theorem balanced_jobPattern : jobPattern.Balanced := by
  simp [jobPattern, member, cat, Pat.Balanced, spaces, lit, litNocase, digits, boolToken, word,
    groups, str]

theorem groups_jobPattern : jobPattern.groups = 4 := by decide

/-- `parse_notify` accepts a text exactly when both searches succeed. -/
theorem parseNotify_isSome (json : Bytes) :
    (parseNotify json).isSome ↔
      (search methodPattern json).isSome ∧ (search jobPattern json).isSome := by
  unfold parseNotify
  cases hm : search methodPattern json with
  | none => simp
  | some ms =>
    cases hj : search jobPattern json with
    | none => simp
    | some cs =>
      have hlen := search_length balanced_jobPattern hj
      rw [groups_jobPattern] at hlen
      match cs, hlen with
      | [jobId, prefixText, difficultyBits, clean], _ => simp

/-- What `parse_notify` accepts in the tail of a text, it accepts in the text. -/
theorem parseNotify_mono {tail json : Bytes} (htail : tail <:+ json)
    (h : (parseNotify tail).isSome) : (parseNotify json).isSome := by
  rw [parseNotify_isSome] at h ⊢
  exact ⟨firstSuffix_mono htail h.1, firstSuffix_mono htail h.2⟩

end HermitMiner
