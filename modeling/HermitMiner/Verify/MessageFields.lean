import HermitMiner.Verify.Escapes
import HermitMiner.Verify.JobParams
import HermitMiner.Verify.PoolJobs

/-!
# What the client reads in a message

* `fieldPattern_id`, `fieldPattern_result`, `fieldPattern_error`, `fieldPattern_method`,
  `fieldPattern_params`: the patterns of the client, and what they take.
* `idField`, `resultField`, `isErrorField`, `isMethodField`, `jobField`: the members they look for.
* `fields_read`: what the readers of the client find in a JSON text.
-/

namespace HermitMiner

open Regex Regex.Pat
open Rfc8259 (Chars Value ValueText Members Document Ended fields)

/-! ## The patterns of the client -/

section Patterns

variable {text rest : Bytes} {v : Value} {vs : List Value}

/-- What `([0-9]+)` takes of a value. -/
def readId : Value → Option (List Bytes)
  | .number n => if n.takeWhile isDigit = [] then none else some [n.takeWhile isDigit]
  | _ => none

/-- What `(true|false)` takes of a value. -/
def readTruth : Value → Option (List Bytes)
  | .bool b => some [boolText b]
  | _ => none

def readNull : Value → Option (List Bytes)
  | .null => some []
  | _ => none

def readNotify : Value → Option (List Bytes)
  | .string s => if s = str "mining.notify" then some [] else none
  | _ => none

theorem ended_not_digit (h : Ended rest) : ∀ c ∈ rest.head?, isDigit c = false := by
  intro c hc
  cases hdigit : isDigit c with
  | false => rfl
  | true =>
    rcases ended_head h c hc with hspace | hcloses
    · rw [not_isSpace_of_isDigit hdigit] at hspace
      cases hspace
    · simp only [closes, ends, Bool.or_eq_true, beq_iff_eq] at hcloses
      rcases hcloses with rfl | (rfl | rfl) | rfl <;> revert hdigit <;> decide

theorem not_matchAt_digits {c : UInt8} {t : Bytes} (hc : isDigit c = false) :
    (Pat.group digits).matchAt (c :: t) = none := by
  rw [matchAt, run_group, digits, run_seq, run_one_cons, if_neg (by simp [hc])]

theorem matchAt_readId (h : ValueText text v) (hrest : Ended rest) :
    (Pat.group digits).matchAt (text ++ rest) = readId v := by
  obtain ⟨c, tail, htext, hc⟩ := h.starts
  cases v with
  | number n =>
    obtain rfl : text = n := by
      cases h
      rfl
    rw [readId]
    split
    · rename_i hnil
      have hdigit : isDigit c = false := by
        by_contra hdigit
        rw [htext, List.takeWhile_cons_of_pos (by simpa using hdigit)] at hnil
        cases hnil
      rw [htext]
      exact not_matchAt_digits hdigit
    · rename_i hne
      have hbehind : ∀ d ∈ (text.dropWhile isDigit ++ rest).head?, isDigit d = false := by
        cases hdrop : text.dropWhile isDigit with
        | nil => exact ended_not_digit hrest
        | cons e drop =>
          intro d hd
          obtain rfl : e = d := by simpa using hd
          have hnot := List.head?_dropWhile_not isDigit text
          rw [hdrop] at hnot
          exact hnot
      rw [← List.takeWhile_append_dropWhile (p := isDigit) (l := text), List.append_assoc,
        matchAt_digits hne (fun d hd => List.mem_takeWhile_imp hd) hbehind,
        List.takeWhile_append_dropWhile]
  | _ =>
    have hdigits : (valueHeads.all fun d => !isDigit d) = true := rfl
    rcases starts_cases hc with ⟨⟨n, hn⟩, -⟩ | hmem
    · cases hn
    · rw [htext]
      exact not_matchAt_digits (by simpa using List.all_eq_true.1 hdigits c hmem)

theorem matchAt_readTruth (h : ValueText text v) (z : Bytes) :
    boolToken.matchAt (text ++ z) = readTruth v := by
  have hstep : run (cat [spaces, boolToken]) ([] ++ (text ++ z)) [] (fun _ cs' => some cs') =
      boolToken.matchAt (text ++ z) := by
    rw [run_spaces_ws (List.forall_mem_nil _) spaceless_boolToken, dropWhile_valueText h,
      run_cat_cons]
    rfl
  rw [← hstep]
  rcases run_truth z [] (List.forall_mem_nil _) h with ⟨b, rfl, hrun⟩ | ⟨hnot, hrun⟩
  · exact hrun
  · refine hrun.trans ?_
    cases v with
    | bool b => exact absurd rfl (hnot b)
    | _ => rfl

/-- What is not `null` does not start with its first letter. -/
theorem head_ne_null (h : ValueText text v) (hv : v ≠ .null) :
    ∃ c tail, text = c :: tail ∧ lower c ≠ ch 'n' := by
  obtain ⟨c, tail, rfl, hc⟩ := h.starts
  refine ⟨c, tail, rfl, ?_⟩
  cases v with
  | null => exact absurd rfl hv
  | bool b =>
    obtain rfl : c = if b then 0x74 else 0x66 := hc
    cases b <;> decide
  | number n =>
    have hnumber : Rfc8259.isNumber c = true := hc
    simp only [Rfc8259.isNumber, Bool.or_eq_true, beq_iff_eq] at hnumber
    rcases hnumber with ((((hdigit | rfl) | rfl) | rfl) | rfl) | rfl
    · have hrange := (isDigit_iff c).1 hdigit
      have hA : (ch 'A').toNat = 65 := by decide
      have hlower : lower c = c := by
        simp only [lower, UInt8.le_iff_toNat_le, hA, Bool.and_eq_true, decide_eq_true_eq]
        rw [if_neg (by omega)]
      rw [hlower]
      rintro rfl
      revert hrange
      decide
    all_goals decide
  | string s =>
    obtain rfl : c = 0x22 := hc
    decide
  | array vs =>
    obtain rfl : c = 0x5B := hc
    decide
  | object ms =>
    obtain rfl : c = 0x7B := hc
    decide

theorem matchAt_readNull (h : ValueText text v) (z : Bytes) :
    (litNocase "null").matchAt (text ++ z) = readNull v := by
  rw [matchAt, run_litNocase]
  by_cases hv : v = .null
  · subst hv
    obtain rfl : text = str "null" := by
      cases h
      decide
    rw [startsWith_map (by simp), if_pos rfl]
    rfl
  · obtain ⟨c, tail, rfl, hc⟩ := head_ne_null h hv
    have hnull : str "null" = ch 'n' :: str "ull" := by decide
    have hlower : lower (ch 'n') = ch 'n' := by decide
    have hread : readNull v = none := by
      cases v with
      | null => exact absurd rfl hv
      | _ => rfl
    rw [hread, if_neg]
    simp [hnull, startsWith, hlower, hc]

/-- Where a text starts with all the bytes of a name, up to their spelling, it is the name. -/
theorem startsWith_name (spelling : UInt8 → UInt8) {k name : Bytes} :
    k.length = name.length ∧ startsWith (name.map fun c d => spelling d == spelling c) k = true ↔
      k.map spelling = name.map spelling := by
  induction name generalizing k with
  | nil =>
    simp [startsWith]
  | cons c name ih =>
    cases k with
    | nil => simp
    | cons d k =>
      have hih := ih (k := k)
      simp only [List.length_cons, Nat.add_right_cancel_iff, List.map_cons, startsWith,
        Bool.and_eq_true, beq_iff_eq, List.cons.injEq]
      rw [← hih]
      exact and_left_comm

theorem keyTest_notify : KeyTest (fun c d => d == c) (str "mining.notify") where
  quote d := beq_iff_eq
  noQuote c hc := by
    have hall : (str "mining.notify").all fun c => !(ch '"' == c) := rfl
    simpa using List.all_eq_true.1 hall c hc
  opens := by
    refine ⟨ch 'm', str "ining.notify", by decide, ?_⟩
    intro d hd
    rw [beq_eq_false_iff_ne]
    rintro rfl
    revert hd
    decide

theorem matchAt_readNotify (h : ValueText text v) (hplain : ch '\\' ∉ text) (z : Bytes) :
    (lit "\"mining.notify\"").matchAt (text ++ z) = readNotify v := by
  have hkey : str "\"mining.notify\"" = ch '"' :: str "mining.notify" ++ [ch '"'] := by decide
  have hstart : (lit "\"mining.notify\"").matchAt (text ++ z) =
      if startsWith (quotedKey (fun c d => d == c) (str "mining.notify")) (text ++ z) = true
      then some [] else none := by
    rw [matchAt, run_lit, hkey]
    rfl
  rw [hstart]
  by_cases hv : ∃ s, v = .string s
  · obtain ⟨s, rfl⟩ := hv
    cases h with
    | @string text _ hchars =>
      have hname := plain_enclosed hplain
      obtain rfl := hchars.eq_iff.2 hname
      have hquote := hchars.not_quote hname
      rw [quoted_append, readNotify]
      by_cases heq : text = str "mining.notify"
      · rw [if_pos heq, if_pos]
        subst heq
        exact startsWith_quotedKey_of_name keyTest_notify rfl ((startsWith_name id).2 rfl).2
      · rw [if_neg heq, if_neg]
        intro hstarts
        obtain ⟨hlen, hs⟩ := startsWith_quotedKey keyTest_notify hquote hstarts
        exact heq (startsWith_eq hlen hs)
  · have hnot : ∀ s, v ≠ .string s := fun s hs => hv ⟨s, hs⟩
    obtain ⟨c, tail, rfl, hc⟩ := head_ne_quote h hnot
    rw [List.cons_append, startsWith_quotedKey_of_ne keyTest_notify hc]
    cases v with
    | string s => exact absurd rfl (hnot s)
    | _ => rfl

theorem keyTest_error : KeyTest (fun c d => lower d == lower c) (str "error") where
  quote d := beq_iff_eq.trans (lower_eq_quote d)
  noQuote c hc := by
    have hall : (str "error").all fun c => !(lower (ch '"') == lower c) := rfl
    simpa using List.all_eq_true.1 hall c hc
  opens := by
    refine ⟨ch 'e', str "rror", rfl, ?_⟩
    intro d hd
    simp only [closes, ends, Bool.or_eq_true, beq_iff_eq] at hd
    rcases hd with rfl | (rfl | rfl) | rfl <;> rfl

/-- A letter is no space. -/
theorem apart_of_letter (spelling : UInt8 → UInt8) {key : Bytes}
    (hspelling : ∀ c, isSpace c = true → spelling c = c)
    (hkey : (key.head?.all fun k => !isSpace (spelling k)) = true) :
    ∀ c, isSpace c = true → ∀ k ∈ key.head?, (spelling c == spelling k) = false := by
  intro c hc k hk
  rw [Option.mem_def.1 hk] at hkey
  rw [hspelling c hc, beq_eq_false_iff_ne]
  rintro rfl
  simp [hc] at hkey

theorem fieldPattern_id :
    FieldPattern (fun c d => d == c) (str "id") (.group digits) readId where
  keyTest := keyTest_id
  apart := apart_of_letter id (fun _ _ => rfl) rfl
  spaceless := spaceless_digits
  reads h _ hrest := matchAt_readId h hrest

theorem fieldPattern_result :
    FieldPattern (fun c d => lower d == lower c) (str "result") boolToken readTruth where
  keyTest := keyTest_result
  apart := apart_of_letter lower (fun _ => lower_of_isSpace) rfl
  spaceless := spaceless_boolToken
  reads h _ _ := matchAt_readTruth h _

theorem spaceless_null : Spaceless (litNocase "null") := by
  intro β c t cs k hc
  have hnull : str "null" = ch 'n' :: str "ull" := by decide
  have hne : lower c ≠ lower (ch 'n') := by
    rw [lower_of_isSpace hc]
    rintro rfl
    revert hc
    decide
  rw [run_litNocase, if_neg]
  simp [hnull, startsWith, hne]

theorem fieldPattern_error :
    FieldPattern (fun c d => lower d == lower c) (str "error") (litNocase "null") readNull where
  keyTest := keyTest_error
  apart := apart_of_letter lower (fun _ => lower_of_isSpace) rfl
  spaceless := spaceless_null
  reads h _ _ := matchAt_readNull h _

theorem fieldPattern_method :
    FieldPattern (fun c d => d == c) (str "method") (lit "\"mining.notify\"") readNotify where
  keyTest := keyTest_method
  apart := apart_of_letter id (fun _ _ => rfl) rfl
  spaceless := spaceless_mining
  reads h hplain _ := matchAt_readNotify h hplain _

theorem fieldPattern_params :
    FieldPattern (fun c d => lower d == lower c) (str "params") jobValue readJob where
  keyTest := keyTest_params
  apart := apart_of_letter lower (fun _ => lower_of_isSpace) rfl
  spaceless := spaceless_cat (spaceless_byte rfl (by decide))
  reads h hplain _ := matchAt_readJob h hplain _

end Patterns

/-! ## What the readers find -/

section Readers

variable {text : Bytes} {v : Value}

/-- The name, whatever the case of its letters. -/
def SameName (name : String) (k : Bytes) : Prop := k.map lower = (str name).map lower

instance (name : String) (k : Bytes) : Decidable (SameName name k) :=
  inferInstanceAs (Decidable (_ = _))

/-- The digits with which the number of a member `id` starts. -/
def idField : Bytes × Value → Option Bytes
  | (k, .number n) =>
    if k = str "id" ∧ n.takeWhile isDigit ≠ [] then some (n.takeWhile isDigit) else none
  | _ => none

def resultField : Bytes × Value → Option Bool
  | (k, .bool b) => if SameName "result" k then some b else none
  | _ => none

def isErrorField : Bytes × Value → Bool
  | (k, .null) => SameName "error" k
  | _ => false

def isMethodField : Bytes × Value → Bool
  | (k, .string s) => k = str "method" ∧ s = str "mining.notify"
  | _ => false

/-- The job in a member `params`. -/
def jobField : Bytes × Value → Option StratumJob
  | (k, .array (.string jobId :: .string prefixText :: .number n :: .bool clean :: _)) =>
    if SameName "params" k ∧ jobId ≠ [] ∧ n.all isDigit = true then
      some {
        jobId := jobId
        prefixText := prefixText
        difficultyBits := parseU32 n 20
        cleanJob := clean }
    else none
  | _ => none

theorem readMember_exact {name : String} {read : Value → Option (List Bytes)} (k : Bytes) :
    readMember (fun c d => d == c) (str name) read (k, v) =
      if k = str name then read v else none := by
  have hname : k.length = (str name).length ∧
      startsWith ((str name).map fun c d => d == c) k = true ↔ k.map id = (str name).map id :=
    startsWith_name id
  rw [List.map_id, List.map_id] at hname
  rw [readMember]
  exact if_congr hname rfl rfl

theorem readMember_nocase {name : String} {read : Value → Option (List Bytes)} (k : Bytes) :
    readMember (fun c d => lower d == lower c) (str name) read (k, v) =
      if SameName name k then read v else none := by
  rw [readMember]
  exact if_congr (startsWith_name lower) rfl rfl

theorem findSome_bind {α β γ : Type} {f : α → Option β} {g : β → Option γ} {l : List α}
    (hg : ∀ x b, f x = some b → (g b).isSome) :
    (l.findSome? f).bind g = l.findSome? fun x => (f x).bind g := by
  induction l with
  | nil => rfl
  | cons x l ih =>
    rw [List.findSome?_cons, List.findSome?_cons]
    cases hx : f x with
    | none => exact ih
    | some b =>
      obtain ⟨c, hc⟩ := Option.isSome_iff_exists.1 (hg x b hx)
      simp [hc]

/-- What `parse_notify` makes of the four groups. -/
def jobOfGroups : List Bytes → Option StratumJob
  | [jobId, prefixText, difficultyBits, clean] =>
    some {
      jobId := jobId
      prefixText := prefixText
      difficultyBits := parseU32 difficultyBits 20
      cleanJob := tokenIsTrue clean }
  | _ => none

variable (h : Document text v) (hplain : ch '\\' ∉ text)
include h hplain

theorem search_id : search idPattern text = ((fields v).findSome? idField).map fun ds => [ds] := by
  have hkey : str "\"id\"" = ch '"' :: str "id" ++ [ch '"'] := by decide
  have hpattern : idPattern = fieldPattern (fun c d => d == c) (str "id") (.group digits) := by
    rw [idPattern, lit, hkey]
    rfl
  rw [hpattern, search_document fieldPattern_id h hplain, List.map_findSome?]
  congr 1
  funext m
  obtain ⟨k, w⟩ := m
  rw [readMember_exact]
  cases w with
  | number n =>
    by_cases hname : k = str "id" <;> by_cases hnil : n.takeWhile isDigit = [] <;>
      simp [readId, idField, hname, hnil]
  | _ => simp [readId, idField]

theorem search_result :
    search resultPattern text = ((fields v).findSome? resultField).map fun b => [boolText b] := by
  have hkey : str "\"result\"" = ch '"' :: str "result" ++ [ch '"'] := by decide
  have hpattern : resultPattern =
      fieldPattern (fun c d => lower d == lower c) (str "result") boolToken := by
    rw [resultPattern, litNocase, hkey]
    rfl
  rw [hpattern, search_document fieldPattern_result h hplain, List.map_findSome?]
  congr 1
  funext m
  obtain ⟨k, w⟩ := m
  rw [readMember_nocase]
  cases w with
  | bool b => by_cases hname : SameName "result" k <;> simp [readTruth, resultField, hname]
  | _ => simp [readTruth, resultField]

theorem search_error :
    (search errPattern text).isSome = (fields v).any isErrorField := by
  have hkey : str "\"error\"" = ch '"' :: str "error" ++ [ch '"'] := by decide
  have hpattern : errPattern =
      fieldPattern (fun c d => lower d == lower c) (str "error") (litNocase "null") := by
    rw [errPattern, litNocase, hkey]
    rfl
  rw [hpattern, search_document fieldPattern_error h hplain, List.isSome_findSome?]
  congr 1
  funext m
  obtain ⟨k, w⟩ := m
  rw [readMember_nocase]
  cases w with
  | null => by_cases hname : SameName "error" k <;> simp [readNull, isErrorField, hname]
  | _ => simp [readNull, isErrorField]

theorem search_method :
    (search methodPattern text).isSome = (fields v).any isMethodField := by
  have hkey : str "\"method\"" = ch '"' :: str "method" ++ [ch '"'] := by decide
  have hpattern : methodPattern =
      fieldPattern (fun c d => d == c) (str "method") (lit "\"mining.notify\"") := by
    rw [methodPattern, lit, hkey]
    rfl
  rw [hpattern, search_document fieldPattern_method h hplain, List.isSome_findSome?]
  congr 1
  funext m
  obtain ⟨k, w⟩ := m
  rw [readMember_exact]
  cases w with
  | string s =>
    by_cases hname : k = str "method" <;> by_cases hs : s = str "mining.notify" <;>
      simp [readNotify, isMethodField, hname, hs]
  | _ => simp [readNotify, isMethodField]

omit h hplain in
theorem parseNotify_eq (json : Bytes) :
    parseNotify json = if (search methodPattern json).isSome
      then (search jobPattern json).bind jobOfGroups else none := by
  rw [parseNotify]
  cases search methodPattern json with
  | none => rfl
  | some cs =>
    cases search jobPattern json with
    | none => rfl
    | some groups =>
      -- four groups, or fewer, or more
      rcases groups with _ | ⟨a, _ | ⟨b, _ | ⟨c, _ | ⟨d, _ | ⟨e, groups⟩⟩⟩⟩⟩ <;> rfl

theorem search_job :
    (search jobPattern text).bind jobOfGroups = (fields v).findSome? jobField := by
  have hkey : str "\"params\"" = ch '"' :: str "params" ++ [ch '"'] := by decide
  have hpattern : jobPattern =
      fieldPattern (fun c d => lower d == lower c) (str "params") jobValue := by
    rw [jobPattern, litNocase, hkey]
    rfl
  have hclean : ∀ b, tokenIsTrue (boolText b) = b := by decide
  have hfield : ∀ m, (readMember (fun c d => lower d == lower c) (str "params") readJob m).bind
      jobOfGroups = jobField m := by
    rintro ⟨k, w⟩
    rw [readMember_nocase]
    by_cases hname : SameName "params" k
    · rw [if_pos hname]
      unfold readJob
      split
      · rw [jobField]
        split
        · rename_i hjob
          rw [if_pos ⟨hname, hjob⟩]
          simp [jobOfGroups, hclean]
        · rename_i hjob
          rw [if_neg fun hall => hjob hall.2]
          rfl
      · rename_i hnot
        unfold jobField
        split
        · rename_i heq
          cases heq
          exact absurd rfl (hnot _ _ _ _ _)
        · rfl
    · rw [if_neg hname]
      unfold jobField
      split
      · rename_i heq
        cases heq
        rw [if_neg fun hall => hname hall.1]
        rfl
      · rfl
  rw [hpattern, search_document fieldPattern_params h hplain, findSome_bind]
  · exact congrArg (fun f => (fields v).findSome? f) (funext hfield)
  · rintro ⟨k, w⟩ groups hread
    rw [readMember_nocase] at hread
    split at hread
    · unfold readJob at hread
      split at hread
      · split at hread
        · cases hread
          rfl
        · cases hread
      · cases hread
    · cases hread

theorem parseMessageId_fields :
    parseMessageId text = ((fields v).findSome? idField).bind stoull := by
  rw [parseMessageId, search_id h hplain]
  cases (fields v).findSome? idField with
  | none => rfl
  | some ds => rfl

theorem parseBoolResult_fields : parseBoolResult text = (fields v).findSome? resultField := by
  have hclean : ∀ b, tokenIsTrue (boolText b) = b := by decide
  rw [parseBoolResult, search_result h hplain]
  cases (fields v).findSome? resultField with
  | none => rfl
  | some b => exact congrArg some (hclean b)

theorem parseNotify_fields :
    parseNotify text = if (fields v).any isMethodField then (fields v).findSome? jobField
      else none := by
  rw [parseNotify_eq, search_method h hplain, search_job h hplain]

/-- **What the client reads in a message**: in a JSON text without escapes, the four readers find
the first member in the reading order, at whatever depth, that has the name they look for (exact for
`id` and `method`, in any case of letters for the others) and a value of the kind they look for. -/
theorem fields_read :
    parseMessageId text = ((fields v).findSome? idField).bind stoull ∧
      parseBoolResult text = (fields v).findSome? resultField ∧
      parseErrorIsNull text = (fields v).any isErrorField ∧
      parseNotify text = if (fields v).any isMethodField then (fields v).findSome? jobField
        else none :=
  ⟨parseMessageId_fields h hplain, parseBoolResult_fields h hplain, search_error h hplain,
    parseNotify_fields h hplain⟩

end Readers

/-! ## A nested member -/

/-- A response with a result in its data, too. -/
def nestedResponse : Bytes :=
  str "\x7b\"data\":\x7b\"result\":true\x7d,\"id\":7,\"result\":false\x7d"

def nestedValue : Value :=
  .object [(str "data", .object [(str "result", .bool true)]), (str "id", .number (dec 7)),
    (str "result", .bool false)]

theorem document_nestedResponse : Document nestedResponse nestedValue := by
  have hname : ∀ name ∈ [str "data", str "result", str "id"], Chars name name := by
    intro name hname
    have hall : ∀ name ∈ [str "data", str "result", str "id"],
        ∀ c ∈ name, 0x20 ≤ c ∧ c ≠ 0x22 ∧ c ≠ 0x5C := by decide +kernel
    exact chars_self (hall name hname)
  have hresult : Chars (str "result") (str "result") := hname _ (by simp)
  have hdata := Members.last (member_tight hresult .trueText)
  have hmembers := Members.cons (member_tight (hname (str "data") (by simp)) (.object hdata))
    (.cons (member_tight (hname (str "id") (by simp)) (valueText_dec 7))
      (.last (member_tight hresult .falseText)))
  exact element_tight (.object hmembers)

/-- The nested result is the one that counts. -/
theorem fields_read_nested :
    parseMessageId nestedResponse = some 7 ∧ parseBoolResult nestedResponse = some true := by
  have hplain : ch '\\' ∉ nestedResponse := by decide +kernel
  obtain ⟨hid, hresult, -, -⟩ := fields_read document_nestedResponse hplain
  exact ⟨hid.trans (by rfl), hresult.trans (by rfl)⟩

end HermitMiner
