import HermitMiner.Verify.Extraction

/-!
# The parameters of a notification

* `readJob`: what the pattern for the parameters takes of a value.
* `run_open_quote`, `Behind.run_comma`, `run_number`, `run_truth`: the search goes from one value of
  the array to the next.
* `matchAt_readJob`: it takes what `readJob` says.
-/

namespace HermitMiner

open Regex Regex.Pat
open Rfc8259 (Value ValueText Elements Ws)

/-! ## Steps of the search for a job -/

section Steps

variable {β : Type} {w : String} {as : List (Pat UInt8)} {a s t z : Bytes} {cs : List Bytes}
  {k : Bytes → List Bytes → Option β} {v : Value}

theorem run_spaces_ws {p : Pat UInt8} (ha : Ws a) (hp : Spaceless p) :
    run (cat (spaces :: p :: as)) (a ++ s) cs k = run (cat (p :: as)) (s.dropWhile isSpace) cs k := by
  have hdet : ∀ c t, isSpace c = true → run (cat (p :: as)) (c :: t) cs k = none :=
    fun c t hc => spaceless_cat hp c t cs k hc
  rw [run_cat_cons, spaces, run_many_det hdet, dropWhile_ws ha]

theorem run_byte_ne {c d : UInt8} (hw : str w = [c]) (hd : d ≠ c) :
    run (cat (lit w :: as)) (d :: s) cs k = none := by
  rw [run_cat_cons, run_lit, hw, if_neg]
  simpa [startsWith] using hd

theorem run_comma_none {c : UInt8} (hspace : isSpace c = false) (hc : c ≠ ch ',') :
    run (cat (spaces :: lit "," :: as)) (c :: s) cs k = none := by
  have hcomma : Spaceless (lit ",") := spaceless_byte rfl (by decide)
  have hstay : run (cat (spaces :: lit "," :: as)) ([] ++ c :: s) cs k =
      run (cat (lit "," :: as)) (c :: s) cs k :=
    run_spaces_append (List.forall_mem_nil _) (head_nonspace hspace) hcomma
  exact hstay.trans (run_byte_ne rfl hc)

/-- `([0-9]+)\s*,` takes all the digits that are there. -/
theorem run_digits_comma :
    run (cat (.group digits :: spaces :: lit "," :: as)) s cs k =
      if s.takeWhile isDigit = [] then none
      else run (cat (spaces :: lit "," :: as)) (s.dropWhile isDigit)
        (cs ++ [s.takeWhile isDigit]) k := by
  have hdet : ∀ c t cs, isDigit c = true →
      run (cat (spaces :: lit "," :: as)) (c :: t) cs k = none := by
    intro c t cs hc
    have hne : c ≠ ch ',' := by
      rintro rfl
      revert hc
      decide
    exact run_comma_none (not_isSpace_of_isDigit hc) hne
  rw [run_cat_cons, run_group, digits, run_seq]
  cases s with
  | nil => rfl
  | cons d s =>
    rw [run_one_cons]
    by_cases hd : isDigit d = true
    · have htake : (d :: s).takeWhile isDigit = d :: s.takeWhile isDigit :=
        List.takeWhile_cons_of_pos hd
      have hdrop : (d :: s).dropWhile isDigit = s.dropWhile isDigit :=
        List.dropWhile_cons_of_pos hd
      have hsplit := List.takeWhile_append_dropWhile (p := isDigit) (l := d :: s)
      have hlength := congrArg List.length hsplit
      rw [List.length_append, hdrop] at hlength
      have htaken : (d :: s).take ((d :: s).length - (s.dropWhile isDigit).length) =
          (d :: s).takeWhile isDigit := by
        rw [← hlength, Nat.add_sub_cancel]
        exact (List.prefix_iff_eq_take.1 (List.takeWhile_prefix isDigit)).symm
      rw [if_pos hd, run_many_det, hdrop, htaken, if_neg (by simp [htake])]
      intro c t hc
      exact hdet c t _ hc
    · rw [if_neg hd, if_pos (List.takeWhile_cons_of_neg hd)]

/-- The first byte of what is no string. -/
theorem head_ne_quote (h : ValueText t v) (hv : ∀ u, v ≠ .string u) :
    ∃ c rest, t = c :: rest ∧ c ≠ ch '"' := by
  obtain ⟨c, rest, rfl, hc⟩ := h.starts
  refine ⟨c, rest, rfl, ?_⟩
  rintro rfl
  cases v with
  | string u => exact hv u rfl
  | bool b => cases b <;> cases hc
  | _ => cases hc

/-- `\s*"` comes into a string. -/
theorem run_open_quote (ha : Ws a) (h : ValueText t v) (hplain : ch '\\' ∉ t) :
    (∃ u, v = .string u ∧ ch '"' ∉ u ∧ run (cat (spaces :: lit "\"" :: as)) (a ++ (t ++ z)) cs k =
      run (cat as) (u ++ ch '"' :: z) cs k) ∨
    ((∀ u, v ≠ .string u) ∧ run (cat (spaces :: lit "\"" :: as)) (a ++ (t ++ z)) cs k = none) := by
  have hquote : Spaceless (lit "\"") := spaceless_byte rfl (by decide)
  rw [run_spaces_ws ha hquote, dropWhile_valueText h]
  by_cases hv : ∃ u, v = .string u
  · left
    obtain ⟨u, rfl⟩ := hv
    cases h with
    | string hchars =>
      have hname := plain_enclosed hplain
      obtain rfl := hchars.eq_iff.2 hname
      exact ⟨_, rfl, hchars.not_quote hname, by rw [quoted_append]; exact run_quote⟩
  · right
    have hnot : ∀ u, v ≠ .string u := fun u hu => hv ⟨u, hu⟩
    obtain ⟨c, rest, rfl, hc⟩ := head_ne_quote h hnot
    exact ⟨hnot, run_byte_ne rfl hc⟩

/-- What stands behind an element of an array: the other elements, and the bracket. -/
def Behind (vs : List Value) (z : Bytes) : Prop :=
  ∃ b s, Ws b ∧ ((vs = [] ∧ z = b ++ ch ']' :: s) ∨
    ∃ rest, Elements rest vs ∧ ch '\\' ∉ rest ∧ z = b ++ ch ',' :: (rest ++ ch ']' :: s))

/-- The first of the elements. -/
theorem elements_first {text : Bytes} {vs : List Value} (h : Elements text vs)
    (hplain : ch '\\' ∉ text) (s : Bytes) :
    ∃ v vs' a t z, vs = v :: vs' ∧ Ws a ∧ ValueText t v ∧ ch '\\' ∉ t ∧ Behind vs' z ∧
      text ++ ch ']' :: s = a ++ (t ++ z) := by
  cases h with
  | last h =>
    obtain ⟨ha, hvalue, hb⟩ := h
    refine ⟨_, [], _, _, _, rfl, ha, hvalue, plain_left (plain_right hplain),
      ⟨_, s, hb, .inl ⟨rfl, rfl⟩⟩, ?_⟩
    simp
  | cons h hrest =>
    obtain ⟨ha, hvalue, hb⟩ := h
    refine ⟨_, _, _, _, _, rfl, ha, hvalue, plain_left (plain_right (plain_left hplain)),
      ⟨_, s, hb, .inr ⟨_, hrest, plain_tail (plain_right hplain), rfl⟩⟩, ?_⟩
    have hcomma : ch ',' = 0x2C := by decide
    simp [hcomma]

theorem isSpace_bracket : isSpace (ch ']') = false := by decide

/-- `\s*,\s*` goes on to the next element. -/
theorem Behind.run_comma {vs : List Value} (h : Behind vs z) :
    (vs = [] ∧ run (cat (spaces :: lit "," :: spaces :: as)) z cs k = none) ∨
    ∃ v vs' a t z', vs = v :: vs' ∧ Ws a ∧ ValueText t v ∧ ch '\\' ∉ t ∧ Behind vs' z' ∧
      run (cat (spaces :: lit "," :: spaces :: as)) z cs k =
        run (cat (spaces :: as)) (a ++ (t ++ z')) cs k := by
  have hcomma : Spaceless (lit ",") := spaceless_byte rfl (by decide)
  obtain ⟨b, s, hb, ⟨rfl, rfl⟩ | ⟨rest, hrest, hplain, rfl⟩⟩ := h
  · left
    rw [run_spaces_ws hb hcomma, dropWhile_isSpace_of_head isSpace_bracket]
    exact ⟨rfl, run_byte_ne rfl (by decide)⟩
  · right
    obtain ⟨v, vs', a, t, z', hvs, ha, hvalue, ht, hbehind, heq⟩ := elements_first hrest hplain s
    refine ⟨v, vs', a, t, z', hvs, ha, hvalue, ht, hbehind, ?_⟩
    rw [run_spaces_ws hb hcomma, dropWhile_isSpace_of_head (by decide), run_byte rfl, heq]

/-- No digit stands behind an element. -/
theorem Behind.not_digit {vs : List Value} (h : Behind vs z) : ∀ c ∈ z.head?, isDigit c = false := by
  obtain ⟨b, s, hb, hz⟩ := h
  have hhead : ∃ c rest, z = b ++ c :: rest ∧ isDigit c = false := by
    rcases hz with ⟨-, rfl⟩ | ⟨rest, -, -, rfl⟩
    · exact ⟨_, _, rfl, by decide⟩
    · exact ⟨_, _, rfl, by decide⟩
  obtain ⟨c, rest, rfl, hc⟩ := hhead
  intro d hd
  cases b with
  | nil =>
    obtain rfl : c = d := by simpa using hd
    exact hc
  | cons e b =>
    obtain rfl : e = d := by simpa using hd
    cases hdigit : isDigit e with
    | false => rfl
    | true =>
      have hspace := isSpace_of_isWs (hb e List.mem_cons_self)
      rw [not_isSpace_of_isDigit hdigit] at hspace
      cases hspace

/-- The digits of a text before another one that starts with none. -/
theorem takeWhile_digits (hz : ∀ c ∈ z.head?, isDigit c = false) :
    (t ++ z).takeWhile isDigit = t.takeWhile isDigit ∧
      (t ++ z).dropWhile isDigit = t.dropWhile isDigit ++ z := by
  induction t with
  | nil =>
    cases z with
    | nil => exact ⟨rfl, rfl⟩
    | cons c z =>
      have hc := hz c rfl
      simp [hc]
  | cons c t ih =>
    rw [List.cons_append, List.takeWhile_cons, List.takeWhile_cons, List.dropWhile_cons,
      List.dropWhile_cons, ih.1, ih.2]
    split
    · exact ⟨rfl, rfl⟩
    · exact ⟨rfl, rfl⟩

/-- The third parameter is taken when it is written in digits alone. -/
theorem run_number {vs : List Value} (ha : Ws a) (h : ValueText t v) (hz : Behind vs z) :
    (∃ n, v = .number n ∧ n ≠ [] ∧ (∀ d ∈ n, isDigit d = true) ∧
      run (cat (spaces :: .group digits :: spaces :: lit "," :: as)) (a ++ (t ++ z)) cs k =
        run (cat (spaces :: lit "," :: as)) z (cs ++ [n]) k) ∨
    ((∀ n, v = .number n → ¬∀ d ∈ n, isDigit d = true) ∧
      run (cat (spaces :: .group digits :: spaces :: lit "," :: as)) (a ++ (t ++ z)) cs k = none) := by
  obtain ⟨htake, hdrop⟩ := takeWhile_digits (t := t) hz.not_digit
  rw [run_spaces_ws ha spaceless_digits, dropWhile_valueText h, run_digits_comma, htake, hdrop]
  by_cases hall : (∃ n, v = .number n) ∧ ∀ d ∈ t, isDigit d = true
  · left
    obtain ⟨⟨n, rfl⟩, hall⟩ := hall
    obtain ⟨c, rest, htext, -⟩ := h.starts
    have hne : t ≠ [] := by
      rw [htext]
      exact List.cons_ne_nil c rest
    have hself : t.takeWhile isDigit = t := List.takeWhile_eq_self_iff.2 hall
    have hnil : t.dropWhile isDigit = [] := List.dropWhile_eq_nil_iff.2 hall
    rw [hself, hnil, if_neg hne, List.nil_append]
    cases h with
    | number h => exact ⟨_, rfl, hne, hall, rfl⟩
  · right
    by_cases hv : ∃ n, v = .number n
    · have hnot : ¬∀ d ∈ t, isDigit d = true := fun hdigits => hall ⟨hv, hdigits⟩
      obtain ⟨n, rfl⟩ := hv
      cases h with
      | @number minus int frac exp h =>
        refine ⟨fun n hn => by cases hn; exact hnot, ?_⟩
        split
        · rfl
        · -- behind the digits the number goes on
          cases hbehind : (minus ++ int ++ frac ++ exp).dropWhile isDigit with
          | nil => exact absurd (List.dropWhile_eq_nil_iff.1 hbehind) hnot
          | cons e rest =>
            have hmem : e ∈ minus ++ int ++ frac ++ exp := by
              refine (List.dropWhile_suffix isDigit).subset ?_
              rw [hbehind]
              exact List.mem_cons_self
            have hnumber := h.mem hmem
            have hne : e ≠ ch ',' := by
              rintro rfl
              revert hnumber
              decide
            exact run_comma_none (not_isSpace_of_isNumber hnumber).1 hne
    · refine ⟨fun n hn => absurd ⟨n, hn⟩ hv, ?_⟩
      obtain ⟨c, rest, rfl, hc⟩ := h.starts
      have hdigit : isDigit c = false := by
        have hdigits : (valueHeads.all fun d => !isDigit d) = true := rfl
        rcases starts_cases hc with ⟨hnumber, -⟩ | hmem
        · exact absurd hnumber hv
        · simpa using List.all_eq_true.1 hdigits c hmem
      rw [List.takeWhile_cons_of_neg (by simp [hdigit]), if_pos rfl]

/-- What is no truth value starts with no letter of one. -/
theorem head_ne_truth (h : ValueText t v) (hv : ∀ b, v ≠ .bool b) :
    ∃ c rest, t = c :: rest ∧ lower c ≠ ch 't' ∧ lower c ≠ ch 'f' := by
  obtain ⟨c, rest, rfl, hc⟩ := h.starts
  refine ⟨c, rest, rfl, ?_⟩
  cases v with
  | number n => exact (not_isSpace_of_isNumber hc).2
  | bool b => exact absurd rfl (hv b)
  | null =>
    obtain rfl : c = 0x6E := hc
    decide
  | string u =>
    obtain rfl : c = 0x22 := hc
    decide
  | array vs =>
    obtain rfl : c = 0x5B := hc
    decide
  | object ms =>
    obtain rfl : c = 0x7B := hc
    decide

theorem run_boolToken_none {c : UInt8} (ht : lower c ≠ ch 't') (hf : lower c ≠ ch 'f') :
    run boolToken (c :: s) cs k = none := by
  have htrue : str "true" = ch 't' :: str "rue" := by decide
  have hfalse : str "false" = ch 'f' :: str "alse" := by decide
  have hlower : lower (ch 't') = ch 't' ∧ lower (ch 'f') = ch 'f' := by decide
  rw [boolToken, run_group, run_alt, run_litNocase, run_litNocase]
  simp [htrue, hfalse, startsWith, hlower.1, hlower.2, ht, hf]

variable (z cs) in
/-- The fourth parameter is taken when it is a truth value. -/
theorem run_truth (ha : Ws a) (h : ValueText t v) :
    (∃ b, v = .bool b ∧ run (cat [spaces, boolToken]) (a ++ (t ++ z)) cs (fun _ cs' => some cs') =
      some (cs ++ [boolText b])) ∨
    ((∀ b, v ≠ .bool b) ∧
      run (cat [spaces, boolToken]) (a ++ (t ++ z)) cs (fun _ cs' => some cs') = none) := by
  rw [run_spaces_ws ha spaceless_boolToken, dropWhile_valueText h]
  by_cases hv : ∃ b, v = .bool b
  · left
    obtain ⟨b, rfl⟩ := hv
    have htext : t = boolText b := by
      cases h with
      | trueText => decide
      | falseText => decide
    exact ⟨b, rfl, by rw [htext]; exact run_boolToken (isFlag_boolText b)⟩
  · right
    have hnot : ∀ b, v ≠ .bool b := fun b hb => hv ⟨b, hb⟩
    obtain ⟨c, rest, rfl, ht, hf⟩ := head_ne_truth h hnot
    refine ⟨hnot, ?_⟩
    rw [run_cat_cons, List.cons_append]
    exact run_boolToken_none ht hf

end Steps

/-! ## The array -/

section Array

variable {text : Bytes} {v : Value} {vs : List Value}

/-- What follows the name in `jobPattern`. -/
def jobValue : Pat UInt8 :=
  .cat [
    lit "[", spaces,
    lit "\"", .group (.seq (.one (· != ch '"')) (.many (· != ch '"'))), lit "\"",
    spaces, lit ",", spaces,
    lit "\"", .group (.many (· != ch '"')), lit "\"",
    spaces, lit ",", spaces,
    .group digits,
    spaces, lit ",", spaces,
    boolToken]

/-- What the pattern for the parameters of a notification takes of a value. -/
def readJob : Value → Option (List Bytes)
  | .array (.string jobId :: .string prefixText :: .number n :: .bool clean :: _) =>
    if jobId ≠ [] ∧ n.all isDigit = true then some [jobId, prefixText, n, boolText clean]
    else none
  | _ => none

/-- The values of an array, one after the other, from behind its bracket. -/
theorem run_job {t z : Bytes} (h : Elements t vs) (hplain : ch '\\' ∉ t) :
    jobValue.matchAt (ch '[' :: (t ++ ch ']' :: z)) = readJob (.array vs) := by
  obtain ⟨v₁, vs₁, a₁, t₁, z₁, rfl, ha₁, h₁, hplain₁, hbehind₁, heq⟩ := elements_first h hplain z
  rw [matchAt, jobValue, run_byte rfl, heq]
  rcases run_open_quote ha₁ h₁ hplain₁ with ⟨jobId, rfl, hjob, hrun⟩ | ⟨hnot, hrun⟩
  swap
  · rw [hrun]
    cases v₁ with
    | string s => exact absurd rfl (hnot s)
    | _ => rfl
  rw [hrun]
  by_cases hempty : jobId = []
  · subst hempty
    rw [List.nil_append, run_cat_cons, run_group, run_seq, run_one_cons, if_neg (by simp)]
    unfold readJob
    split
    · rename_i heq'
      simp only [Value.array.injEq, List.cons.injEq, Value.string.injEq] at heq'
      rw [if_neg fun hall => hall.1 heq'.1.symm]
    · rfl
  rw [run_quoted_some hempty hjob]
  rcases hbehind₁.run_comma with
    ⟨rfl, hrun⟩ | ⟨v₂, vs₂, a₂, t₂, z₂, rfl, ha₂, h₂, hplain₂, hbehind₂, hrun⟩
  · rw [hrun]
    rfl
  rw [hrun]
  rcases run_open_quote ha₂ h₂ hplain₂ with ⟨prefixText, rfl, hpre, hrun⟩ | ⟨hnot, hrun⟩
  swap
  · rw [hrun]
    cases v₂ with
    | string s => exact absurd rfl (hnot s)
    | _ => rfl
  rw [hrun, run_quoted hpre]
  rcases hbehind₂.run_comma with
    ⟨rfl, hrun⟩ | ⟨v₃, vs₃, a₃, t₃, z₃, rfl, ha₃, h₃, hplain₃, hbehind₃, hrun⟩
  · rw [hrun]
    rfl
  rw [hrun]
  rcases run_number ha₃ h₃ hbehind₃ with ⟨n, rfl, hne, hdigits, hrun⟩ | ⟨hnot, hrun⟩
  swap
  · rw [hrun]
    unfold readJob
    split
    · rename_i heq'
      simp only [Value.array.injEq, List.cons.injEq] at heq'
      rw [if_neg fun hall => hnot _ heq'.2.2.1 (List.all_eq_true.1 hall.2)]
    · rfl
  rw [hrun]
  rcases hbehind₃.run_comma with
    ⟨rfl, hrun⟩ | ⟨v₄, vs₄, a₄, t₄, z₄, rfl, ha₄, h₄, hplain₄, hbehind₄, hrun⟩
  · rw [hrun]
    rfl
  rw [hrun]
  rcases run_truth z₄ _ ha₄ h₄ with ⟨clean, rfl, hrun⟩ | ⟨hnot, hrun⟩
  · rw [hrun, readJob, if_pos ⟨hempty, List.all_eq_true.2 hdigits⟩]
    rfl
  · rw [hrun]
    cases v₄ with
    | bool b => exact absurd rfl (hnot b)
    | _ => rfl

theorem matchAt_readJob (h : ValueText text v) (hplain : ch '\\' ∉ text) (z : Bytes) :
    jobValue.matchAt (text ++ z) = readJob v := by
  have hbracket : ∀ c : UInt8, c ≠ ch '[' → ∀ tail, jobValue.matchAt (c :: tail) = none :=
    fun c hc tail => run_byte_ne rfl hc
  cases h with
  | nullText => exact hbracket _ (by decide) _
  | trueText => exact hbracket _ (by decide) _
  | falseText => exact hbracket _ (by decide) _
  | number h =>
    obtain ⟨c, tail, htext, hc⟩ := (ValueText.number h).starts
    have hne : c ≠ ch '[' := by
      rintro rfl
      have hnumber : Rfc8259.isNumber (ch '[') = true := hc
      revert hnumber
      decide
    rw [htext]
    exact hbracket c hne _
  | string h => exact hbracket _ (by decide) _
  | @emptyArray a ha =>
    have hsplit : 0x5B :: (a ++ [0x5D]) ++ z = ch '[' :: (a ++ ch ']' :: z) := by
      rw [List.cons_append, List.append_assoc]
      rfl
    rw [hsplit, matchAt, jobValue, run_byte rfl,
      run_spaces_ws ha (spaceless_byte rfl (by decide)),
      dropWhile_isSpace_of_head isSpace_bracket]
    exact run_byte_ne rfl (by decide)
  | @array t vs h =>
    have hsplit : 0x5B :: (t ++ [0x5D]) ++ z = ch '[' :: (t ++ ch ']' :: z) := by
      rw [List.cons_append, List.append_assoc]
      rfl
    rw [hsplit]
    exact run_job h (plain_enclosed hplain)
  | emptyObject ha => exact hbracket _ (by decide) _
  | object h => exact hbracket _ (by decide) _

end Array

end HermitMiner
