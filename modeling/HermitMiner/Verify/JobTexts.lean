import HermitMiner.Regex.Matches
import HermitMiner.Verify.PoolLines

/-!
# The texts that announce a job

`parse_notify` takes the first text of a line that looks like the parameters of a job, wherever it
stands in the line, and reads its strings from quote to quote.

* `StartsJob`: a text that starts like the parameters of a job.
* `matchAt_iff`: the pattern matches at these texts, and takes what stands in them.
* `FirstJob`: the first of them in a line.
* `parseNotify_iff`: what `parse_notify` takes from a line.
-/

namespace HermitMiner

open Regex Regex.Pat

/-! ## Steps of the search -/

section Steps

variable {β : Type} {a b : Pat UInt8} {as : List (Pat UInt8)} {s u : Bytes} {cs : List Bytes}
  {k : Bytes → List Bytes → Option β}

theorem spaceless_cat (ha : Spaceless a) : Spaceless (cat (a :: as)) := by
  intro γ c t cs k hc
  rw [run_cat_cons]
  exact ha c t cs _ hc

theorem run_lit_append {w : String} :
    run (cat (lit w :: as)) (str w ++ s) cs k = run (cat as) s cs k := by
  rw [run_cat_cons, run_lit, startsWith_map (by simp), if_pos rfl, List.drop_left]

/-- `\s*` takes the spaces before a text that the rest of the pattern takes. -/
theorem run_spaces_append (hu : ∀ c ∈ u, isSpace c = true) (hs : ∀ c ∈ s.head?, isSpace c = false)
    (ha : Spaceless a) :
    run (cat (spaces :: a :: as)) (u ++ s) cs k = run (cat (a :: as)) s cs k := by
  have hdrop : (u ++ s).dropWhile isSpace = s := by
    rw [List.dropWhile_append_of_pos hu]
    cases s with
    | nil => rfl
    | cons c s => exact List.dropWhile_cons_of_neg (by simp [hs c rfl])
  rw [run_cat_cons]
  refine (run_many_det ?_).trans ?_
  · intro c t hc
    exact spaceless_cat ha c t cs k hc
  · rw [hdrop]

theorem run_quote : run (cat (lit "\"" :: as)) (ch '"' :: s) cs k = run (cat as) s cs k :=
  run_lit_append (w := "\"")

theorem dropWhile_quote (hu : ch '"' ∉ u) :
    (u ++ ch '"' :: s).dropWhile (· != ch '"') = ch '"' :: s := by
  have hall : ∀ c ∈ u, (c != ch '"') = true := by
    intro c hc
    rw [bne_iff_ne]
    rintro rfl
    exact hu hc
  rw [List.dropWhile_append_of_pos hall]
  exact List.dropWhile_cons_of_neg (by simp)

/-- The repetition `[^"]*` ends at the quote that the pattern goes on with. -/
theorem run_until_quote {f : Bytes → List Bytes} (hu : ch '"' ∉ u) :
    (run (.many (· != ch '"')) (u ++ ch '"' :: s) cs fun s' cs' =>
      run (cat (lit "\"" :: as)) s' (cs' ++ f s') k) = run (cat as) s (cs ++ f (ch '"' :: s)) k := by
  refine (run_many_det ?_).trans ?_
  · intro c t hc
    have hquote : str "\"" = [ch '"'] := rfl
    rw [run_cat_cons, run_lit, if_neg]
    simpa [hquote, startsWith] using hc
  · rw [dropWhile_quote hu]
    exact run_quote

/-- `([^"]*)"` takes the text up to the quote. -/
theorem run_quoted (hu : ch '"' ∉ u) :
    run (cat (.group (.many (· != ch '"')) :: lit "\"" :: as)) (u ++ ch '"' :: s) cs k =
      run (cat as) s (cs ++ [u]) k := by
  have htake : (u ++ ch '"' :: s).take ((u ++ ch '"' :: s).length - (ch '"' :: s).length) = u := by
    rw [List.length_append, Nat.add_sub_cancel, List.take_left]
  rw [run_cat_cons, run_group, run_until_quote hu, htake]

/-- `([^"]+)"` takes the text up to the quote, when there is any. -/
theorem run_quoted_some (hne : u ≠ []) (hu : ch '"' ∉ u) :
    run (cat (.group (.seq (.one (· != ch '"')) (.many (· != ch '"'))) :: lit "\"" :: as))
      (u ++ ch '"' :: s) cs k = run (cat as) s (cs ++ [u]) k := by
  obtain ⟨c, u, rfl⟩ := List.exists_cons_of_ne_nil hne
  rw [List.mem_cons, not_or] at hu
  have htake : (c :: (u ++ ch '"' :: s)).take
      ((c :: (u ++ ch '"' :: s)).length - (ch '"' :: s).length) = c :: u := by
    rw [← List.cons_append, List.length_append, Nat.add_sub_cancel, List.take_left]
  rw [run_cat_cons, run_group, run_seq, List.cons_append, run_one_cons,
    if_pos (bne_iff_ne.2 (Ne.symm hu.1)), run_until_quote hu.2, htake]

theorem run_byte {w : String} {c : UInt8} (hw : str w = [c]) :
    run (cat (lit w :: as)) (c :: s) cs k = run (cat as) s cs k := by
  have h : run (cat (lit w :: as)) (str w ++ s) cs k = run (cat as) s cs k := run_lit_append
  rw [hw] at h
  exact h

/-- `true` or `false`, in small letters or capitals. -/
def IsFlag (flag : Bytes) : Prop := flag.map lower = str "true" ∨ flag.map lower = str "false"

theorem run_boolToken {flag : Bytes} (hflag : IsFlag flag) :
    (cat [boolToken]).run (flag ++ s) cs (fun _ cs' => some cs') = some (cs ++ [flag]) := by
  have htrue : (str "true").map lower = str "true" := by decide
  have hfalse : (str "false").map lower = str "false" := by decide
  have htake : (flag ++ s).take ((flag ++ s).length - s.length) = flag := by
    rw [List.length_append, Nat.add_sub_cancel, List.take_left]
  have hdrop : ∀ {w : Bytes}, flag.map lower = w → (flag ++ s).drop w.length = s := by
    rintro _ rfl
    rw [List.length_map, List.drop_left]
  rw [run_cat_cons, boolToken, run_group, run_alt, run_litNocase, run_litNocase]
  rcases hflag with h | h
  · rw [startsWith_spelled (h.trans htrue.symm), if_pos rfl, hdrop h, run_cat_nil, htake,
      Option.some_or]
  · have hstart : startsWith ((str "true").map fun c d => lower d == lower c) (flag ++ s) =
        false := by
      have hhead : str "false" = ch 'f' :: str "alse" := by decide
      have hword : str "true" = ch 't' :: str "rue" := by decide
      cases flag with
      | nil => cases h
      | cons c flag =>
        rw [hhead, List.map_cons, List.cons.injEq] at h
        rw [hword, List.map_cons, List.cons_append, startsWith, h.1, Bool.and_eq_false_iff]
        exact .inl (by decide)
    rw [hstart, if_neg Bool.false_ne_true, startsWith_spelled (h.trans hfalse.symm), if_pos rfl,
      hdrop h, run_cat_nil, htake, Option.none_or]

theorem dropWhile_spaces (hu : ∀ c ∈ u, isSpace c = true) (hs : ∀ c ∈ s.head?, isSpace c = false) :
    (u ++ s).dropWhile isSpace = s := by
  rw [List.dropWhile_append_of_pos hu]
  cases s with
  | nil => rfl
  | cons c s => exact List.dropWhile_cons_of_neg (by simp [hs c rfl])

end Steps

/-! ## Parameters -/

section Parameters

/-- `"params"` in the spelling of the protocol. -/
def paramsKey : Bytes := str "\"params\""

/-- The name of the method in the spelling of the protocol, as a member. -/
def methodMember (a b : Bytes) : Bytes :=
  str "\"method\"" ++ (a ++ ch ':' :: (b ++ str "\"mining.notify\""))

def boolText (b : Bool) : Bytes := if b then str "true" else str "false"

theorem isFlag_boolText (b : Bool) : IsFlag (boolText b) := by
  cases b with
  | false => exact .inr (by decide)
  | true => exact .inl (by decide)

/-- The text of the first four parameters from their name on, with gaps between the tokens. -/
def jobText (key : Bytes) (gap : Nat → Bytes) (jobCode prefixCode number flag rest : Bytes) :
    Bytes :=
  key ++ (gap 0 ++ ch ':' :: (gap 1 ++ ch '[' :: (gap 2 ++ ch '"' ::
    (jobCode ++ ch '"' :: (gap 3 ++ ch ',' :: (gap 4 ++ ch '"' ::
      (prefixCode ++ ch '"' :: (gap 5 ++ ch ',' :: (gap 6 ++
        (number ++ (gap 7 ++ ch ',' :: (gap 8 ++ (flag ++ rest)))))))))))))

/-- The text of the parameters as the protocol spells their name. -/
def jobParams (gap : Nat → Bytes) (jobCode prefixCode difficulty : Bytes) (cleanJob : Bool)
    (rest : Bytes) : Bytes :=
  jobText paramsKey gap jobCode prefixCode difficulty (boolText cleanJob) rest

/-- What stands in the text is what the tokens can be. -/
structure JobTokens (key : Bytes) (gap : Nat → Bytes) (jobCode prefixCode number flag : Bytes) :
    Prop where
  key : key.map lower = paramsKey
  gaps : ∀ i, ∀ c ∈ gap i, isSpace c = true
  nonempty : jobCode ≠ []
  jobQuote : ch '"' ∉ jobCode
  prefixQuote : ch '"' ∉ prefixCode
  digits : number ≠ [] ∧ ∀ d ∈ number, isDigit d = true
  flag : IsFlag flag

/-- A text that starts like the parameters of a job: their name, in small letters or capitals, and a
list that opens with two strings, a number and a flag. The strings go up to the next quote. -/
def StartsJob (t jobCode prefixCode number : Bytes) : Prop :=
  ∃ key gap flag rest, JobTokens key gap jobCode prefixCode number flag ∧
    t = jobText key gap jobCode prefixCode number flag rest

theorem head_nonspace {c : UInt8} {s : Bytes} (hc : isSpace c = false) :
    ∀ d ∈ (c :: s).head?, isSpace d = false := by
  intro d hd
  obtain rfl : c = d := by simpa using hd
  exact hc

theorem spaceless_byte {w : String} {c : UInt8} (hw : str w = [c]) (hc : isSpace c = false) :
    Spaceless (lit w) := by
  apply spaceless_lit
  · rw [hw]
    exact head_nonspace hc
  · simp [hw]

variable {gap : Nat → Bytes} {key jobCode prefixCode number flag difficulty rest : Bytes}
  {cleanJob : Bool} {bits : UInt32}

theorem lower_of_isSpace {c : UInt8} (h : isSpace c = true) : lower c = c := by
  rw [isSpace_iff] at h
  have hsmall : ¬ch 'A' ≤ c := by
    rw [UInt8.le_iff_toNat_le]
    have hA : (ch 'A').toNat = 65 := rfl
    omega
  simp [lower, hsmall]

theorem IsFlag.head (h : IsFlag flag) (s : Bytes) : ∀ c ∈ (flag ++ s).head?, isSpace c = false := by
  obtain ⟨c, flag, rfl⟩ : ∃ c t, flag = c :: t := by
    cases flag with
    | nil => rcases h with h | h <;> cases h
    | cons c t => exact ⟨c, t, rfl⟩
  refine head_nonspace ?_
  cases hspace : isSpace c with
  | false => rfl
  | true =>
    have hlower : lower c = ch 't' ∨ lower c = ch 'f' := by
      rcases h with h | h
      · exact .inl (List.cons.inj h).1
      · exact .inr (List.cons.inj h).1
    rw [lower_of_isSpace hspace] at hlower
    rcases hlower with rfl | rfl <;> revert hspace <;> decide

/-- What the pattern takes at such a text. -/
theorem matchAt_jobText (h : JobTokens key gap jobCode prefixCode number flag) :
    jobPattern.matchAt (jobText key gap jobCode prefixCode number flag rest) =
      some [jobCode, prefixCode, number, flag] := by
  have hbracket : Spaceless (lit "[") := spaceless_byte rfl (by decide)
  have hquote : Spaceless (lit "\"") := spaceless_byte rfl (by decide)
  have hcomma : Spaceless (lit ",") := spaceless_byte rfl (by decide)
  have hdigit : ∀ s : Bytes, ∀ c ∈ (number ++ s).head?, isSpace c = false := by
    intro s
    obtain ⟨d, ds, hds⟩ := List.exists_cons_of_ne_nil h.digits.1
    rw [hds]
    exact head_nonspace (not_isSpace_of_isDigit (h.digits.2 d (by simp [hds])))
  have hafter : ∀ c ∈ (gap 7 ++ ch ',' :: (gap 8 ++ (flag ++ rest))).head?,
      isDigit c = false := by
    cases hg : gap 7 with
    | nil =>
      intro c hc
      obtain rfl : ch ',' = c := by simpa using hc
      decide
    | cons d g =>
      intro c hc
      obtain rfl : d = c := by simpa using hc
      have hspace := h.gaps 7 d (by rw [hg]; exact List.mem_cons_self)
      cases hdig : isDigit d with
      | false => rfl
      | true =>
        rw [not_isSpace_of_isDigit hdig] at hspace
        cases hspace
  have hend : ∀ cs : List Bytes,
      (cat [spaces, lit ",", spaces, boolToken]).run
        (gap 7 ++ ch ',' :: (gap 8 ++ (flag ++ rest))) cs (fun _ cs' => some cs') =
        some (cs ++ [flag]) := by
    intro cs
    rw [run_spaces_append (h.gaps 7) (head_nonspace (by decide)) hcomma, run_byte rfl,
      run_spaces_append (h.gaps 8) (h.flag.head rest) spaceless_boolToken]
    exact run_boolToken h.flag
  have hname : paramsKey.map lower = paramsKey := by decide
  have hstart : ∀ s, startsWith ((str "\"params\"").map fun c d => lower d == lower c) (key ++ s) = true :=
    fun s => startsWith_spelled (h.key.trans hname.symm)
  have hlength : (str "\"params\"").length = key.length :=
    (congrArg List.length h.key).symm.trans (List.length_map lower)
  rw [matchAt, jobPattern, litNocase, run_member (spaceless_cat hbracket), jobText,
    if_pos (hstart _), List.length_map, hlength, List.drop_left,
    dropWhile_spaces (h.gaps 0) (head_nonspace (by decide))]
  dsimp only
  rw [if_pos rfl, dropWhile_spaces (h.gaps 1) (head_nonspace (by decide)), run_byte rfl,
    run_spaces_append (h.gaps 2) (head_nonspace (by decide)) hquote, run_byte rfl,
    run_quoted_some h.nonempty h.jobQuote,
    run_spaces_append (h.gaps 3) (head_nonspace (by decide)) hcomma,
    run_byte rfl, run_spaces_append (h.gaps 4) (head_nonspace (by decide)) hquote, run_byte rfl,
    run_quoted h.prefixQuote, run_spaces_append (h.gaps 5) (head_nonspace (by decide)) hcomma,
    run_byte rfl, run_spaces_append (h.gaps 6) (hdigit _) spaceless_digits, run_cat_cons,
    run_digits h.digits.1 h.digits.2 hafter (by rw [hend]; rfl), hend]
  rfl

/-! ## Every match -/

section Matches

variable {as : List (Pat UInt8)} {a : Pat UInt8} {u : Bytes} {cs : List Bytes} {w : String}

theorem matches_lit_cons (h : Matches (cat (lit w :: as)) u cs) :
    ∃ v, u = str w ++ v ∧ Matches (cat as) v cs := by
  obtain ⟨x, v, ds, es, rfl, rfl, hx, hv⟩ := matches_cat_cons.1 h
  obtain ⟨rfl, rfl⟩ := matches_lit hx
  exact ⟨v, rfl, hv⟩

theorem matches_spaces_cons (h : Matches (cat (spaces :: as)) u cs) :
    ∃ g v, u = g ++ v ∧ (∀ c ∈ g, isSpace c = true) ∧ Matches (cat as) v cs := by
  obtain ⟨g, v, ds, es, rfl, rfl, hg, hv⟩ := matches_cat_cons.1 h
  obtain ⟨hspace, rfl⟩ := matches_many.1 hg
  exact ⟨g, v, rfl, hspace, hv⟩

/-- A token after white space. -/
theorem matches_token (h : Matches (cat (spaces :: lit w :: as)) u cs) :
    ∃ g v, u = g ++ (str w ++ v) ∧ (∀ c ∈ g, isSpace c = true) ∧ Matches (cat as) v cs := by
  obtain ⟨g, x, hu, hg, hx⟩ := matches_spaces_cons h
  obtain ⟨v, rfl, hv⟩ := matches_lit_cons hx
  exact ⟨g, v, hu, hg, hv⟩

theorem matches_group_cons (h : Matches (cat (.group a :: as)) u cs) (ha : Groupless a) :
    ∃ x v ds, u = x ++ v ∧ cs = x :: ds ∧ Matches a x [] ∧ Matches (cat as) v ds := by
  obtain ⟨x, v, ds, es, rfl, rfl, hx, hv⟩ := matches_cat_cons.1 h
  obtain ⟨fs, rfl, hin⟩ := matches_group.1 hx
  obtain rfl := captures_eq_nil hin ha
  exact ⟨x, v, es, rfl, rfl, hin, hv⟩

theorem groupless_litNocase : Groupless (litNocase w) := by
  have hword : ∀ ps : List (UInt8 → Bool), Groupless (word ps) := by
    intro ps
    induction ps with
    | nil => exact trivial
    | cons p ps ih => exact ⟨trivial, ih⟩
  exact hword _

theorem nonempty_of_matches {p q : UInt8 → Bool} (h : Matches (.seq (.one p) (.many q)) u cs) :
    u ≠ [] := by
  cases h with
  | seq hone _ =>
    cases hone
    exact List.cons_ne_nil _ _

theorem forall_of_matches {p : UInt8 → Bool} (h : Matches (.seq (.one p) (.many p)) u cs) :
    ∀ c ∈ u, p c = true := by
  cases h with
  | seq hone hmany =>
    cases hone with
    | one hc => exact List.forall_mem_cons.2 ⟨hc, (matches_many.1 hmany).1⟩

/-- The gaps of a list. -/
def gapsOf (gs : List Bytes) (i : Nat) : Bytes := gs.getD i []

theorem forall_gapsOf {gs : List Bytes} {P : UInt8 → Prop} (h : ∀ g ∈ gs, ∀ c ∈ g, P c) (i : Nat) :
    ∀ c ∈ gapsOf gs i, P c := by
  intro c hc
  rw [gapsOf, List.getD_eq_getElem?_getD] at hc
  cases hi : gs[i]? with
  | none => simp [hi] at hc
  | some g => exact h g (List.mem_of_getElem? hi) c (by simpa [hi] using hc)

end Matches

/-- Every match is such a text. -/
theorem startsJob_of_matches {u : Bytes} {cs : List Bytes} (h : Matches jobPattern u cs)
    (rest : Bytes) : ∃ jobCode prefixCode number flag, cs = [jobCode, prefixCode, number, flag] ∧
      StartsJob (u ++ rest) jobCode prefixCode number := by
  have hname : paramsKey.map lower = paramsKey := by decide
  unfold jobPattern member at h
  obtain ⟨key, u, ks, cs, rfl, rfl, hkey, m1⟩ := matches_cat_cons.1 h
  obtain ⟨-, -, rfl⟩ := matches_word.1 hkey
  obtain ⟨g₀, u, rfl, h₀, m2⟩ := matches_token m1
  obtain ⟨g₁, u, rfl, h₁, m3⟩ := matches_spaces_cons m2
  obtain ⟨u, u', cs, ds, rfl, rfl, m4, hnil⟩ := matches_cat_cons.1 m3
  obtain ⟨rfl, rfl⟩ := matches_cat_nil.1 hnil
  obtain ⟨u, rfl, m5⟩ := matches_lit_cons m4
  obtain ⟨g₂, u, rfl, h₂, m6⟩ := matches_token m5
  obtain ⟨jobCode, u, cs, rfl, rfl, hjob, m7⟩ := matches_group_cons m6 ⟨trivial, trivial⟩
  obtain ⟨u, rfl, m8⟩ := matches_lit_cons m7
  obtain ⟨g₃, u, rfl, h₃, m9⟩ := matches_token m8
  obtain ⟨g₄, u, rfl, h₄, m10⟩ := matches_token m9
  obtain ⟨prefixCode, u, cs, rfl, rfl, hpre, m11⟩ := matches_group_cons m10 trivial
  obtain ⟨u, rfl, m12⟩ := matches_lit_cons m11
  obtain ⟨g₅, u, rfl, h₅, m13⟩ := matches_token m12
  obtain ⟨g₆, u, rfl, h₆, m14⟩ := matches_spaces_cons m13
  obtain ⟨number, u, cs, rfl, rfl, hnumber, m15⟩ := matches_group_cons m14 ⟨trivial, trivial⟩
  obtain ⟨g₇, u, rfl, h₇, m16⟩ := matches_token m15
  obtain ⟨g₈, u, rfl, h₈, m17⟩ := matches_spaces_cons m16
  obtain ⟨flag, u, cs, rfl, rfl, hflag, m18⟩ :=
    matches_group_cons m17 ⟨groupless_litNocase, groupless_litNocase⟩
  obtain ⟨rfl, rfl⟩ := matches_cat_nil.1 m18
  have htokens : JobTokens key (gapsOf [g₀, g₁, g₂, g₃, g₄, g₅, g₆, g₇, g₈]) jobCode prefixCode
      number flag := by
    refine ⟨(spelled_of_matches hkey).trans hname, fun i => ?_, ?_, ?_, ?_, ?_, ?_⟩
    · refine forall_gapsOf ?_ i
      simp only [List.forall_mem_cons]
      exact ⟨h₀, h₁, h₂, h₃, h₄, h₅, h₆, h₇, h₈, nofun⟩
    · exact nonempty_of_matches hjob
    · exact fun hmem => by simpa using forall_of_matches hjob _ hmem
    · exact fun hmem => by simpa using (matches_many.1 hpre).1 _ hmem
    · exact ⟨nonempty_of_matches hnumber, forall_of_matches hnumber⟩
    · rcases matches_alt.1 hflag with hflag | hflag
      · exact .inl (spelled_of_matches hflag)
      · exact .inr (spelled_of_matches hflag)
  refine ⟨jobCode, prefixCode, number, flag, rfl, _, _, flag, rest, htokens, ?_⟩
  simp [jobText, gapsOf, str]

/-- The pattern matches at the texts that start like the parameters of a job. -/
theorem matchAt_iff {t : Bytes} :
    (∃ flag, jobPattern.matchAt t = some [jobCode, prefixCode, number, flag]) ↔
      StartsJob t jobCode prefixCode number := by
  constructor
  · rintro ⟨flag, hmatch⟩
    obtain ⟨u, rest, rfl, h⟩ := matchAt_matches hmatch
    obtain ⟨jobCode', prefixCode', number', flag', heq, hstarts⟩ := startsJob_of_matches h rest
    cases heq
    exact hstarts
  · rintro ⟨key, gap, flag, rest, htokens, rfl⟩
    exact ⟨flag, matchAt_jobText htokens⟩

theorem matchAt_none_iff {t : Bytes} :
    jobPattern.matchAt t = none ↔ ∀ jobCode prefixCode number, ¬StartsJob t jobCode prefixCode number := by
  constructor
  · intro hnone jobCode prefixCode number hstarts
    obtain ⟨flag, hmatch⟩ := matchAt_iff.2 hstarts
    rw [hnone] at hmatch
    cases hmatch
  · intro hnot
    cases hmatch : jobPattern.matchAt t with
    | none => rfl
    | some cs =>
      obtain ⟨u, rest, rfl, h⟩ := matchAt_matches hmatch
      obtain ⟨_, _, _, _, -, hstarts⟩ := startsJob_of_matches h rest
      exact absurd hstarts (hnot _ _ _)

/-- No such text starts in `front`, with `t` behind it. -/
def JobFree (front t : Bytes) : Prop :=
  ∀ x y, front = x ++ y → y ≠ [] → ∀ jobCode prefixCode number,
    ¬StartsJob (y ++ t) jobCode prefixCode number

/-- The first text in a line that looks like the parameters of a job. -/
def FirstJob (line jobCode prefixCode number : Bytes) : Prop :=
  ∃ front t, line = front ++ t ∧ JobFree front t ∧ StartsJob t jobCode prefixCode number

theorem JobFree.search {front t : Bytes} (h : JobFree front t) :
    search jobPattern (front ++ t) = search jobPattern t :=
  firstSuffix_append fun x y hxy hy => matchAt_none_iff.2 (h x y hxy hy)

/-- A search finds the first of these texts. -/
theorem search_iff {line : Bytes} :
    (∃ flag, search jobPattern line = some [jobCode, prefixCode, number, flag]) ↔
      FirstJob line jobCode prefixCode number := by
  constructor
  · rintro ⟨flag, hsearch⟩
    obtain ⟨front, t, rfl, hfront, hmatch⟩ := firstSuffix_eq_some hsearch
    exact ⟨front, t, rfl, fun x y hxy hy => matchAt_none_iff.1 (hfront x y hxy hy),
      matchAt_iff.1 ⟨flag, hmatch⟩⟩
  · rintro ⟨front, t, rfl, hfree, hstarts⟩
    obtain ⟨flag, hmatch⟩ := matchAt_iff.2 hstarts
    exact ⟨flag, hfree.search.trans (firstSuffix_of_eq_some hmatch)⟩

theorem FirstJob.quoteless {line : Bytes} (h : FirstJob line jobCode prefixCode number) :
    ch '"' ∉ jobCode ∧ ch '"' ∉ prefixCode := by
  obtain ⟨front, t, -, -, key, gap, flag, rest, htokens, -⟩ := h
  exact ⟨htokens.jobQuote, htokens.prefixQuote⟩

theorem FirstJob.digits {line : Bytes} (h : FirstJob line jobCode prefixCode number) :
    number ≠ [] ∧ ∀ d ∈ number, isDigit d = true := by
  obtain ⟨front, t, -, -, key, gap, flag, rest, htokens, -⟩ := h
  exact htokens.digits

/-- There is but one first text. -/
theorem FirstJob.unique {line jobCode' prefixCode' number' : Bytes}
    (h : FirstJob line jobCode prefixCode number)
    (h' : FirstJob line jobCode' prefixCode' number') :
    jobCode = jobCode' ∧ prefixCode = prefixCode' ∧ number = number' := by
  obtain ⟨flag, h⟩ := search_iff.2 h
  obtain ⟨flag', h'⟩ := search_iff.2 h'
  rw [h] at h'
  cases h'
  exact ⟨rfl, rfl, rfl⟩

/-- **What `parse_notify` takes**: in a line with the name of the method, the first text that looks
like the parameters of a job. -/
theorem parseNotify_iff {line : Bytes} :
    (∃ cleanJob, parseNotify line = some ⟨jobCode, prefixCode, bits, cleanJob⟩) ↔
      (search methodPattern line).isSome ∧
        ∃ number, FirstJob line jobCode prefixCode number ∧ bits = parseU32 number 20 := by
  unfold parseNotify
  by_cases hmethod : (search methodPattern line).isSome
  · rw [if_neg (by simpa [Option.isSome_iff_ne_none] using hmethod)]
    constructor
    · rintro ⟨cleanJob, h⟩
      cases hsearch : search jobPattern line with
      | none => simp [hsearch] at h
      | some cs =>
        obtain ⟨front, t, rfl, -, hmatch⟩ := firstSuffix_eq_some hsearch
        obtain ⟨u, rest, rfl, hmatches⟩ := matchAt_matches hmatch
        obtain ⟨jobCode', prefixCode', number, flag, rfl, -⟩ := startsJob_of_matches hmatches rest
        rw [hsearch] at h
        cases h
        exact ⟨hmethod, number, search_iff.1 ⟨flag, hsearch⟩, rfl⟩
    · rintro ⟨-, number, hfirst, rfl⟩
      obtain ⟨flag, hsearch⟩ := search_iff.2 hfirst
      rw [hsearch]
      exact ⟨tokenIsTrue flag, rfl⟩
  · rw [if_pos (by simpa using hmethod)]
    constructor
    · rintro ⟨cleanJob, h⟩
      cases h
    · rintro ⟨h, -⟩
      exact absurd h hmethod

/-- No other `"params"` starts in a text, in small letters or capitals. -/
def Keyless (front : Bytes) : Prop :=
  ∀ t ∈ front.tails, t ≠ [] → ¬paramsKey <+: (t ++ paramsKey).map lower

/-- No match starts where no key stands. -/
theorem matchAt_keyless {t s : Bytes} (h : ¬paramsKey <+: (t ++ paramsKey).map lower) :
    jobPattern.matchAt (t ++ (paramsKey ++ s)) = none := by
  have hkey : paramsKey.map lower = paramsKey := by decide
  refine matchAt_member_none (spaceless_cat (spaceless_byte rfl (by decide))) ?_
  rw [Bool.eq_false_iff]
  intro hstart
  apply h
  have hpre : paramsKey <+: (t ++ (paramsKey ++ s)).map lower := by
    rw [← hkey]
    exact startsWith_nocase hstart
  have hwhole : (t ++ paramsKey).map lower <+: (t ++ (paramsKey ++ s)).map lower := by
    apply List.IsPrefix.map
    rw [← List.append_assoc]
    exact List.prefix_append _ _
  exact List.prefix_of_prefix_length_le hpre hwhole (by simp)

/-- The first match is the one at the parameters. -/
theorem search_jobParams {front : Bytes} (hfront : Keyless front)
    (hgap : ∀ i, ∀ c ∈ gap i, isSpace c = true) (hne : jobCode ≠ [])
    (hjob : ch '"' ∉ jobCode) (hpre : ch '"' ∉ prefixCode)
    (hdigits : difficulty ≠ [] ∧ ∀ d ∈ difficulty, isDigit d = true) :
    search jobPattern (front ++ jobParams gap jobCode prefixCode difficulty cleanJob rest) =
      some [jobCode, prefixCode, difficulty, boolText cleanJob] := by
  rw [search, firstSuffix_append]
  · exact firstSuffix_of_eq_some (matchAt_jobText ⟨by decide, hgap, hne, hjob, hpre, hdigits,
      isFlag_boolText cleanJob⟩)
  · rintro x t rfl ht
    exact matchAt_keyless (hfront t ((List.mem_tails _ _).2 ⟨x, rfl⟩) ht)

theorem search_methodMember {text a b : Bytes} (ha : ∀ c ∈ a, isSpace c = true)
    (hb : ∀ c ∈ b, isSpace c = true) (h : methodMember a b <:+: text) :
    (search methodPattern text).isSome := by
  have hvalue : Spaceless (lit "\"mining.notify\"") :=
    spaceless_lit (by decide +kernel) (by decide +kernel)
  have hmatch : ∀ y, (methodPattern.matchAt (methodMember a b ++ y)).isSome := by
    intro y
    have hhead : ∀ d ∈ (str "\"mining.notify\"" ++ y).head?, isSpace d = false :=
      head_nonspace (c := ch '"') (s := str "mining.notify\"" ++ y) (by decide)
    rw [matchAt, methodPattern, lit, run_member hvalue, methodMember, List.append_assoc,
      startsWith_map (by simp), if_pos rfl, List.length_map, List.drop_left, List.append_assoc,
      List.cons_append, dropWhile_spaces ha (head_nonspace (by decide))]
    dsimp only
    rw [if_pos rfl, List.append_assoc, dropWhile_spaces hb hhead, run_lit,
      startsWith_map (by simp), if_pos rfl]
    rfl
  obtain ⟨x, y, htext⟩ := h
  refine firstSuffix_isSome (t := methodMember a b ++ y) ⟨x, ?_⟩ (hmatch y)
  rw [← List.append_assoc, htext]

/-- What is taken of a text with the name of the method and the parameters. -/
theorem parseNotify_jobParams {front a b : Bytes} (hfront : Keyless front)
    (ha : ∀ c ∈ a, isSpace c = true) (hb : ∀ c ∈ b, isSpace c = true)
    (hmethod : methodMember a b <:+:
      front ++ jobParams gap jobCode prefixCode difficulty cleanJob rest)
    (hgap : ∀ i, ∀ c ∈ gap i, isSpace c = true) (hne : jobCode ≠ [])
    (hjob : ch '"' ∉ jobCode) (hpre : ch '"' ∉ prefixCode)
    (hdigits : difficulty ≠ [] ∧ ∀ d ∈ difficulty, isDigit d = true) :
    parseNotify (front ++ jobParams gap jobCode prefixCode difficulty cleanJob rest) =
      some ⟨jobCode, prefixCode, parseU32 difficulty 20, cleanJob⟩ := by
  have hclean : tokenIsTrue (boolText cleanJob) = cleanJob := by
    cases cleanJob <;> decide
  have hsome : ¬(search methodPattern
      (front ++ jobParams gap jobCode prefixCode difficulty cleanJob rest)).isNone := by
    rw [Option.isNone_iff_eq_none]
    exact Option.isSome_iff_ne_none.1 (search_methodMember ha hb hmethod)
  rw [parseNotify, if_neg hsome, search_jobParams hfront hgap hne hjob hpre hdigits]
  dsimp only
  rw [hclean]

end Parameters

end HermitMiner
