import HermitMiner.Regex.Matches
import HermitMiner.Verify.Messages

/-!
# The lines of a well-behaved pool

Responses and notifications, and what the searches find in them: a key is found where the line has
it, even in the tail of a line that a deadline has cut.

* `Token`, `members`: a line as bytes and strings, and its members.
* `member_of_match`: a match of a member pattern in a tail of the line is one of its members.
* `responseLine`, `notifyLine`: the lines of the pool.
* `parseMessageId_response`, `parseBoolResult_response`, `parseMessageId_notify`: what the readers
  find in a tail of these lines.
-/

namespace HermitMiner

open Regex Regex.Pat

/-! ## Lines as tokens -/

/-- A string in quotes, or a byte outside strings. -/
inductive Token where
  | byte (c : UInt8)
  | quoted (s : Bytes)

def Token.text : Token → Bytes
  | .byte c => [c]
  | .quoted s => ch '"' :: s ++ [ch '"']

def render (ts : List Token) : Bytes := ts.flatMap Token.text

/-- Bytes outside strings. -/
def plain (s : Bytes) : List Token := s.map .byte

/-- What follows a value. -/
def ends (c : UInt8) : Bool := c == ch ',' || c == ch ']' || c == ch '\x7d'

/-- What follows a string. -/
def closes (c : UInt8) : Bool := c == ch ':' || ends c

/-- Strings have no quotes in them, and nothing but punctuation after them. -/
def WellQuoted : List Token → Prop
  | [] => True
  | .byte c :: ts => c ≠ ch '"' ∧ WellQuoted ts
  | .quoted s :: .byte c :: ts => ch '"' ∉ s ∧ closes c = true ∧ WellQuoted ts
  | .quoted _ :: _ => False

/-- The keys of the line, each with the text after its colon. -/
def members : List Token → List (Bytes × Bytes)
  | [] => []
  | .byte _ :: ts => members ts
  | .quoted s :: .byte c :: ts => if c = ch ':' then (s, render ts) :: members ts else members ts
  | .quoted _ :: ts => members ts

theorem ne_quote_of_closes {c : UInt8} (h : closes c = true) : c ≠ ch '"' := by
  rintro rfl
  revert h
  decide

theorem not_isSpace_of_closes {c : UInt8} (h : closes c = true) : isSpace c = false := by
  simp only [closes, ends, Bool.or_eq_true, beq_iff_eq] at h
  rcases h with rfl | (rfl | rfl) | rfl <;> decide

@[simp] theorem render_byte (c : UInt8) (ts : List Token) : render (.byte c :: ts) = c :: render ts :=
  rfl

@[simp] theorem render_quoted (s : Bytes) (ts : List Token) :
    render (.quoted s :: ts) = ch '"' :: (s ++ ch '"' :: render ts) := by
  simp [render, Token.text]

@[simp] theorem render_append (ts us : List Token) : render (ts ++ us) = render ts ++ render us := by
  simp [render]

@[simp] theorem render_plain (s : Bytes) : render (plain s) = s := by
  induction s with
  | nil => rfl
  | cons c s ih => simpa [plain] using ih

theorem wellQuoted_plain {s : Bytes} (hs : ch '"' ∉ s) {ts : List Token} (h : WellQuoted ts) :
    WellQuoted (plain s ++ ts) := by
  induction s with
  | nil => exact h
  | cons c s ih =>
    rw [List.mem_cons, not_or] at hs
    exact ⟨Ne.symm hs.1, ih hs.2⟩

theorem members_plain (s : Bytes) (ts : List Token) : members (plain s ++ ts) = members ts := by
  induction s with
  | nil => rfl
  | cons c s ih => exact ih

/-! ## Keys -/

/-- A key in quotes, as the classes of its bytes. -/
def quotedKey (f : UInt8 → UInt8 → Bool) (key : Bytes) : List (UInt8 → Bool) :=
  (ch '"' :: key ++ [ch '"']).map f

/-- The classes tell quotes from the bytes of the key, and its first byte from punctuation. -/
structure KeyTest (f : UInt8 → UInt8 → Bool) (key : Bytes) : Prop where
  quote : ∀ d, f (ch '"') d = true ↔ d = ch '"'
  noQuote : ∀ c ∈ key, f c (ch '"') = false
  opens : ∃ c key', key = c :: key' ∧ ∀ d, closes d = true → f c d = false

variable {f : UInt8 → UInt8 → Bool} {key : Bytes}

/-- Where a quoted key is found at a string, it is the whole string. -/
theorem startsWith_quotedKey (hkey : KeyTest f key) {s rest : Bytes} (hs : ch '"' ∉ s)
    (h : startsWith (quotedKey f key) (ch '"' :: (s ++ ch '"' :: rest)) = true) :
    s.length = key.length ∧ startsWith (key.map f) s = true := by
  have hinner : startsWith ((key ++ [ch '"']).map f) (s ++ ch '"' :: rest) = true := by
    simpa [quotedKey, startsWith, (hkey.quote (ch '"')).2 rfl] using h
  have hnoQuote := hkey.noQuote
  clear h
  generalize key = k at hinner hnoQuote
  induction k generalizing s with
  | nil =>
    cases s with
    | nil => exact ⟨rfl, rfl⟩
    | cons c s =>
      simp only [List.nil_append, List.map_cons, List.map_nil, List.cons_append, startsWith,
        Bool.and_true, hkey.quote] at hinner
      simp [hinner] at hs
  | cons k ks ih =>
    cases s with
    | nil =>
      simp only [List.cons_append, List.map_cons, List.nil_append, startsWith,
        hnoQuote k List.mem_cons_self, Bool.false_and] at hinner
      cases hinner
    | cons c s =>
      rw [List.mem_cons, not_or] at hs
      simp only [List.cons_append, List.map_cons, startsWith, Bool.and_eq_true] at hinner
      obtain ⟨hlen, hstart⟩ := ih hs.2 hinner.2 fun d hd => hnoQuote d (List.mem_cons_of_mem k hd)
      exact ⟨congrArg Nat.succ hlen, by simp [startsWith, hinner.1, hstart]⟩

/-- A quoted key is not found where no string starts. -/
theorem startsWith_quotedKey_of_ne (hkey : KeyTest f key) {c : UInt8} {t : Bytes}
    (hc : c ≠ ch '"') : startsWith (quotedKey f key) (c :: t) = false := by
  have hf : f (ch '"') c = false := Bool.eq_false_iff.2 fun h => hc ((hkey.quote c).1 h)
  simp [quotedKey, startsWith, hf]

/-- Nor is it found where a string ends. -/
theorem startsWith_quotedKey_of_closes (hkey : KeyTest f key) {c : UInt8} {t : Bytes}
    (hc : closes c = true) : startsWith (quotedKey f key) (ch '"' :: c :: t) = false := by
  obtain ⟨k, ks, rfl, hopens⟩ := hkey.opens
  simp [quotedKey, startsWith, hopens c hc]

theorem suffix_append_of_not_mem {q : UInt8} {s rest t : Bytes} (hs : q ∉ s)
    (ht : t <:+ s ++ rest) : t <:+ rest ∨ ∃ d t', t = d :: t' ∧ d ≠ q := by
  induction s with
  | nil => exact Or.inl ht
  | cons d s ih =>
    rw [List.mem_cons, not_or] at hs
    rcases List.suffix_cons_iff.1 ht with rfl | ht
    · exact Or.inr ⟨d, s ++ rest, rfl, Ne.symm hs.1⟩
    · exact ih hs.2 ht

section Match

variable {value : Pat UInt8} {cs : List Bytes} {t : Bytes}

theorem startsWith_of_match (hvalue : Spaceless value)
    (h : (member (.word (quotedKey f key)) value).matchAt t = some cs) :
    startsWith (quotedKey f key) t = true := by
  by_contra hstart
  rw [matchAt_member_none hvalue (Bool.eq_false_of_not_eq_true hstart)] at h
  cases h

/-- A match in the tail of a line that starts with a string: it is this string and its value, or
further on. -/
theorem match_at_quoted (hkey : KeyTest f key) (hvalue : Spaceless value) {s : Bytes} {c : UInt8}
    {ts : List Token} (hs : ch '"' ∉ s) (hc : closes c = true)
    (ht : t <:+ render (.quoted s :: .byte c :: ts))
    (h : (member (.word (quotedKey f key)) value).matchAt t = some cs) :
    (c = ch ':' ∧ s.length = key.length ∧ startsWith (key.map f) s = true ∧
      value.matchAt ((render ts).dropWhile isSpace) = some cs) ∨ t <:+ render ts := by
  have hstart := startsWith_of_match hvalue h
  rw [render_quoted, render_byte] at ht
  rcases List.suffix_cons_iff.1 ht with rfl | ht
  · -- at the opening quote
    left
    obtain ⟨hlen, hs'⟩ := startsWith_quotedKey hkey hs hstart
    have hdrop : (ch '"' :: (s ++ ch '"' :: c :: render ts)).drop (quotedKey f key).length =
        c :: render ts := by
      have hsplit : ch '"' :: (s ++ ch '"' :: c :: render ts) =
          (ch '"' :: s ++ [ch '"']) ++ c :: render ts := by simp
      rw [hsplit]
      exact List.drop_left' (by simp [quotedKey, hlen])
    rw [matchAt, run_member hvalue, if_pos hstart, hdrop,
      List.dropWhile_cons_of_neg (by simp [not_isSpace_of_closes hc])] at h
    dsimp only at h
    split at h
    · exact ⟨‹_›, hlen, hs', h⟩
    · cases h
  right
  rcases suffix_append_of_not_mem hs ht with ht | ⟨d, t', rfl, hd⟩
  · rcases List.suffix_cons_iff.1 ht with rfl | ht
    · -- at the closing quote
      rw [startsWith_quotedKey_of_closes hkey hc] at hstart
      cases hstart
    rcases List.suffix_cons_iff.1 ht with rfl | ht
    · rw [startsWith_quotedKey_of_ne hkey (ne_quote_of_closes hc)] at hstart
      cases hstart
    · exact ht
  · -- inside the string
    rw [startsWith_quotedKey_of_ne hkey hd] at hstart
    cases hstart

theorem member_of_match_tokens {ts : List Token} (hts : WellQuoted ts) (ht : t <:+ render ts)
    (hkey : KeyTest f key) (hvalue : Spaceless value)
    (h : (member (.word (quotedKey f key)) value).matchAt t = some cs) :
    ∃ s text, (s, text) ∈ members ts ∧ s.length = key.length ∧ startsWith (key.map f) s = true ∧
      value.matchAt (text.dropWhile isSpace) = some cs := by
  induction ts using members.induct with
  | case1 =>
    have hstart := startsWith_of_match hvalue h
    rw [List.suffix_nil.1 ht] at hstart
    cases hstart
  | case2 c ts ih =>
    rcases List.suffix_cons_iff.1 ht with rfl | ht
    · have hstart := startsWith_of_match hvalue h
      rw [startsWith_quotedKey_of_ne hkey hts.1] at hstart
      cases hstart
    · exact ih hts.2 ht
  | case3 s ts ih =>
    rcases match_at_quoted hkey hvalue hts.1 hts.2.1 ht h with ⟨-, hlen, hs, hmatch⟩ | ht
    · exact ⟨s, render ts, by simp [members], hlen, hs, hmatch⟩
    · obtain ⟨s', text, hmem, hrest⟩ := ih hts.2.2 ht
      exact ⟨s', text, by simp [members, hmem], hrest⟩
  | case4 s c ts hc ih =>
    rcases match_at_quoted hkey hvalue hts.1 hts.2.1 ht h with ⟨hcolon, -⟩ | ht
    · exact absurd hcolon hc
    · obtain ⟨s', text, hmem, hrest⟩ := ih hts.2.2 ht
      exact ⟨s', text, by simp [members, hc, hmem], hrest⟩
  | case5 s ts hne ih =>
    cases ts with
    | nil => cases hts
    | cons x ts =>
      cases x with
      | byte c => exact absurd rfl (hne c ts)
      | quoted s' => cases hts

/-- The text is a line with these members. -/
def HasMembers (text : Bytes) (ms : List (Bytes × Bytes)) : Prop :=
  ∃ ts, render ts = text ∧ WellQuoted ts ∧ members ts = ms

/-- **Members**: where a pattern for a member matches in a tail of a line, the line has a member
whose key and value match. -/
theorem member_of_match {line : Bytes} {ms : List (Bytes × Bytes)} (hline : HasMembers line ms)
    (ht : t <:+ line) (hkey : KeyTest f key) (hvalue : Spaceless value)
    (h : (member (.word (quotedKey f key)) value).matchAt t = some cs) :
    ∃ s text, (s, text) ∈ ms ∧ s.length = key.length ∧ startsWith (key.map f) s = true ∧
      value.matchAt (text.dropWhile isSpace) = some cs := by
  obtain ⟨ts, rfl, hts, rfl⟩ := hline
  exact member_of_match_tokens hts ht hkey hvalue h

end Match

/-! ## Values -/

/-- What is not an object: `null`, a truth value, a number, a string without quotes and
backslashes, or an array of such. -/
inductive IsValue : Bytes → Prop
  | null : IsValue (str "null")
  | bool (b : Bool) : IsValue (if b then str "true" else str "false")
  | number (text : Bytes) (htext : ∀ c ∈ text, isDigit c = true ∨ c ∈ str "+-.eE") : IsValue text
  | string (s : Bytes) (hquote : ch '"' ∉ s) (hslash : ch '\\' ∉ s) :
    IsValue (ch '"' :: s ++ [ch '"'])
  | array (items : List Bytes) (hitems : ∀ v ∈ items, IsValue v) :
    IsValue (ch '[' :: [ch ','].intercalate items ++ [ch ']'])

/-- The text has tokens that add no member to a line in which the end of a value follows. -/
def Memberless (v : Bytes) : Prop :=
  ∃ ts, render ts = v ∧ ∀ c us, ends c = true → WellQuoted us →
    WellQuoted (ts ++ .byte c :: us) ∧ members (ts ++ .byte c :: us) = members us

theorem closes_of_ends {c : UInt8} (h : ends c = true) : closes c = true := by
  simp [closes, h]

theorem ne_quote_of_ends {c : UInt8} (h : ends c = true) : c ≠ ch '"' :=
  ne_quote_of_closes (closes_of_ends h)

theorem memberless_plain {v : Bytes} (hv : ch '"' ∉ v) : Memberless v :=
  ⟨plain v, render_plain v, fun _ _ hc hus =>
    ⟨wellQuoted_plain hv ⟨ne_quote_of_ends hc, hus⟩, members_plain v _⟩⟩

theorem Memberless.cons {a b : Bytes} {c : UInt8} (ha : Memberless a) (hc : ends c = true)
    (hb : Memberless b) : Memberless (a ++ c :: b) := by
  obtain ⟨ts, hts, hclosed⟩ := ha
  obtain ⟨us, hus, hclosed'⟩ := hb
  refine ⟨ts ++ .byte c :: us, by simp [hts, hus], ?_⟩
  intro d rest hd hrest
  obtain ⟨hwell, hmembers⟩ := hclosed' d rest hd hrest
  obtain ⟨hwell', hmembers'⟩ := hclosed c (us ++ .byte d :: rest) hc hwell
  rw [List.append_assoc, List.cons_append]
  exact ⟨hwell', hmembers'.trans hmembers⟩

theorem memberless_items {items : List Bytes} (h : ∀ v ∈ items, Memberless v) :
    Memberless ([ch ','].intercalate items) := by
  induction items with
  | nil => exact memberless_plain (by simp)
  | cons v items ih =>
    have hv := h v List.mem_cons_self
    have hrest := ih fun w hw => h w (List.mem_cons_of_mem v hw)
    cases items with
    | nil => simpa using hv
    | cons w items =>
      rw [List.intercalate_cons_cons, List.append_assoc, List.singleton_append]
      exact hv.cons (by decide) hrest

theorem IsValue.memberless {v : Bytes} (h : IsValue v) : Memberless v := by
  induction h with
  | null => exact memberless_plain (by decide)
  | bool b => exact memberless_plain (by cases b <;> decide)
  | number text htext =>
    apply memberless_plain
    intro hmem
    have := htext _ hmem
    revert this
    decide
  | string s hquote hslash =>
    refine ⟨[.quoted s], by simp [render, Token.text], fun c us hc hus =>
      ⟨⟨hquote, closes_of_ends hc, hus⟩, ?_⟩⟩
    have hcolon : c ≠ ch ':' := by
      rintro rfl
      revert hc
      decide
    simp [members, hcolon]
  | array items _ ih =>
    obtain ⟨ts, hts, hclosed⟩ := memberless_items ih
    refine ⟨.byte (ch '[') :: (ts ++ [.byte (ch ']')]), ?_, ?_⟩
    · rw [render_byte, render_append, hts]
      rfl
    intro c us hc hus
    obtain ⟨hwell, hmembers⟩ :=
      hclosed (ch ']') (.byte c :: us) (by decide) ⟨ne_quote_of_ends hc, hus⟩
    rw [List.cons_append, List.append_assoc, List.singleton_append]
    exact ⟨⟨by decide, hwell⟩, hmembers⟩

namespace HasMembers

variable {text : Bytes} {ms : List (Bytes × Bytes)}

theorem nil : HasMembers [] [] := ⟨[], rfl, trivial, rfl⟩

theorem byte {c : UInt8} (hc : c ≠ ch '"') (h : HasMembers text ms) :
    HasMembers (c :: text) ms := by
  obtain ⟨ts, rfl, hts, rfl⟩ := h
  exact ⟨.byte c :: ts, rfl, ⟨hc, hts⟩, rfl⟩

theorem value {v : Bytes} {c : UInt8} (hv : Memberless v) (hc : ends c = true)
    (h : HasMembers text ms) : HasMembers (v ++ c :: text) ms := by
  obtain ⟨us, rfl, hclosed⟩ := hv
  obtain ⟨ts, rfl, hts, rfl⟩ := h
  obtain ⟨hwell, hmembers⟩ := hclosed c ts hc hts
  exact ⟨_, by simp, hwell, hmembers⟩

theorem member {s : Bytes} (hs : ch '"' ∉ s) (h : HasMembers text ms) :
    HasMembers (ch '"' :: (s ++ ch '"' :: ch ':' :: text)) ((s, text) :: ms) := by
  obtain ⟨ts, rfl, hts, rfl⟩ := h
  exact ⟨.quoted s :: .byte (ch ':') :: ts, by simp, ⟨hs, by decide, hts⟩, by simp [members]⟩

end HasMembers

/-! ## Lines -/

/-- A response of the pool. -/
def responseLine (n : Nat) (result error : Bytes) : Bytes :=
  str "\x7b\"id\":" ++ dec n ++ str ",\"result\":" ++ result ++ str ",\"error\":" ++ error
    ++ str "\x7d"

/-- A notification of the pool. -/
def notifyLine (params : Bytes) : Bytes :=
  str "\x7b\"id\":null,\"method\":\"mining.notify\",\"params\":" ++ params ++ str "\x7d"

theorem quote_not_mem_dec (n : Nat) : ch '"' ∉ dec n := by
  intro hmem
  have := isDigit_of_mem_dec hmem
  revert this
  decide

theorem responseLine_members (n : Nat) {result error : Bytes} (hresult : IsValue result)
    (herror : IsValue error) : ∃ r₁ r₂ r₃, HasMembers (responseLine n result error)
      [(str "id", dec n ++ ch ',' :: r₁), (str "result", result ++ ch ',' :: r₂),
        (str "error", r₃)] := by
  have hopen : str "\x7b\"id\":" = ch '\x7b' :: ch '"' :: (str "id" ++ [ch '"', ch ':']) := by
    decide
  have hnext : str ",\"result\":" = ch ',' :: ch '"' :: (str "result" ++ [ch '"', ch ':']) := by
    decide
  have hlast : str ",\"error\":" = ch ',' :: ch '"' :: (str "error" ++ [ch '"', ch ':']) := by
    decide
  have hthird := (HasMembers.nil.value herror.memberless (c := ch '\x7d') (by decide)).member
    (s := str "error") (by decide)
  have hsecond := (hthird.value hresult.memberless (c := ch ',') (by decide)).member
    (s := str "result") (by decide)
  have hfirst := (hsecond.value (memberless_plain (quote_not_mem_dec n)) (c := ch ',')
    (by decide)).member (s := str "id") (by decide)
  have htext : responseLine n result error = ch '\x7b' :: ch '"' :: (str "id" ++ ch '"' :: ch ':' ::
      (dec n ++ ch ',' :: ch '"' :: (str "result" ++ ch '"' :: ch ':' ::
        (result ++ ch ',' :: ch '"' :: (str "error" ++ ch '"' :: ch ':' ::
          (error ++ [ch '\x7d'])))))) := by
    simp only [responseLine, hopen, hnext, hlast, List.cons_append, List.append_assoc,
      List.nil_append]
    rfl
  rw [htext]
  exact ⟨_, _, _, hfirst.byte (by decide)⟩

theorem notifyLine_members {params : Bytes} (hparams : IsValue params) :
    ∃ r₁ r₂ r₃, HasMembers (notifyLine params)
      [(str "id", str "null" ++ ch ',' :: r₁), (str "method", r₂), (str "params", r₃)] := by
  have hopen : str "\x7b\"id\":null,\"method\":\"mining.notify\",\"params\":" =
      ch '\x7b' :: ch '"' :: (str "id" ++ ch '"' :: ch ':' :: (str "null" ++ ch ',' :: ch '"' ::
        (str "method" ++ ch '"' :: ch ':' :: ((ch '"' :: str "mining.notify" ++ [ch '"']) ++
          ch ',' :: ch '"' :: (str "params" ++ [ch '"', ch ':']))))) := by decide
  have hthird := (HasMembers.nil.value hparams.memberless (c := ch '\x7d') (by decide)).member
    (s := str "params") (by decide)
  have hnotify : IsValue (ch '"' :: str "mining.notify" ++ [ch '"']) :=
    .string _ (by decide) (by decide)
  have hsecond := (hthird.value hnotify.memberless (c := ch ',') (by decide)).member
    (s := str "method") (by decide)
  have hfirst := (hsecond.value IsValue.null.memberless (c := ch ',') (by decide)).member
    (s := str "id") (by decide)
  have htext : notifyLine params = ch '\x7b' :: ch '"' :: (str "id" ++ ch '"' :: ch ':' ::
      (str "null" ++ ch ',' :: ch '"' :: (str "method" ++ ch '"' :: ch ':' ::
        ((ch '"' :: str "mining.notify" ++ [ch '"']) ++ ch ',' :: ch '"' :: (str "params" ++
          ch '"' :: ch ':' :: (params ++ [ch '\x7d'])))))) := by
    simp only [notifyLine, hopen, List.cons_append, List.append_assoc, List.nil_append]
    rfl
  rw [htext]
  exact ⟨_, _, _, hfirst.byte (by decide)⟩

/-! ## What the readers find -/

theorem keyTest_id : KeyTest (fun c d => d == c) (str "id") where
  quote d := beq_iff_eq
  noQuote := by decide +kernel
  opens := by
    refine ⟨ch 'i', [ch 'd'], by decide, ?_⟩
    intro d hd
    rw [beq_eq_false_iff_ne]
    rintro rfl
    revert hd
    decide

theorem lower_eq_quote (d : UInt8) : lower d = ch '"' ↔ d = ch '"' := by
  have hquote : (ch '"').toNat = 34 := by decide
  have hA : (ch 'A').toNat = 65 := by decide
  have hZ : (ch 'Z').toNat = 90 := by decide
  unfold lower
  split
  · rename_i h
    simp only [Bool.and_eq_true, decide_eq_true_eq, UInt8.le_iff_toNat_le, hA, hZ] at h
    have h32 : (32 : UInt8).toNat = 32 := rfl
    rw [← UInt8.toNat_inj, ← UInt8.toNat_inj, hquote, UInt8.toNat_add, h32]
    omega
  · exact Iff.rfl

theorem keyTest_result : KeyTest (fun c d => lower d == lower c) (str "result") where
  quote d := beq_iff_eq.trans (lower_eq_quote d)
  noQuote := by decide +kernel
  opens := by
    refine ⟨ch 'r', str "esult", by decide, ?_⟩
    intro d hd
    simp only [closes, ends, Bool.or_eq_true, beq_iff_eq] at hd
    rcases hd with rfl | (rfl | rfl) | rfl <;> decide

theorem startsWith_eq {w s : Bytes} (hlen : s.length = w.length)
    (h : startsWith (w.map fun c d => d == c) s = true) : s = w := by
  induction w generalizing s with
  | nil => exact List.length_eq_zero_iff.1 hlen
  | cons c w ih =>
    cases s with
    | nil => cases hlen
    | cons d s =>
      simp only [List.map_cons, startsWith, Bool.and_eq_true, beq_iff_eq] at h
      rw [h.1, ih (Nat.succ.inj hlen) h.2]

theorem matches_lit {w : String} {s : Bytes} {cs : List Bytes} (h : Matches (lit w) s cs) :
    s = str w ∧ cs = [] := by
  obtain ⟨hlen, hstart, hcs⟩ := matches_word.1 h
  rw [List.length_map] at hlen
  exact ⟨startsWith_eq hlen hstart, hcs⟩

theorem startsWith_spelled {w k s : Bytes} (h : k.map lower = w.map lower) :
    startsWith (w.map fun c d => lower d == lower c) (k ++ s) = true := by
  induction w generalizing k with
  | nil =>
    rw [List.map_nil, List.map_eq_nil_iff] at h
    simp [h, startsWith]
  | cons c w ih =>
    cases k with
    | nil => cases h
    | cons d k =>
      rw [List.map_cons, List.map_cons, List.cons.injEq] at h
      rw [List.map_cons, List.cons_append, startsWith, Bool.and_eq_true, beq_iff_eq]
      exact ⟨h.1, ih h.2⟩

theorem startsWith_nocase {w s : Bytes}
    (h : startsWith (w.map fun c d => lower d == lower c) s = true) :
    w.map lower <+: s.map lower := by
  induction w generalizing s with
  | nil => exact List.nil_prefix
  | cons c w ih =>
    cases s with
    | nil => cases h
    | cons d s =>
      rw [List.map_cons, startsWith, Bool.and_eq_true, beq_iff_eq] at h
      rw [List.map_cons, List.map_cons, h.1]
      exact (List.prefix_cons_inj _).2 (ih h.2)

theorem spelled_of_matches {w : String} {u : Bytes} {cs : List Bytes}
    (h : Matches (litNocase w) u cs) : u.map lower = (str w).map lower := by
  obtain ⟨hlen, hstart, -⟩ := matches_word.1 h
  rw [List.length_map] at hlen
  exact ((startsWith_nocase hstart).eq_of_length (by simp [hlen])).symm

/-- An id that is found in a tail of a line is the value of a member `id`. -/
theorem parseMessageId_member {line t : Bytes} {ms : List (Bytes × Bytes)}
    (hline : HasMembers line ms) (ht : t <:+ line) {m : Nat} (h : parseMessageId t = some m) :
    ∃ text ds, (str "id", text) ∈ ms ∧
      (Pat.group digits).matchAt (text.dropWhile isSpace) = some [ds] ∧ stoull ds = some m := by
  have hpattern : idPattern =
      member (.word (quotedKey (fun c d => d == c) (str "id"))) (.group digits) := by
    have hkey : str "\"id\"" = ch '"' :: str "id" ++ [ch '"'] := by decide
    rw [idPattern, lit, hkey]
    rfl
  unfold parseMessageId at h
  split at h
  · rename_i ds hsearch
    obtain ⟨t', ht', hmatch⟩ := firstSuffix_sound hsearch
    rw [hpattern] at hmatch
    obtain ⟨s, text, hmem, hlen, hs, hvalue⟩ :=
      member_of_match hline (ht'.trans ht) keyTest_id spaceless_digits hmatch
    rw [startsWith_eq hlen hs] at hmem
    exact ⟨text, ds, hmem, hvalue, h⟩
  · cases h

theorem matchAt_digits {ds rest : Bytes} (hne : ds ≠ []) (hds : ∀ d ∈ ds, isDigit d = true)
    (hrest : ∀ c ∈ rest.head?, isDigit c = false) :
    (Pat.group digits).matchAt (ds ++ rest) = some [ds] := by
  rw [matchAt, run_digits hne hds hrest rfl]
  rfl

theorem dropWhile_isSpace_of_head {c : UInt8} {t : Bytes} (hc : isSpace c = false) :
    (c :: t).dropWhile isSpace = c :: t :=
  List.dropWhile_cons_of_neg (by simp [hc])

/-- The id in a tail of a response is the id of the response. -/
theorem parseMessageId_response {n : Nat} {result error t : Bytes} (hresult : IsValue result)
    (herror : IsValue error) (ht : t <:+ responseLine n result error) {m : Nat}
    (h : parseMessageId t = some m) : m = n := by
  obtain ⟨r₁, r₂, r₃, hline⟩ := responseLine_members n hresult herror
  obtain ⟨text, ds, hmem, hmatch, hm⟩ := parseMessageId_member hline ht h
  have htext : text = dec n ++ ch ',' :: r₁ := by
    have hne : str "id" ≠ str "result" ∧ str "id" ≠ str "error" := by decide
    simpa [hne.1, hne.2] using hmem
  have hspace : (dec n ++ ch ',' :: r₁).dropWhile isSpace = dec n ++ ch ',' :: r₁ := by
    obtain ⟨d, ds', hd⟩ := List.exists_cons_of_ne_nil (dec_ne_nil n)
    have hdigit : isDigit d = true := isDigit_of_mem_dec (n := n) (by simp [hd])
    rw [hd, List.cons_append, dropWhile_isSpace_of_head (not_isSpace_of_isDigit hdigit)]
  have hcomma : ∀ c ∈ (ch ',' :: r₁).head?, isDigit c = false := by
    intro c hc
    obtain rfl : ch ',' = c := by simpa using hc
    decide
  rw [htext, hspace, matchAt_digits (dec_ne_nil n) (fun _ => isDigit_of_mem_dec) hcomma] at hmatch
  obtain rfl : dec n = ds := by simpa using hmatch
  rw [stoull_digits (dec_ne_nil n) (fun _ => isDigit_of_mem_dec), digitsValue_dec] at hm
  split at hm
  · cases hm
  · exact (Option.some.inj hm).symm

/-- A notification has no id, and no tail of it has. -/
theorem parseMessageId_notify {params t : Bytes} (hparams : IsValue params)
    (ht : t <:+ notifyLine params) : parseMessageId t = none := by
  obtain ⟨r₁, r₂, r₃, hline⟩ := notifyLine_members hparams
  rw [Option.eq_none_iff_forall_ne_some]
  intro m h
  obtain ⟨text, ds, hmem, hmatch, -⟩ := parseMessageId_member hline ht h
  have htext : text = str "null" ++ ch ',' :: r₁ := by
    have hne : str "id" ≠ str "method" ∧ str "id" ≠ str "params" := by decide
    simpa [hne.1, hne.2] using hmem
  have hnull : str "null" = ch 'n' :: str "ull" := by decide
  rw [htext, hnull, List.cons_append, dropWhile_isSpace_of_head (by decide), matchAt, run_group,
    digits, run_seq, run_one_cons, if_neg (by decide)] at hmatch
  cases hmatch

theorem take_sub_drop {α : Type} (s : List α) (k : Nat) :
    s.take (s.length - (s.drop k).length) = s.take k := by
  rw [List.take_eq_take_iff, List.length_drop]
  omega

/-- A truth value is taken from where a text starts with one. -/
theorem matchAt_boolToken {c : UInt8} {t : Bytes} {cs : List Bytes}
    (h : boolToken.matchAt (c :: t) = some cs) :
    (lower c = ch 't' ∧ cs = [(c :: t).take 4]) ∨ (lower c = ch 'f' ∧ cs = [(c :: t).take 5]) := by
  have htrue : str "true" = ch 't' :: str "rue" := by decide
  have hfalse : str "false" = ch 'f' :: str "alse" := by decide
  have hlower : lower (ch 't') = ch 't' ∧ lower (ch 'f') = ch 'f' := by decide
  have hlen : (str "true").length = 4 ∧ (str "false").length = 5 := by decide
  rw [matchAt, boolToken, run_group, run_alt, run_litNocase, run_litNocase, Option.or_eq_some_iff,
    hlen.1, hlen.2, take_sub_drop, take_sub_drop] at h
  rcases h with h | ⟨-, h⟩
  · left
    split at h
    · rename_i hstart
      rw [htrue, List.map_cons, startsWith, Bool.and_eq_true, beq_iff_eq, hlower.1] at hstart
      exact ⟨hstart.1, (Option.some.inj h).symm⟩
    · cases h
  · right
    split at h
    · rename_i hstart
      rw [hfalse, List.map_cons, startsWith, Bool.and_eq_true, beq_iff_eq, hlower.2] at hstart
      exact ⟨hstart.1, (Option.some.inj h).symm⟩
    · cases h

theorem spaceless_boolToken : Spaceless boolToken := by
  intro β c t cs k hc
  have hstart : ∀ w : String, (∀ a ∈ (str w).head?, lower c ≠ lower a) → str w ≠ [] →
      startsWith ((str w).map fun c d => lower d == lower c) (c :: t) = false := by
    intro w hw hne
    obtain ⟨a, as, ha⟩ := List.exists_cons_of_ne_nil hne
    simp [ha, startsWith, hw a (by simp [ha])]
  have hlower : lower c = c := by
    rw [isSpace_iff] at hc
    have hA : (ch 'A').toNat = 65 := by decide
    simp only [lower, UInt8.le_iff_toNat_le, hA, Bool.and_eq_true, decide_eq_true_eq]
    rw [if_neg (by omega)]
  have hne : ∀ a : UInt8, isSpace a = false → c ≠ a := by
    rintro a ha rfl
    rw [hc] at ha
    cases ha
  have htrue : ∀ a ∈ (str "true").head?, lower c ≠ lower a := by
    intro a ha
    obtain rfl : ch 't' = a := by simpa [str] using ha
    rw [hlower]
    exact hne _ (by decide)
  have hfalse : ∀ a ∈ (str "false").head?, lower c ≠ lower a := by
    intro a ha
    obtain rfl : ch 'f' = a := by simpa [str] using ha
    rw [hlower]
    exact hne _ (by decide)
  rw [boolToken, run_group, run_alt, run_litNocase, run_litNocase,
    hstart "true" htrue (by decide), hstart "false" hfalse (by decide)]
  rfl

/-- A value that does not start like a truth value is none. -/
theorem not_matchAt_boolToken {c : UInt8} {t : Bytes} {cs : List Bytes}
    (hc : isSpace c = false ∧ lower c ≠ ch 't' ∧ lower c ≠ ch 'f') :
    boolToken.matchAt ((c :: t).dropWhile isSpace) ≠ some cs := by
  rw [dropWhile_isSpace_of_head hc.1]
  intro h
  rcases matchAt_boolToken h with ⟨ht, -⟩ | ⟨hf, -⟩
  · exact hc.2.1 ht
  · exact hc.2.2 hf

/-- A number starts with no letter of a truth value. -/
theorem number_head {c : UInt8} (h : isDigit c = true ∨ c ∈ str "+-.eE") :
    isSpace c = false ∧ lower c ≠ ch 't' ∧ lower c ≠ ch 'f' := by
  rcases h with h | h
  · refine ⟨not_isSpace_of_isDigit h, ?_⟩
    rw [isDigit_iff] at h
    have hA : (ch 'A').toNat = 65 := by decide
    have hlower : lower c = c := by
      simp only [lower, UInt8.le_iff_toNat_le, hA, Bool.and_eq_true, decide_eq_true_eq]
      rw [if_neg (by omega)]
    rw [hlower]
    constructor
    all_goals
      rintro rfl
      revert h
      decide
  · revert c
    decide +kernel

/-- The result in a tail of a response is true only if the result of the response is. -/
theorem parseBoolResult_response {n : Nat} {result error t : Bytes} (hresult : IsValue result)
    (herror : IsValue error) (ht : t <:+ responseLine n result error)
    (h : parseBoolResult t = some true) : result = str "true" := by
  have hpattern : resultPattern =
      member (.word (quotedKey (fun c d => lower d == lower c) (str "result"))) boolToken := by
    have hkey : str "\"result\"" = ch '"' :: str "result" ++ [ch '"'] := by decide
    rw [resultPattern, litNocase, hkey]
    rfl
  obtain ⟨r₁, r₂, r₃, hline⟩ := responseLine_members n hresult herror
  unfold parseBoolResult at h
  split at h
  · rename_i token hsearch
    obtain ⟨t', ht', hmatch⟩ := firstSuffix_sound hsearch
    rw [hpattern] at hmatch
    obtain ⟨s, text, hmem, hlen, hs, hvalue⟩ :=
      member_of_match hline (ht'.trans ht) keyTest_result spaceless_boolToken hmatch
    have htext : text = result ++ ch ',' :: r₂ := by
      have hother : (str "id").length ≠ (str "result").length ∧
          (str "error").length ≠ (str "result").length := by decide
      simp only [List.mem_cons, Prod.mk.injEq, List.not_mem_nil, or_false] at hmem
      rcases hmem with ⟨rfl, -⟩ | ⟨-, htext⟩ | ⟨rfl, -⟩
      · exact absurd hlen hother.1
      · exact htext
      · exact absurd hlen hother.2
    rw [Option.some.injEq] at h
    subst htext
    cases hresult with
    | null => exact absurd hvalue (not_matchAt_boolToken (by decide))
    | bool b =>
      cases b with
      | true => rfl
      | false =>
        -- the token is the text `false`
        have hfalse : str "false" = ch 'f' :: str "alse" := by decide
        simp only [Bool.false_eq_true, if_false] at hvalue
        rw [hfalse, List.cons_append, dropWhile_isSpace_of_head (by decide)] at hvalue
        rcases matchAt_boolToken hvalue with ⟨hlower, -⟩ | ⟨-, htoken⟩
        · revert hlower
          decide
        · rw [← List.cons_append, ← hfalse, List.take_left' (by decide)] at htoken
          rw [List.singleton_inj.1 htoken] at h
          revert h
          decide
    | number _ htext =>
      cases result with
      | nil => exact absurd hvalue (not_matchAt_boolToken (by decide))
      | cons c text =>
        exact absurd hvalue (not_matchAt_boolToken (number_head (htext c List.mem_cons_self)))
    | string s hquote hslash => exact absurd hvalue (not_matchAt_boolToken (by decide))
    | array items hitems => exact absurd hvalue (not_matchAt_boolToken (by decide))
  · cases h

end HermitMiner
