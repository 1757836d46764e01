import HermitMiner.FakePool
import HermitMiner.Verify.Load
import HermitMiner.Verify.Messages

/-!
# Requests and their readers

Three readers take a request apart: the search for its id, the pool's search for its method, and
`JsonParser::parse_string` for its parameters. The strings that the client puts into a request do
not lead any of them astray.

* `Request`: the requests, with their methods and parameters.
* `afterKeys`: the text behind each key that ends in `d`, read from left to right; a parameter adds
  no key (`afterKeys_jsonEscape`).
* `contains_line`: the pool finds the method of the request, and no other.
* `readStrings_line`: the parameters, read back.
-/

namespace HermitMiner

open FakePool (Method handler parseId)
open JsonParser (parseString)
open JsonGrammar

/-! ## Requests -/

inductive Request where
  | subscribe (userAgent : Bytes)
  | authorize (username password : Bytes)
  | submit (username jobId : Bytes) (nonce : UInt32)

namespace Request

/-- The line that the client builds. -/
def line (id : Nat) : Request → Bytes
  | .subscribe userAgent => subscribeRequest id userAgent
  | .authorize username password => authorizeRequest id username password
  | .submit username jobId nonce => submitRequest id username jobId nonce

def method : Request → Method
  | .subscribe _ => .subscribe
  | .authorize .. => .authorize
  | .submit .. => .submit

/-- The digits of a nonce, the most significant one first. -/
def nonceDigits (nonce : UInt32) : Bytes :=
  (List.range 8).map fun i => (str "0123456789abcdef")[nonce.toNat / 16 ^ (7 - i) % 16]!

def params : Request → List Bytes
  | .subscribe userAgent => [userAgent]
  | .authorize username password => [username, password]
  | .submit username jobId nonce => [username, jobId, nonceDigits nonce]

end Request

/-! ## Nonces -/

section Nonces

theorem digitChar_eq {d : Nat} (h : d < 16) :
    ch (Nat.digitChar d) = (str "0123456789abcdef")[d]! := by
  have hall : ∀ d : Fin 16, ch (Nat.digitChar d) = (str "0123456789abcdef")[d.val]! := by decide
  exact hall ⟨d, h⟩

/-- The digits of a number below `16 ^ (k + 1)`, with zeros before them. -/
theorem leftpad_toDigits (k n : Nat) (h : n < 16 ^ (k + 1)) :
    ((Nat.toDigits 16 n).map ch).leftpad (k + 1) (ch '0') =
      (List.range (k + 1)).map fun i => (str "0123456789abcdef")[n / 16 ^ (k - i) % 16]! := by
  induction k generalizing n with
  | zero =>
    have hn : n < 16 := by simpa using h
    rw [Nat.toDigits_of_lt_base hn]
    simp [List.leftpad, digitChar_eq hn, Nat.mod_eq_of_lt hn]
  | succ k ih =>
    have hlast : ch (Nat.digitChar (n % 16)) = (str "0123456789abcdef")[n % 16]! :=
      digitChar_eq (Nat.mod_lt _ (by omega))
    have hrest := ih (n / 16) (by rw [Nat.div_lt_iff_lt_mul (by omega), ← pow_succ]; exact h)
    have hdigits : ((Nat.toDigits 16 n).map ch).leftpad (k + 1 + 1) (ch '0') =
        ((Nat.toDigits 16 (n / 16)).map ch).leftpad (k + 1) (ch '0') ++
          [ch (Nat.digitChar (n % 16))] := by
      rcases Nat.lt_or_ge n 16 with hn | hn
      · rw [Nat.toDigits_of_lt_base hn, Nat.div_eq_of_lt hn, Nat.mod_eq_of_lt hn]
        simp [List.leftpad, List.replicate_succ']
      · rw [Nat.toDigits_of_base_le (by omega) hn]
        simp [List.leftpad]
    rw [hdigits, hrest, hlast, List.range_succ (n := k + 1), List.map_append]
    congr 1
    · apply List.map_congr_left
      intro i hi
      have hi' : i < k + 1 := List.mem_range.1 hi
      rw [Nat.div_div_eq_div_mul, ← pow_succ', show k - i + 1 = k + 1 - i by omega]
    · simp

theorem nonceToHex_eq (nonce : UInt32) : nonceToHex nonce = Request.nonceDigits nonce :=
  leftpad_toDigits 7 nonce.toNat nonce.toNat_lt

/-- The digits are the ones of a C++ stream under `std::nouppercase`. -/
theorem mem_nonceDigits {nonce : UInt32} {c : UInt8} (h : c ∈ Request.nonceDigits nonce) :
    c ∈ str "0123456789abcdef" := by
  obtain ⟨i, -, rfl⟩ := List.mem_map.1 h
  have hlt : nonce.toNat / 16 ^ (7 - i) % 16 < 16 := Nat.mod_lt _ (by omega)
  have hall : ∀ d : Fin 16, (str "0123456789abcdef")[d.val]! ∈ str "0123456789abcdef" := by
    decide
  exact hall ⟨_, hlt⟩

end Nonces

/-! ## The text of a request -/

section Texts

/-- The strings as a request writes them. -/
def paramsText : List Bytes → Bytes
  | [] => []
  | [s] => quoted (jsonEscape s)
  | s :: t :: ss => quoted (jsonEscape s) ++ ch ',' :: paramsText (t :: ss)

theorem jsonEscape_self {s : Bytes} (h : ∀ c ∈ s, jsonEscapeByte c = [c]) : jsonEscape s = s := by
  induction s with
  | nil => rfl
  | cons c s ih =>
    have hc := h c List.mem_cons_self
    have hs : s.flatMap jsonEscapeByte = s := ih fun d hd => h d (List.mem_cons_of_mem c hd)
    rw [jsonEscape, List.flatMap_cons, hc, hs, List.singleton_append]

theorem jsonEscape_nonceDigits (nonce : UInt32) :
    jsonEscape (Request.nonceDigits nonce) = Request.nonceDigits nonce := by
  have hall : (str "0123456789abcdef").all (fun c => jsonEscapeByte c == [c]) = true := by decide
  apply jsonEscape_self
  intro c hc
  exact eq_of_beq (List.all_eq_true.1 hall c (mem_nonceDigits hc))

/-- The text before the parameters. -/
def Request.head (id : Nat) (r : Request) : Bytes :=
  str "\x7b\"id\":" ++ dec id ++ str ",\"method\":\"" ++ r.method.name ++ str "\",\"params\":["

theorem Request.line_eq (id : Nat) (r : Request) :
    r.line id = r.head id ++ paramsText r.params ++ str "]\x7d" := by
  cases r with
  | subscribe userAgent =>
    simp [line, head, params, method, Method.name, subscribeRequest, paramsText, quoted, str]
  | authorize username password =>
    simp [line, head, params, method, Method.name, authorizeRequest, paramsText, quoted, str]
  | submit username jobId nonce =>
    simp [line, head, params, method, Method.name, submitRequest, paramsText, quoted, str,
      nonceToHex_eq, jsonEscape_nonceDigits]

end Texts

/-! ## Keys -/

section Keys

variable {prev c : UInt8} {s t w : Bytes}

/-- The text behind each key that ends in `d`: a quote behind a `d` with a colon behind it. The first
argument is the byte before the text. -/
def afterKeys : UInt8 → Bytes → List Bytes
  | _, [] => []
  | prev, c :: s =>
    if prev = ch 'd' ∧ c = ch '"' ∧ s.head? = some (ch ':') then s.tail :: afterKeys c s
    else afterKeys c s

theorem mem_afterKeys (prev : UInt8) (t s : Bytes) :
    s ∈ afterKeys prev (t ++ ch 'd' :: ch '"' :: ch ':' :: s) := by
  induction t generalizing prev with
  | nil =>
    rw [List.nil_append, afterKeys, if_neg (by simp [ch]), afterKeys, if_pos (by simp)]
    exact List.mem_cons_self
  | cons c t ih =>
    rw [List.cons_append, afterKeys]
    split
    · exact List.mem_cons_of_mem _ (ih c)
    · exact ih c

theorem afterKeys_skip (h : prev ≠ ch 'd' ∨ c ≠ ch '"') :
    afterKeys prev (c :: s) = afterKeys c s := by
  rw [afterKeys, if_neg]
  rintro ⟨hprev, hc, -⟩
  exact h.elim (· hprev) (· hc)

/-- Between quotes there is no key. -/
theorem afterKeys_plain (hw : ch '"' ∉ w) (hc : c ≠ ch '"') :
    afterKeys prev (w ++ c :: s) = afterKeys c s := by
  induction w generalizing prev with
  | nil => exact afterKeys_skip (.inr hc)
  | cons d w ih =>
    have hd : d ≠ ch '"' := fun heq => hw (heq ▸ List.mem_cons_self)
    rw [List.cons_append, afterKeys_skip (.inr hd)]
    exact ih fun hmem => hw (List.mem_cons_of_mem d hmem)

/-- A byte is escaped with a backslash before it, or it is no quote. -/
theorem jsonEscapeByte_cases (c : UInt8) :
    (∃ esc, jsonEscapeByte c = [ch '\\', esc]) ∨ (jsonEscapeByte c = [c] ∧ c ≠ ch '"') := by
  unfold jsonEscapeByte
  repeat' split
  all_goals first
    | exact .inl ⟨_, rfl⟩
    | exact .inr ⟨rfl, ‹_›⟩

/-- An escaped text has no key, up to the quote that ends it. -/
theorem afterKeys_jsonEscape (hc : c ≠ ch ':') :
    afterKeys prev (jsonEscape t ++ ch '"' :: c :: s) = afterKeys (ch '"') (c :: s) := by
  induction t generalizing prev with
  | nil =>
    have hkey : ¬(prev = ch 'd' ∧ ch '"' = ch '"' ∧ (c :: s).head? = some (ch ':')) := by
      rintro ⟨-, -, hcolon⟩
      exact hc (Option.some.inj hcolon)
    rw [jsonEscape, List.flatMap_nil, List.nil_append, afterKeys, if_neg hkey]
  | cons d t ih =>
    have hcons : jsonEscape (d :: t) = jsonEscapeByte d ++ jsonEscape t := List.flatMap_cons
    rw [hcons, List.append_assoc]
    rcases jsonEscapeByte_cases d with ⟨esc, hesc⟩ | ⟨hesc, hquote⟩
    · rw [hesc, List.cons_append, List.cons_append, List.nil_append,
        afterKeys_skip (.inr (by decide)), afterKeys_skip (.inl (by decide))]
      exact ih
    · rw [hesc, List.singleton_append, afterKeys_skip (.inr hquote)]
      exact ih

theorem afterKeys_quoted (hprev : prev ≠ ch 'd') (hc : c ≠ ch ':') :
    afterKeys prev (quoted (jsonEscape t) ++ c :: s) = afterKeys (ch '"') (c :: s) := by
  have htext : quoted (jsonEscape t) ++ c :: s = ch '"' :: (jsonEscape t ++ ch '"' :: c :: s) := by
    simp [quoted]
  rw [htext, afterKeys_skip (.inl hprev), afterKeys_jsonEscape hc]

theorem afterKeys_params (hprev : prev ≠ ch 'd') (ss : List Bytes) :
    afterKeys prev (paramsText ss ++ str "]\x7d") = [] := by
  have hend : str "]\x7d" = [ch ']', ch '\x7d'] := rfl
  rw [hend]
  induction ss using paramsText.induct generalizing prev with
  | case1 => simp [paramsText, afterKeys, ch]
  | case2 s =>
    rw [paramsText, afterKeys_quoted hprev (by decide)]
    simp [afterKeys, ch]
  | case3 s t ss ih =>
    rw [paramsText, List.append_assoc, List.cons_append, afterKeys_quoted hprev (by decide),
      afterKeys_skip (.inl (by decide))]
    exact ih (by decide)

/-- A line has two keys that end in `d`, whatever its parameters are. -/
theorem afterKeys_line (id : Nat) (r : Request) :
    ∃ front back, afterKeys 0 (r.line id) =
      [dec id ++ front, str "\"" ++ r.method.name ++ str "\"" ++ back] := by
  have hdec : ch '"' ∉ dec id := fun h => absurd (isDigit_of_mem_dec h) (by decide)
  have hmethod : ∀ (m : Method) (back : Bytes),
      afterKeys (ch ',') (str "\"method\":" ++ (str "\"" ++ m.name ++ str "\"" ++
          (str ",\"params\":[" ++ back))) =
        (str "\"" ++ m.name ++ str "\"" ++ (str ",\"params\":[" ++ back)) ::
          afterKeys (ch '[') back := by
    intro m back
    cases m <;> simp [Method.name, afterKeys, str, ch]
  have hopen : ∀ back : Bytes, afterKeys 0 (str "\x7b\"id\":" ++ back) =
      back :: afterKeys (ch ':') back := by
    intro back
    simp [afterKeys, str, ch]
  have htext : r.line id = str "\x7b\"id\":" ++ (dec id ++ ch ',' :: (str "\"method\":" ++
      (str "\"" ++ r.method.name ++ str "\"" ++
        (str ",\"params\":[" ++ (paramsText r.params ++ str "]\x7d"))))) := by
    rw [r.line_eq, Request.head]
    simp [str]
  rw [htext, hopen, afterKeys_plain hdec (by decide), hmethod, afterKeys_params (by decide)]
  exact ⟨_, _, rfl⟩

end Keys

/-! ## The method that the pool finds -/

section Dispatch

variable {m : Method}

theorem contains_iff (text word : Bytes) : contains text word = true ↔ word <:+: text := by
  rw [contains, List.any_eq_true, List.infix_iff_prefix_suffix]
  simp only [List.mem_tails, List.isPrefixOf_iff_prefix, and_comm]

/-- The pool finds the method of a request in its line, and no other one. -/
theorem contains_line (id : Nat) (r : Request) : contains (r.line id) m.member = true ↔
    m = r.method := by
  rw [contains_iff]
  constructor
  · rintro ⟨t, s, hts⟩
    have hkey : t ++ m.member ++ s =
        (t ++ str "\"metho") ++ ch 'd' :: ch '"' :: ch ':' :: (str "\"" ++ m.name ++ str "\"" ++ s) := by
      simp [Method.member, str]
    have hmem := mem_afterKeys 0 (t ++ str "\"metho") (str "\"" ++ m.name ++ str "\"" ++ s)
    rw [← hkey, hts] at hmem
    obtain ⟨front, back, hkeys⟩ := afterKeys_line id r
    rw [hkeys, List.mem_cons, List.mem_singleton] at hmem
    rcases hmem with hid | hmethod
    · obtain ⟨d, ds, hds⟩ := List.exists_cons_of_ne_nil (dec_ne_nil id)
      have hd : isDigit d = true := isDigit_of_mem_dec (n := id) (by simp [hds])
      have hquote : ch '"' = d := by
        rw [hds] at hid
        exact (List.cons.inj hid).1
      rw [← hquote] at hd
      exact absurd hd (by decide)
    · revert hmethod
      generalize r.method = m'
      cases m <;> cases m' <;> simp [Method.name, str, ch]
  · rintro rfl
    refine ⟨str "\x7b\"id\":" ++ dec id ++ str ",", str ",\"params\":[" ++ paramsText r.params
      ++ str "]\x7d", ?_⟩
    rw [r.line_eq, Request.head, Method.member]
    simp [str]

theorem handler_line (id : Nat) (r : Request) : handler (r.line id) = some r.method := by
  have htest : ∀ m : Method, contains (r.line id) m.member = decide (m = r.method) := by
    intro m
    rw [Bool.eq_iff_iff, contains_line, decide_eq_true_iff]
  unfold handler
  rw [htest, htest, htest]
  cases r.method <;> rfl

end Dispatch

/-! ## The ids and the bytes of a line -/

section Bytes

theorem parseMessageId_line (id : Nat) (r : Request) :
    parseMessageId (r.line id) = if 2 ^ 64 ≤ id then none else some id := by
  cases r with
  | subscribe userAgent => exact parseMessageId_subscribeRequest id userAgent
  | authorize username password => exact parseMessageId_authorizeRequest id username password
  | submit username jobId nonce => exact parseMessageId_submitRequest id username jobId nonce

/-- The pool reads ids as the client does, but for its 0 when there is none. -/
theorem parseId_eq (json : Bytes) : parseId json = (parseMessageId json).getD 0 := by
  unfold parseId parseMessageId
  rcases Regex.search idPattern json with _ | _ | ⟨d, _ | ⟨e, ds⟩⟩ <;> rfl

/-- The bytes of one line. -/
def InLine (s : Bytes) : Prop := ∀ c ∈ s, c ≠ ch '\n' ∧ c ≠ ch '\r'

instance (s : Bytes) : Decidable (InLine s) :=
  inferInstanceAs (Decidable (∀ c ∈ s, c ≠ ch '\n' ∧ c ≠ ch '\r'))

theorem InLine.append {s t : Bytes} (hs : InLine s) (ht : InLine t) : InLine (s ++ t) := by
  intro c hc
  rcases List.mem_append.1 hc with hc | hc
  · exact hs c hc
  · exact ht c hc

theorem inLine_dec (n : Nat) : InLine (dec n) := by
  intro c hc
  have hdigit := isDigit_of_mem_dec hc
  constructor
  · rintro rfl
    exact absurd hdigit (by decide)
  · rintro rfl
    exact absurd hdigit (by decide)

theorem inLine_jsonEscape (s : Bytes) : InLine (jsonEscape s) := by
  have hbyte : ∀ d, InLine (jsonEscapeByte d) := by
    intro d
    unfold jsonEscapeByte
    repeat' split
    all_goals simp_all [InLine, str, ch]
  intro c hc
  obtain ⟨d, -, hd⟩ := List.mem_flatMap.1 hc
  exact hbyte d c hd

theorem inLine_paramsText (ss : List Bytes) : InLine (paramsText ss) := by
  have hquoted : ∀ s, InLine (quoted (jsonEscape s)) := by
    intro s
    have hquote : InLine (str "\"") := by simp [InLine, str, ch]
    exact (hquote.append (inLine_jsonEscape s)).append hquote
  have hcomma : InLine (str ",") := by simp [InLine, str, ch]
  induction ss using paramsText.induct with
  | case1 => simp [paramsText, InLine]
  | case2 s => exact hquoted s
  | case3 s t ss ih => exact (hquoted s).append (hcomma.append ih)

theorem inLine_line (id : Nat) (r : Request) : InLine (r.line id) := by
  have hname : InLine r.method.name := by cases r <;> simp [Request.method, Method.name, InLine, str, ch]
  have hopen : InLine (str "\x7b\"id\":") := by simp [InLine, str, ch]
  have hmethod : InLine (str ",\"method\":\"") := by simp [InLine, str, ch]
  have hparams : InLine (str "\",\"params\":[") := by simp [InLine, str, ch]
  have hclose : InLine (str "]\x7d") := by simp [InLine, str, ch]
  rw [r.line_eq, Request.head]
  exact (((((hopen.append (inLine_dec id)).append hmethod).append hname).append hparams).append
    (inLine_paramsText _)).append hclose

end Bytes

/-! ## The parameters that come back -/

section Params

/-- Strings with commas between them, up to a bracket, read with `parse_string` one after another; no
more than `n`. -/
def readStrings (input : Bytes) : Nat → Nat → Option (List Bytes)
  | 0, _ => none
  | n + 1, pos =>
    match parseString input pos with
    | (some s, next) =>
      if input[next]? = some (ch ']') then some [s]
      else if input[next]? = some (ch ',') then (readStrings input n (next + 1)).map (s :: ·)
      else none
    | (none, _) => none

/-- What the parameters of a line start with. -/
def paramsStart (line : Bytes) : Nat := line.idxOf (ch '[') + 1

theorem readStrings_params {input rest : Bytes} {ss : List Bytes} (hne : ss ≠ []) :
    ∀ {n pos : Nat}, ss.length ≤ n →
      input.drop pos = paramsText ss ++ ch ']' :: rest → readStrings input n pos = some ss := by
  induction ss using paramsText.induct with
  | case1 => exact absurd rfl hne
  | case2 s =>
    intro n pos hn hdrop
    obtain ⟨n, rfl⟩ : ∃ k, n = k + 1 := ⟨n - 1, by simp at hn; omega⟩
    rw [paramsText] at hdrop
    have hread := parseString_complete (body_jsonEscape s) hdrop
    have hclose := getElem?_of_drop (drop_add hdrop)
    rw [readStrings, hread]
    dsimp only
    rw [if_pos hclose]
  | case3 s t ss ih =>
    intro n pos hn hdrop
    obtain ⟨n, rfl⟩ : ∃ k, n = k + 1 := ⟨n - 1, by simp at hn; omega⟩
    rw [paramsText, List.append_assoc, List.cons_append] at hdrop
    have hread := parseString_complete (body_jsonEscape s) hdrop
    have hcomma := getElem?_of_drop (drop_add hdrop)
    have hrest := ih (by simp) (by simp at hn ⊢; omega) (drop_succ (drop_add hdrop))
    rw [readStrings, hread]
    dsimp only
    rw [if_neg (by rw [hcomma]; decide), if_pos hcomma, hrest]
    rfl

theorem length_le_paramsText (ss : List Bytes) : ss.length ≤ (paramsText ss).length := by
  induction ss using paramsText.induct with
  | case1 => exact le_rfl
  | case2 s =>
    simp only [paramsText, quoted, List.length_cons, List.length_append, List.length_nil]
    omega
  | case3 s t ss ih =>
    simp only [paramsText, List.length_cons, List.length_append] at ih ⊢
    omega

theorem readStrings_line (id : Nat) (r : Request) :
    readStrings (r.line id) (r.line id).length (paramsStart (r.line id)) = some r.params := by
  have hfront : ∃ front, r.head id = front ++ [ch '['] ∧ ch '[' ∉ front := by
    refine ⟨str "\x7b\"id\":" ++ dec id ++ str ",\"method\":\"" ++ r.method.name
      ++ str "\",\"params\":", by simp [Request.head, str], ?_⟩
    have hdec : ch '[' ∉ dec id := fun h => absurd (isDigit_of_mem_dec h) (by decide)
    have hname : ch '[' ∉ r.method.name := by
      cases r <;> simp [Request.method, Method.name, str, ch]
    simp only [List.mem_append, not_or]
    exact ⟨⟨⟨⟨by simp [str, ch], hdec⟩, by simp [str, ch]⟩, hname⟩, by simp [str, ch]⟩
  obtain ⟨front, hhead, hopen⟩ := hfront
  have hline : r.line id = front ++ ch '[' :: (paramsText r.params ++ str "]\x7d") := by
    simp [r.line_eq, hhead]
  have hstart : paramsStart (r.line id) = front.length + 1 := by
    rw [paramsStart, hline, List.idxOf_append_of_notMem hopen, List.idxOf_cons_self]
  have hdrop : (r.line id).drop (front.length + 1) = paramsText r.params ++ ch ']' :: [ch '\x7d'] := by
    rw [hline, ← List.drop_drop, List.drop_left]
    rfl
  rw [hstart]
  apply readStrings_params _ _ hdrop
  · cases r <;> simp [Request.params]
  · have hlength := length_le_paramsText r.params
    rw [hline]
    simp only [List.length_append, List.length_cons]
    omega

end Params

/-- **Requests are unambiguous**: whatever strings a request carries, its line is one line, both ends
find its id in it, the pool finds its method and no other, and its parameters read back as they
were. -/
theorem request_unambiguous (id : UInt64) (r : Request) :
    (∀ c ∈ r.line id.toNat, c ≠ ch '\n' ∧ c ≠ ch '\r') ∧
    parseMessageId (r.line id.toNat) = some id.toNat ∧
    parseId (r.line id.toNat) = id.toNat ∧
    (∀ m : Method, contains (r.line id.toNat) m.member = true ↔ m = r.method) ∧
    handler (r.line id.toNat) = some r.method ∧
    readStrings (r.line id.toNat) (r.line id.toNat).length (paramsStart (r.line id.toNat)) =
      some r.params := by
  have hid : parseMessageId (r.line id.toNat) = some id.toNat := by
    rw [parseMessageId_line, if_neg (Nat.not_le.2 id.toNat_lt)]
  refine ⟨inLine_line _ r, hid, ?_, fun m => contains_line _ r, handler_line _ r,
    readStrings_line _ r⟩
  rw [parseId_eq, hid]
  rfl

end HermitMiner
