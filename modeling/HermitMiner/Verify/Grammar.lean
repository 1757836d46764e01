import HermitMiner.Config.Grammar

/-!
# The parser is the grammar

* `Reads`: what the parser has read between two positions.
* `parse_sound`, `parse_complete`: the parser reads the texts of the grammar and no others.
* `bounded_parse`, `parse_fuel`: where the parser stops, and that the bound on its calls cuts
  nothing short.
* `parse_iff_document`: the parser accepts the documents and computes their values.
-/

namespace HermitMiner

open JsonParser JsonGrammar

/-! ## Positions -/

section Reads

variable {input text text' rest : Bytes} {pos pos' pos'' : Nat}

/-- Between `pos` and `pos'` the input is `text`. -/
structure Reads (input : Bytes) (pos : Nat) (text : Bytes) (pos' : Nat) : Prop where
  split : input.drop pos = text ++ input.drop pos'
  stop : pos' = pos + text.length

theorem Reads.of_drop (h : input.drop pos = text ++ rest) :
    Reads input pos text (pos + text.length) := by
  refine ⟨?_, rfl⟩
  rw [← List.drop_drop, h, List.drop_left]

theorem Reads.drop_eq (h : Reads input pos text pos') (htext : input.drop pos = text ++ rest) :
    input.drop pos' = rest :=
  List.append_cancel_left (h.split.symm.trans htext)

theorem Reads.nil : Reads input pos [] pos := ⟨rfl, rfl⟩

theorem Reads.append (h : Reads input pos text pos') (h' : Reads input pos' text' pos'') :
    Reads input pos (text ++ text') pos'' := by
  refine ⟨?_, ?_⟩
  · rw [h.split, h'.split, List.append_assoc]
  · rw [h'.stop, h.stop, List.length_append, Nat.add_assoc]

theorem Reads.le (h : Reads input pos text pos') (hpos : pos ≤ input.length) :
    pos' ≤ input.length := by
  have hlength := congrArg List.length h.split
  rw [List.length_append, List.length_drop, List.length_drop] at hlength
  have hstop := h.stop
  omega

/-- The byte at a position. -/
theorem Reads.byte {c : UInt8} (h : input[pos]? = some c) : Reads input pos [c] (pos + 1) := by
  refine ⟨?_, rfl⟩
  obtain ⟨hlt, hc⟩ := List.getElem?_eq_some_iff.1 h
  rw [List.drop_eq_getElem_cons hlt, hc, List.singleton_append]

theorem getElem?_of_drop {c : UInt8} (h : input.drop pos = c :: rest) : input[pos]? = some c := by
  rw [← List.head?_drop, h, List.head?_cons]

theorem lt_of_getElem? {c : UInt8} (h : input[pos]? = some c) : pos < input.length :=
  (List.getElem?_eq_some_iff.1 h).1

end Reads

/-! ## White space -/

section Blank

variable {input a rest : Bytes} {pos : Nat}

theorem isBlank_iff (c : UInt8) : isBlank c = true ↔ c ∈ str " \t\r\n" := by
  have hlist : str " \t\r\n" = [ch ' ', ch '\t', ch '\r', ch '\n'] := by decide
  rw [hlist]
  simp only [isBlank, Bool.or_eq_true, beq_iff_eq, List.mem_cons, List.not_mem_nil, or_false]
  tauto

theorem blank_nil : Blank [] := nofun

theorem blank_append {b : Bytes} (ha : Blank a) (hb : Blank b) : Blank (a ++ b) := by
  intro c hc
  exact (List.mem_append.1 hc).elim (ha c) (hb c)

theorem skipLoop_eq (left : Bytes) (pos : Nat) :
    skipLoop left pos = pos + (left.takeWhile isBlank).length := by
  induction left generalizing pos with
  | nil => rfl
  | cons c left ih =>
    by_cases hc : isBlank c = true
    · rw [skipLoop, if_pos hc, ih, List.takeWhile_cons_of_pos hc, List.length_cons]
      omega
    · rw [skipLoop, if_neg hc, List.takeWhile_cons_of_neg hc]
      rfl

/-- `skip_ws` reads white space. -/
theorem skipWs_reads (input : Bytes) (pos : Nat) :
    ∃ a, Blank a ∧ Reads input pos a (skipWs input pos) := by
  refine ⟨(input.drop pos).takeWhile isBlank, ?_, ?_⟩
  · intro c hc
    exact (isBlank_iff c).1 (List.mem_takeWhile_imp hc)
  · rw [skipWs, skipLoop_eq]
    exact .of_drop (List.takeWhile_append_dropWhile).symm

/-- `skip_ws` reads all the white space there is. -/
theorem skipWs_eq (h : input.drop pos = a ++ rest) (ha : Blank a)
    (hrest : ∀ c ∈ rest.head?, isBlank c = false) : skipWs input pos = pos + a.length := by
  have hall : ∀ c ∈ a, isBlank c = true := fun c hc => (isBlank_iff c).2 (ha c hc)
  have htake : rest.takeWhile isBlank = [] := by
    cases rest with
    | nil => rfl
    | cons c rest => exact List.takeWhile_cons_of_neg (by simp [hrest c (by simp)])
  rw [skipWs, skipLoop_eq, h, List.takeWhile_append_of_pos hall, htake, List.append_nil]

theorem le_skipWs (input : Bytes) (pos : Nat) : pos ≤ skipWs input pos := by
  rw [skipWs, skipLoop_eq]
  omega

theorem skipWs_le (h : pos ≤ input.length) : skipWs input pos ≤ input.length := by
  obtain ⟨a, -, ha⟩ := skipWs_reads input pos
  exact ha.le h

/-- What follows the white space is none. -/
theorem not_isBlank_skipWs {c : UInt8} (h : input[skipWs input pos]? = some c) :
    isBlank c = false := by
  have hdrop : input.drop (skipWs input pos) = (input.drop pos).dropWhile isBlank := by
    have hsplit : input.drop pos = (input.drop pos).takeWhile isBlank ++
        (input.drop pos).dropWhile isBlank := (List.takeWhile_append_dropWhile).symm
    rw [skipWs, skipLoop_eq]
    exact (Reads.of_drop hsplit).drop_eq hsplit
  have hhead := List.head?_dropWhile_not isBlank (input.drop pos)
  rw [← hdrop, List.head?_drop, h] at hhead
  simpa using hhead

theorem skipWs_skipWs (input : Bytes) (pos : Nat) :
    skipWs input (skipWs input pos) = skipWs input pos := by
  have hrest : ∀ c ∈ (input.drop (skipWs input pos)).head?, isBlank c = false := by
    intro c hc
    rw [List.head?_drop] at hc
    exact not_isBlank_skipWs hc
  exact skipWs_eq (a := []) rfl blank_nil hrest

end Blank

/-! ## Strings -/

section Strings

variable {input left oss body s : Bytes} {pos pos' : Nat}

theorem unescape_iff (esc c : UInt8) : unescape esc = some c ↔ (esc, c) ∈ escapes := by
  constructor
  · intro h
    unfold unescape at h
    repeat' split at h
    all_goals cases h
    all_goals
      subst esc
      decide
  · intro h
    have hall : escapes.all (fun p => decide (unescape p.1 = some p.2)) = true := by decide +kernel
    exact of_decide_eq_true (List.all_eq_true.1 hall _ h)

theorem stringLoop_quote (left oss : Bytes) (pos : Nat) :
    stringLoop (ch '"' :: left) oss pos = (some oss, pos + 1) := by
  rw [stringLoop.eq_def]
  rfl

theorem stringLoop_escape {esc c : UInt8} (h : unescape esc = some c) (left oss : Bytes)
    (pos : Nat) : stringLoop (ch '\\' :: esc :: left) oss pos =
      stringLoop left (oss ++ [c]) (pos + 2) := by
  rw [stringLoop.eq_def]
  simp [h, ch]

theorem stringLoop_plain {c : UInt8} (hquote : c ≠ ch '"') (hslash : c ≠ ch '\\')
    (left oss : Bytes) (pos : Nat) :
    stringLoop (c :: left) oss pos = stringLoop left (oss ++ [c]) (pos + 1) := by
  rw [stringLoop.eq_def]
  simp [hquote, hslash]

/-- What the loop of `parse_string` accepts is the rest of a string. -/
theorem stringLoop_sound (h : stringLoop left oss pos = (some s, pos')) :
    ∃ body d rest, Body body d ∧ s = oss ++ d ∧ left = body ++ ch '"' :: rest ∧
      pos' = pos + (body.length + 1) := by
  induction left, oss, pos using stringLoop.induct with
  | case1 => cases h
  | case2 left oss pos =>
    rw [stringLoop_quote] at h
    cases h
    exact ⟨[], [], left, .nil, by simp, rfl, rfl⟩
  | case3 oss pos hne =>
    rw [stringLoop.eq_def] at h
    simp [hne] at h
  | case4 oss pos esc left c hesc _ ih =>
    rw [stringLoop_escape hesc] at h
    obtain ⟨body, d, rest, hbody, rfl, rfl, rfl⟩ := ih h
    refine ⟨ch '\\' :: esc :: body, c :: d, rest, .escape ((unescape_iff esc c).1 hesc) hbody, ?_, rfl,
      ?_⟩
    · simp
    · simp only [List.length_cons]
      omega
  | case5 oss pos esc left hesc hne =>
    rw [stringLoop.eq_def] at h
    simp [hne, hesc] at h
  | case6 c left oss pos hquote hslash ih =>
    rw [stringLoop_plain hquote hslash] at h
    obtain ⟨body, d, rest, hbody, rfl, rfl, rfl⟩ := ih h
    refine ⟨c :: body, c :: d, rest, .plain hquote hslash hbody, ?_, rfl, ?_⟩
    · simp
    · simp only [List.length_cons]
      omega

theorem stringLoop_complete (hbody : Body body s) (rest : Bytes) :
    stringLoop (body ++ ch '"' :: rest) oss pos = (some (oss ++ s), pos + (body.length + 1)) := by
  induction hbody generalizing oss pos with
  | nil =>
    rw [List.nil_append, stringLoop_quote, List.append_nil]
    rfl
  | plain hquote hslash _ ih =>
    rw [List.cons_append, stringLoop_plain hquote hslash, ih, List.append_assoc,
      List.singleton_append, List.length_cons]
    congr 1
    omega
  | escape hesc _ ih =>
    rw [List.cons_append, List.cons_append, stringLoop_escape ((unescape_iff _ _).2 hesc), ih,
      List.append_assoc, List.singleton_append, List.length_cons, List.length_cons]
    congr 1
    omega

theorem stringLoop_bounds :
    pos ≤ (stringLoop left oss pos).2 ∧ (stringLoop left oss pos).2 ≤ pos + left.length := by
  fun_induction stringLoop left oss pos with
  | case1 => simp
  | case2 => simp
  | case3 => simp
  | case4 oss pos esc left c hesc ih =>
    simp only [List.length_cons]
    omega
  | case5 =>
    simp only [List.length_cons]
    omega
  | case6 oss pos c left hquote hslash ih =>
    simp only [List.length_cons]
    omega

theorem parseString_sound (h : parseString input pos = (some s, pos')) :
    ∃ body, Body body s ∧ Reads input pos (quoted body) pos' := by
  unfold parseString at h
  split at h
  · rename_i hquote
    obtain ⟨body, d, rest, hbody, rfl, hleft, rfl⟩ := stringLoop_sound h
    have hopen := Reads.byte hquote
    have hclose : input.drop (pos + 1) = (body ++ [ch '"']) ++ rest := by simp [hleft]
    have hread := hopen.append (.of_drop hclose)
    refine ⟨body, hbody, ?_⟩
    rw [List.length_append, List.length_singleton] at hread
    exact hread
  · cases h

theorem parseString_complete {rest : Bytes} (hbody : Body body s)
    (h : input.drop pos = quoted body ++ rest) :
    parseString input pos = (some s, pos + (quoted body).length) := by
  have hcons : input.drop pos = ch '"' :: (body ++ ch '"' :: rest) := by simp [h, quoted]
  have hquote := getElem?_of_drop hcons
  have hleft : input.drop (pos + 1) = body ++ ch '"' :: rest := (Reads.byte hquote).drop_eq hcons
  rw [parseString, if_pos hquote, hleft, stringLoop_complete hbody]
  simp only [quoted, List.cons_append, List.length_cons, List.length_append, List.length_nil,
    List.nil_append]
  congr 1
  omega

theorem parseString_bounds (h : pos ≤ input.length) :
    pos ≤ (parseString input pos).2 ∧ (parseString input pos).2 ≤ input.length := by
  unfold parseString
  split
  · rename_i hquote
    have hlt := lt_of_getElem? hquote
    have hbounds := @stringLoop_bounds (input.drop (pos + 1)) [] (pos + 1)
    rw [List.length_drop] at hbounds
    omega
  · exact ⟨le_rfl, h⟩

end Strings

/-! ## Numbers and words -/

section Scalars

variable {input rest : Bytes} {pos pos' : Nat}

theorem digitsLoop_eq (left : Bytes) (pos : Nat) :
    digitsLoop left pos = pos + (left.takeWhile isDigit).length := by
  induction left generalizing pos with
  | nil => rfl
  | cons c left ih =>
    by_cases hc : isDigit c = true
    · rw [digitsLoop, if_pos hc, ih, List.takeWhile_cons_of_pos hc, List.length_cons]
      omega
    · rw [digitsLoop, if_neg hc, List.takeWhile_cons_of_neg hc]
      rfl

/-- `parse_number` where a digit is. -/
theorem parseNumber_eq {c : UInt8} (hc : input[pos]? = some c) (hdigit : isDigit c = true) :
    parseNumber input pos =
      (stoull ((input.drop pos).takeWhile isDigit),
        pos + ((input.drop pos).takeWhile isDigit).length) := by
  have htake : (input.drop pos).take ((input.drop pos).takeWhile isDigit).length =
      (input.drop pos).takeWhile isDigit :=
    List.prefix_iff_eq_take.1 (List.takeWhile_prefix _) |>.symm
  rw [parseNumber, if_pos (by simp [hc, hdigit])]
  simp only [digitsLoop_eq, Nat.add_sub_cancel_left, htake]

/-- The digits from a position on are a number of the grammar, when they are below `2 ^ 64`. -/
theorem parseNumber_sound {c : UInt8} {n : Nat} (hc : input[pos]? = some c)
    (hdigit : isDigit c = true) (h : parseNumber input pos = (some n, pos')) :
    ∃ text, Value text (.number n) ∧ Reads input pos text pos' := by
  rw [parseNumber_eq hc hdigit] at h
  have hdigits : ∀ d ∈ (input.drop pos).takeWhile isDigit, isDigit d = true :=
    fun d hd => List.mem_takeWhile_imp hd
  have hne : (input.drop pos).takeWhile isDigit ≠ [] := by
    rw [(Reads.byte hc).split, List.singleton_append, List.takeWhile_cons_of_pos hdigit]
    simp
  obtain ⟨hvalue, rfl⟩ := Prod.mk.inj h
  rw [stoull_digits hne hdigits] at hvalue
  split at hvalue
  · cases hvalue
  · cases hvalue
    refine ⟨_, .number hne hdigits (by omega), ?_⟩
    exact .of_drop List.takeWhile_append_dropWhile.symm

theorem parseNumber_complete {digits : Bytes} (hne : digits ≠ [])
    (hdigits : ∀ d ∈ digits, isDigit d = true) (hrange : digitsValue digits < 2 ^ 64)
    (h : input.drop pos = digits ++ rest) (hrest : ∀ c ∈ rest.head?, isDigit c = false) :
    parseNumber input pos = (some (digitsValue digits), pos + digits.length) := by
  obtain ⟨d, ds, rfl⟩ := List.exists_cons_of_ne_nil hne
  have htake : (input.drop pos).takeWhile isDigit = d :: ds := by
    have hstop : rest.takeWhile isDigit = [] := by
      cases rest with
      | nil => rfl
      | cons c rest => exact List.takeWhile_cons_of_neg (by simp [hrest c (by simp)])
    rw [h, List.takeWhile_append_of_pos hdigits, hstop, List.append_nil]
  rw [parseNumber_eq (getElem?_of_drop h) (hdigits d List.mem_cons_self), htake,
    stoull_digits hne hdigits, if_neg (by omega)]

theorem compareAt_iff {word : Bytes} :
    compareAt input pos word = true ↔ Reads input pos word (pos + word.length) := by
  rw [compareAt, beq_iff_eq]
  constructor
  · intro h
    have hsplit := List.take_append_drop word.length (input.drop pos)
    rw [h] at hsplit
    exact .of_drop hsplit.symm
  · intro h
    rw [h.split, List.take_left]

theorem parseBool_sound {b : Bool} (h : parseBool input pos = (some b, pos')) :
    ∃ text, Value text (.bool b) ∧ Reads input pos text pos' := by
  unfold parseBool at h
  split at h
  · rename_i htrue
    cases h
    exact ⟨_, .true, compareAt_iff.1 htrue⟩
  · split at h
    · rename_i hfalse
      cases h
      exact ⟨_, .false, compareAt_iff.1 hfalse⟩
    · cases h

theorem parseNull_sound {v : JsonValue} (h : parseNull input pos = (some v, pos')) :
    ∃ text, Value text v ∧ Reads input pos text pos' := by
  unfold parseNull at h
  split at h
  · rename_i hnull
    cases h
    exact ⟨_, .null, compareAt_iff.1 hnull⟩
  · cases h

/-- A scalar stops where its text ends, or where it began. -/
theorem compareAt_le {word : Bytes} (h : compareAt input pos word = true)
    (hpos : pos ≤ input.length) : pos + word.length ≤ input.length :=
  (compareAt_iff.1 h).le hpos

theorem parseBool_bounds (h : pos ≤ input.length) :
    pos ≤ (parseBool input pos).2 ∧ (parseBool input pos).2 ≤ input.length := by
  unfold parseBool
  split
  · rename_i htrue
    exact ⟨Nat.le_add_right _ _, compareAt_le htrue h⟩
  · split
    · rename_i hfalse
      exact ⟨Nat.le_add_right _ _, compareAt_le hfalse h⟩
    · exact ⟨le_rfl, h⟩

theorem parseNull_bounds (h : pos ≤ input.length) :
    pos ≤ (parseNull input pos).2 ∧ (parseNull input pos).2 ≤ input.length := by
  unfold parseNull
  split
  · rename_i hnull
    exact ⟨Nat.le_add_right _ _, compareAt_le hnull h⟩
  · exact ⟨le_rfl, h⟩

theorem parseNumber_bounds (h : pos ≤ input.length) :
    pos ≤ (parseNumber input pos).2 ∧ (parseNumber input pos).2 ≤ input.length := by
  unfold parseNumber
  split
  · have hread := @Reads.of_drop input _ _ pos
      (List.takeWhile_append_dropWhile (p := isDigit)).symm
    simp only [digitsLoop_eq]
    exact ⟨Nat.le_add_right _ _, hread.le h⟩
  · exact ⟨le_rfl, h⟩

end Scalars

/-! ## Where the parser stops -/

section Bounds

variable {input : Bytes} {pos pos' : Nat} {α : Type} {r : Option α × Nat}

/-- The result stands between `pos` and the end of the input. -/
def Within (input : Bytes) (pos : Nat) {α : Type} (r : Option α × Nat) : Prop :=
  pos ≤ r.2 ∧ r.2 ≤ input.length

theorem Within.of_le (h : Within input pos' r) (hle : pos ≤ pos') : Within input pos r :=
  ⟨hle.trans h.1, h.2⟩

theorem Within.here {a : Option α} (h : pos ≤ input.length) : Within input pos (a, pos) :=
  ⟨le_rfl, h⟩

/-- One byte further. -/
theorem Within.next {a : Option α} {c : UInt8} (hc : input[pos]? = some c) :
    Within input pos (a, pos + 1) := ⟨Nat.le_succ pos, lt_of_getElem? hc⟩

/-- The program stays within the input, wherever it starts. -/
def Bounded (input : Bytes) {α : Type} (m : Nat → Option α × Nat) : Prop :=
  ∀ pos ≤ input.length, Within input pos (m pos)

theorem bounded_parseObject {loop : JsonObject → Nat → Option JsonValue × Nat}
    (hloop : ∀ members, Bounded input (loop members)) : Bounded input (parseObject input loop) := by
  intro pos h
  unfold parseObject
  split
  · rename_i hopen
    have hlt := lt_of_getElem? hopen
    have hskip := le_skipWs input (pos + 1)
    dsimp only
    split
    · rename_i hclose
      exact (Within.next hclose).of_le (by omega)
    · exact (hloop [] _ (@skipWs_le input (pos + 1) hlt)).of_le (by omega)
  · exact .here h

theorem bounded_parseMember {value : Nat → Option JsonValue × Nat} (hvalue : Bounded input value) :
    Bounded input (parseMember input value) := by
  intro pos h
  have hskip := le_skipWs input pos
  have hkey := parseString_bounds (skipWs_le h)
  unfold parseMember
  cases hstring : parseString input (skipWs input pos) with
  | mk key p =>
    rw [hstring] at hkey
    dsimp only at hkey
    have hskip' := le_skipWs input p
    cases key with
    | none => exact ⟨by dsimp only; omega, hkey.2⟩
    | some key =>
      dsimp only
      split
      · rename_i hcolon
        have hbounds := hvalue _ (lt_of_getElem? hcolon)
        cases hv : value (skipWs input p + 1) with
        | mk v p' =>
          rw [hv] at hbounds
          cases v with
          | none => exact hbounds.of_le (by omega)
          | some v => exact ⟨(by omega : pos ≤ skipWs input p + 1).trans hbounds.1, hbounds.2⟩
      · exact ⟨by dsimp only; omega, skipWs_le hkey.2⟩

theorem bounded_parse (n : Nat) :
    Bounded input (parseValue input n) ∧ ∀ members, Bounded input (membersLoop input n members) := by
  induction n with
  | zero => exact ⟨fun pos h => .here h, fun _ pos h => .here h⟩
  | succ n ih =>
    obtain ⟨ihvalue, ihmembers⟩ := ih
    constructor
    · intro pos h
      have hle := le_skipWs input pos
      have hpos := skipWs_le h
      rw [parseValue]
      generalize skipWs input pos = p at *
      refine @Within.of_le input pos p _ _ ?_ hle
      cases input[p]? with
      | none => exact .here hpos
      | some c =>
        dsimp only
        repeat' split
        · exact bounded_parseObject ihmembers p hpos
        · exact parseString_bounds hpos
        · exact parseBool_bounds hpos
        · exact parseNull_bounds hpos
        · exact parseNumber_bounds hpos
        · exact .here hpos
    · intro members pos h
      rw [membersLoop]
      split
      · have hmember := bounded_parseMember ihvalue pos h
        cases hm : parseMember input (parseValue input n) pos with
        | mk m p =>
          rw [hm] at hmember
          have hskip := le_skipWs input p
          have hlow : pos ≤ p := hmember.1
          have hhigh : p ≤ input.length := hmember.2
          cases m with
          | none => exact hmember
          | some m =>
            dsimp only
            repeat' split
            · rename_i hclose
              exact (Within.next hclose).of_le (by omega)
            · rename_i hcomma
              exact (ihmembers _ _ (lt_of_getElem? hcomma)).of_le (by omega)
            · exact (Within.here (skipWs_le hhigh)).of_le (by omega)
      · exact .here h

end Bounds

/-! ## What the parser accepts -/

section Sound

variable {input : Bytes} {pos pos' : Nat} {v : JsonValue}

theorem members_blank {a text : Bytes} {members : List (Bytes × JsonValue)} (ha : Blank a)
    (h : Members text members) : Members (a ++ text) members := by
  have hmember : ∀ {text m}, Member text m → Member (a ++ text) m := by
    intro text m hm
    cases hm with
    | mk ha' hkey hb hc hvalue hd =>
      have hmoved := Member.mk (blank_append ha ha') hkey hb hc hvalue hd
      simp only [List.append_assoc, List.cons_append] at hmoved ⊢
      exact hmoved
  cases h with
  | last h => exact .last (hmember h)
  | cons h hrest =>
    rw [← List.append_assoc]
    exact .cons (hmember h) hrest

/-- A value with white space before it. -/
def ReadsValue (input : Bytes) (pos : Nat) (v : JsonValue) (pos' : Nat) : Prop :=
  ∃ a text, Blank a ∧ Value text v ∧ Reads input pos (a ++ text) pos'

theorem parseMember_sound {n : Nat} {m : Bytes × JsonValue}
    (hvalue : ∀ {pos v pos'}, parseValue input n pos = (some v, pos') → ReadsValue input pos v pos')
    (h : parseMember input (parseValue input n) pos = (some m, pos')) :
    ∃ text, (∀ d, Blank d → Member (text ++ d) m) ∧ Reads input pos text pos' := by
  unfold parseMember at h
  split at h
  · cases h
  · rename_i key p hstring
    obtain ⟨body, hbody, hkey⟩ := parseString_sound hstring
    obtain ⟨a, ha, hread⟩ := skipWs_reads input pos
    obtain ⟨b, hb, hread'⟩ := skipWs_reads input p
    dsimp only at h
    split at h
    · rename_i hcolon
      split at h
      · cases h
      · rename_i v p' hv
        obtain ⟨c, text, hc, htext, hread''⟩ := hvalue hv
        cases h
        refine ⟨a ++ quoted body ++ b ++ ch ':' :: c ++ text, fun d hd => .mk ha hbody hb hc htext hd, ?_⟩
        have hall := (((hread.append hkey).append hread').append (.byte hcolon)).append hread''
        simp only [List.append_assoc, List.cons_append, List.nil_append] at hall ⊢
        exact hall
    · cases h

theorem parse_sound (n : Nat) :
    (∀ {pos v pos'}, parseValue input n pos = (some v, pos') → ReadsValue input pos v pos') ∧
    (∀ {o pos v pos'}, membersLoop input n o pos = (some v, pos') →
      ∃ text members, Members text members ∧
        v = .object (members.foldl (fun o m => JsonObject.assign o m.1 m.2) o) ∧
        Reads input pos (text ++ [ch '\x7d']) pos') := by
  induction n with
  | zero =>
    constructor
    · intro pos v pos' h
      cases h
    · intro o pos v pos' h
      cases h
  | succ n ih =>
    obtain ⟨ihvalue, ihmembers⟩ := ih
    constructor
    · intro pos v pos' h
      obtain ⟨a, ha, hread⟩ := skipWs_reads input pos
      rw [parseValue] at h
      generalize skipWs input pos = p at *
      have hscalar : (∃ text, Value text v ∧ Reads input p text pos') →
          ReadsValue input pos v pos' := by
        rintro ⟨text, hvalue, htext⟩
        exact ⟨a, text, ha, hvalue, hread.append htext⟩
      apply hscalar
      cases hp : input[p]? with
      | none =>
        rw [hp] at h
        cases h
      | some c =>
        rw [hp] at h
        dsimp only at h
        split at h
        · -- an object, empty or with members
          unfold parseObject at h
          split at h
          · rename_i hopen
            obtain ⟨a', ha', hread'⟩ := skipWs_reads input (p + 1)
            have hstart := (Reads.byte hopen).append hread'
            dsimp only at h
            split at h
            · rename_i hclose
              cases h
              exact ⟨_, .empty ha', hstart.append (.byte hclose)⟩
            · obtain ⟨text, members, hmembers, rfl, htext⟩ := ihmembers h
              refine ⟨_, .object (members_blank ha' hmembers), ?_⟩
              have hall := hstart.append htext
              simp only [List.append_assoc, List.cons_append, List.nil_append] at hall ⊢
              exact hall
          · cases h
        split at h
        · cases hs : parseString input p with
          | mk s p' =>
            rw [hs] at h
            cases s with
            | none => cases h
            | some s =>
              cases h
              obtain ⟨body, hbody, htext⟩ := parseString_sound hs
              exact ⟨_, .string hbody, htext⟩
        split at h
        · cases hb : parseBool input p with
          | mk b p' =>
            rw [hb] at h
            cases b with
            | none => cases h
            | some b =>
              cases h
              exact parseBool_sound hb
        split at h
        · exact parseNull_sound h
        split at h
        · rename_i hdigit
          cases hn : parseNumber input p with
          | mk k p' =>
            rw [hn] at h
            cases k with
            | none => cases h
            | some k =>
              cases h
              exact parseNumber_sound hp hdigit hn
        · cases h
    · intro o pos v pos' h
      rw [membersLoop] at h
      split at h
      · split at h
        · cases h
        · rename_i key value p hm
          obtain ⟨text, hmember, hread⟩ := parseMember_sound ihvalue hm
          obtain ⟨d, hd, hread'⟩ := skipWs_reads input p
          have htext := hread.append hread'
          dsimp only at h
          split at h
          · rename_i hclose
            cases h
            exact ⟨_, [(key, value)], .last (hmember d hd), rfl, htext.append (.byte hclose)⟩
          split at h
          · rename_i hcomma
            obtain ⟨rest, members, hrest, rfl, hread''⟩ := ihmembers h
            refine ⟨_, (key, value) :: members, .cons (hmember d hd) hrest, rfl, ?_⟩
            have hall := (htext.append (.byte hcomma)).append hread''
            simp only [List.append_assoc, List.cons_append, List.nil_append] at hall ⊢
            exact hall
          · cases h
      · cases h

end Sound

/-! ## What the grammar derives -/

section Complete

variable {input a b c d key k text rest : Bytes} {pos n : Nat} {v : JsonValue}

theorem drop_add (h : input.drop pos = text ++ rest) : input.drop (pos + text.length) = rest :=
  (Reads.of_drop h).drop_eq h

theorem drop_succ {x : UInt8} (h : input.drop pos = x :: rest) : input.drop (pos + 1) = rest :=
  @drop_add input [x] rest pos h

/-- `parse_value` looks at the first byte after the white space. -/
theorem parseValue_at {x : UInt8} (ha : Blank a) (h : input.drop pos = a ++ x :: rest)
    (hx : isBlank x = false) :
    parseValue input (n + 1) pos =
      if x = ch '\x7b' then parseObject input (membersLoop input n) (pos + a.length)
      else if x = ch '"' then (parseString input (pos + a.length)).map (Option.map .string) id
      else if x = ch 't' ∨ x = ch 'f' then
        (parseBool input (pos + a.length)).map (Option.map .bool) id
      else if x = ch 'n' then parseNull input (pos + a.length)
      else if isDigit x then (parseNumber input (pos + a.length)).map (Option.map .number) id
      else (none, pos + a.length) := by
  rw [parseValue, skipWs_eq h ha (by simpa using hx), getElem?_of_drop (drop_add h)]

theorem parseMember_complete (ha : Blank a) (hkey : Body key k) (hb : Blank b)
    (hvalue : ∀ pos, input.drop pos = c ++ text ++ rest →
      parseValue input n pos = (some v, pos + (c ++ text).length))
    (h : input.drop pos = a ++ quoted key ++ b ++ ch ':' :: c ++ text ++ rest) :
    parseMember input (parseValue input n) pos =
      (some (k, v), pos + (a ++ quoted key ++ b ++ ch ':' :: c ++ text).length) := by
  have h₁ : input.drop pos = a ++ (quoted key ++ (b ++ ch ':' :: (c ++ text ++ rest))) := by
    simpa using h
  have h₂ := drop_add h₁
  have h₃ := drop_add h₂
  have h₄ := drop_add h₃
  rw [parseMember, skipWs_eq h₁ ha (by intro x hx; cases hx; decide), parseString_complete hkey h₂]
  dsimp only
  rw [skipWs_eq h₃ hb (by intro x hx; cases hx; decide), if_pos (getElem?_of_drop h₄),
    hvalue _ (drop_succ h₄)]
  refine Prod.ext rfl ?_
  simp only [List.length_append, List.length_cons]
  omega

/-- The loop of `parse_object` skips the white space before a member itself. -/
theorem membersLoop_skipWs {x : UInt8} {o : JsonObject} (h : input[skipWs input pos]? = some x) :
    membersLoop input (n + 1) o (skipWs input pos) = membersLoop input (n + 1) o pos := by
  have hlt := lt_of_getElem? h
  have hle := le_skipWs input pos
  have hmember : parseMember input (parseValue input n) (skipWs input pos) =
      parseMember input (parseValue input n) pos := by
    rw [parseMember, parseMember, skipWs_skipWs]
  rw [membersLoop, membersLoop, if_pos hlt, if_pos (by omega), hmember]

theorem member_front {m : Bytes × JsonValue} (h : Member text m) :
    ∃ a t, Blank a ∧ text = a ++ ch '"' :: t := by
  cases h with
  | @mk a key k b c text d v ha hkey hb hc hvalue hd =>
    refine ⟨a, key ++ [ch '"'] ++ b ++ ch ':' :: c ++ text ++ d, ha, ?_⟩
    simp [quoted]

theorem members_front {members : List (Bytes × JsonValue)} (h : Members text members) :
    ∃ a t, Blank a ∧ text = a ++ ch '"' :: t := by
  cases h with
  | last h => exact member_front h
  | cons h hrest =>
    obtain ⟨a, t, ha, rfl⟩ := member_front h
    exact ⟨a, _, ha, by rw [List.append_assoc, List.cons_append]⟩

theorem not_isBlank_of_isDigit {x : UInt8} (h : isDigit x = true) : isBlank x = false := by
  rw [Bool.eq_false_iff]
  intro hx
  have hall : ∀ z ∈ str " \t\r\n", isDigit z = false := by decide +kernel
  rw [hall x ((isBlank_iff x).1 hx)] at h
  cases h

theorem not_isDigit_of_blank {x : UInt8} (hd : Blank d) (hx : isDigit x = false) :
    ∀ y ∈ (d ++ x :: rest).head?, isDigit y = false := by
  intro y hy
  cases d with
  | nil =>
    cases hy
    exact hx
  | cons z d =>
    cases hy
    have hall : ∀ z ∈ str " \t\r\n", isDigit z = false := by decide +kernel
    exact hall _ (hd _ List.mem_cons_self)

/-- One member, and the white space after it. -/
theorem member_complete {x : UInt8} {m : Bytes × JsonValue}
    (hvalue : ∀ {a text v rest pos}, Blank a → Value text v → text.length < n →
      input.drop pos = a ++ text ++ rest → (∀ c ∈ rest.head?, isDigit c = false) →
      parseValue input n pos = (some v, pos + (a ++ text).length))
    (hm : Member text m) (hlength : text.length ≤ n) (h : input.drop pos = text ++ x :: rest)
    (hblank : isBlank x = false) (hdigit : isDigit x = false) :
    ∃ p, parseMember input (parseValue input n) pos = (some m, p) ∧
      skipWs input p = pos + text.length := by
  cases hm with
  | @mk a key k b c text d v ha hkey hb hc htext hd =>
    have hread : input.drop pos =
        a ++ quoted key ++ b ++ ch ':' :: c ++ text ++ (d ++ x :: rest) := by simpa using h
    simp only [quoted, List.length_append, List.length_cons] at hlength
    have hmember := parseMember_complete ha hkey hb (n := n) (v := v) (fun pos hpos =>
      hvalue hc htext (by omega) hpos (not_isDigit_of_blank hd hdigit)) hread
    refine ⟨_, hmember, ?_⟩
    rw [skipWs_eq (drop_add hread) hd (by simpa using hblank), Nat.add_assoc, ← List.length_append]

theorem ne_of_isDigit {x : UInt8} (h : isDigit x = true) :
    x ≠ ch '\x7b' ∧ x ≠ ch '"' ∧ x ≠ ch 't' ∧ x ≠ ch 'f' ∧ x ≠ ch 'n' := by
  refine ⟨?_, ?_, ?_, ?_, ?_⟩
  all_goals
    rintro rfl
    revert h
    decide

theorem parse_complete (n : Nat) :
    (∀ {a text v rest pos}, Blank a → Value text v → text.length < n →
      input.drop pos = a ++ text ++ rest → (∀ c ∈ rest.head?, isDigit c = false) →
      parseValue input n pos = (some v, pos + (a ++ text).length)) ∧
    (∀ {text members rest pos} (o : JsonObject), Members text members → text.length < n →
      input.drop pos = text ++ ch '\x7d' :: rest →
      membersLoop input n o pos =
        (some (.object (members.foldl (fun o m => JsonObject.assign o m.1 m.2) o)),
          pos + (text.length + 1))) := by
  induction n with
  | zero =>
    constructor
    · intro a text v rest pos _ _ h
      omega
    · intro text members rest pos o _ h
      omega
  | succ n ih =>
    obtain ⟨ihvalue, ihmembers⟩ := ih
    constructor
    · intro a text v rest pos ha hvalue hlength h hrest
      rw [List.append_assoc] at h
      have h' := drop_add h
      rw [List.length_append]
      cases hvalue with
      | null =>
        have hcons : input.drop pos = a ++ ch 'n' :: (str "ull" ++ rest) := h
        have hread : compareAt input (pos + a.length) (str "null") = true :=
          compareAt_iff.2 (.of_drop h')
        rw [parseValue_at ha hcons (by decide), if_neg (by decide), if_neg (by decide),
          if_neg (by decide), if_pos rfl, parseNull, if_pos hread, Nat.add_assoc]
        rfl
      | true =>
        have hcons : input.drop pos = a ++ ch 't' :: (str "rue" ++ rest) := h
        have hread : compareAt input (pos + a.length) (str "true") = true :=
          compareAt_iff.2 (.of_drop h')
        rw [parseValue_at ha hcons (by decide), if_neg (by decide), if_neg (by decide),
          if_pos (Or.inl rfl), parseBool, if_pos hread, Nat.add_assoc]
        rfl
      | false =>
        have hcons : input.drop pos = a ++ ch 'f' :: (str "alse" ++ rest) := h
        have hread : compareAt input (pos + a.length) (str "false") = true :=
          compareAt_iff.2 (.of_drop h')
        have hnot : ¬compareAt input (pos + a.length) (str "true") = true := by
          rw [compareAt, h', beq_iff_eq]
          intro htake
          have hfirst : some (ch 'f') = some (ch 't') := congrArg List.head? htake
          revert hfirst
          decide
        rw [parseValue_at ha hcons (by decide), if_neg (by decide), if_neg (by decide),
          if_pos (Or.inr rfl), parseBool, if_neg hnot, if_pos hread, Nat.add_assoc]
        rfl
      | number hne hdigits hrange =>
        obtain ⟨x, ds, rfl⟩ := List.exists_cons_of_ne_nil hne
        have hdigit := hdigits x List.mem_cons_self
        obtain ⟨hopen, hquote, ht, hf, hn⟩ := ne_of_isDigit hdigit
        rw [parseValue_at ha h (not_isBlank_of_isDigit hdigit), if_neg hopen, if_neg hquote, if_neg (by simp [ht, hf]),
          if_neg hn, if_pos hdigit, parseNumber_complete hne hdigits hrange h' hrest, Nat.add_assoc]
        rfl
      | string hbody =>
        have hcons := h
        rw [quoted, List.cons_append, List.cons_append] at hcons
        rw [parseValue_at ha hcons (by decide), if_neg (by decide), if_pos rfl,
          parseString_complete hbody h', Nat.add_assoc]
        rfl
      | @empty b hb =>
        have hcons : input.drop pos = a ++ ch '\x7b' :: (b ++ ch '\x7d' :: rest) := by simpa using h
        have hafter := drop_succ (drop_add hcons)
        rw [parseValue_at ha hcons (by decide), if_pos rfl, parseObject,
          if_pos (getElem?_of_drop (drop_add hcons)),
          skipWs_eq hafter hb (by intro x hx; cases hx; decide)]
        dsimp only
        rw [if_pos (getElem?_of_drop (drop_add hafter))]
        congr 1
        simp only [List.length_append, List.length_cons, List.length_nil]
        omega
      | @object text members hmembers =>
        have hcons : input.drop pos = a ++ ch '\x7b' :: (text ++ ch '\x7d' :: rest) := by
          simpa using h
        obtain ⟨b, t, hb, rfl⟩ := members_front hmembers
        have hafter := drop_succ (drop_add hcons)
        have hfirst : input.drop (pos + a.length + 1) = b ++ ch '"' :: (t ++ ch '\x7d' :: rest) := by
          simpa using hafter
        have hskip := skipWs_eq hfirst hb (by intro x hx; cases hx; decide)
        have hquote : input[skipWs input (pos + a.length + 1)]? = some (ch '"') := by
          rw [hskip]
          exact getElem?_of_drop (drop_add hfirst)
        obtain ⟨n, rfl⟩ : ∃ k, n = k + 1 := ⟨n - 1, by simp at hlength; omega⟩
        rw [parseValue_at ha hcons (by decide), if_pos rfl, parseObject,
          if_pos (getElem?_of_drop (drop_add hcons))]
        dsimp only
        rw [hquote, if_neg (by decide), membersLoop_skipWs hquote,
          ihmembers [] hmembers (by simp at hlength ⊢; omega) hafter]
        congr 1
        simp only [List.length_append, List.length_cons, List.length_nil]
        omega
    · intro text members rest pos o hmembers hlength h
      have hpos : pos < input.length := by
        by_contra hge
        rw [List.drop_eq_nil_of_le (by omega)] at h
        simp at h
      rw [membersLoop, if_pos hpos]
      cases hmembers with
      | last hm =>
        obtain ⟨p, hmember, hskip⟩ := member_complete ihvalue hm (by omega) h (by decide) (by decide)
        rw [hmember]
        dsimp only
        rw [hskip, if_pos (getElem?_of_drop (drop_add h)), Nat.add_assoc]
        rfl
      | @cons text rest' m members hm hrest =>
        have hcons : input.drop pos = text ++ ch ',' :: (rest' ++ ch '\x7d' :: rest) := by
          simpa using h
        have hcomma := getElem?_of_drop (drop_add hcons)
        simp only [List.length_append, List.length_cons] at hlength ⊢
        obtain ⟨p, hmember, hskip⟩ :=
          member_complete ihvalue hm (by omega) hcons (by decide) (by decide)
        rw [hmember]
        dsimp only
        rw [hskip, hcomma, if_neg (by decide), if_pos rfl,
          ihmembers _ hrest (by omega) (drop_succ (drop_add hcons))]
        refine Prod.ext rfl ?_
        dsimp only
        omega

end Complete

/-! ## The bound on the calls -/

section Fuel

variable {input : Bytes} {pos : Nat}

theorem parseMember_congr {f g : Nat → Option JsonValue × Nat} (hpos : pos ≤ input.length)
    (h : ∀ p < input.length, pos ≤ p → f (p + 1) = g (p + 1)) :
    parseMember input f pos = parseMember input g pos := by
  have hskip := le_skipWs input pos
  have hkey := parseString_bounds (skipWs_le hpos)
  unfold parseMember
  cases hstring : parseString input (skipWs input pos) with
  | mk key p =>
    rw [hstring] at hkey
    dsimp only at hkey
    have hskip' := le_skipWs input p
    cases key with
    | none => rfl
    | some key =>
      dsimp only
      split
      · rename_i hcolon
        rw [h _ (lt_of_getElem? hcolon) (by omega)]
      · rfl

/-- More calls than bytes that are left change nothing. -/
theorem parse_fuel (n : Nat) :
    (∀ m pos, pos ≤ input.length → input.length - pos < n → input.length - pos < m →
      parseValue input n pos = parseValue input m pos) ∧
    (∀ m o pos, pos ≤ input.length → input.length - pos < n → input.length - pos < m →
      membersLoop input n o pos = membersLoop input m o pos) := by
  induction n with
  | zero =>
    constructor
    · intro m pos _ h
      omega
    · intro m o pos _ h
      omega
  | succ n ih =>
    obtain ⟨ihvalue, ihmembers⟩ := ih
    constructor
    · intro m pos hpos hn hm
      obtain ⟨m, rfl⟩ : ∃ k, m = k + 1 := ⟨m - 1, by omega⟩
      have hle := le_skipWs input pos
      have hobject : parseObject input (membersLoop input n) (skipWs input pos) =
          parseObject input (membersLoop input m) (skipWs input pos) := by
        unfold parseObject
        split
        · rename_i hopen
          have hlt := lt_of_getElem? hopen
          have hle' := le_skipWs input (skipWs input pos + 1)
          have hend := @skipWs_le input (skipWs input pos + 1) hlt
          dsimp only
          rw [ihmembers m [] _ hend (by omega) (by omega)]
        · rfl
      rw [parseValue, parseValue, hobject]
    · intro m o pos hpos hn hm
      obtain ⟨m, rfl⟩ : ∃ k, m = k + 1 := ⟨m - 1, by omega⟩
      have hmember : parseMember input (parseValue input n) pos =
          parseMember input (parseValue input m) pos :=
        parseMember_congr hpos fun p hp hle => ihvalue m _ hp (by omega) (by omega)
      have hwithin := bounded_parseMember (@bounded_parse input m).1 pos hpos
      rw [membersLoop, membersLoop, hmember]
      cases hm' : parseMember input (parseValue input m) pos with
      | mk r p =>
        rw [hm'] at hwithin
        have hlow : pos ≤ p := hwithin.1
        have hle := le_skipWs input p
        cases r with
        | none => rfl
        | some kv =>
          dsimp only
          split
          · split
            · rfl
            split
            · rename_i hcomma
              exact ihmembers m _ _ (lt_of_getElem? hcomma)
                (by have := lt_of_getElem? hcomma; omega) (by have := lt_of_getElem? hcomma; omega)
            · rfl
          · rfl

end Fuel

/-! ## Documents -/

section Documents

variable {input : Bytes} {v : JsonValue}

theorem document_of_parse (h : (parse input).1 = some v) : Document input v := by
  unfold parse parseWith at h
  split at h
  · cases h
  · rename_i value pos hvalue
    obtain ⟨a, ha, hread⟩ := skipWs_reads input 0
    obtain ⟨a', text, ha', htext, hread'⟩ := (parse_sound (input.length + 1)).1 hvalue
    obtain ⟨b, hb, hread''⟩ := skipWs_reads input pos
    dsimp only at h
    split at h
    · rename_i hend
      cases h
      refine ⟨a ++ a', text, b, blank_append ha ha', htext, hb, ?_⟩
      have hall := ((hread.append hread').append hread'').split
      rw [hend, List.drop_zero, List.drop_length, List.append_nil] at hall
      simpa using hall
    · cases h

theorem value_front {text : Bytes} (h : Value text v) :
    ∃ x t, text = x :: t ∧ isBlank x = false := by
  cases h with
  | null => exact ⟨_, _, rfl, by decide⟩
  | true => exact ⟨_, _, rfl, by decide⟩
  | false => exact ⟨_, _, rfl, by decide⟩
  | number hne hdigits _ =>
    obtain ⟨x, ds, rfl⟩ := List.exists_cons_of_ne_nil hne
    exact ⟨x, ds, rfl, not_isBlank_of_isDigit (hdigits x List.mem_cons_self)⟩
  | string _ => exact ⟨_, _, rfl, by decide⟩
  | empty _ => exact ⟨_, _, rfl, by decide⟩
  | object _ => exact ⟨_, _, rfl, by decide⟩

theorem parse_of_document (h : Document input v) : (parse input).1 = some v := by
  obtain ⟨a, text, b, ha, htext, hb, rfl⟩ := h
  have hstart : (a ++ text ++ b).drop 0 = a ++ (text ++ b) := by simp
  obtain ⟨x, t, rfl, hx⟩ := value_front htext
  have hskip := skipWs_eq hstart ha (by intro y hy; cases hy; exact hx)
  have hdrop := drop_add hstart
  have hb' : ∀ y ∈ b.head?, isDigit y = false := by
    intro y hy
    have hall : ∀ z ∈ str " \t\r\n", isDigit z = false := by decide +kernel
    exact hall y (hb y (List.mem_of_mem_head? hy))
  obtain ⟨hcomplete, -⟩ := @parse_complete (a ++ x :: t ++ b) ((a ++ x :: t ++ b).length + 1)
  have hvalue := hcomplete (a := []) blank_nil htext (by simp; omega) hdrop hb'
  have hlast := @skipWs_eq _ _ [] _ (by rw [List.append_nil]; exact drop_add hdrop) hb (by simp)
  rw [parse, parseWith, hskip, hvalue]
  dsimp only
  rw [List.nil_append, hlast, if_pos (by simp; omega)]

end Documents

/-- **The parser is the grammar**: it returns `true` on the documents of the grammar and on nothing
else, with the value the document denotes, in which a repeated key has its last value; it stops
within the input, whatever it is; and its recursion is not cut short. -/
theorem parse_iff_document (input : Bytes) :
    (∀ v, (parse input).1 = some v ↔ Document input v) ∧
    (∀ members key, (objectOf members).lookup key = members.reverse.lookup key) ∧
    (parse input).2 ≤ input.length ∧
    (∀ n, parseWith input (input.length + 1 + n) = parse input) := by
  have hstart := skipWs_le (Nat.zero_le input.length)
  refine ⟨fun v => ⟨document_of_parse, parse_of_document⟩, lookup_objectOf, ?_, ?_⟩
  · have hbounds := (bounded_parse (input.length + 1)).1 _ hstart
    unfold parse parseWith
    cases hv : parseValue input (input.length + 1) (skipWs input 0) with
    | mk v pos =>
      rw [hv] at hbounds
      cases v with
      | none => exact hbounds.2
      | some v => exact skipWs_le hbounds.2
  · intro n
    rw [parse, parseWith, parseWith,
      (parse_fuel (input.length + 1 + n)).1 (input.length + 1) _ hstart (by omega) (by omega)]

example : (parse (str "\x7b\"a\": 1, \"a\": \x7b\x7d\x7d")).2 = 17 := by decide +kernel

end HermitMiner
