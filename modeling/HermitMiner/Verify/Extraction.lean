import HermitMiner.Rfc8259.Fields
import HermitMiner.Rfc8259.Strings
import HermitMiner.Verify.Notify
import HermitMiner.Verify.PoolLines

/-!
# Searches for a member in JSON texts

The client reads messages with regular expressions. In a JSON text without escapes, such a search
comes to the first member, at whatever depth, that has its name and a value that it takes.

* `FieldPattern`: a pattern for the members with a name, and what it takes of their values.
* `Searches`: a search in a text goes through the members in it.
* `search_document`: what a search finds in a JSON text.
-/

namespace HermitMiner

open Regex Regex.Pat
open Rfc8259 (Value ValueText Elements Element Members Member Document Ended Ws Chars)
open Rfc8259 (quoted fields fieldsOfValues fieldsOfMembers)

/-! ## Members by name -/

/-- A pattern for the members that have a name, and what it takes of their values. -/
structure FieldPattern (f : UInt8 → UInt8 → Bool) (key : Bytes) (value : Pat UInt8)
    (read : Value → Option (List Bytes)) : Prop where
  keyTest : KeyTest f key
  apart : ∀ c, isSpace c = true → ∀ k ∈ key.head?, f k c = false
  spaceless : Spaceless value
  reads : ∀ {text v rest}, ValueText text v → ch '\\' ∉ text → Ended rest →
    value.matchAt (text ++ rest) = read v

/-- What the pattern takes of a member. -/
def readMember (f : UInt8 → UInt8 → Bool) (key : Bytes) (read : Value → Option (List Bytes))
    (m : Bytes × Value) : Option (List Bytes) :=
  if m.1.length = key.length ∧ startsWith (key.map f) m.1 = true then read m.2 else none

section Search

variable {f : UInt8 → UInt8 → Bool} {key : Bytes} {value : Pat UInt8}
  {read : Value → Option (List Bytes)}

variable (f key value) in
/-- The pattern. -/
abbrev fieldPattern : Pat UInt8 := member (.word (quotedKey f key)) value

variable (hP : FieldPattern f key value read)

theorem startsWith_quotedKey_of_name (hkey : KeyTest f key) {k s : Bytes}
    (hlen : k.length = key.length) (hstart : startsWith (key.map f) k = true) :
    startsWith (quotedKey f key) (ch '"' :: (k ++ ch '"' :: s)) = true := by
  have hquote : f (ch '"') (ch '"') = true := (hkey.quote _).2 rfl
  have hinner : startsWith ((key ++ [ch '"']).map f) (k ++ ch '"' :: s) = true := by
    clear hkey
    induction key generalizing k with
    | nil =>
      rw [List.length_eq_zero_iff.1 hlen]
      simp [startsWith, hquote]
    | cons c key ih =>
      cases k with
      | nil => cases hlen
      | cons d k =>
        simp only [List.map_cons, startsWith, Bool.and_eq_true] at hstart
        simp only [List.cons_append, List.map_cons, startsWith, Bool.and_eq_true]
        exact ⟨hstart.1, ih (Nat.succ.inj hlen) hstart.2⟩
  simp only [quotedKey, List.cons_append, List.map_cons, startsWith, Bool.and_eq_true]
  exact ⟨hquote, hinner⟩

theorem quoted_append (k s : Bytes) : quoted k ++ s = ch '"' :: (k ++ ch '"' :: s) := by
  show ch '"' :: (k ++ [ch '"']) ++ s = _
  simp

include hP

/-- What has no quotes is skipped. -/
theorem search_skip {a s : Bytes} (ha : ch '"' ∉ a) :
    search (fieldPattern f key value) (a ++ s) = search (fieldPattern f key value) s := by
  refine firstSuffix_append fun x y hxy hy => ?_
  obtain ⟨c, y, rfl⟩ := List.exists_cons_of_ne_nil hy
  have hc : c ≠ ch '"' := by
    rintro rfl
    exact ha (by simp [hxy])
  exact matchAt_member_none hP.spaceless (startsWith_quotedKey_of_ne hP.keyTest hc)

/-- The pattern at a string. -/
theorem matchAt_quoted {k s : Bytes} (hk : ch '"' ∉ k) :
    (fieldPattern f key value).matchAt (quoted k ++ s) =
      if k.length = key.length ∧ startsWith (key.map f) k = true then
        match s.dropWhile isSpace with
        | c :: t => if c = ch ':' then value.matchAt (t.dropWhile isSpace) else none
        | [] => none
      else none := by
  rw [matchAt, run_member hP.spaceless, quoted_append]
  by_cases hkey : k.length = key.length ∧ startsWith (key.map f) k = true
  · have hdrop : (ch '"' :: (k ++ ch '"' :: s)).drop (quotedKey f key).length = s := by
      have hall : ch '"' :: (k ++ ch '"' :: s) = (ch '"' :: k ++ [ch '"']) ++ s := by simp
      rw [hall]
      exact List.drop_left' (by simp [quotedKey, hkey.1])
    rw [if_pos (startsWith_quotedKey_of_name hP.keyTest hkey.1 hkey.2), if_pos hkey, hdrop]
    rfl
  · rw [if_neg fun h => hkey (startsWith_quotedKey hP.keyTest hk h), if_neg hkey]

/-- A search comes to a string, and goes on behind it. -/
theorem search_quoted {k s : Bytes} (hk : ch '"' ∉ k)
    (hs : ∀ c ∈ s.head?, isSpace c = true ∨ closes c = true) :
    search (fieldPattern f key value) (quoted k ++ s) =
      ((fieldPattern f key value).matchAt (quoted k ++ s)).or
        (search (fieldPattern f key value) s) := by
  have hclosing : (fieldPattern f key value).matchAt (ch '"' :: s) = none := by
    refine matchAt_member_none hP.spaceless ?_
    obtain ⟨k₀, ks, rfl, hopens⟩ := hP.keyTest.opens
    cases s with
    | nil => simp [quotedKey, startsWith]
    | cons c s =>
      have hc : f k₀ c = false := by
        rcases hs c rfl with hc | hc
        · exact hP.apart c hc k₀ rfl
        · exact hopens c hc
      simp [quotedKey, startsWith, hc]
  have hstep : ∀ c t, search (fieldPattern f key value) (c :: t) =
      ((fieldPattern f key value).matchAt (c :: t)).or (search (fieldPattern f key value) t) :=
    fun _ _ => rfl
  have hbehind : search (fieldPattern f key value) (k ++ ch '"' :: s) =
      search (fieldPattern f key value) s := by
    rw [search_skip hP hk, hstep, hclosing, Option.none_or]
  rw [quoted_append, hstep, hbehind]

/-! ## Values -/

omit hP in
theorem dropWhile_ws {a s : Bytes} (ha : Ws a) :
    (a ++ s).dropWhile isSpace = s.dropWhile isSpace :=
  List.dropWhile_append_of_pos fun c hc => isSpace_of_isWs (ha c hc)

omit hP in
theorem quote_not_mem_ws {a : Bytes} (ha : Ws a) : ch '"' ∉ a := by
  intro hmem
  have := ha _ hmem
  revert this
  decide

omit hP in
/-- Behind a value stands no colon. -/
theorem ended_dropWhile {rest : Bytes} (h : Ended rest) :
    ∀ c ∈ (rest.dropWhile isSpace).head?, ends c = true := by
  obtain ⟨a, tail, rfl, ha, htail⟩ := h
  rw [dropWhile_ws ha]
  intro c hc
  cases tail with
  | nil => cases hc
  | cons d tail =>
    have hd : ends d = true := by
      rcases htail d rfl with rfl | rfl | rfl <;> decide
    rw [dropWhile_isSpace_of_head (not_isSpace_of_closes (closes_of_ends hd))] at hc
    obtain rfl : d = c := by simpa using hc
    exact hd

omit hP in
theorem ended_head {rest : Bytes} (h : Ended rest) :
    ∀ c ∈ rest.head?, isSpace c = true ∨ closes c = true := by
  intro c hc
  cases rest with
  | nil => cases hc
  | cons d rest =>
    obtain rfl : d = c := by simpa using hc
    cases hspace : isSpace d with
    | true => exact .inl rfl
    | false =>
      refine .inr (closes_of_ends (ended_dropWhile h d ?_))
      rw [dropWhile_isSpace_of_head hspace]
      rfl

/-- A string is no member. -/
theorem search_string {k rest : Bytes} (hk : ch '"' ∉ k) (hrest : Ended rest) :
    search (fieldPattern f key value) (quoted k ++ rest) =
      search (fieldPattern f key value) rest := by
  have hnone : (fieldPattern f key value).matchAt (quoted k ++ rest) = none := by
    rw [matchAt_quoted hP hk]
    have hcolon := ended_dropWhile hrest
    split
    · split
      · rename_i c t heq
        have hne : c ≠ ch ':' := by
          rintro rfl
          have := hcolon (ch ':') (by rw [heq]; rfl)
          revert this
          decide
        exact if_neg hne
      · rfl
    · rfl
  rw [search_quoted hP hk (ended_head hrest), hnone, Option.none_or]

/-! ## Texts -/

omit hP in
theorem not_isSpace_of_isNumber {c : UInt8} (h : Rfc8259.isNumber c = true) :
    isSpace c = false ∧ lower c ≠ ch 't' ∧ lower c ≠ ch 'f' := by
  refine number_head ?_
  simp only [Rfc8259.isNumber, Bool.or_eq_true, beq_iff_eq] at h
  rcases h with ((((hdigit | rfl) | rfl) | rfl) | rfl) | rfl
  · exact .inl hdigit
  all_goals exact .inr (by decide)

/-- The bytes with which values start that are no numbers. -/
def valueHeads : Bytes := str "ntf\"[\x7b"

omit hP in
theorem starts_cases {v : Value} {c : UInt8} (h : Rfc8259.Starts v c) :
    (∃ n, v = .number n) ∧ Rfc8259.isNumber c = true ∨ c ∈ valueHeads := by
  have hheads : valueHeads = [0x6E, 0x74, 0x66, 0x22, 0x5B, 0x7B] := by decide
  rw [hheads]
  cases v with
  | number n => exact .inl ⟨⟨n, rfl⟩, h⟩
  | bool b =>
    obtain rfl : c = if b then 0x74 else 0x66 := h
    cases b <;> exact .inr (by decide)
  | null => exact .inr (by simp [show c = 0x6E from h])
  | string s => exact .inr (by simp [show c = 0x22 from h])
  | array vs => exact .inr (by simp [show c = 0x5B from h])
  | object ms => exact .inr (by simp [show c = 0x7B from h])

omit hP in
/-- The first byte of a value is no space. -/
theorem dropWhile_valueText {text s : Bytes} {v : Value} (h : ValueText text v) :
    (text ++ s).dropWhile isSpace = text ++ s := by
  obtain ⟨c, rest, rfl, hc⟩ := h.starts
  have hspace : (valueHeads.all fun d => !isSpace d) = true := rfl
  refine dropWhile_isSpace_of_head ?_
  rcases starts_cases hc with ⟨-, hnumber⟩ | hmem
  · exact (not_isSpace_of_isNumber hnumber).1
  · simpa using List.all_eq_true.1 hspace c hmem

/-- A name, and what the pattern takes of its value. -/
theorem matchAt_name {k b a text c s : Bytes} {v : Value} (hk : ch '"' ∉ k) (hb : Ws b)
    (ha : Ws a) (h : ValueText text v) (hplain : ch '\\' ∉ text) (hs : Ended (c ++ s)) :
    (fieldPattern f key value).matchAt (quoted k ++ (b ++ 0x3A :: (a ++ (text ++ c) ++ s))) =
      readMember f key read (k, v) := by
  have hcolon : (b ++ 0x3A :: (a ++ (text ++ c) ++ s)).dropWhile isSpace =
      0x3A :: (a ++ (text ++ c) ++ s) := by
    rw [dropWhile_ws hb]
    exact dropWhile_isSpace_of_head (by decide)
  have hvalue : (a ++ (text ++ c) ++ s).dropWhile isSpace = text ++ (c ++ s) := by
    rw [List.append_assoc, List.append_assoc, dropWhile_ws ha]
    exact dropWhile_valueText h
  rw [matchAt_quoted hP hk, hcolon, readMember]
  dsimp only
  rw [if_pos (show (0x3A : UInt8) = ch ':' by decide), hvalue, hP.reads h hplain hs]

variable (f key value read) in
/-- A search goes through what the pattern takes of the members, and on behind the text. -/
def Searches (text : Bytes) (ms : List (Bytes × Value)) : Prop :=
  ∀ s, Ended s → search (fieldPattern f key value) (text ++ s) =
    (ms.findSome? (readMember f key read)).or (search (fieldPattern f key value) s)

theorem searches_skip {a : Bytes} (ha : ch '"' ∉ a) : Searches f key value read a [] := by
  intro s _
  rw [search_skip hP ha, List.findSome?_nil, Option.none_or]

theorem searches_enclosed {c d : UInt8} {text : Bytes} {ms : List (Bytes × Value)}
    (hc : c ≠ ch '"') (hd : d = 0x5D ∨ d = 0x7D) (h : Searches f key value read text ms) :
    Searches f key value read (c :: (text ++ [d])) ms := by
  intro s hs
  have hsplit : c :: (text ++ [d]) ++ s = [c] ++ (text ++ (d :: s)) := by simp
  have hd' : ch '"' ∉ [d] := by
    rcases hd with rfl | rfl <;> decide
  have hrest : search (fieldPattern f key value) (d :: s) = search (fieldPattern f key value) s :=
    search_skip hP hd'
  rw [hsplit, search_skip hP (by simpa using Ne.symm hc),
    h (d :: s) (Rfc8259.ended_cons (.inr hd) s), hrest]

theorem searches_comma {text rest : Bytes} {ms ms' : List (Bytes × Value)}
    (h : Searches f key value read text ms) (hrest : Searches f key value read rest ms') :
    Searches f key value read (text ++ 0x2C :: rest) (ms ++ ms') := by
  intro s hs
  have hsplit : text ++ 0x2C :: rest ++ s = text ++ (0x2C :: (rest ++ s)) := by simp
  have hcomma : search (fieldPattern f key value) (0x2C :: (rest ++ s)) =
      search (fieldPattern f key value) (rest ++ s) :=
    search_skip hP (a := [0x2C]) (by decide)
  rw [hsplit, h _ (Rfc8259.ended_cons (.inl rfl) _), hcomma, hrest s hs, List.findSome?_append,
    Option.or_assoc]

theorem searches_ws {a text b : Bytes} {ms : List (Bytes × Value)} (ha : Ws a)
    (h : Searches f key value read text ms) (hb : Ws b) :
    Searches f key value read (a ++ (text ++ b)) ms := by
  intro s hs
  rw [List.append_assoc, List.append_assoc, search_skip hP (quote_not_mem_ws ha),
    h _ (hs.ws_append hb), search_skip hP (quote_not_mem_ws hb)]

theorem searches_member {a k b text : Bytes} {v : Value} (ha : Ws a) (hk : ch '"' ∉ k)
    (hb : Ws b) (h : Element text v) (hplain : ch '\\' ∉ text)
    (ih : Searches f key value read text (fields v)) :
    Searches f key value read (a ++ (quoted k ++ (b ++ 0x3A :: text))) ((k, v) :: fields v) := by
  intro s hs
  obtain ⟨ha', hvalue, hc'⟩ := h
  rename_i a' t c'
  have hname := matchAt_name hP hk hb ha' hvalue (fun hmem => hplain (by simp [hmem]))
    (hs.ws_append hc')
  have hhead : ∀ c ∈ (b ++ 0x3A :: (a' ++ (t ++ c') ++ s)).head?,
      isSpace c = true ∨ closes c = true := by
    intro c hc
    cases b with
    | nil =>
      obtain rfl : 0x3A = c := by simpa using hc
      exact .inr (by decide)
    | cons d b =>
      obtain rfl : d = c := by simpa using hc
      exact .inl (isSpace_of_isWs (hb d List.mem_cons_self))
  have hcolon : ch '"' ∉ b ++ [0x3A] := by
    rw [List.mem_append, not_or]
    exact ⟨quote_not_mem_ws hb, by decide⟩
  have hbehind : search (fieldPattern f key value) (b ++ 0x3A :: (a' ++ (t ++ c') ++ s)) =
      search (fieldPattern f key value) (a' ++ (t ++ c') ++ s) := by
    have hsplit : b ++ 0x3A :: (a' ++ (t ++ c') ++ s) = b ++ [0x3A] ++ (a' ++ (t ++ c') ++ s) := by
      rw [List.append_assoc b]
      rfl
    rw [hsplit, search_skip hP hcolon]
  have hsplit : a ++ (quoted k ++ (b ++ 0x3A :: (a' ++ (t ++ c')))) ++ s =
      a ++ (quoted k ++ (b ++ 0x3A :: (a' ++ (t ++ c') ++ s))) := by simp
  rw [hsplit, search_skip hP (quote_not_mem_ws ha), search_quoted hP hk hhead, hname, hbehind,
    ih s hs, List.findSome?_cons]
  cases readMember f key read (k, v) with
  | none => exact Option.none_or
  | some cs => rfl

omit hP in
theorem plain_left {a b : Bytes} (h : ch '\\' ∉ a ++ b) : ch '\\' ∉ a := fun hmem =>
  h (List.mem_append_left b hmem)

omit hP in
theorem plain_right {a b : Bytes} (h : ch '\\' ∉ a ++ b) : ch '\\' ∉ b := fun hmem =>
  h (List.mem_append_right a hmem)

omit hP in
theorem plain_tail {c : UInt8} {a : Bytes} (h : ch '\\' ∉ c :: a) : ch '\\' ∉ a := fun hmem =>
  h (List.mem_cons_of_mem c hmem)

omit hP in
theorem plain_enclosed {c d : UInt8} {a : Bytes} (h : ch '\\' ∉ c :: (a ++ [d])) : ch '\\' ∉ a :=
  plain_left (plain_tail h)

theorem searches_string {text s : Bytes} (h : Chars text s) (hplain : ch '\\' ∉ quoted text) :
    Searches f key value read (quoted text) [] := by
  intro r hr
  have hk : ch '"' ∉ text := h.not_quote (plain_enclosed hplain)
  rw [search_string hP hk hr, List.findSome?_nil, Option.none_or]

omit hP in
theorem quote_not_mem_number {minus int frac exp : Bytes}
    (h : Rfc8259.NumberText minus int frac exp) : ch '"' ∉ minus ++ int ++ frac ++ exp := by
  intro hmem
  have := h.mem hmem
  revert this
  decide

mutual

theorem searches_value : ∀ {text : Bytes} {v : Value}, ValueText text v → ch '\\' ∉ text →
    Searches f key value read text (fields v)
  | _, _, .nullText, _ => searches_skip hP (by decide)
  | _, _, .trueText, _ => searches_skip hP (by decide)
  | _, _, .falseText, _ => searches_skip hP (by decide)
  | _, _, .number h, _ => searches_skip hP (quote_not_mem_number h)
  | _, _, .string h, hplain => searches_string hP h hplain
  | _, _, .emptyArray ha, _ =>
    searches_enclosed hP (by decide) (.inl rfl) (searches_skip hP (quote_not_mem_ws ha))
  | _, _, .array h, hplain =>
    searches_enclosed hP (by decide) (.inl rfl) (searches_elements h (plain_enclosed hplain))
  | _, _, .emptyObject ha, _ =>
    searches_enclosed hP (by decide) (.inr rfl) (searches_skip hP (quote_not_mem_ws ha))
  | _, _, .object h, hplain =>
    searches_enclosed hP (by decide) (.inr rfl) (searches_members h (plain_enclosed hplain))

theorem searches_elements : ∀ {text : Bytes} {vs : List Value}, Elements text vs →
    ch '\\' ∉ text → Searches f key value read text (fieldsOfValues vs)
  | _, _, .last h, hplain => by
    have hmember := searches_element h hplain
    rwa [fieldsOfValues, fieldsOfValues, List.append_nil]
  | _, _, .cons h hrest, hplain =>
    searches_comma hP (searches_element h (plain_left hplain))
      (searches_elements hrest (plain_tail (plain_right hplain)))

theorem searches_element : ∀ {text : Bytes} {v : Value}, Element text v → ch '\\' ∉ text →
    Searches f key value read text (fields v)
  | _, _, .mk ha h hb, hplain =>
    searches_ws hP ha (searches_value h (plain_left (plain_right hplain))) hb

theorem searches_members : ∀ {text : Bytes} {ms : List (Bytes × Value)}, Members text ms →
    ch '\\' ∉ text → Searches f key value read text (fieldsOfMembers ms)
  | _, _, .last h, hplain => by
    have hmember := searches_field h hplain
    rwa [fieldsOfMembers, fieldsOfMembers, List.append_nil]
  | _, _, .cons h hrest, hplain =>
    searches_comma hP (searches_field h (plain_left hplain))
      (searches_members hrest (plain_tail (plain_right hplain)))

theorem searches_field : ∀ {text : Bytes} {m : Bytes × Value}, Member text m →
    ch '\\' ∉ text → Searches f key value read text (m :: fields m.2)
  | _, _, .mk ha hkey hb h, hplain => by
    have hquoted := plain_left (plain_right hplain)
    have htext := plain_tail (plain_right (plain_right (plain_right hplain)))
    have hname := plain_enclosed hquoted
    obtain rfl := hkey.eq_iff.2 hname
    exact searches_member hP ha (hkey.not_quote hname) hb h htext (searches_element h htext)

end

/-- **A search in a JSON text without escapes finds what it takes of the first member, at any depth,
of which it takes anything.** -/
theorem search_document {text : Bytes} {v : Value} (h : Document text v) (hplain : ch '\\' ∉ text) :
    search (fieldPattern f key value) text = (fields v).findSome? (readMember f key read) := by
  have hall := searches_element hP h hplain [] Rfc8259.ended_nil
  have hnil : search (fieldPattern f key value) [] = none := by
    show firstSuffix _ [] = none
    exact matchAt_member_none hP.spaceless rfl
  rwa [List.append_nil, hnil, Option.or_none] at hall

end Search

end HermitMiner
