import HermitMiner.Verify.PlainSecret

/-!
# The secret of a quoted pair

What is logged of `"KEY":"VALUE"`, the value being escaped as in JSON. The pattern ends a value at
its first quote, an escaped one too, and a match that starts before the pair can take its quotes.

* `OpenPair`: texts after which the next quote belongs to a match that starts in them.
* `hideQuoted_closed`, `hideQuoted_open`: what the first pass does before a pair.
* `quoted_secret_hidden_iff`: when the redacted text does not depend on the value.
-/

namespace HermitMiner

open Regex Regex.Pat

/-- `A"KEY":"escape(V)"B` -/
def quotedText (key a v b : Bytes) : Bytes :=
  a ++ (str "\"" ++ key ++ str "\":\"" ++ jsonEscape v ++ str "\"") ++ b

/-- The text ends in the value of a protected pair, or just before the quote that opens one, where
matches of `quoted_kv` are looked for from the left. -/
inductive OpenPair : Bytes → Prop where
  | here {y : Bytes} (h : quotedKv.matchEnd y = none)
    (hopen : (quotedKv.matchEnd (y ++ str "\"\"")).isSome) : OpenPair y
  | step {c : UInt8} {y : Bytes} (h : quotedKv.matchEnd (c :: y) = none) (hopen : OpenPair y) :
    OpenPair (c :: y)
  | skip {y y' : Bytes} {cs : List Bytes} (h : quotedKv.matchEnd y = some (cs, y'))
    (hopen : OpenPair y') : OpenPair y

/-! ## Matches around a quote -/

section Around

variable {x y z t : Bytes}

theorem quote_first (hx : ch '"' ∉ x) (h : x ++ ch '"' :: z = y ++ ch '"' :: t) :
    (y = x ∧ z = t) ∨ ∃ w, y = x ++ ch '"' :: w ∧ z = w ++ ch '"' :: t := by
  rcases List.append_eq_append_iff.1 h with ⟨w, rfl, hw⟩ | ⟨w, rfl, hw⟩
  · cases w with
    | nil => exact .inl ⟨List.append_nil x, (List.cons.inj hw).2⟩
    | cons c w =>
      obtain ⟨rfl, rfl⟩ := List.cons.inj hw
      exact .inr ⟨w, rfl, rfl⟩
  · cases w with
    | nil => exact .inl ⟨(List.append_nil y).symm, (List.cons.inj hw).2.symm⟩
    | cons c w =>
      obtain ⟨rfl, -⟩ := List.cons.inj hw
      exact absurd (by simp) hx

/-- A match at `y`, which a quote follows: it ends in `y`, or with the quote, or its value starts
with the quote; or the quote ends its key. -/
theorem matchEnd_quotedKv_at (hy : y ≠ []) {cs : List Bytes} {s : Bytes}
    (h : quotedKv.matchEnd (y ++ ch '"' :: t) = some (cs, s)) :
    (∃ a v k rest, Matches quotedPart a [] ∧ ch '"' ∉ v ∧ y = ch '"' :: (k ++ ch '"' :: rest) ∧
      (k ≠ [] ∧ ∀ c ∈ k, isKeyByte c = true) ∧
      ((∃ w, y = a ++ (v ++ ch '"' :: w)) ∨ y = a ++ v ∨ a = y ++ [ch '"'])) ∨
    ∃ d t', t = d :: t' ∧ (isSpace d = true ∨ d = ch ':') := by
  obtain ⟨a, v, hs, ha, hv, -⟩ := matchEnd_quotedKv h
  obtain ⟨k, m, hopened⟩ := opened_of_matches ha
  have hfirst : [] ++ ch '"' :: (k ++ ch '"' :: (m ++ ch '"' :: (v ++ ch '"' :: s))) =
      y ++ ch '"' :: t := by
    rw [hs, hopened.eq]
    simp
  rcases quote_first (by simp) hfirst with ⟨rfl, -⟩ | ⟨w₁, rfl, h₁⟩
  · exact absurd rfl hy
  rcases quote_first hopened.quote_notMem_key h₁ with ⟨rfl, h₂⟩ | ⟨w₂, rfl, h₂⟩
  · obtain ⟨d, m, rfl⟩ := List.exists_cons_of_ne_nil hopened.colon.1
    exact .inr ⟨d, m ++ ch '"' :: (v ++ ch '"' :: s), h₂.symm,
      hopened.colon.2 d List.mem_cons_self⟩
  refine .inl ⟨a, v, k, w₂, ha, hv, rfl, hopened.key, ?_⟩
  rw [hopened.eq]
  rcases quote_first hopened.quote_notMem_colon h₂ with ⟨rfl, -⟩ | ⟨w₃, rfl, h₃⟩
  · exact .inr (.inr (by simp))
  rcases quote_first hv h₃ with ⟨rfl, -⟩ | ⟨w₄, rfl, -⟩
  · exact .inr (.inl (by simp))
  · exact .inl ⟨w₄, by simp⟩

end Around

/-! ## The first pass before a pair -/

section Before

variable {y z key : Bytes} {cs : List Bytes}

/-- The text starts with a byte of a key. -/
def KeyAhead (z : Bytes) : Prop := ∃ d z', z = d :: z' ∧ isKeyByte d = true

theorem KeyAhead.not_colon (hz : KeyAhead z) :
    ¬∃ d z', z = d :: z' ∧ (isSpace d = true ∨ d = ch ':') := by
  rintro ⟨d, z', rfl, hd⟩
  obtain ⟨_, _, heq, hkey⟩ := hz
  obtain ⟨rfl, rfl⟩ := List.cons.inj heq
  rcases hd with hspace | rfl
  · rw [(isSpace_spec hspace).2.1] at hkey
    cases hkey
  · cases hkey

/-- A match that ends in a text is one whatever follows. -/
theorem matchEnd_quotedKv_append {y' : Bytes} (h : quotedKv.matchEnd y = some (cs, y'))
    (z : Bytes) : quotedKv.matchEnd (y ++ z) = some (cs, y' ++ z) := by
  obtain ⟨a, v, rfl, ha, hv, rfl⟩ := matchEnd_quotedKv h
  have hend := matchEnd_quotedKv_of (s := y' ++ z) ha hv
  simpa using hend

theorem matchEnd_quotedKv_closed (hy : y ≠ []) (h : quotedKv.matchEnd y = none)
    (hclosed : quotedKv.matchEnd (y ++ str "\"\"") = none) (hz : KeyAhead z) :
    quotedKv.matchEnd (y ++ ch '"' :: z) = none := by
  cases hend : quotedKv.matchEnd (y ++ ch '"' :: z) with
  | none => rfl
  | some m =>
    obtain ⟨cs, s⟩ := m
    rcases matchEnd_quotedKv_at hy hend with ⟨a, v, -, -, ha, hv, -, -, hcase⟩ | hcolon
    · rcases hcase with ⟨w, rfl⟩ | rfl | rfl
      · rw [matchEnd_quotedKv_of ha hv] at h
        cases h
      · have hmatch := matchEnd_quotedKv_of (s := str "\"") ha hv
        rw [← List.append_assoc] at hmatch
        rw [show str "\"\"" = ch '"' :: str "\"" from rfl, hmatch] at hclosed
        cases hclosed
      · have hmatch := matchEnd_quotedKv_of (v := []) (s := []) ha (by simp)
        rw [List.nil_append, List.append_assoc] at hmatch
        rw [show str "\"\"" = [ch '"'] ++ [ch '"'] from rfl, hmatch] at hclosed
        cases hclosed
    · exact absurd hcolon hz.not_colon

/-- Before a pair that starts on its own, the first pass does the same whatever the pair. -/
theorem hideQuoted_closed (h : ¬OpenPair y) :
    ∃ t, ∀ z, KeyAhead z → hideQuoted (y ++ ch '"' :: z) = t ++ hideQuoted (ch '"' :: z) := by
  induction hn : y.length using Nat.strongRecOn generalizing y with
  | _ n ih =>
    cases y with
    | nil => exact ⟨[], fun z _ => rfl⟩
    | cons c y =>
      cases hend : quotedKv.matchEnd (c :: y) with
      | some m =>
        obtain ⟨cs, y'⟩ := m
        have hlt := matchEnd_lt least_quotedKv hend
        obtain ⟨t, ht⟩ := ih y'.length (by omega) (fun hopen => h (.skip hend hopen)) rfl
        refine ⟨quotedFormat cs ++ t, fun z hz => ?_⟩
        have hmatch := matchEnd_quotedKv_append hend (ch '"' :: z)
        rw [hideQuoted_some hmatch, ht z hz, List.append_assoc]
      | none =>
        rw [List.length_cons] at hn
        obtain ⟨t, ht⟩ := ih y.length (by omega) (fun hopen => h (.step hend hopen)) rfl
        refine ⟨c :: t, fun z hz => ?_⟩
        have hclosed : quotedKv.matchEnd (c :: y ++ str "\"\"") = none := by
          rw [← Option.not_isSome_iff_eq_none]
          exact fun hopen => h (.here hend hopen)
        have hnone := matchEnd_quotedKv_closed (List.cons_ne_nil c y) hend hclosed hz
        rw [hideQuoted_none hnone, ht z hz]
        rfl

/-- Where the quote belongs to a match that starts before it, the match takes one quote of the pair
or two. -/
theorem matchEnd_quotedKv_open (hkey : key ≠ [] ∧ ∀ c ∈ key, isKeyByte c = true)
    (h : quotedKv.matchEnd y = none) (hopen : (quotedKv.matchEnd (y ++ str "\"\"")).isSome) :
    y ≠ [] ∧ ∃ cs u, (u = [] ∨ u = key ++ [ch '"']) ∧ ∀ z,
      quotedKv.matchEnd (y ++ ch '"' :: (key ++ ch '"' :: z)) = some (cs, u ++ z) := by
  have hy : y ≠ [] := by
    rintro rfl
    revert hopen
    decide
  obtain ⟨⟨cs, s⟩, hend⟩ := Option.isSome_iff_exists.1 hopen
  have hquote : ch '"' ∉ key := fun hq => (isKeyByte_spec (hkey.2 _ hq)).1 rfl
  refine ⟨hy, ?_⟩
  rcases matchEnd_quotedKv_at hy (t := str "\"") hend with ⟨a, v, -, -, ha, hv, -, -, hcase⟩ | hcolon
  · rcases hcase with ⟨w, rfl⟩ | rfl | rfl
    · rw [matchEnd_quotedKv_of ha hv] at h
      cases h
    · refine ⟨[a, v, str "\""], _, .inr rfl, fun z => ?_⟩
      have hmatch := matchEnd_quotedKv_of (s := key ++ ch '"' :: z) ha hv
      simpa using hmatch
    · refine ⟨[y ++ [ch '"'], key, str "\""], _, .inl rfl, fun z => ?_⟩
      have hmatch := matchEnd_quotedKv_of (s := z) ha hquote
      simpa using hmatch
  · obtain ⟨d, t, heq, hd⟩ := hcolon
    obtain rfl : ch '"' = d := (List.cons.inj heq).1
    have hno : ¬(isSpace (ch '"') = true ∨ ch '"' = ch ':') := by decide
    exact absurd hd hno

/-- Before a pair whose quotes belong to another match, the first pass leaves the value open. -/
theorem hideQuoted_open (hkey : key ≠ [] ∧ ∀ c ∈ key, isKeyByte c = true) (h : OpenPair y) :
    ∃ t u, (u = [] ∨ u = key ++ [ch '"']) ∧ ∀ z,
      hideQuoted (y ++ ch '"' :: (key ++ ch '"' :: z)) = t ++ hideQuoted (u ++ z) := by
  have hhere : ∀ {y}, quotedKv.matchEnd y = none →
      (quotedKv.matchEnd (y ++ str "\"\"")).isSome → ∃ t u, (u = [] ∨ u = key ++ [ch '"']) ∧ ∀ z,
        hideQuoted (y ++ ch '"' :: (key ++ ch '"' :: z)) = t ++ hideQuoted (u ++ z) := by
    intro y h hopen
    obtain ⟨-, cs, u, hu, hend⟩ := matchEnd_quotedKv_open hkey h hopen
    exact ⟨quotedFormat cs, u, hu, fun z => hideQuoted_some (hend z)⟩
  induction h with
  | here h hopen => exact hhere h hopen
  | @step c y h hopen ih =>
    by_cases hnext : (quotedKv.matchEnd (c :: y ++ str "\"\"")).isSome
    · exact hhere h hnext
    · obtain ⟨t, u, hu, ht⟩ := ih
      refine ⟨c :: t, u, hu, fun z => ?_⟩
      obtain ⟨d, key', rfl⟩ := List.exists_cons_of_ne_nil hkey.1
      have hahead : KeyAhead (d :: key' ++ ch '"' :: z) :=
        ⟨d, _, rfl, hkey.2 d List.mem_cons_self⟩
      have hnone := matchEnd_quotedKv_closed (List.cons_ne_nil c y) h (by simpa using hnext) hahead
      rw [hideQuoted_none hnone, ht z]
      rfl
  | @skip _ _ cs h hopen ih =>
    obtain ⟨t, u, hu, ht⟩ := ih
    refine ⟨quotedFormat cs ++ t, u, hu, fun z => ?_⟩
    rw [hideQuoted_some (matchEnd_quotedKv_append h _), ht z, List.append_assoc]

end Before

/-! ## What the second pass leaves -/

/-- The bytes that end a plain value. -/
def stops (text : Bytes) : Bytes := text.filter fun c => !isPlain c

theorem stops_append (s t : Bytes) : stops (s ++ t) = stops s ++ stops t := List.filter_append ..

theorem stops_of_plain {s : Bytes} (h : ∀ c ∈ s, isPlain c = true) : stops s = [] := by
  rw [stops, List.filter_eq_nil_iff]
  intro c hc
  simp [h c hc]

theorem stops_hidePlain (s : Bytes) : stops (hidePlain s) = stops s := by
  induction hn : s.length using Nat.strongRecOn generalizing s with
  | _ n ih =>
    cases s with
    | nil => rfl
    | cons c s =>
      cases hend : plainKv.matchEnd (c :: s) with
      | none =>
        have hstep : hidePlain (c :: s) = [c] ++ hidePlain s := replace_of_none hend
        rw [List.length_cons] at hn
        rw [hstep, stops_append, ih s.length (by omega) s rfl, ← stops_append]
        rfl
      | some m =>
        obtain ⟨cs, s'⟩ := m
        have hlt := matchEnd_lt least_plainKv hend
        obtain ⟨a, d, t, hs, -, hd, rfl, hcs⟩ := matchEnd_plainKv hend
        have hcaptured : captured cs 1 = a := by
          cases cs with
          | nil => cases hcs
          | cons x cs => exact Option.some.inj hcs
        have hvalue : stops (d :: t) = stops (t.dropWhile isPlain) := by
          have htake : stops (d :: t.takeWhile isPlain) = [] := by
            refine stops_of_plain fun e he => ?_
            rcases List.mem_cons.1 he with rfl | he
            · exact hd
            · exact List.mem_takeWhile_imp he
          calc stops (d :: t) = stops (d :: t.takeWhile isPlain ++ t.dropWhile isPlain) := by
                rw [List.cons_append, List.takeWhile_append_dropWhile]
            _ = stops (t.dropWhile isPlain) := by rw [stops_append, htake, List.nil_append]
        have hstars : stops (str "***") = [] := by rfl
        rw [hidePlain_some hend, plainFormat, hcaptured, stops_append, stops_append, hstars,
          ih _ (by omega) _ rfl, hs, stops_append, hvalue, List.append_nil]

/-! ## Escaped values -/

theorem ends_of_append {l x x' : Bytes} {b : UInt8} (hx : x ≠ []) (h : l ++ x = x' ++ [b]) :
    ∃ x₀, x = x₀ ++ [b] := by
  obtain ⟨x₀, d, rfl⟩ := (List.eq_nil_or_concat' x).resolve_left hx
  rw [← List.append_assoc] at h
  obtain ⟨-, hd⟩ := List.append_inj' h rfl
  exact ⟨x₀, by rw [hd]⟩

/-- A quote has a backslash before it. -/
def Escaped (e : Bytes) : Prop := ∀ x z, e = x ++ ch '"' :: z → ∃ x', x = x' ++ [ch '\\']

/-- One byte is escaped to a quote with its backslash, or to bytes without a quote. -/
theorem jsonEscapeByte_quote (c : UInt8) :
    (c = ch '"' ∧ jsonEscapeByte c = [ch '\\', ch '"']) ∨
      (c ≠ ch '"' ∧ ch '"' ∉ jsonEscapeByte c) := by
  obtain ⟨n, hn, rfl⟩ := exists_toUInt8 c
  revert n
  decide +kernel

theorem quote_mem_jsonEscape {v : Bytes} : ch '"' ∈ jsonEscape v ↔ ch '"' ∈ v := by
  rw [jsonEscape, List.mem_flatMap]
  constructor
  · rintro ⟨c, hc, hq⟩
    rcases jsonEscapeByte_quote c with ⟨rfl, -⟩ | ⟨-, hno⟩
    · exact hc
    · exact absurd hq hno
  · exact fun h => ⟨ch '"', h, by decide⟩

theorem escaped_jsonEscape (v : Bytes) : Escaped (jsonEscape v) := by
  induction v with
  | nil =>
    intro x z h
    simp [jsonEscape] at h
  | cons c v ih =>
    have hcons : jsonEscape (c :: v) = jsonEscapeByte c ++ jsonEscape v := List.flatMap_cons
    intro x z h
    rw [hcons] at h
    rcases jsonEscapeByte_quote c with ⟨-, hbyte⟩ | ⟨-, hno⟩
    · rw [hbyte] at h
      cases x with
      | nil => cases (List.cons.inj h).1
      | cons d x =>
        obtain ⟨rfl, htail⟩ := List.cons.inj h
        cases x with
        | nil => exact ⟨[], rfl⟩
        | cons d x =>
          obtain ⟨x', rfl⟩ := ih x z (List.cons.inj htail).2
          exact ⟨ch '\\' :: d :: x', rfl⟩
    · rcases List.append_eq_append_iff.1 h with ⟨x', rfl, hrest⟩ | ⟨w, hw, hrest⟩
      · obtain ⟨x'', rfl⟩ := ih x' z hrest
        exact ⟨jsonEscapeByte c ++ x'', (List.append_assoc ..).symm⟩
      · cases w with
        | nil =>
          obtain ⟨x', hx'⟩ := ih [] z hrest.symm
          simp at hx'
        | cons d w =>
          obtain ⟨rfl, -⟩ := List.cons.inj hrest
          exact absurd (by simp [hw]) hno

/-- The first quote of an escaped value, and what is left. -/
theorem Escaped.split {e : Bytes} (he : Escaped e) (hq : ch '"' ∈ e) :
    ∃ e₀ e₁, e = e₀ ++ ch '"' :: e₁ ∧ ch '"' ∉ e₀ ∧ Escaped e₁ := by
  obtain ⟨e₀, e₁, rfl, hno⟩ := List.eq_append_cons_of_mem hq
  refine ⟨e₀, e₁, rfl, hno, fun x z hx => ?_⟩
  obtain ⟨x', hx'⟩ := he (e₀ ++ ch '"' :: x) z (by simp [hx])
  obtain ⟨x₀, hx₀⟩ := ends_of_append (List.cons_ne_nil _ x) hx'
  cases x₀ with
  | nil => cases (List.cons.inj hx₀).1
  | cons d x₀ => exact ⟨x₀, (List.cons.inj hx₀).2⟩

/-- No match starts in an escaped value that a quote and a byte of a key follow. -/
theorem hideQuoted_escaped {e z : Bytes} (he : Escaped e) (hz : KeyAhead z) :
    hideQuoted (e ++ ch '"' :: z) = e ++ hideQuoted (ch '"' :: z) := by
  refine replace_append fun x y hxy hy => ?_
  cases hend : quotedKv.matchEnd (y ++ ch '"' :: z) with
  | none => rfl
  | some m =>
    obtain ⟨cs, s⟩ := m
    rcases matchEnd_quotedKv_at hy hend with ⟨-, -, k, rest, -, -, rfl, hk, -⟩ | hcolon
    · -- the quote after the key would have a backslash before it
      obtain ⟨x', hx'⟩ := he (x ++ ch '"' :: k) rest (by simp [hxy])
      have hends : (x ++ [ch '"']) ++ k = x' ++ [ch '\\'] := by simpa using hx'
      obtain ⟨k', rfl⟩ := ends_of_append hk.1 hends
      exact absurd rfl (isKeyByte_spec (hk.2 (ch '\\') (by simp))).2.1
    · exact absurd hcolon hz.not_colon

/-! ## The pair -/

section Hidden

variable {key v : Bytes}

theorem hideQuoted_value (hkey : key ∈ protectedKeys) {e : Bytes} (he : ch '"' ∉ e) (s : Bytes) :
    hideQuoted (ch '"' :: (key ++ ch '"' :: (str ":\"" ++ e ++ ch '"' :: s))) =
      openingOf key ++ str "***" ++ str "\"" ++ hideQuoted s := by
  have hmatch := matchEnd_quotedKv_of (s := s) (matches_openingOf hkey) he
  have htext : ch '"' :: (key ++ ch '"' :: (str ":\"" ++ e ++ ch '"' :: s)) =
      openingOf key ++ (e ++ ch '"' :: s) := by
    simp [openingOf, str]
  rw [htext, hideQuoted_some hmatch]
  rfl

theorem quotedText_eq (key a v b : Bytes) :
    quotedText key a v b =
      a ++ ch '"' :: (key ++ ch '"' :: (str ":\"" ++ jsonEscape v ++ ch '"' :: b)) := by
  simp [quotedText, str]

theorem redact_quotedText (key a v b : Bytes) :
    redactSensitiveFields (quotedText key a v b) = hidePlain (hideQuoted (quotedText key a v b)) :=
  redact_eq (by simp [quotedText, str])

/-- A pair that starts on its own: the value is replaced up to its first quote. -/
theorem hideQuoted_quotedText (hkey : key ∈ protectedKeys) {a : Bytes} (ha : ¬OpenPair a) :
    ∃ t, (∀ v b, ch '"' ∉ v → hideQuoted (quotedText key a v b) = t ++ hideQuoted b) ∧
      ∀ v, ch '"' ∈ v → ∃ e, Escaped e ∧
        ∀ b, hideQuoted (quotedText key a v b) = t ++ hideQuoted (e ++ ch '"' :: b) := by
  obtain ⟨t, ht⟩ := hideQuoted_closed ha
  have hbytes := keyBytes_of_matches (matches_protectedKey hkey)
  have hahead : ∀ z, KeyAhead (key ++ z) := by
    intro z
    obtain ⟨d, key', rfl⟩ := List.exists_cons_of_ne_nil hbytes.1
    exact ⟨d, _, rfl, hbytes.2 d List.mem_cons_self⟩
  refine ⟨t ++ (openingOf key ++ str "***" ++ str "\""), fun v b hv => ?_, fun v hv => ?_⟩
  · have he : ch '"' ∉ jsonEscape v := fun hq => hv (quote_mem_jsonEscape.1 hq)
    rw [quotedText_eq, ht _ (hahead _), hideQuoted_value hkey he, ← List.append_assoc]
  · obtain ⟨e₀, e, hsplit, he₀, he⟩ := (escaped_jsonEscape v).split (quote_mem_jsonEscape.2 hv)
    refine ⟨e, he, fun b => ?_⟩
    have hvalue : str ":\"" ++ jsonEscape v ++ ch '"' :: b =
        str ":\"" ++ e₀ ++ ch '"' :: (e ++ ch '"' :: b) := by
      rw [hsplit]
      simp
    rw [quotedText_eq, ht _ (hahead _), hvalue, hideQuoted_value hkey he₀, ← List.append_assoc]

/-- What the first pass leaves of two texts when one byte of them is open. -/
theorem stops_open (hkey : key ∈ protectedKeys) {u : Bytes} (hu : u = [] ∨ u = key ++ [ch '"']) :
    ∀ c ∈ [ch ',', ch ' '], stops (hideQuoted (u ++ (str ":\"" ++ [c] ++ [ch '"']))) = [c] := by
  have hall : ∀ key ∈ protectedKeys, ∀ c ∈ [ch ',', ch ' '],
      stops (hideQuoted (str ":\"" ++ [c] ++ [ch '"'])) = [c] ∧
        stops (hideQuoted (key ++ [ch '"'] ++ (str ":\"" ++ [c] ++ [ch '"']))) = [c] := by
    decide +kernel
  intro c hc
  rcases hu with rfl | rfl
  · exact (hall key hkey c hc).1
  · exact (hall key hkey c hc).2

/-- Text after a pair that a quote before it makes another pair. -/
def probe (c : UInt8) : Bytes := str "password\":\"" ++ [c] ++ str "\""

theorem stops_probe : ∀ c ∈ [ch ',', ch ' '],
    stops (hideQuoted (probe c)) = [c] ∧ stops (hideQuoted (ch '"' :: probe c)) = [] := by
  decide +kernel

/-- **When a quoted secret is hidden**: the redacted text is the same for the value and for every
value without quotes, whatever follows the pair, exactly when the pair starts on its own and the
value has no quote. -/
theorem quoted_secret_hidden_iff (hkey : key ∈ protectedKeys) (a v : Bytes) :
    (∀ b v', ch '"' ∉ v' → redactSensitiveFields (quotedText key a v b) =
      redactSensitiveFields (quotedText key a v' b)) ↔ ¬OpenPair a ∧ ch '"' ∉ v := by
  have hstops : ∀ {v v' b}, redactSensitiveFields (quotedText key a v b) =
      redactSensitiveFields (quotedText key a v' b) →
      stops (hideQuoted (quotedText key a v b)) = stops (hideQuoted (quotedText key a v' b)) := by
    intro v v' b h
    rw [redact_quotedText, redact_quotedText] at h
    rw [← stops_hidePlain, h, stops_hidePlain]
  constructor
  · intro h
    have hclosed : ¬OpenPair a := by
      intro hopen
      obtain ⟨t, u, hu, ht⟩ :=
        hideQuoted_open (keyBytes_of_matches (matches_protectedKey hkey)) hopen
      have hone : ∀ c ∈ [ch ',', ch ' '],
          stops (hideQuoted (quotedText key a [c] [])) = stops t ++ [c] := by
        intro c hc
        have hsame : ∀ c ∈ [ch ',', ch ' '], jsonEscape [c] = [c] := by decide +kernel
        rw [quotedText_eq, ht, hsame c hc, stops_append, stops_open hkey hu c hc]
      have hcomma := hone (ch ',') (by simp)
      have hblank := hone (ch ' ') (by simp)
      have hboth := hstops ((h [] [ch ','] (by decide)).symm.trans (h [] [ch ' '] (by decide)))
      rw [hcomma, hblank] at hboth
      cases List.append_cancel_left hboth
    refine ⟨hclosed, fun hv => ?_⟩
    obtain ⟨t, hplain, hquoted⟩ := hideQuoted_quotedText hkey hclosed
    obtain ⟨e, he, hleft⟩ := hquoted v hv
    have hone : ∀ c ∈ [ch ',', ch ' '], stops e = [c] := by
      intro c hc
      have hahead : KeyAhead (probe c) := ⟨ch 'p', str "assword\":\"" ++ [c] ++ str "\"", rfl, by decide⟩
      have hboth := hstops (h (probe c) [] (by simp))
      rw [hleft, hplain [] _ (by simp), hideQuoted_escaped he hahead, stops_append, stops_append,
        stops_append, (stops_probe c hc).1, (stops_probe c hc).2, List.append_nil] at hboth
      exact List.append_cancel_left hboth
    have hcomma := hone (ch ',') (by simp)
    rw [hone (ch ' ') (by simp)] at hcomma
    cases hcomma
  · rintro ⟨hclosed, hv⟩ b v' hv'
    obtain ⟨t, hplain, -⟩ := hideQuoted_quotedText hkey hclosed
    rw [redact_quotedText, redact_quotedText, hplain v b hv, hplain v' b hv']

theorem quoted_secret_hidden_iff_password :
    str "password" ∈ protectedKeys ∧
      ((∀ b v', ch '"' ∉ v' → redactSensitiveFields (quotedText (str "password") [] (str "x") b) =
        redactSensitiveFields (quotedText (str "password") [] v' b)) ↔
          ¬OpenPair [] ∧ ch '"' ∉ str "x") :=
  have hkey : str "password" ∈ protectedKeys := by decide
  ⟨hkey, quoted_secret_hidden_iff hkey [] (str "x")⟩

/-- Of `a"b` and `a"c` the last byte is left. -/
theorem quoted_secret_leaked :
    ¬∀ key ∈ protectedKeys, ∀ v v' a b : Bytes, redactSensitiveFields (quotedText key a v b) =
      redactSensitiveFields (quotedText key a v' b) := by
  intro h
  have hkey : str "password" ∈ protectedKeys := by decide
  have hleft := h (str "password") hkey (str "a\"b") (str "a\"c") [] []
  revert hleft
  decide

end Hidden

end HermitMiner
