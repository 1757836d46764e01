import HermitMiner.Verify.Redaction

/-!
# Protected pairs

The two patterns of the logger, as what their matches are.

* `protectedKeys`, `isKeyByte`: the names of the protected fields, and the bytes they consist of.
* `Head`: the part of a match before the value, and `matchEnd_quotedKv_of`: the match it begins.
* `matchEnd_plainKv_of`: the match of `plain_kv` that a key, a separator and a value begin.
-/

namespace HermitMiner

open Regex Regex.Pat

/-! ## Keys -/

/-- The names of `quoted_kv` and `plain_kv`. -/
def protectedKeys : List Bytes :=
  [str "password", str "passwd", str "secret", str "token", str "auth_token", str "username",
    str "payout_address"]

/-- A letter or an underscore. -/
def isKeyByte (c : UInt8) : Bool := (ch 'a' ≤ lower c && lower c ≤ ch 'z') || lower c == ch '_'

/-- `=` or `:` -/
def isSep (c : UInt8) : Bool := c == ch '=' || c == ch ':'

/-- What a byte of a key is not. -/
theorem isKeyByte_spec {c : UInt8} (h : isKeyByte c = true) :
    c ≠ ch '"' ∧ c ≠ ch '\\' ∧ isSpace c = false ∧ isSep c = false ∧ isPlain c = true := by
  obtain ⟨n, hn, rfl⟩ := exists_toUInt8 c
  revert n
  decide +kernel

theorem isSep_spec {c : UInt8} (h : isSep c = true) :
    c ≠ ch '"' ∧ isSpace c = false ∧ isKeyByte c = false ∧ isPlain c = true := by
  obtain ⟨n, hn, rfl⟩ := exists_toUInt8 c
  revert n
  decide +kernel

theorem isSpace_spec {c : UInt8} (h : isSpace c = true) :
    c ≠ ch '"' ∧ isKeyByte c = false ∧ isPlain c = false := by
  obtain ⟨n, hn, rfl⟩ := exists_toUInt8 c
  revert n
  decide +kernel

theorem isSpace_of_isPlain {c : UInt8} (h : isPlain c = true) : isSpace c = false := by
  cases hspace : isSpace c with
  | false => rfl
  | true => rw [(isSpace_spec hspace).2.2] at h; cases h

section Keys

variable {k : Bytes} {cs : List Bytes}

theorem within_keyByte {w : String} (hw : (str w).all (fun c => isKeyByte c) = true) :
    (litNocase w).Within fun c => isKeyByte c = true := by
  apply within_word
  intro p hp d hd
  obtain ⟨c, hc, rfl⟩ := List.mem_map.1 hp
  have hkey := List.all_eq_true.1 hw c hc
  rw [beq_iff_eq] at hd
  unfold isKeyByte at hkey ⊢
  rwa [hd]

/-- A key consists of key bytes. -/
theorem keyBytes_of_matches (h : Matches protectedKey k cs) :
    k ≠ [] ∧ ∀ c ∈ k, isKeyByte c = true := by
  refine ⟨?_, h.within ?_⟩
  · rintro rfl
    exact absurd h.least_le (by decide)
  · exact .alt (within_keyByte (by rfl)) (.alt (within_keyByte (by rfl))
      (.alt (within_keyByte (by rfl)) (.alt (within_keyByte (by rfl))
        (.alt (within_keyByte (by rfl)) (.alt (within_keyByte (by rfl))
          (within_keyByte (by rfl)))))))

theorem matches_litNocase {w : String} (h : k.map lower = (str w).map lower) :
    Matches (litNocase w) k [] := by
  have hstart := startsWith_spelled (s := []) h
  rw [List.append_nil] at hstart
  have hlength := congrArg List.length h
  rw [List.length_map, List.length_map] at hlength
  exact matches_word.2 ⟨by rw [hlength, List.length_map], hstart, rfl⟩

/-- A key can be spelled in small letters or capitals. -/
theorem matches_spelledKey (h : k.map lower ∈ protectedKeys) : Matches protectedKey k [] := by
  simp only [protectedKeys, List.mem_cons, List.not_mem_nil, or_false] at h
  rcases h with h | h | h | h | h | h | h
  · exact .altLeft (matches_litNocase h)
  · exact .altRight (.altLeft (matches_litNocase h))
  · exact .altRight (.altRight (.altLeft (matches_litNocase h)))
  · exact .altRight (.altRight (.altRight (.altLeft (matches_litNocase h))))
  · exact .altRight (.altRight (.altRight (.altRight (.altLeft (matches_litNocase h)))))
  · exact .altRight (.altRight (.altRight (.altRight (.altRight (.altLeft (matches_litNocase h))))))
  · exact .altRight (.altRight (.altRight (.altRight (.altRight (.altRight (matches_litNocase h))))))

theorem matches_protectedKey (h : k ∈ protectedKeys) : Matches protectedKey k [] := by
  have hspelled : ∀ key ∈ protectedKeys, key.map lower = key := by decide
  exact matches_spelledKey (by rwa [hspelled k h])

end Keys

/-! ## Taking texts apart -/

section Spans

variable {p : UInt8 → Bool} {x x' z z' : Bytes}

theorem span_append (hx : ∀ c ∈ x, p c = true) (hz : ∀ c ∈ z.head?, p c = false) :
    (x ++ z).takeWhile p = x ∧ (x ++ z).dropWhile p = z := by
  rw [List.takeWhile_append_of_pos hx, List.dropWhile_append_of_pos hx]
  cases z with
  | nil => exact ⟨List.append_nil x, rfl⟩
  | cons c z =>
    have hc : ¬p c = true := by
      rw [hz c rfl]
      exact Bool.false_ne_true
    rw [List.takeWhile_cons_of_neg hc, List.dropWhile_cons_of_neg hc, List.append_nil]
    exact ⟨rfl, rfl⟩

/-- A text is taken apart in one way. -/
theorem span_unique (hx : ∀ c ∈ x, p c = true) (hz : ∀ c ∈ z.head?, p c = false)
    (hx' : ∀ c ∈ x', p c = true) (hz' : ∀ c ∈ z'.head?, p c = false) (h : x ++ z = x' ++ z') :
    x = x' ∧ z = z' := by
  obtain ⟨h₁, h₂⟩ := span_append hx hz
  obtain ⟨h₁', h₂'⟩ := span_append hx' hz'
  rw [h] at h₁ h₂
  exact ⟨h₁.symm.trans h₁', h₂.symm.trans h₂'⟩

/-- A text is taken apart at its first quote. -/
theorem quote_unique (hx : ch '"' ∉ x) (hx' : ch '"' ∉ x') (h : x ++ ch '"' :: z = x' ++ ch '"' :: z') :
    x = x' ∧ z = z' := by
  have hp : ∀ {x : Bytes}, ch '"' ∉ x → ∀ c ∈ x, (c != ch '"') = true := by
    intro x hx c hc
    rw [bne_iff_ne]
    rintro rfl
    exact hx hc
  have hhead : ∀ z : Bytes, ∀ c ∈ (ch '"' :: z).head?, (c != ch '"') = false := by
    rintro z c hc
    obtain rfl := Option.some.inj hc
    rfl
  obtain ⟨hxx, hzz⟩ := span_unique (hp hx) (hhead z) (hp hx') (hhead z') h
  exact ⟨hxx, (List.cons.inj hzz).2⟩

end Spans

/-! ## Quoted pairs -/

/-- The bytes between the quotes of the part before the value: a key, and a colon with white space. -/
structure Opened (a k m : Bytes) : Prop where
  eq : a = ch '"' :: (k ++ ch '"' :: (m ++ [ch '"']))
  key : k ≠ [] ∧ ∀ c ∈ k, isKeyByte c = true
  colon : m ≠ [] ∧ ∀ c ∈ m, isSpace c = true ∨ c = ch ':'

theorem Opened.quote_notMem_key {a k m : Bytes} (h : Opened a k m) : ch '"' ∉ k :=
  fun hc => (isKeyByte_spec (h.key.2 _ hc)).1 rfl

theorem Opened.quote_notMem_colon {a k m : Bytes} (h : Opened a k m) : ch '"' ∉ m := by
  intro hc
  rcases h.colon.2 _ hc with hspace | heq
  · exact (isSpace_spec hspace).1 rfl
  · cases heq

theorem opened_of_matches {a : Bytes} {cs : List Bytes} (h : Matches quotedPart a cs) :
    ∃ k m, Opened a k m := by
  obtain ⟨q, a₁, _, _, rfl, -, hq, h⟩ := matches_cat_cons.1 h
  obtain ⟨k, a₂, _, _, rfl, -, hk, h⟩ := matches_cat_cons.1 h
  obtain ⟨q', a₃, _, _, rfl, -, hq', h⟩ := matches_cat_cons.1 h
  obtain ⟨sp, a₄, _, _, rfl, -, hsp, h⟩ := matches_cat_cons.1 h
  obtain ⟨colon, a₅, _, _, rfl, -, hcolon, h⟩ := matches_cat_cons.1 h
  obtain ⟨sp', a₆, _, _, rfl, -, hsp', h⟩ := matches_cat_cons.1 h
  obtain ⟨q'', a₇, _, _, rfl, -, hq'', h⟩ := matches_cat_cons.1 h
  obtain ⟨rfl, -⟩ := matches_cat_nil.1 h
  obtain ⟨rfl, -⟩ := matches_lit hq
  obtain ⟨rfl, -⟩ := matches_lit hq'
  obtain ⟨rfl, -⟩ := matches_lit hcolon
  obtain ⟨rfl, -⟩ := matches_lit hq''
  refine ⟨k, sp ++ (str ":" ++ sp'), ?_, keyBytes_of_matches hk, by simp [str], ?_⟩
  · simp [str]
  · intro c hc
    rcases List.mem_append.1 hc with hc | hc
    · exact .inl ((matches_many.1 hsp).1 c hc)
    · rcases List.mem_append.1 hc with hc | hc
      · exact .inr (by simpa [str] using hc)
      · exact .inl ((matches_many.1 hsp').1 c hc)

/-- `"K":"` -/
def openingOf (key : Bytes) : Bytes := str "\"" ++ key ++ str "\":\""

theorem matches_openingOf {key : Bytes} (h : key ∈ protectedKeys) :
    Matches quotedPart (openingOf key) [] := by
  have hlit : ∀ w : String, Matches (lit w) (str w) [] := by
    intro w
    have hstart := startsWith_map (f := fun c d : UInt8 => d == c) (by simp) (str w) []
    rw [List.append_nil] at hstart
    exact matches_word.2 ⟨(List.length_map _).symm, hstart, rfl⟩
  have hnone : Matches spaces [] [] := .many (by simp)
  have hall : openingOf key = str "\"" ++ (key ++ (str "\"" ++ ([] ++ (str ":" ++ ([] ++
      (str "\"" ++ [])))))) := by
    simp [openingOf, str]
  rw [hall]
  exact .seq (hlit _) (.seq (matches_protectedKey h) (.seq (hlit _) (.seq hnone (.seq (hlit _)
    (.seq hnone (.seq (hlit _) .eps))))))

/-- The match that the part before a value, the value and its closing quote are. -/
theorem matchEnd_quotedKv_of {a v s : Bytes} (ha : Matches quotedPart a []) (hv : ch '"' ∉ v) :
    quotedKv.matchEnd (a ++ (v ++ ch '"' :: s)) = some ([a, v, str "\""], s) := by
  have hvalue : Matches (.many (· != ch '"')) v [] := by
    refine .many fun c hc => bne_iff_ne.2 ?_
    rintro rfl
    exact hv hc
  have hquote : Matches (lit "\"") (str "\"") [] := by
    refine matches_word.2 ⟨rfl, ?_, rfl⟩
    rfl
  have hmatch : Matches quotedKv (a ++ (v ++ (str "\"" ++ []))) [a, v, str "\""] :=
    .seq (.group ha) (.seq (.group hvalue) (.seq (.group hquote) .eps))
  have htext : a ++ (v ++ ch '"' :: s) = (a ++ (v ++ (str "\"" ++ []))) ++ s := by
    simp [str]
  obtain ⟨⟨cs, s'⟩, hend⟩ := Option.isSome_iff_exists.1 (@matchEnd_isSome _ _ s _ _ hmatch)
  rw [← htext] at hend
  rw [hend]
  -- the quotes say where the parts of a match end
  obtain ⟨a', v', hs, ha', hv', rfl⟩ := matchEnd_quotedKv hend
  obtain ⟨k, m, hopened⟩ := opened_of_matches ha
  obtain ⟨k', m', hopened'⟩ := opened_of_matches ha'
  rw [hopened.eq, hopened'.eq] at hs
  simp only [List.cons_append, List.append_assoc, List.nil_append] at hs
  obtain ⟨rfl, hcolon⟩ := quote_unique hopened.quote_notMem_key hopened'.quote_notMem_key
    (List.cons.inj hs).2
  obtain ⟨rfl, hrest⟩ :=
    quote_unique hopened.quote_notMem_colon hopened'.quote_notMem_colon hcolon
  obtain ⟨rfl, rfl⟩ := quote_unique hv hv' hrest
  rw [hopened.eq, hopened'.eq]

/-! ## Plain pairs -/

/-- What `plain_kv` looks for before a value. -/
theorem plainPart_shape {a : Bytes} {cs : List Bytes} (h : Matches plainPart a cs) :
    ∃ k sp sep sp', a = k ++ (sp ++ sep :: sp') ∧ (k ≠ [] ∧ ∀ c ∈ k, isKeyByte c = true) ∧
      (∀ c ∈ sp, isSpace c = true) ∧ isSep sep = true ∧ ∀ c ∈ sp', isSpace c = true := by
  obtain ⟨k, a₁, _, _, rfl, -, hk, h⟩ := matches_cat_cons.1 h
  obtain ⟨sp, a₂, _, _, rfl, -, hsp, h⟩ := matches_cat_cons.1 h
  obtain ⟨sep, a₃, _, _, rfl, -, hsep, h⟩ := matches_cat_cons.1 h
  obtain ⟨sp', a₄, _, _, rfl, -, hsp', h⟩ := matches_cat_cons.1 h
  obtain ⟨rfl, -⟩ := matches_cat_nil.1 h
  cases hsep with
  | @one _ c hc =>
    exact ⟨k, sp, c, sp', by simp, keyBytes_of_matches hk, (matches_many.1 hsp).1, hc,
      (matches_many.1 hsp').1⟩

/-- A key, what may stand between it and a value, and the value, are found where they are. -/
theorem plain_unique {k k' sp sp' rest rest' : Bytes} {sep sep' : UInt8}
    (hk : ∀ c ∈ k, isKeyByte c = true) (hk' : ∀ c ∈ k', isKeyByte c = true)
    (hsp : ∀ c ∈ sp, isSpace c = true) (hsp' : ∀ c ∈ sp', isSpace c = true)
    (hsep : isSep sep = true) (hsep' : isSep sep' = true)
    (h : k ++ (sp ++ sep :: rest) = k' ++ (sp' ++ sep' :: rest')) :
    k = k' ∧ sp = sp' ∧ sep = sep' ∧ rest = rest' := by
  have hhead : ∀ {sp sep} {rest : Bytes}, (∀ c ∈ sp, isSpace c = true) → isSep sep = true →
      ∀ c ∈ (sp ++ sep :: rest).head?, isKeyByte c = false := by
    intro sp sep rest hsp hsep c hc
    cases sp with
    | nil =>
      obtain rfl := Option.some.inj hc
      exact (isSep_spec hsep).2.2.1
    | cons d sp =>
      obtain rfl := Option.some.inj hc
      exact (isSpace_spec (hsp d List.mem_cons_self)).2.1
  have hnext : ∀ {sep} {rest : Bytes}, isSep sep = true →
      ∀ c ∈ (sep :: rest).head?, isSpace c = false := by
    intro sep rest hsep c hc
    obtain rfl := Option.some.inj hc
    exact (isSep_spec hsep).2.1
  obtain ⟨rfl, hspaces⟩ := span_unique hk (hhead hsp hsep) hk' (hhead hsp' hsep') h
  obtain ⟨rfl, hrest⟩ := span_unique hsp (hnext hsep) hsp' (hnext hsep') hspaces
  obtain ⟨rfl, rfl⟩ := List.cons.inj hrest
  exact ⟨rfl, rfl, rfl, rfl⟩

theorem head_plain {c : UInt8} {t : Bytes} (hc : isPlain c = true) :
    ∀ d ∈ (c :: t).head?, isSpace d = false := by
  intro d hd
  obtain rfl := Option.some.inj hd
  exact isSpace_of_isPlain hc

/-- The match that a key, a separator and a value are. -/
theorem matchEnd_plainKv_of {a t : Bytes} {c : UInt8} (ha : Matches plainPart a [])
    (hc : isPlain c = true) :
    ∃ cs, plainKv.matchEnd (a ++ c :: t) = some (cs, t.dropWhile isPlain) ∧ captured cs 1 = a := by
  have hvalue : Matches (.seq (.one isPlain) (.many isPlain)) ([c] ++ []) ([] ++ []) :=
    .seq (.one hc) (.many (by simp))
  have hmatch : Matches plainKv (a ++ (([c] ++ []) ++ [])) _ :=
    .seq (.group ha) (.seq (.group hvalue) .eps)
  have htext : a ++ c :: t = (a ++ (([c] ++ []) ++ [])) ++ t := by simp
  obtain ⟨⟨cs, s'⟩, hend⟩ := Option.isSome_iff_exists.1 (@matchEnd_isSome _ _ t _ _ hmatch)
  rw [← htext] at hend
  rw [hend]
  obtain ⟨a', c', t', hs, ha', hc', rfl, hcs⟩ := matchEnd_plainKv hend
  obtain ⟨k, sp, sep, sp', rfl, hk, hsp, hsep, hsp'⟩ := plainPart_shape ha
  obtain ⟨k₂, sp₂, sep₂, sp₂', rfl, hk₂, hsp₂, hsep₂, hsp₂'⟩ := plainPart_shape ha'
  simp only [List.append_assoc, List.cons_append] at hs
  obtain ⟨rfl, rfl, rfl, hspaces⟩ := plain_unique hk.2 hk₂.2 hsp hsp₂ hsep hsep₂ hs
  obtain ⟨rfl, hrest⟩ := span_unique hsp' (head_plain hc) hsp₂' (head_plain hc') hspaces
  obtain ⟨rfl, rfl⟩ := List.cons.inj hrest
  refine ⟨cs, rfl, ?_⟩
  cases cs with
  | nil => cases hcs
  | cons x cs => exact Option.some.inj hcs

end HermitMiner
