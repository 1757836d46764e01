import HermitMiner.Verify.Pairs

/-!
# The secret of a plain pair

What is logged of `KEY=VALUE` and `KEY:VALUE` does not depend on the value, whatever stands around
the pair.

* `hideQuoted`, `hidePlain`: the two passes.
* `coupled_quotedKv`, `coupled_plainKv`: the passes over two texts that differ in the value.
* `plain_secret_hidden`: the two texts are redacted to the same.
-/

namespace HermitMiner

open Regex Regex.Pat

/-! ## The two passes -/

def quotedFormat (cs : List Bytes) : Bytes := captured cs 1 ++ str "***" ++ captured cs 3

def plainFormat (cs : List Bytes) : Bytes := captured cs 1 ++ str "***"

def hideQuoted (text : Bytes) : Bytes := replace quotedKv quotedFormat text

def hidePlain (text : Bytes) : Bytes := replace plainKv plainFormat text

theorem least_quotedKv : 0 < quotedKv.least := by decide

theorem least_plainKv : 0 < plainKv.least := by decide

theorem hidePlain_some {s s' : Bytes} {cs : List Bytes} (h : plainKv.matchEnd s = some (cs, s')) :
    hidePlain s = plainFormat cs ++ hidePlain s' :=
  replace_of_some h (matchEnd_lt least_plainKv h)

theorem redact_eq {text : Bytes} (h : text ≠ []) :
    redactSensitiveFields text = hidePlain (hideQuoted text) := if_neg h

/-- No match of `quoted_kv` starts but at a quote. -/
theorem matchEnd_quotedKv_none {c : UInt8} (hc : c ≠ ch '"') (s : Bytes) :
    quotedKv.matchEnd (c :: s) = none := by
  cases hend : quotedKv.matchEnd (c :: s) with
  | none => rfl
  | some r =>
    obtain ⟨cs, s'⟩ := r
    obtain ⟨a, v, hs, ha, -⟩ := matchEnd_quotedKv hend
    obtain ⟨k, m, hopened⟩ := opened_of_matches ha
    rw [hopened.eq] at hs
    exact absurd (List.cons.inj hs).1 hc

theorem hideQuoted_some {s s' : Bytes} {cs : List Bytes}
    (h : quotedKv.matchEnd s = some (cs, s')) :
    hideQuoted s = quotedFormat cs ++ hideQuoted s' :=
  replace_of_some h (matchEnd_lt least_quotedKv h)

theorem hideQuoted_none {c : UInt8} {s t : Bytes} (h : quotedKv.matchEnd (c :: s ++ t) = none) :
    hideQuoted (c :: s ++ t) = c :: hideQuoted (s ++ t) := replace_of_none h

theorem hideQuoted_append {r : Bytes} (hr : ch '"' ∉ r) (b : Bytes) :
    hideQuoted (r ++ b) = r ++ hideQuoted b := by
  refine replace_append fun x y hxy hy => ?_
  obtain ⟨c, y, rfl⟩ := List.exists_cons_of_ne_nil hy
  refine matchEnd_quotedKv_none ?_ _
  rintro rfl
  exact hr (by simp [hxy])

/-! ## The pass over quoted pairs -/

section Quoted

variable {r r₁ r₂ b x y z : Bytes}

/-- A quote stands before a text without quotes, or after it. -/
theorem quote_side (hr : ch '"' ∉ r) (hne : r ≠ []) (h : x ++ ch '"' :: z = y ++ (r ++ b)) :
    (∃ w, x = y ++ (r ++ w) ∧ b = w ++ ch '"' :: z) ∨
      ∃ w, y = x ++ ch '"' :: w ∧ z = w ++ (r ++ b) := by
  rcases List.append_eq_append_iff.1 h with ⟨w, rfl, hz⟩ | ⟨w, rfl, hr'⟩
  · cases w with
    | nil =>
      obtain ⟨c, r, rfl⟩ := List.exists_cons_of_ne_nil hne
      obtain ⟨rfl, -⟩ := List.cons.inj hz
      exact absurd List.mem_cons_self hr
    | cons c w =>
      obtain ⟨rfl, rfl⟩ := List.cons.inj hz
      exact .inr ⟨w, rfl, rfl⟩
  · rcases List.append_eq_append_iff.1 hr' with ⟨u, rfl, hb⟩ | ⟨u, rfl, hb⟩
    · exact .inl ⟨u, rfl, hb⟩
    · cases u with
      | nil => exact .inl ⟨[], by simp, hb.symm⟩
      | cons c u =>
        obtain ⟨rfl, -⟩ := List.cons.inj hb
        exact absurd (by simp) hr

/-- A text without quotes that fits into no part of a match but its value. -/
structure Pair (r : Bytes) : Prop where
  quote : ch '"' ∉ r
  key : ∃ c ∈ r, isKeyByte c = true
  sep : ∃ c ∈ r, isSep c = true

theorem Pair.ne_nil (hr : Pair r) : r ≠ [] := by
  rintro rfl
  obtain ⟨c, hc, -⟩ := hr.key
  cases hc

/-- A match ends before the pair, or has it in its value. -/
theorem matchEnd_quotedKv_pair (hr : Pair r) {cs : List Bytes} {s : Bytes}
    (h : quotedKv.matchEnd (y ++ (r ++ b)) = some (cs, s)) :
    ∃ a v, Matches quotedPart a [] ∧ cs = [a, v, str "\""] ∧ ch '"' ∉ v ∧
      ((∃ w, y = a ++ (v ++ ch '"' :: w) ∧ s = w ++ (r ++ b)) ∨
        ∃ w u, y = a ++ w ∧ v = w ++ (r ++ u) ∧ b = u ++ ch '"' :: s) := by
  obtain ⟨a, v, hs, ha, hv, rfl⟩ := matchEnd_quotedKv h
  refine ⟨a, v, ha, rfl, hv, ?_⟩
  obtain ⟨k, m, hopened⟩ := opened_of_matches ha
  rw [hopened.eq] at hs ⊢
  simp only [List.cons_append, List.append_assoc, List.nil_append] at hs ⊢
  have hfirst : [] ++ ch '"' :: (k ++ ch '"' :: (m ++ ch '"' :: (v ++ ch '"' :: s))) =
    y ++ (r ++ b) := hs.symm
  rcases quote_side hr.quote hr.ne_nil hfirst with ⟨w, hnil, -⟩ | ⟨w₁, rfl, h₁⟩
  · have hlength := congrArg List.length hnil
    have hpos := List.length_pos_of_ne_nil hr.ne_nil
    simp only [List.length_nil, List.length_append] at hlength
    omega
  rcases quote_side hr.quote hr.ne_nil h₁ with ⟨w, rfl, -⟩ | ⟨w₂, rfl, h₂⟩
  · -- a separator is no byte of a key
    obtain ⟨c, hc, hsep⟩ := hr.sep
    have hkey := hopened.key.2 c (by simp [hc])
    rw [(isSep_spec hsep).2.2.1] at hkey
    cases hkey
  rcases quote_side hr.quote hr.ne_nil h₂ with ⟨w, rfl, -⟩ | ⟨w₃, rfl, h₃⟩
  · -- a byte of a key is neither white space nor a colon
    obtain ⟨c, hc, hkey⟩ := hr.key
    rcases hopened.colon.2 c (by simp [hc]) with hspace | rfl
    · rw [(isSpace_spec hspace).2.1] at hkey
      cases hkey
    · cases hkey
  rcases quote_side hr.quote hr.ne_nil h₃ with ⟨w, rfl, rfl⟩ | ⟨w₄, rfl, rfl⟩
  · exact .inr ⟨w₃, w, by simp, rfl, rfl⟩
  · exact .inl ⟨w₄, by simp, rfl⟩

theorem coupled_quotedKv (h₁ : Pair r₁) (h₂ : Pair r₂) (y b : Bytes) :
    Coupled quotedFormat (r₁ ++ b) (r₂ ++ b) (quotedKv.matchEnd (y ++ (r₁ ++ b)))
      (quotedKv.matchEnd (y ++ (r₂ ++ b))) := by
  have hother : ∀ {r r'}, Pair r → Pair r' → ∀ cs s,
      quotedKv.matchEnd (y ++ (r ++ b)) = some (cs, s) →
      Coupled quotedFormat (r ++ b) (r' ++ b) (some (cs, s))
        (quotedKv.matchEnd (y ++ (r' ++ b))) := by
    intro r r' hr hr' cs s h
    obtain ⟨a, v, ha, rfl, hv, ⟨w, rfl, rfl⟩ | ⟨w, u, rfl, rfl, rfl⟩⟩ := matchEnd_quotedKv_pair hr h
    · have hend := matchEnd_quotedKv_of (s := w ++ (r' ++ b)) ha hv
      simp only [List.append_assoc, List.cons_append] at hend ⊢
      rw [hend]
      exact .inside rfl
    · have hv' : ch '"' ∉ w ++ (r' ++ u) := by
        simp only [List.mem_append, not_or] at hv ⊢
        exact ⟨hv.1, hr'.quote, hv.2.2⟩
      have hend := matchEnd_quotedKv_of (s := s) ha hv'
      simp only [List.append_assoc] at hend ⊢
      rw [hend]
      exact .across rfl
  exact .of_some (hother h₁ h₂) (hother h₂ h₁)

/-- The first pass does the same to both texts, or leaves both pairs where they are. -/
theorem hideQuoted_pair (h₁ : Pair r₁) (h₂ : Pair r₂) (a b : Bytes) :
    hideQuoted (a ++ (r₁ ++ b)) = hideQuoted (a ++ (r₂ ++ b)) ∨
      ∃ a', hideQuoted (a ++ (r₁ ++ b)) = a' ++ (r₁ ++ hideQuoted b) ∧
        hideQuoted (a ++ (r₂ ++ b)) = a' ++ (r₂ ++ hideQuoted b) := by
  have hboth := replace_coupled least_quotedKv (t := a)
    fun _ y _ _ => coupled_quotedKv h₁ h₂ y b
  rcases hboth with heq | ⟨a', h, h'⟩
  · exact .inl heq
  · refine .inr ⟨a', ?_, ?_⟩
    · rw [← hideQuoted_append h₁.quote]
      exact h
    · rw [← hideQuoted_append h₂.quote]
      exact h'

end Quoted

/-! ## The pass over plain pairs -/

/-- A value that is written without quotes. -/
structure PlainSecret (v : Bytes) : Prop where
  nonempty : v ≠ []
  plain : ∀ c ∈ v, isPlain c = true
  quote : ch '"' ∉ v

section Plain

variable {key v v₁ v₂ : Bytes} {sep : UInt8}

theorem plain_pair (hkey : ∀ c ∈ key, isKeyByte c = true) (hsep : isSep sep = true)
    (hv : PlainSecret v) : ∀ c ∈ key ++ sep :: v, isPlain c = true := by
  intro c hc
  rcases List.mem_append.1 hc with hc | hc
  · exact (isKeyByte_spec (hkey c hc)).2.2.2.2
  · rcases List.mem_cons.1 hc with rfl | hc
    · exact (isSep_spec hsep).2.2.2
    · exact hv.plain c hc

/-- What is left after a value that starts before a pair. -/
theorem dropWhile_pair {r : Bytes} (hr : ∀ c ∈ r, isPlain c = true) (w b : Bytes) :
    ((∀ c ∈ w, isPlain c = true) ∧ (w ++ (r ++ b)).dropWhile isPlain = b.dropWhile isPlain) ∨
      ((∃ c ∈ w, isPlain c = false) ∧
        (w ++ (r ++ b)).dropWhile isPlain = w.dropWhile isPlain ++ (r ++ b)) := by
  by_cases hw : ∀ c ∈ w, isPlain c = true
  · refine .inl ⟨hw, ?_⟩
    rw [List.dropWhile_append_of_pos hw, List.dropWhile_append_of_pos hr]
  · push Not at hw
    obtain ⟨c, hc, hplain⟩ := hw
    have hstop : ¬(w.dropWhile isPlain).isEmpty = true := by
      rw [List.isEmpty_iff, List.dropWhile_eq_nil_iff]
      exact fun hall => hplain (hall c hc)
    refine .inr ⟨⟨c, hc, by simpa using hplain⟩, ?_⟩
    rw [List.dropWhile_append, if_neg hstop]

/-- The match that a key, a separator and a whole value are. -/
theorem matchEnd_plainKv_value {a u : Bytes} (ha : Matches plainPart a []) (hne : u ≠ [])
    (hu : ∀ c ∈ u, isPlain c = true) (b : Bytes) :
    ∃ cs, plainKv.matchEnd (a ++ (u ++ b)) = some (cs, b.dropWhile isPlain) ∧
      captured cs 1 = a := by
  obtain ⟨c, u, rfl⟩ := List.exists_cons_of_ne_nil hne
  obtain ⟨cs, hend, hcs⟩ := @matchEnd_plainKv_of a (u ++ b) c ha (hu c List.mem_cons_self)
  refine ⟨cs, hend.trans ?_, hcs⟩
  rw [List.dropWhile_append_of_pos fun d hd => hu d (List.mem_cons_of_mem c hd)]

/-- A match has the pair's own key, or ends before the pair or has it in its value. -/
theorem matchEnd_plainKv_pair (hkey : key ≠ [] ∧ ∀ c ∈ key, isKeyByte c = true)
    (hsep : isSep sep = true) (hv : PlainSecret v) {y b s : Bytes} {cs : List Bytes}
    (h : plainKv.matchEnd (y ++ (key ++ sep :: v ++ b)) = some (cs, s)) :
    ∃ a, Matches plainPart a [] ∧ captured cs 1 = a ∧
      ((a = y ++ (key ++ [sep]) ∧ s = b.dropWhile isPlain) ∨
        (y = a ∧ s = b.dropWhile isPlain) ∨
        ∃ c w, y = a ++ c :: w ∧ isPlain c = true ∧
          s = (w ++ (key ++ sep :: v ++ b)).dropWhile isPlain) := by
  obtain ⟨a, c, t, hs, ha, hc, rfl, hcs⟩ := matchEnd_plainKv h
  have hcaptured : captured cs 1 = a := by
    cases cs with
    | nil => cases hcs
    | cons x cs => exact Option.some.inj hcs
  refine ⟨a, ha, hcaptured, ?_⟩
  have hall := plain_pair hkey.2 hsep hv
  have hafter : ∀ {u}, c :: t = u ++ b → (∀ d ∈ u, isPlain d = true) →
      t.dropWhile isPlain = b.dropWhile isPlain := by
    intro u hu hplain
    rw [← List.dropWhile_cons_of_pos hc, hu, List.dropWhile_append_of_pos hplain]
  obtain ⟨d, key, rfl⟩ := List.exists_cons_of_ne_nil hkey.1
  have hd := hkey.2 d List.mem_cons_self
  rcases List.append_eq_append_iff.1 hs with ⟨z, rfl, hz⟩ | ⟨w, rfl, hw⟩
  · cases z with
    | nil => exact .inr (.inl ⟨(List.append_nil y).symm, hafter hz.symm hall⟩)
    | cons x z =>
      obtain rfl : d = x := (List.cons.inj hz).1
      obtain ⟨k, sp, sep', sp', hshape, hk, hsp, hsep', hsp'⟩ := plainPart_shape ha
      refine .inl ?_
      rcases List.append_eq_append_iff.1 hshape with ⟨k', rfl, hk'⟩ | ⟨w, rfl, hw⟩
      · -- the keys end together, at the separator
        have hkeys : k' ++ (sp ++ sep' :: (sp' ++ c :: t)) =
            (d :: key) ++ ([] ++ sep :: (v ++ b)) := by
          have hpair : (d :: key) ++ sep :: v ++ b = (d :: z) ++ c :: t := hz
          rw [hk'] at hpair
          simpa using hpair.symm
        obtain ⟨rfl, rfl, rfl, hrest⟩ := plain_unique (fun e he => hk.2 e (by simp [he])) hkey.2
          hsp (by simp) hsep' hsep hkeys
        obtain ⟨e, v, rfl⟩ := List.exists_cons_of_ne_nil hv.nonempty
        have he := @head_plain e (v ++ b) (hv.plain e List.mem_cons_self)
        have hvalue : sp' ++ c :: t = [] ++ (e :: (v ++ b)) := hrest
        obtain ⟨rfl, hvalue⟩ := span_unique hsp' (head_plain hc) (by simp) he hvalue
        exact ⟨by rw [hk', List.nil_append], @hafter (e :: v) hvalue hv.plain⟩
      · -- a byte of a key is neither white space nor a separator
        have hmem : d ∈ sp ++ sep' :: sp' := by simp [hw]
        rcases List.mem_append.1 hmem with hmem | hmem
        · rw [(isSpace_spec (hsp d hmem)).2.1] at hd
          cases hd
        · rcases List.mem_cons.1 hmem with rfl | hmem
          · rw [(isSep_spec hsep').2.2.1] at hd
            cases hd
          · rw [(isSpace_spec (hsp' d hmem)).2.1] at hd
            cases hd
  · cases w with
    | nil => exact .inr (.inl ⟨List.append_nil a, hafter hw hall⟩)
    | cons x w =>
      obtain ⟨rfl, rfl⟩ := List.cons.inj hw
      exact .inr (.inr ⟨c, w, rfl, hc, rfl⟩)

theorem coupled_plainKv (hkey : Matches protectedKey key []) (hsep : isSep sep = true)
    (h₁ : PlainSecret v₁) (h₂ : PlainSecret v₂) (y b : Bytes) :
    Coupled plainFormat (key ++ sep :: v₁ ++ b) (key ++ sep :: v₂ ++ b)
      (plainKv.matchEnd (y ++ (key ++ sep :: v₁ ++ b)))
      (plainKv.matchEnd (y ++ (key ++ sep :: v₂ ++ b))) := by
  have hbytes := keyBytes_of_matches hkey
  have hother : ∀ {v v'}, PlainSecret v → PlainSecret v' → ∀ cs s,
      plainKv.matchEnd (y ++ (key ++ sep :: v ++ b)) = some (cs, s) →
      Coupled plainFormat (key ++ sep :: v ++ b) (key ++ sep :: v' ++ b) (some (cs, s))
        (plainKv.matchEnd (y ++ (key ++ sep :: v' ++ b))) := by
    intro v v' hv hv' cs s h
    obtain ⟨a, ha, hcs, hcase⟩ := matchEnd_plainKv_pair hbytes hsep hv h
    have hformat : ∀ {cs'}, captured cs' 1 = a → plainFormat cs = plainFormat cs' := by
      intro cs' hcs'
      rw [plainFormat, plainFormat, hcs, hcs']
    have hall := plain_pair hbytes.2 hsep hv
    have hall' := plain_pair hbytes.2 hsep hv'
    rcases hcase with ⟨rfl, rfl⟩ | ⟨rfl, rfl⟩ | ⟨c, w, rfl, hc, rfl⟩
    · obtain ⟨cs', hend, hcs'⟩ := matchEnd_plainKv_value ha hv'.nonempty hv'.plain b
      have htext : y ++ (key ++ [sep]) ++ (v' ++ b) = y ++ (key ++ sep :: v' ++ b) := by simp
      rw [← htext, hend]
      exact .across (hformat hcs')
    · obtain ⟨cs', hend, hcs'⟩ := matchEnd_plainKv_value ha (by simp) hall' b
      rw [hend]
      exact .across (hformat hcs')
    · obtain ⟨cs', hend, hcs'⟩ := matchEnd_plainKv_of (t := w ++ (key ++ sep :: v' ++ b)) ha hc
      have htext : a ++ c :: (w ++ (key ++ sep :: v' ++ b)) = a ++ c :: w ++ (key ++ sep :: v' ++ b) := by
        simp
      rw [htext] at hend
      rw [hend]
      rcases dropWhile_pair hall w b with ⟨hw, hdrop⟩ | ⟨⟨e, he, hstop⟩, hdrop⟩
      · rcases dropWhile_pair hall' w b with ⟨-, hdrop'⟩ | ⟨⟨e, he, hstop⟩, -⟩
        · rw [hdrop, hdrop']
          exact .across (hformat hcs')
        · rw [hw e he] at hstop
          cases hstop
      · rcases dropWhile_pair hall' w b with ⟨hw, -⟩ | ⟨-, hdrop'⟩
        · rw [hw e he] at hstop
          cases hstop
        · rw [hdrop, hdrop']
          exact .inside (hformat hcs')
  exact .of_some (hother h₁ h₂) (hother h₂ h₁)

theorem matches_plainOf (hkey : Matches protectedKey key []) (hsep : isSep sep = true) :
    Matches plainPart (key ++ [sep]) [] := by
  have hnone : Matches spaces [] [] := .many (by simp)
  have htext : key ++ [sep] = key ++ ([] ++ ([sep] ++ ([] ++ []))) := by simp
  rw [htext]
  exact .seq hkey (.seq hnone (.seq (.one hsep) (.seq hnone .eps)))

/-- The second pass hides the value of the pair. -/
theorem hidePlain_pair (hkey : Matches protectedKey key []) (hsep : isSep sep = true)
    (h₁ : PlainSecret v₁) (h₂ : PlainSecret v₂) (a b : Bytes) :
    hidePlain (a ++ (key ++ sep :: v₁ ++ b)) = hidePlain (a ++ (key ++ sep :: v₂ ++ b)) := by
  have hstart : ∀ {v}, PlainSecret v → hidePlain (key ++ sep :: v ++ b) =
      (key ++ [sep]) ++ str "***" ++ hidePlain (b.dropWhile isPlain) := by
    intro v hv
    obtain ⟨cs, hend, hcs⟩ :=
      matchEnd_plainKv_value (matches_plainOf hkey hsep) hv.nonempty hv.plain b
    have htext : key ++ sep :: v ++ b = (key ++ [sep]) ++ (v ++ b) := by simp
    rw [htext, hidePlain_some hend, plainFormat, hcs]
  have hboth := replace_coupled least_plainKv (t := a)
    fun _ y _ _ => coupled_plainKv hkey hsep h₁ h₂ y b
  rcases hboth with heq | ⟨a', h, h'⟩
  · exact heq
  · exact (h.trans (congrArg (a' ++ ·) ((hstart h₁).trans (hstart h₂).symm))).trans h'.symm

/-- The two passes hide it, whatever stands around the pair. -/
theorem redact_pair (hkey : Matches protectedKey key []) (hsep : isSep sep = true)
    (h₁ : PlainSecret v₁) (h₂ : PlainSecret v₂) (a b : Bytes) :
    redactSensitiveFields (a ++ (key ++ sep :: v₁ ++ b)) =
      redactSensitiveFields (a ++ (key ++ sep :: v₂ ++ b)) := by
  have hbytes := keyBytes_of_matches hkey
  have hpair : ∀ {v}, PlainSecret v → Pair (key ++ sep :: v) := by
    intro v hv
    obtain ⟨c, hc⟩ := List.exists_mem_of_ne_nil key hbytes.1
    refine ⟨?_, ⟨c, by simp [hc], hbytes.2 c hc⟩, ⟨sep, by simp, hsep⟩⟩
    intro hq
    rcases List.mem_append.1 hq with hq | hq
    · exact (isKeyByte_spec (hbytes.2 _ hq)).1 rfl
    · rcases List.mem_cons.1 hq with hq | hq
      · exact (isSep_spec hsep).1 hq.symm
      · exact hv.quote hq
  rw [redact_eq (by simp), redact_eq (by simp)]
  rcases hideQuoted_pair (hpair h₁) (hpair h₂) a b with heq | ⟨a', h, h'⟩
  · rw [heq]
  · rw [h, h']
    exact hidePlain_pair hkey hsep h₁ h₂ a' (hideQuoted b)

/-- **A plain secret is hidden**: the redacted text does not depend on the value of a pair, whatever
stands before and after the pair. -/
theorem plain_secret_hidden (hkey : key ∈ protectedKeys) (hsep : sep = ch '=' ∨ sep = ch ':')
    (h₁ : PlainSecret v₁) (h₂ : PlainSecret v₂) (a b : Bytes) :
    redactSensitiveFields (a ++ key ++ [sep] ++ v₁ ++ b) =
      redactSensitiveFields (a ++ key ++ [sep] ++ v₂ ++ b) := by
  have hsep' : isSep sep = true := by rcases hsep with rfl | rfl <;> rfl
  have htext : ∀ v, a ++ key ++ [sep] ++ v ++ b = a ++ (key ++ sep :: v ++ b) := fun v => by simp
  rw [htext, htext]
  exact redact_pair (matches_protectedKey hkey) hsep' h₁ h₂ a b

theorem plain_secret_hidden_token :
    str "auth_token" ∈ protectedKeys ∧ PlainSecret (str "a:b") ∧ PlainSecret (str "secret=x") ∧
      redactSensitiveFields
          (str "\"token\":\"auth_" ++ str "auth_token" ++ [ch '='] ++ str "a:b" ++ str "\",") =
        redactSensitiveFields
          (str "\"token\":\"auth_" ++ str "auth_token" ++ [ch '='] ++ str "secret=x" ++ str "\",") :=
  have hkey : str "auth_token" ∈ protectedKeys := by decide
  have h₁ : PlainSecret (str "a:b") := ⟨by decide, by decide +kernel, by decide +kernel⟩
  have h₂ : PlainSecret (str "secret=x") := ⟨by decide, by decide +kernel, by decide +kernel⟩
  ⟨hkey, h₁, h₂, plain_secret_hidden hkey (Or.inl rfl) h₁ h₂ _ _⟩

end Plain

end HermitMiner
