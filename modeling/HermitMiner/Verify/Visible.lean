import HermitMiner.Verify.PlainSecret

/-!
# What redaction leaves in sight

A match of `plain_kv` that starts in one word of a text does not reach the second word behind it.
So where a name stands behind `pool_user=`, and is no pair itself, redaction writes the name as it
is.

* `Foreign`: a text in which no protected key starts.
* `hidePlain_settled`: what stands before such a text is redacted without regard to what stands
  behind it.
* `Ordinary`, `ordinary_shown`: two names that are no pairs are told apart.
-/

namespace HermitMiner

open Regex Regex.Pat

/-! ## Keys -/

section Keys

variable {k a : Bytes} {cs : List Bytes}

/-- What `protectedKey` matches is a key, in small letters or capitals. -/
theorem spelledKey_of_matches (h : Matches protectedKey k cs) : k.map lower ∈ protectedKeys := by
  have hword : ∀ {w : String}, (str w).map lower ∈ protectedKeys → Matches (litNocase w) k cs →
      k.map lower ∈ protectedKeys := by
    intro w hw h
    rwa [spelled_of_matches h]
  rcases matches_alt.1 h with h | h
  · exact hword (by decide) h
  rcases matches_alt.1 h with h | h
  · exact hword (by decide) h
  rcases matches_alt.1 h with h | h
  · exact hword (by decide) h
  rcases matches_alt.1 h with h | h
  · exact hword (by decide) h
  rcases matches_alt.1 h with h | h
  · exact hword (by decide) h
  rcases matches_alt.1 h with h | h
  · exact hword (by decide) h
  · exact hword (by decide) h

theorem key_of_plainPart (h : Matches plainPart a cs) :
    ∃ k b, a = k ++ b ∧ k.map lower ∈ protectedKeys := by
  obtain ⟨k, b, _, _, rfl, -, hk, -⟩ := matches_cat_cons.1 h
  exact ⟨k, b, rfl, spelledKey_of_matches hk⟩

end Keys

/-! ## Texts without keys -/

/-- No protected key starts in `u`, even if it ends behind `u`. -/
def Foreign (u : Bytes) : Prop :=
  ∀ z ∈ u.tails, z ≠ [] → ∀ key ∈ protectedKeys, ¬z.map lower <+: key ∧ ¬key <+: z.map lower

instance (u : Bytes) : Decidable (Foreign u) :=
  inferInstanceAs (Decidable (∀ z ∈ u.tails, z ≠ [] → ∀ key ∈ protectedKeys,
    ¬z.map lower <+: key ∧ ¬key <+: z.map lower))

theorem Foreign.matchEnd_none {u z : Bytes} (hu : Foreign u) (hz : z <:+ u) (hne : z ≠ [])
    (r : Bytes) : plainKv.matchEnd (z ++ r) = none := by
  cases hend : plainKv.matchEnd (z ++ r) with
  | none => rfl
  | some m =>
    obtain ⟨cs, s⟩ := m
    obtain ⟨a, c, t, hs, ha, -⟩ := matchEnd_plainKv hend
    obtain ⟨k, b, rfl, hkey⟩ := key_of_plainPart ha
    have hforeign := hu z ((List.mem_tails _ _).2 hz) hne _ hkey
    have hprefix : k <+: z ++ r := ⟨b ++ c :: t, by rw [hs, List.append_assoc]⟩
    rcases List.prefix_or_prefix_of_prefix hprefix (List.prefix_append z r) with h | h
    · exact absurd (h.map lower) hforeign.2
    · exact absurd (h.map lower) hforeign.1

/-! ## Words -/

section Words

variable {w v x : Bytes}

/-- A key and what may stand between it and a value have no word behind white space. -/
theorem no_word_in_plainPart {a y z : Bytes} {d : UInt8} {cs : List Bytes}
    (ha : Matches plainPart a cs) (hd : isKeyByte d = true) (h : a = y ++ ch ' ' :: d :: z) :
    False := by
  obtain ⟨k, sp, sep, sp', hshape, hk, hsp, hsep, hsp'⟩ := plainPart_shape ha
  have hafter : d ∈ sp ++ sep :: sp' := by
    rcases List.append_eq_append_iff.1 (hshape.symm.trans h) with ⟨m, rfl, hm⟩ | ⟨m, hkm, hm⟩
    · rw [hm]
      simp
    · cases m with
      | nil =>
        rw [← List.nil_append (sp ++ _), ← hm]
        simp
      | cons e m =>
        obtain rfl := (List.cons.inj hm).1
        have hspace := hk.2 (ch ' ') (by rw [hkm]; simp)
        exact absurd hspace (by decide)
  rcases List.mem_append.1 hafter with hmem | hmem
  · rw [(isSpace_spec (hsp d hmem)).2.1] at hd
    cases hd
  · rcases List.mem_cons.1 hmem with rfl | hmem
    · rw [(isSep_spec hsep).2.2.1] at hd
      cases hd
    · rw [(isSpace_spec (hsp' d hmem)).2.1] at hd
      cases hd

/-- A value does not reach over white space. -/
theorem dropWhile_before_space (z s : Bytes) :
    (z ++ ch ' ' :: s).dropWhile isPlain = z.dropWhile isPlain ++ ch ' ' :: s := by
  have hspace : ¬isPlain (ch ' ') = true := by decide
  rw [List.dropWhile_append, List.dropWhile_cons_of_neg hspace]
  split
  · rename_i hempty
    rw [List.isEmpty_iff.1 hempty, List.nil_append]
  · rfl

/-- A match that starts before two words ends before the second one. -/
theorem matched_before {d : UInt8} (hd : isKeyByte d = true) (hw : ∀ c ∈ w, isPlain c = true)
    {r : Bytes} {cs : List Bytes} {s : Bytes}
    (h : plainKv.matchEnd (x ++ (ch ' ' :: d :: w ++ ch ' ' :: v) ++ r) = some (cs, s)) :
    ∃ out y, ∀ r, ∃ cs, plainKv.matchEnd (x ++ (ch ' ' :: d :: w ++ ch ' ' :: v) ++ r) =
      some (cs, y ++ r) ∧ plainFormat cs = out := by
  obtain ⟨a, c, t, hs, ha, hc, -, -⟩ := matchEnd_plainKv h
  have hplain : ∀ {cs : List Bytes}, captured cs 1 = a → plainFormat cs = a ++ str "***" :=
    fun hcs => by rw [plainFormat, hcs]
  have hspace : ¬isPlain (ch ' ') = true := by decide
  simp only [List.append_assoc, List.cons_append] at hs ⊢
  rcases List.append_eq_append_iff.1 hs with ⟨z, hz, hrest⟩ | ⟨z, rfl, hrest⟩
  · cases z with
    | nil =>
      obtain ⟨rfl, -⟩ := List.cons.inj hrest
      exact absurd hc hspace
    | cons e z =>
      obtain ⟨rfl, hnext⟩ := List.cons.inj hrest
      cases z with
      | nil =>
        -- the first word is the value
        refine ⟨a ++ str "***", ch ' ' :: v, fun r => ?_⟩
        obtain ⟨cs, hend, hcs⟩ := @matchEnd_plainKv_of a (w ++ (ch ' ' :: (v ++ r))) d ha
          (isKeyByte_spec hd).2.2.2.2
        refine ⟨cs, ?_, hplain hcs⟩
        rw [dropWhile_before_space, List.dropWhile_eq_nil_iff.2 hw, hz, List.append_assoc] at hend
        exact hend
      | cons e z =>
        obtain ⟨rfl, -⟩ := List.cons.inj hnext
        exact (no_word_in_plainPart ha hd hz).elim
  · cases z with
    | nil =>
      obtain ⟨rfl, -⟩ := List.cons.inj hrest
      exact absurd hc hspace
    | cons e z =>
      obtain ⟨rfl, -⟩ := List.cons.inj hrest
      refine ⟨a ++ str "***", z.dropWhile isPlain ++ (ch ' ' :: d :: w ++ ch ' ' :: v), fun r => ?_⟩
      obtain ⟨cs, hend, hcs⟩ :=
        @matchEnd_plainKv_of a (z ++ (ch ' ' :: d :: (w ++ ch ' ' :: (v ++ r)))) c ha hc
      refine ⟨cs, ?_, hplain hcs⟩
      rw [dropWhile_before_space] at hend
      simpa using hend

/-- What stands before two words without keys is redacted without regard to what stands behind. -/
theorem hidePlain_settled {d : UInt8} (hd : isKeyByte d = true) (hw : ∀ c ∈ w, isPlain c = true)
    (hforeign : Foreign (ch ' ' :: d :: w ++ ch ' ' :: v)) (x : Bytes) :
    ∃ out, ∀ r, hidePlain (x ++ (ch ' ' :: d :: w ++ ch ' ' :: v) ++ r) = out ++ hidePlain r := by
  refine replace_settled least_plainKv fun x' y hxy hy => ?_
  rcases List.append_eq_append_iff.1 hxy with ⟨m, -, hm⟩ | ⟨y, -, rfl⟩
  · exact .inl (hforeign.matchEnd_none ⟨m, hm.symm⟩ hy)
  · by_cases hmatch : ∃ r m, plainKv.matchEnd
        (y ++ (ch ' ' :: d :: w ++ ch ' ' :: v) ++ r) = some m
    · obtain ⟨r, ⟨cs, s⟩, hend⟩ := hmatch
      exact .inr (matched_before hd hw hend)
    · push Not at hmatch
      exact .inl fun r => Option.eq_none_iff_forall_ne_some.2 (hmatch r)

end Words

/-! ## Names -/

/-- A name with no byte of a pair. -/
def Ordinary (name : Bytes) : Prop := ∀ c ∈ name, c ≠ ch '"' ∧ isSep c = false

section Names

variable {name name' x : Bytes}

/-- Such a name is written as it is, if another word stands behind it. -/
theorem hidePlain_ordinary (hname : Ordinary name) {d : UInt8} (hd : isKeyByte d = true)
    (rest : Bytes) :
    hidePlain (name ++ ch ' ' :: d :: rest) = name ++ hidePlain (ch ' ' :: d :: rest) := by
  refine replace_append fun x y hxy hy => ?_
  cases hend : plainKv.matchEnd (y ++ ch ' ' :: d :: rest) with
  | none => rfl
  | some m =>
    obtain ⟨cs, s⟩ := m
    obtain ⟨a, c, t, hs, ha, -⟩ := matchEnd_plainKv hend
    obtain ⟨k, sp, sep, sp', rfl, hk, hsp, hsep, hsp'⟩ := plainPart_shape ha
    have hbefore : sep ∉ y ++ [ch ' ', d] := by
      intro hmem
      rcases List.mem_append.1 hmem with hmem | hmem
      · rw [(hname sep (by simp [hxy, hmem])).2] at hsep
        cases hsep
      · rcases List.mem_cons.1 hmem with rfl | hmem
        · exact absurd hsep (by decide)
        · rw [List.mem_singleton.1 hmem, (isKeyByte_spec hd).2.2.2.1] at hsep
          cases hsep
    -- the separator stands behind both, and so does not end the white space before it
    have hafter : ∃ z, k ++ (sp ++ sep :: sp') = y ++ ch ' ' :: d :: z := by
      have htext : (k ++ sp) ++ sep :: (sp' ++ c :: t) = (y ++ [ch ' ', d]) ++ rest := by
        simpa using hs.symm
      rcases List.append_eq_append_iff.1 htext with ⟨m, hm, hrest⟩ | ⟨m, hm, -⟩
      · cases m with
        | nil =>
          refine ⟨sep :: sp', ?_⟩
          rw [← List.append_assoc, ← List.append_nil (k ++ sp), ← hm]
          simp
        | cons e m =>
          obtain ⟨rfl, -⟩ := List.cons.inj hrest
          exact absurd (by rw [hm]; simp) hbefore
      · exact ⟨m ++ sep :: sp', by rw [← List.append_assoc, hm]; simp⟩
    obtain ⟨z, hz⟩ := hafter
    exact (no_word_in_plainPart ha hd hz).elim

/-- Two such names behind `pool_user=` are told apart by what is written. -/
theorem ordinary_shown (hx : ch '"' ∉ x) (hname : Ordinary name) (hname' : Ordinary name')
    {rest : Bytes} (h : redactSensitiveFields
      (x ++ (str " pool_enabled=true pool_user=" ++ (name ++ (str " pool_host=" ++ rest)))) =
        redactSensitiveFields
          (x ++ (str " pool_enabled=true pool_user=" ++ (name' ++ (str " pool_host=" ++ rest))))) :
    name = name' := by
  have hwords : str " pool_enabled=true pool_user=" =
      ch ' ' :: ch 'p' :: str "ool_enabled=true" ++ ch ' ' :: str "pool_user=" := by decide
  obtain ⟨out, hout⟩ := @hidePlain_settled (str "ool_enabled=true") (str "pool_user=") (ch 'p')
    (by decide) (by decide +kernel) (by decide +kernel) x
  have hshown : ∀ {name}, Ordinary name → redactSensitiveFields
      (x ++ (str " pool_enabled=true pool_user=" ++ (name ++ (str " pool_host=" ++ rest)))) =
        out ++ (name ++ hidePlain (str " pool_host=" ++ hideQuoted rest)) := by
    intro name hname
    have hquote : ch '"' ∉
        x ++ (str " pool_enabled=true pool_user=" ++ (name ++ str " pool_host=")) := by
      simp only [List.mem_append, not_or]
      exact ⟨hx, by decide, fun hmem => (hname _ hmem).1 rfl, by decide⟩
    have hquoted := hideQuoted_append hquote rest
    simp only [List.append_assoc] at hquoted
    rw [redact_eq (by simp [str]), hquoted, hwords]
    have hplain := hout (name ++ (str " pool_host=" ++ hideQuoted rest))
    simp only [List.append_assoc] at hplain ⊢
    rw [hplain]
    have hhost : str " pool_host=" ++ hideQuoted rest =
        ch ' ' :: ch 'p' :: (str "ool_host=" ++ hideQuoted rest) := rfl
    rw [hhost, hidePlain_ordinary hname (by decide)]
  rw [hshown hname, hshown hname'] at h
  exact List.append_cancel_right (List.append_cancel_left h)

end Names

end HermitMiner
