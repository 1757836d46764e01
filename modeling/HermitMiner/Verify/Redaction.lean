import HermitMiner.Logger
import HermitMiner.Rfc8259.Utf8
import HermitMiner.Verify.PoolLines

/-!
# What is redacted

* `matchEnd_quotedKv`, `matchEnd_plainKv`: what the two patterns match.
* `utf8_replace`: replacements that keep UTF-8.
* `utf8_redact`: redaction keeps UTF-8.
-/

namespace HermitMiner

open Regex Regex.Pat
open Rfc8259 (IsUtf8)

/-! ## Bytes of the patterns -/

section Redaction

variable {s s' t : Bytes} {cs : List Bytes}

theorem lt_of_lower_lt {d : UInt8} (h : lower d < 0x80) : d < 0x80 := by
  unfold lower at h
  split at h
  · rename_i hupper
    simp only [Bool.and_eq_true, decide_eq_true_eq] at hupper
    exact UInt8.lt_of_le_of_lt hupper.2 (by decide)
  · exact h

/-- A word of ASCII matches ASCII only. -/
theorem within_litNocase {w : String} (hw : (str w).all (fun c => lower c < 0x80) = true) :
    (litNocase w).Within (· < 0x80) := by
  apply within_word
  intro p hp d hd
  obtain ⟨c, hc, rfl⟩ := List.mem_map.1 hp
  have hc := List.all_eq_true.1 hw c hc
  rw [beq_iff_eq] at hd
  apply lt_of_lower_lt
  rw [hd]
  simpa using hc

theorem within_lit {w : String} (hw : (str w).all (fun c => c < 0x80) = true) :
    (lit w).Within (· < 0x80) := by
  apply within_word
  intro p hp d hd
  obtain ⟨c, hc, rfl⟩ := List.mem_map.1 hp
  rw [beq_iff_eq] at hd
  subst hd
  simpa using List.all_eq_true.1 hw _ hc

theorem ascii_of_isSpace {c : UInt8} (h : isSpace c = true) : c < 0x80 := by
  rw [isSpace_iff] at h
  rw [UInt8.lt_iff_toNat_lt]
  have h80 : (0x80 : UInt8).toNat = 128 := rfl
  omega

theorem within_spaces : spaces.Within (· < 0x80) := .many fun _ => ascii_of_isSpace

theorem within_protectedKey : protectedKey.Within (· < 0x80) :=
  .alt (within_litNocase (by rfl)) (.alt (within_litNocase (by rfl))
    (.alt (within_litNocase (by rfl)) (.alt (within_litNocase (by rfl))
      (.alt (within_litNocase (by rfl)) (.alt (within_litNocase (by rfl))
        (within_litNocase (by rfl)))))))

theorem within_quotedPart : quotedPart.Within (· < 0x80) := by
  have hquote : (lit "\"").Within (· < 0x80) := within_lit (by rfl)
  have hcolon : (lit ":").Within (· < 0x80) := within_lit (by rfl)
  exact .seq hquote (.seq within_protectedKey (.seq hquote (.seq within_spaces (.seq hcolon
    (.seq within_spaces (.seq hquote .eps))))))

theorem within_plainPart : plainPart.Within (· < 0x80) := by
  have hsep : ∀ c, (c == ch '=' || c == ch ':') = true → c < 0x80 := by
    intro c hc
    rcases Bool.or_eq_true_iff.1 hc with hc | hc
    · rw [eq_of_beq hc]
      decide
    · rw [eq_of_beq hc]
      decide
  exact .seq within_protectedKey (.seq within_spaces (.seq (.one hsep) (.seq within_spaces .eps)))

/-! ## Matches -/

theorem captures_quotedPart (h : Matches quotedPart s cs) : cs = [] := by
  apply captures_eq_nil h
  simp [quotedPart, protectedKey, cat, Groupless, spaces, lit, litNocase, word, str]

theorem captures_plainPart (h : Matches plainPart s cs) : cs = [] := by
  apply captures_eq_nil h
  simp [plainPart, protectedKey, cat, Groupless, spaces, litNocase, word, str]

/-- A match of `quoted_kv`: a key, a value up to the next quote, and the quote. -/
theorem matchEnd_quotedKv (h : quotedKv.matchEnd s = some (cs, s')) :
    ∃ a v, s = a ++ (v ++ ch '"' :: s') ∧ Matches quotedPart a [] ∧ ch '"' ∉ v ∧
      cs = [a, v, str "\""] := by
  obtain ⟨u, rfl, hu⟩ := matchEnd_matches h
  obtain ⟨a, u₁, cs₁, ds₁, rfl, rfl, ha, hu₁⟩ := matches_cat_cons.1 hu
  obtain ⟨v, u₂, cs₂, ds₂, rfl, rfl, hv, hu₂⟩ := matches_cat_cons.1 hu₁
  obtain ⟨q, u₃, cs₃, ds₃, rfl, rfl, hq, hu₃⟩ := matches_cat_cons.1 hu₂
  obtain ⟨rfl, rfl⟩ := matches_cat_nil.1 hu₃
  obtain ⟨es₁, rfl, hkey⟩ := matches_group.1 ha
  obtain rfl := captures_quotedPart hkey
  obtain ⟨es₂, rfl, hvalue⟩ := matches_group.1 hv
  obtain ⟨hbytes, rfl⟩ := matches_many.1 hvalue
  obtain ⟨es₃, rfl, hquote⟩ := matches_group.1 hq
  obtain ⟨rfl, rfl⟩ := matches_lit hquote
  refine ⟨a, v, ?_, hkey, ?_, rfl⟩
  · rw [List.append_nil, List.append_assoc, List.append_assoc]
    rfl
  · intro hmem
    simpa using hbytes _ hmem

/-- A match of `plain_kv`: a key, and all the bytes of a value that follow. -/
theorem matchEnd_plainKv (h : plainKv.matchEnd s = some (cs, s')) :
    ∃ a c t, s = a ++ c :: t ∧ Matches plainPart a [] ∧ isPlain c = true ∧
      s' = t.dropWhile isPlain ∧ cs.head? = some a := by
  rw [matchEnd, plainKv, run_cat_cons] at h
  obtain ⟨a, cs₁, t, rfl, ha, hrest⟩ := run_matches h
  obtain ⟨es, rfl, hkey⟩ := matches_group.1 ha
  obtain rfl := captures_plainPart hkey
  rw [run_cat_cons, run_group, run_seq] at hrest
  cases t with
  | nil => cases hrest
  | cons c t =>
    rw [run_one_cons] at hrest
    split at hrest
    · rename_i hc
      rw [run_many_greedy (by rw [run_cat_nil]; rfl), run_cat_nil] at hrest
      obtain ⟨rfl, rfl⟩ := Prod.mk.inj (Option.some.inj hrest)
      exact ⟨a, c, t, rfl, hkey, hc, rfl, rfl⟩
    · cases hrest

/-! ## UTF-8 -/

/-- Replacements keep UTF-8, when every match starts with a byte below `0x80`, and leaves UTF-8 and
puts UTF-8 in its place. -/
theorem utf8_replace {a : Pat UInt8} {format : List Bytes → Bytes} (hleast : 0 < a.least)
    (hmatch : ∀ s cs s', a.matchEnd s = some (cs, s') → (∀ c ∈ s.head?, c < 0x80) ∧
      (IsUtf8 s → IsUtf8 s' ∧ IsUtf8 (format cs))) :
    ∀ {s : Bytes}, IsUtf8 s → IsUtf8 (replace a format s) := by
  intro s
  induction hlen : s.length using Nat.strongRecOn generalizing s with
  | _ n ih =>
    intro hs
    rcases hs.cases with rfl | ⟨c, t, rfl, ht⟩
    · exact Rfc8259.isUtf8_nil
    · have hless : 0 < (String.utf8EncodeChar c).length := by
        rw [String.length_utf8EncodeChar]
        exact c.utf8Size_pos
      rw [List.length_append] at hlen
      have htail : IsUtf8 (replace a format t) := ih t.length (by omega) rfl ht
      rcases Rfc8259.encode_cases c with ⟨b, hb, hc⟩ | ⟨-, hhigh⟩
      · rw [hc, List.singleton_append] at hs ⊢
        cases hend : a.matchEnd (b :: t) with
        | none =>
          rw [replace_of_none hend]
          exact (Rfc8259.isUtf8_singleton hb).append htail
        | some r =>
          obtain ⟨cs, s'⟩ := r
          have hlt := matchEnd_lt hleast hend
          obtain ⟨hrest, hformat⟩ := (hmatch _ _ _ hend).2 hs
          rw [replace_of_some hend hlt]
          have hlength : s'.length < n := by
            rw [hc] at hlen
            simp only [List.length_cons, List.length_nil] at hlen hlt
            omega
          exact hformat.append (ih s'.length hlength rfl hrest)
      · rw [replace_append]
        · exact (Rfc8259.isUtf8_encode c).append htail
        · intro x y hxy hy
          obtain ⟨b, y, rfl⟩ := List.exists_cons_of_ne_nil hy
          have hb : 0x80 ≤ b := hhigh b (by rw [hxy]; simp)
          cases hend : a.matchEnd (b :: y ++ t) with
          | none => rfl
          | some r =>
            have hlow := (hmatch _ r.1 r.2 hend).1 b rfl
            exact absurd hlow (UInt8.not_lt.2 hb)

theorem head_ascii {a : Bytes} (hne : a ≠ []) (ha : ∀ c ∈ a, c < 0x80) (t : Bytes) :
    ∀ c ∈ (a ++ t).head?, c < 0x80 := by
  obtain ⟨d, a, rfl⟩ := List.exists_cons_of_ne_nil hne
  intro c hc
  obtain rfl : d = c := by simpa using hc
  exact ha _ List.mem_cons_self

theorem utf8_stars : IsUtf8 (str "***") := Rfc8259.isUtf8_ascii (by decide +kernel)

theorem utf8_quotedKv {s : Bytes} (hs : IsUtf8 s) :
    IsUtf8 (replace quotedKv (fun cs => captured cs 1 ++ str "***" ++ captured cs 3) s) := by
  refine utf8_replace (by decide) ?_ hs
  intro s cs s' h
  obtain ⟨a, v, rfl, ha, -, rfl⟩ := matchEnd_quotedKv h
  have hascii := ha.within within_quotedPart
  have hne : a ≠ [] := by
    rintro rfl
    exact absurd ha.least_le (by decide)
  refine ⟨head_ascii hne hascii _, ?_⟩
  intro hutf8
  rw [← List.append_assoc] at hutf8
  obtain ⟨-, hrest⟩ := hutf8.split (by decide)
  have hquote : IsUtf8 (str "\"") := Rfc8259.isUtf8_ascii (by decide +kernel)
  exact ⟨hrest, ((Rfc8259.isUtf8_ascii hascii).append utf8_stars).append hquote⟩

theorem ascii_of_not_isPlain {c : UInt8} (h : isPlain c = false) : c < 0x80 := by
  rw [isPlain, Bool.not_eq_false', Bool.or_eq_true, Bool.or_eq_true] at h
  rcases h with (h | h) | h
  · rw [eq_of_beq h]
    decide
  · rw [eq_of_beq h]
    decide
  · exact ascii_of_isSpace h

theorem utf8_plainKv {s : Bytes} (hs : IsUtf8 s) :
    IsUtf8 (replace plainKv (fun cs => captured cs 1 ++ str "***") s) := by
  refine utf8_replace (by decide) ?_ hs
  intro s cs s' h
  obtain ⟨a, c, t, rfl, ha, -, rfl, hcs⟩ := matchEnd_plainKv h
  have hascii := ha.within within_plainPart
  have hne : a ≠ [] := by
    rintro rfl
    exact absurd ha.least_le (by decide)
  refine ⟨head_ascii hne hascii _, ?_⟩
  intro hutf8
  have hkey : captured cs 1 = a := by
    obtain ⟨x, cs, rfl⟩ : ∃ x cs', cs = x :: cs' := by
      cases cs with
      | nil => cases hcs
      | cons x cs => exact ⟨x, cs, rfl⟩
    exact Option.some.inj hcs
  rw [hkey]
  refine ⟨?_, (Rfc8259.isUtf8_ascii hascii).append utf8_stars⟩
  -- what is left starts with a byte below `0x80`
  cases hleft : t.dropWhile isPlain with
  | nil => exact Rfc8259.isUtf8_nil
  | cons d left =>
    have hd : isPlain d = false := by
      have hhead := List.head?_dropWhile_not isPlain t
      rw [hleft] at hhead
      simpa using hhead
    have hsplit : a ++ c :: t = (a ++ c :: t.takeWhile isPlain) ++ d :: left := by
      rw [← hleft, List.append_assoc, List.cons_append, List.takeWhile_append_dropWhile]
    rw [hsplit] at hutf8
    have hlow := ascii_of_not_isPlain hd
    exact (Rfc8259.isUtf8_singleton hlow).append (hutf8.split hlow).2

/-- **Redaction keeps UTF-8.** -/
theorem utf8_redact {s : Bytes} (hs : IsUtf8 s) : IsUtf8 (redactSensitiveFields s) := by
  unfold redactSensitiveFields
  split
  · exact hs
  · exact utf8_plainKv (utf8_quotedKv hs)

end Redaction

end HermitMiner
