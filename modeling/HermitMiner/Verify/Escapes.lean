import HermitMiner.Rfc8259.Unique
import HermitMiner.Verify.Requests

/-!
# What is escaped

`json_escape` writes the texts of strings, but for some control bytes, which it leaves as they are.

* `Escapable`: the strings without such bytes.
* `chars_jsonEscape`, `escapable_of_printable`: they are the strings whose escaped text is one of
  RFC 8259.
* `numberText_dec`: a number as it is printed is one of RFC 8259.
* `Request.document_line`, `Request.escapable_of_document`: a request is a JSON text exactly when
  its parameters are escapable.
-/

namespace HermitMiner

open Rfc8259 (Chars Value ValueText Elements Element Members Member Document NumberText Ws)

/-! ## Strings -/

section Strings

/-- The control bytes in the string are ones that `json_escape` escapes. -/
def Escapable (s : Bytes) : Prop := ∀ c ∈ s, 0x20 ≤ c ∨ c ∈ str "\n\r\t"

instance (s : Bytes) : Decidable (Escapable s) :=
  inferInstanceAs (Decidable (∀ c ∈ s, 0x20 ≤ c ∨ c ∈ str "\n\r\t"))

theorem chars_short {e c : UInt8} (h : (e, c) ∈ Rfc8259.escapes) : Chars [0x5C, e] [c] :=
  .escape (.short h) .nil

theorem chars_jsonEscapeByte {c : UInt8} (h : 0x20 ≤ c ∨ c ∈ str "\n\r\t") :
    Chars (jsonEscapeByte c) [c] := by
  unfold jsonEscapeByte
  repeat' split
  · subst c
    exact chars_short (e := 0x5C) (by decide)
  · subst c
    exact chars_short (e := 0x22) (by decide)
  · subst c
    exact chars_short (e := 0x6E) (by decide)
  · subst c
    exact chars_short (e := 0x72) (by decide)
  · subst c
    exact chars_short (e := 0x74) (by decide)
  · rename_i hslash hquote hn hr ht
    have hcontrol : 0x20 ≤ c := by
      rcases h with h | h
      · exact h
      · have hmem : c = ch '\n' ∨ c = ch '\r' ∨ c = ch '\t' := by simpa [str] using h
        rcases hmem with h | h | h
        · exact absurd h hn
        · exact absurd h hr
        · exact absurd h ht
    exact .unescaped hcontrol hquote hslash .nil

/-- The escaped text of an escapable string denotes the string. -/
theorem chars_jsonEscape {s : Bytes} (h : Escapable s) : Chars (jsonEscape s) s := by
  induction s with
  | nil => exact .nil
  | cons c s ih =>
    have hrest : Chars (jsonEscape s) s := ih fun d hd => h d (List.mem_cons_of_mem c hd)
    exact (chars_jsonEscapeByte (h c List.mem_cons_self)).append hrest

/-- A control byte that is not escaped is there in the text. -/
theorem escapable_of_printable {s : Bytes}
    (h : ∀ c ∈ jsonEscape s, 0x20 ≤ c ∨ Rfc8259.isWs c = true) : Escapable s := by
  intro c hc
  by_cases hescaped : c ∈ str "\n\r\t"
  · exact .inr hescaped
  have hne : c ≠ ch '\n' ∧ c ≠ ch '\r' ∧ c ≠ ch '\t' := by simpa [str] using hescaped
  have hmem : c ∈ jsonEscapeByte c := by
    unfold jsonEscapeByte
    rw [if_neg hne.1, if_neg hne.2.1, if_neg hne.2.2]
    repeat' split
    · subst c
      decide
    · subst c
      decide
    · exact List.mem_singleton_self c
  left
  rcases h c (List.mem_flatMap.2 ⟨c, hc, hmem⟩) with hprint | hws
  · exact hprint
  · simp only [Rfc8259.isWs, Bool.or_eq_true, beq_iff_eq] at hws
    rcases hws with ((rfl | rfl) | rfl) | rfl
    · decide
    · exact absurd rfl hne.2.2
    · exact absurd rfl hne.1
    · exact absurd rfl hne.2.1

/-- A string in which nothing is special is its own text. -/
theorem chars_self {s : Bytes} (h : ∀ c ∈ s, 0x20 ≤ c ∧ c ≠ 0x22 ∧ c ≠ 0x5C) : Chars s s := by
  induction s with
  | nil => exact .nil
  | cons c s ih =>
    obtain ⟨hcontrol, hquote, hslash⟩ := h c List.mem_cons_self
    exact .unescaped hcontrol hquote hslash (ih fun d hd => h d (List.mem_cons_of_mem c hd))

end Strings

/-! ## Numbers -/

section Numbers

/-- A number is printed without a zero in front. -/
theorem head_dec {n : Nat} (h : (dec n).head? = some (ch '0')) : n = 0 := by
  induction n using Nat.strongRecOn with
  | _ n ih =>
    rcases Nat.lt_or_ge n 10 with hn | hn
    · rw [dec, Nat.toDigits_of_lt_base hn] at h
      have hall : ∀ d < 10, ch (Nat.digitChar d) = ch '0' → d = 0 := by decide
      exact hall n hn (by simpa using h)
    · rw [dec, Nat.toDigits_of_base_le (by omega) hn, List.map_append, List.head?_append] at h
      obtain ⟨d, ds, hcons⟩ := List.exists_cons_of_ne_nil (dec_ne_nil (n / 10))
      have hrest : (dec (n / 10)).head? = some (ch '0') := by
        rw [dec] at hcons ⊢
        rw [hcons] at h ⊢
        exact h
      have hzero := ih (n / 10) (by omega) hrest
      omega

theorem digits_dec (n : Nat) : Rfc8259.Digits (dec n) :=
  ⟨dec_ne_nil n, fun _ => isDigit_of_mem_dec⟩

theorem valueText_dec (n : Nat) : ValueText (dec n) (.number (dec n)) := by
  have hint : (dec n).head? = some 0x30 → dec n = [0x30] := by
    intro h
    rw [head_dec h]
    rfl
  have hnumber : NumberText [] (dec n) [] [] :=
    ⟨by simp, ⟨digits_dec n, hint⟩, .inl rfl, .inl rfl⟩
  simpa using ValueText.number hnumber

end Numbers

/-! ## Objects without white space -/

section Compact

variable {key k text : Bytes} {v : Value}

theorem ws_nil : Ws [] := fun c hc => by cases hc

theorem element_tight (h : ValueText text v) : Element text v := by
  simpa using Element.mk ws_nil h ws_nil

theorem member_tight (hkey : Chars key k) (h : ValueText text v) :
    Member (Rfc8259.quoted key ++ 0x3A :: text) (k, v) := by
  simpa using Member.mk ws_nil hkey ws_nil (element_tight h)

end Compact

/-! ## Requests -/

section Requests

theorem elements_paramsText {ss : List Bytes} (hne : ss ≠ []) (h : ∀ s ∈ ss, Escapable s) :
    Elements (paramsText ss) (ss.map .string) := by
  have hstring : ∀ s ∈ ss, Element (Rfc8259.quoted (jsonEscape s)) (.string s) := fun s hs =>
    element_tight (.string (chars_jsonEscape (h s hs)))
  have hquoted : ∀ s : Bytes, JsonGrammar.quoted (jsonEscape s) = Rfc8259.quoted (jsonEscape s) :=
    fun _ => rfl
  induction ss using paramsText.induct with
  | case1 => exact absurd rfl hne
  | case2 s =>
    rw [paramsText, hquoted]
    exact .last (hstring s List.mem_cons_self)
  | case3 s t ss ih =>
    rw [paramsText, hquoted]
    exact .cons (hstring s List.mem_cons_self) (ih (by simp)
      (fun u hu => h u (List.mem_cons_of_mem s hu))
      (fun u hu => hstring u (List.mem_cons_of_mem s hu)))

/-- What the line of a request denotes. -/
def Request.value (id : Nat) (r : Request) : Value :=
  .object [(str "id", .number (dec id)), (str "method", .string r.method.name),
    (str "params", .array (r.params.map .string))]

theorem Request.document_line (id : Nat) (r : Request) (h : ∀ s ∈ r.params, Escapable s) :
    Document (r.line id) (r.value id) := by
  have hself : ∀ s : Bytes, (s.all fun c => 0x20 ≤ c && c != 0x22 && c != 0x5C) = true →
      Chars s s := by
    intro s hs
    apply chars_self
    intro c hc
    simpa [and_assoc] using List.all_eq_true.1 hs c hc
  have hname : ∀ m : FakePool.Method, Chars m.name m.name := by
    intro m
    cases m <;> exact hself _ (by decide)
  have hparams : Elements (paramsText r.params) (r.params.map .string) :=
    elements_paramsText (by cases r <;> simp [params]) h
  have hmembers := Members.cons (member_tight (hself (str "id") (by decide)) (valueText_dec id))
    (.cons (member_tight (hself (str "method") (by decide)) (.string (hname r.method)))
      (.last (member_tight (hself (str "params") (by decide)) (.array hparams))))
  have htext : r.line id = 0x7B :: (Rfc8259.quoted (str "id") ++ 0x3A :: dec id ++ 0x2C ::
      (Rfc8259.quoted (str "method") ++ 0x3A :: Rfc8259.quoted r.method.name ++ 0x2C ::
        (Rfc8259.quoted (str "params") ++ 0x3A :: 0x5B :: (paramsText r.params ++ [0x5D])))
          ++ [0x7D]) := by
    rw [r.line_eq, head]
    simp [Rfc8259.quoted, str, ch]
  rw [htext]
  exact element_tight (.object hmembers)

theorem mem_paramsText {ss : List Bytes} {s : Bytes} (hs : s ∈ ss) {c : UInt8}
    (hc : c ∈ jsonEscape s) : c ∈ paramsText ss := by
  have hquoted : c ∈ JsonGrammar.quoted (jsonEscape s) := by simp [JsonGrammar.quoted, hc]
  induction ss using paramsText.induct with
  | case1 => cases hs
  | case2 t =>
    obtain rfl := List.mem_singleton.1 hs
    exact hquoted
  | case3 t u ss ih =>
    rw [paramsText]
    rcases List.mem_cons.1 hs with rfl | hs
    · exact List.mem_append_left _ hquoted
    · exact List.mem_append_right _ (List.mem_cons_of_mem _ (ih hs))

theorem Request.escapable_of_document {id : Nat} {r : Request} {v : Value}
    (h : Document (r.line id) v) : ∀ s ∈ r.params, Escapable s := by
  intro s hs
  apply escapable_of_printable
  intro c hc
  have hmem : c ∈ r.line id := by
    rw [r.line_eq]
    exact List.mem_append_left _ (List.mem_append_right _ (mem_paramsText hs hc))
  exact h.not_control hmem

end Requests

end HermitMiner
