import HermitMiner.Rfc8259.Scan

/-!
# Control bytes and leading zeros

The scanner that fails at a control byte inside a string and at a digit behind the leading zero of a
number.

* `Place`, `Place.step`: where a byte stands, and the byte after it.
* `Lexical`: the scan of a text does not fail.
* `Document.lexical`: it fails on no JSON text.
-/

namespace Rfc8259

/-! ## The automaton -/

inductive Place where
  | outside
  /-- Behind a zero that begins a number. -/
  | zero
  /-- Behind another byte of those of numbers. -/
  | number
  | inside
  /-- Behind the backslash of an escape. -/
  | escaped

/-- The place behind a byte outside of strings that is no leading zero. -/
def placeAfter (c : UInt8) : Place :=
  if c = 0x22 then .inside else if isNumber c then .number else .outside

def Place.step : Place → UInt8 → Option Place
  | .outside, c => if c = 0x30 then some .zero else some (placeAfter c)
  | .zero, c => if isDigit c then none else some (placeAfter c)
  | .number, c => some (placeAfter c)
  | .inside, c =>
    if c = 0x22 then some .outside
    else if c = 0x5C then some .escaped
    else if c < 0x20 then none
    else some .inside
  | .escaped, _ => some .inside

/-- No string of the text has a control byte, and no number a leading zero. -/
def Lexical (text : Text) : Prop := (scan Place.step .outside text).isSome = true

/-- Between the bytes of a text, outside of strings. -/
def Place.Ended (p : Place) : Prop := p = .outside ∨ p = .zero ∨ p = .number

section Steps

variable {p : Place} {c : UInt8}

theorem not_of_isSeparator (h : isSeparator c = true) :
    c ≠ 0x22 ∧ c ≠ 0x30 ∧ isDigit c = false ∧ isNumber c = false := by
  have hcases : c = 0x20 ∨ c = 0x09 ∨ c = 0x0A ∨ c = 0x0D ∨ c = 0x2C ∨ c = 0x3A ∨ c = 0x5D ∨
      c = 0x7D := by
    simpa [isSeparator, isWs, or_assoc] using h
  rcases hcases with rfl | rfl | rfl | rfl | rfl | rfl | rfl | rfl <;> decide

theorem Place.Ended.separator (h : p.Ended) (hc : isSeparator c = true) :
    p.step c = some .outside := by
  obtain ⟨hquote, hzero, hdigit, hnumber⟩ := not_of_isSeparator hc
  have hafter : placeAfter c = .outside := by
    rw [placeAfter, if_neg hquote, hnumber]
    rfl
  rcases h with rfl | rfl | rfl
  · rw [Place.step, if_neg hzero, hafter]
  · rw [Place.step, hdigit, hafter]
    rfl
  · rw [Place.step, hafter]

theorem placeAfter_isNumber (h : isNumber c = true) : placeAfter c = .number := by
  have hquote : c ≠ 0x22 := by
    rintro rfl
    cases h
  rw [placeAfter, if_neg hquote, if_pos h]

end Steps

/-! ## Numbers -/

section Numbers

variable {text : Text}

theorem scan_isNumber (h : ∀ c ∈ text, isNumber c = true) :
    scan Place.step .number text = some .number := by
  induction text with
  | nil => rfl
  | cons c text ih =>
    have hstep : Place.step .number c = some .number := by
      rw [Place.step, placeAfter_isNumber (h c List.mem_cons_self)]
    rw [scan_cons hstep]
    exact ih fun d hd => h d (List.mem_cons_of_mem c hd)

/-- A run of the bytes of numbers is scanned, unless it begins with a zero and a digit. -/
theorem scan_number (h : ∀ c ∈ text, isNumber c = true)
    (hzero : ∀ d rest, text = 0x30 :: d :: rest → isDigit d = false) :
    ∃ q : Place, q.Ended ∧ scan Place.step .outside text = some q := by
  cases text with
  | nil => exact ⟨.outside, .inl rfl, rfl⟩
  | cons c text =>
    by_cases hc : c = 0x30
    · subst hc
      cases text with
      | nil => exact ⟨.zero, .inr (.inl rfl), rfl⟩
      | cons d text =>
        refine ⟨.number, .inr (.inr rfl), ?_⟩
        have hstep : Place.step .zero d = some .number := by
          rw [Place.step, hzero d text rfl, placeAfter_isNumber (h d (by simp))]
          rfl
        rw [scan_cons (q := .zero) rfl, scan_cons hstep]
        exact scan_isNumber fun x hx => h x (by simp [hx])
    · refine ⟨.number, .inr (.inr rfl), ?_⟩
      have hstep : Place.step .outside c = some .number := by
        rw [Place.step, if_neg hc, placeAfter_isNumber (h c List.mem_cons_self)]
      rw [scan_cons hstep]
      exact scan_isNumber fun x hx => h x (List.mem_cons_of_mem c hx)

/-- Behind a leading zero stands no digit. -/
theorem NumberText.leading {minus int frac exp : Text} (h : NumberText minus int frac exp) {d : UInt8}
    {rest : Text} (heq : minus ++ int ++ frac ++ exp = 0x30 :: d :: rest) : isDigit d = false := by
  have hminus := h.minus
  simp only [List.mem_cons, List.not_mem_nil, or_false] at hminus
  rcases hminus with rfl | rfl
  · have hint : int = [0x30] := by
      apply h.int.2
      obtain ⟨x, int', rfl⟩ := List.exists_cons_of_ne_nil h.int.1.1
      simp only [List.nil_append, List.cons_append] at heq
      rw [(List.cons.inj heq).1]
      rfl
    subst hint
    simp only [List.nil_append, List.cons_append, List.cons.injEq, true_and] at heq
    rcases h.frac with rfl | ⟨ds, -, rfl⟩
    · rcases h.exp with rfl | ⟨e, sign, ds, he, -, -, rfl⟩
      · cases heq
      · obtain ⟨rfl, -⟩ := List.cons.inj heq
        simp only [List.mem_cons, List.not_mem_nil, or_false] at he
        rcases he with rfl | rfl <;> rfl
    · obtain ⟨rfl, -⟩ := List.cons.inj heq
      rfl
  · exact absurd (List.cons.inj heq).1 (by decide)

end Numbers

/-! ## Strings -/

section Strings

variable {text s e d : Text} {c x y z w : UInt8} {n : Nat}

theorem step_inside (hcontrol : 0x20 ≤ c) (hquote : c ≠ 0x22) (hslash : c ≠ 0x5C) :
    Place.step .inside c = some .inside := by
  rw [Place.step, if_neg hquote, if_neg hslash, if_neg (UInt8.not_lt.2 hcontrol)]

theorem step_hexDigit (h : hexDigit c = some n) : Place.step .inside c = some .inside := by
  have hle := le_of_hexDigit h
  refine step_inside (UInt8.le_trans (by decide) hle) ?_ ?_
  · rintro rfl
    exact absurd hle (by decide)
  · rintro rfl
    cases h

theorem scan_hex4 (h : hex4 x y z w = some n) (text : Text) :
    scan Place.step .inside (x :: y :: z :: w :: text) = scan Place.step .inside text := by
  simp only [hex4, Option.bind_eq_bind, Option.bind_eq_some_iff] at h
  obtain ⟨_, hx, _, hy, _, hz, _, hw, -⟩ := h
  rw [scan_cons (step_hexDigit hx), scan_cons (step_hexDigit hy), scan_cons (step_hexDigit hz),
    scan_cons (step_hexDigit hw)]

theorem scan_escape (h : Escape e d) (text : Text) :
    scan Place.step .escaped (e ++ text) = scan Place.step .inside text := by
  cases h with
  | short _ => rfl
  | unicode h => exact scan_hex4 h text
  | pair hhigh hlow => exact (scan_hex4 hhigh _).trans (scan_hex4 hlow text)

theorem scan_chars (h : Chars text s) : scan Place.step .inside text = some .inside := by
  induction h with
  | nil => rfl
  | unescaped hcontrol hquote hslash _ ih =>
    rw [scan_cons (step_inside hcontrol hquote hslash)]
    exact ih
  | escape he _ ih =>
    rw [scan_cons (q := .escaped) rfl, scan_escape he]
    exact ih

end Strings

/-! ## The scanner -/

/-- The automaton reads JSON texts. -/
def places : Scanner Place where
  step := Place.step
  outside := .outside
  Ended := Place.Ended
  ended_outside := .inl rfl
  separator := Place.Ended.separator
  opening := by rintro c (rfl | rfl) <;> rfl
  null := ⟨.outside, .inl rfl, rfl⟩
  true := ⟨.number, .inr (.inr rfl), rfl⟩
  false := ⟨.number, .inr (.inr rfl), rfl⟩
  number h := scan_number (fun _ hc => h.mem hc) fun _ _ heq => h.leading heq
  string h := ⟨.outside, .inl rfl, scan_trans (scan_chars h) rfl⟩

/-- **The scan fails on no JSON text.** -/
theorem Document.lexical {text : Text} {v : Value} (h : Document text v) : Lexical text := by
  obtain ⟨q, -, hscan⟩ := (Scanner.document h : places.Scans text)
  exact Option.isSome_iff_exists.2 ⟨q, hscan⟩

end Rfc8259
