import HermitMiner.Rfc8259.Unique

/-!
# Reading a text byte by byte

Automata that read JSON texts, of which each knows what it knows of the bytes so far.

* `scan`: the state behind a text, if the automaton does not fail on the way.
* `Scanner`: an automaton that reads every token and every separator.
* `Scanner.document`: it reads every JSON text.
-/

namespace Rfc8259

/-! ## Scans -/

section Scan

variable {σ : Type} {step : σ → UInt8 → Option σ} {p q r : σ} {a b : Text} {c : UInt8}

def scan (step : σ → UInt8 → Option σ) : σ → Text → Option σ
  | p, [] => some p
  | p, c :: text => do scan step (← step p c) text

theorem scan_append (p : σ) (a b : Text) :
    scan step p (a ++ b) = (scan step p a).bind fun q => scan step q b := by
  induction a generalizing p with
  | nil => rfl
  | cons c a ih =>
    rw [List.cons_append, scan, scan]
    cases step p c with
    | none => rfl
    | some p' => exact ih p'

theorem scan_cons (h : step p c = some q) (text : Text) :
    scan step p (c :: text) = scan step q text := by
  rw [scan, h]
  rfl

theorem scan_trans (ha : scan step p a = some q) (hb : scan step q b = some r) :
    scan step p (a ++ b) = some r := by
  rw [scan_append, ha]
  exact hb

/-- A scan of two texts is a scan of the first and one of the second. -/
theorem scan_split (h : scan step p (a ++ b) = some r) :
    ∃ q, scan step p a = some q ∧ scan step q b = some r := by
  rw [scan_append] at h
  exact Option.bind_eq_some_iff.1 h

end Scan

/-! ## Scanners -/

/-- The bytes behind a token: white space, and the punctuation that does not open a value. -/
def isSeparator (c : UInt8) : Bool :=
  isWs c || c == 0x2C || c == 0x3A || c == 0x5D || c == 0x7D

/-- An automaton for JSON texts. -/
structure Scanner (σ : Type) where
  step : σ → UInt8 → Option σ
  /-- Where a token may begin. -/
  outside : σ
  /-- Where a token may end. -/
  Ended : σ → Prop
  ended_outside : Ended outside
  separator {p : σ} {c : UInt8} : Ended p → isSeparator c = true → step p c = some outside
  opening {c : UInt8} : c = 0x5B ∨ c = 0x7B → step outside c = some outside
  null : ∃ q, Ended q ∧ scan step outside [0x6E, 0x75, 0x6C, 0x6C] = some q
  true : ∃ q, Ended q ∧ scan step outside [0x74, 0x72, 0x75, 0x65] = some q
  false : ∃ q, Ended q ∧ scan step outside [0x66, 0x61, 0x6C, 0x73, 0x65] = some q
  number {minus int frac exp : Text} : NumberText minus int frac exp →
    ∃ q, Ended q ∧ scan step outside (minus ++ int ++ frac ++ exp) = some q
  string {text s : Text} : Chars text s → ∃ q, Ended q ∧ scan step outside (quoted text) = some q

namespace Scanner

variable {σ : Type} (R : Scanner σ)

/-- The scan of the text ends behind a token. -/
def Scans (text : Text) : Prop := ∃ q, R.Ended q ∧ scan R.step R.outside text = some q

variable {R} {a b text rest : Text} {c d : UInt8} {v : Value}

theorem isSeparator_of_isWs (h : isWs c = Bool.true) : isSeparator c = Bool.true := by
  rw [isSeparator, h]
  rfl

theorem scan_ws (ha : Ws a) : scan R.step R.outside a = some R.outside := by
  induction a with
  | nil => rfl
  | cons c a ih =>
    have hsep := isSeparator_of_isWs (ha c List.mem_cons_self)
    rw [scan_cons (R.separator R.ended_outside hsep)]
    exact ih fun d hd => ha d (List.mem_cons_of_mem c hd)

theorem Scans.ws (ha : Ws a) : R.Scans a := ⟨_, R.ended_outside, scan_ws ha⟩

theorem Scans.append_cons (h : R.Scans text) (hc : isSeparator c = Bool.true)
    (hrest : R.Scans rest) : R.Scans (text ++ c :: rest) := by
  obtain ⟨p, hp, htext⟩ := h
  obtain ⟨q, hq, hrest⟩ := hrest
  refine ⟨q, hq, scan_trans htext ?_⟩
  rw [scan_cons (R.separator hp hc)]
  exact hrest

/-- The scan goes on behind a separator as at the beginning. -/
theorem Scans.behind {q : σ} (h : R.Scans text) (hc : isSeparator c = Bool.true)
    (hscan : scan R.step R.outside (text ++ c :: rest) = some q) :
    scan R.step R.outside rest = some q := by
  obtain ⟨p, hp, htext⟩ := h
  rw [scan_append, htext, Option.bind_some, scan_cons (R.separator hp hc)] at hscan
  exact hscan

theorem behind_ws (R : Scanner σ) {q : σ} (ha : Ws a)
    (hscan : scan R.step R.outside (a ++ rest) = some q) :
    scan R.step R.outside rest = some q := by
  rw [scan_append, scan_ws ha] at hscan
  exact hscan

/-- A text in brackets. -/
theorem Scans.enclosed (h : R.Scans text) (hc : c = 0x5B ∨ c = 0x7B)
    (hd : isSeparator d = Bool.true) : R.Scans (c :: (text ++ [d])) := by
  obtain ⟨q, hq, hscan⟩ := h.append_cons hd (@Scans.ws σ R [] (fun _ h => nomatch h))
  refine ⟨q, hq, ?_⟩
  rw [scan_cons (R.opening hc)]
  exact hscan

theorem Scans.ws_append (ha : Ws a) (h : R.Scans text) : R.Scans (a ++ text) := by
  obtain ⟨q, hq, hscan⟩ := h
  exact ⟨q, hq, scan_trans (scan_ws ha) hscan⟩

theorem Scans.append_ws (h : R.Scans text) (hb : Ws b) : R.Scans (text ++ b) := by
  cases b with
  | nil => rwa [List.append_nil]
  | cons c b =>
    exact h.append_cons (isSeparator_of_isWs (hb c List.mem_cons_self))
      (.ws fun d hd => hb d (List.mem_cons_of_mem c hd))

/-- A name, a colon and a text. -/
theorem Scans.member {key k : Text} (ha : Ws a) (hkey : Chars key k) (hb : Ws b)
    (h : R.Scans text) : R.Scans (a ++ (quoted key ++ (b ++ 0x3A :: text))) := by
  have hname : R.Scans (quoted key ++ b) := Scans.append_ws (R.string hkey) hb
  have hall := (Scans.ws_append ha hname).append_cons (c := 0x3A) rfl h
  simpa only [List.append_assoc] using hall

mutual

theorem value : ∀ {text : Text} {v : Value}, ValueText text v → R.Scans text
  | _, _, .nullText => R.null
  | _, _, .trueText => R.true
  | _, _, .falseText => R.false
  | _, _, .number h => R.number h
  | _, _, .string h => R.string h
  | _, _, .emptyArray ha => (Scans.ws ha).enclosed (.inl rfl) rfl
  | _, _, .array h => (elements h).enclosed (.inl rfl) rfl
  | _, _, .emptyObject ha => (Scans.ws ha).enclosed (.inr rfl) rfl
  | _, _, .object h => (members h).enclosed (.inr rfl) rfl

theorem elements : ∀ {text : Text} {vs : List Value}, Elements text vs → R.Scans text
  | _, _, .last h => element h
  | _, _, .cons h hrest => (element h).append_cons rfl (elements hrest)

theorem element : ∀ {text : Text} {v : Value}, Element text v → R.Scans text
  | _, _, .mk ha h hb => .ws_append ha ((value h).append_ws hb)

theorem members : ∀ {text : Text} {ms : List (Text × Value)}, Members text ms → R.Scans text
  | _, _, .last h => member h
  | _, _, .cons h hrest => (member h).append_cons rfl (members hrest)

theorem member : ∀ {text : Text} {m : Text × Value}, Member text m → R.Scans text
  | _, _, .mk ha hkey hb h => .member ha hkey hb (element h)

end

/-- **A scanner reads every JSON text.** -/
theorem document (h : Document text v) : R.Scans text := element h

end Scanner

end Rfc8259
