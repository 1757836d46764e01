import HermitMiner.Rfc8259.Places
import HermitMiner.Verify.JobIds

/-!
# The difficulty of an announced job

* `ThirdParameter`: the number in a notification, as the pool wrote it.
* `thirdParameter_of_document`: it is the third parameter of the JSON text.
* `difficulty_as_announced_iff`: when a job is mined at that difficulty.
-/

namespace HermitMiner

open Regex
open Rfc8259 (Chars Digits Document Element Elements Members ValueAt Value lookup_setMember setMember)

/-! ## The third parameter -/

section Third

/-- The third of the parameters in a message, where it is a number in digits alone. -/
def thirdParameter : Value → Option Bytes
  | .object members =>
    match members.lookup (str "params") with
    | some (.array (_ :: _ :: .number digits :: _)) => if digits.all isDigit then some digits else none
    | _ => none
  | _ => none

/-- The digits stand where any other number would be the third parameter of the JSON text. Unlike
those of JSON, they may start with zeros. -/
def ThirdParameter (line number : Bytes) : Prop :=
  Digits number ∧ ∃ a b, line = a ++ (number ++ b) ∧
    ∀ n, ∃ v, Document (a ++ (dec n ++ b)) v ∧ thirdParameter v = some (dec n)

theorem thirdParameter_eq_some {v : Value} {number : Bytes} (h : thirdParameter v = some number) :
    ∃ members first second rest, v = .object members ∧
      members.lookup (str "params") = some (.array (first :: second :: .number number :: rest)) ∧
      number.all isDigit = true := by
  unfold thirdParameter at h
  split at h
  · next members =>
    split at h
    · next first second digits rest hparams =>
      split at h
      · next hdigits =>
        obtain rfl := Option.some.inj h
        exact ⟨members, first, second, rest, rfl, hparams, hdigits⟩
      · cases h
    · cases h
  · cases h

/-- In a JSON text it is the third parameter. -/
theorem thirdParameter_of_document {line number : Bytes} {v : Value} (h : Document line v)
    (hnumber : thirdParameter v = some number) : ThirdParameter line number := by
  obtain ⟨members, first, second, rest, rfl, hparams, hdigits⟩ := thirdParameter_eq_some hnumber
  have hplace : ValueAt Element line (.number number) fun w =>
      .object (setMember (str "params") (.array (first :: second :: w :: rest)) members) :=
    h.place.trans fun s hs => (hs.place_object hparams).trans fun s hs => hs.place_array (i := 2) rfl
  obtain ⟨a, t, b, rfl, hvalue, hput⟩ := hplace
  cases hvalue with
  | @number minus int frac exp htext =>
    have hne : minus ++ int ++ frac ++ exp ≠ [] := by simp [htext.int.1.1]
    refine ⟨⟨hne, List.all_eq_true.1 hdigits⟩, a, b, rfl, fun n => ?_⟩
    refine ⟨_, hput _ _ (valueText_dec n), ?_⟩
    have hall : (dec n).all isDigit = true := List.all_eq_true.2 fun d hd => isDigit_of_mem_dec hd
    simp only [thirdParameter, lookup_setMember hparams, hall, if_true]

end Third

/-! ## Mined as announced -/

/-- `parse_u32` on a string of digits. -/
theorem parseU32_digits {number : Bytes} (hne : number ≠ [])
    (hdigits : ∀ d ∈ number, isDigit d = true) (fallback : UInt32) :
    (parseU32 number fallback).toNat =
      if digitsValue number < 2 ^ 32 then digitsValue number else fallback.toNat := by
  rw [parseU32, stoull_digits hne hdigits]
  by_cases hsmall : digitsValue number < 2 ^ 32
  · have h64 : ¬2 ^ 64 ≤ digitsValue number := by omega
    rw [if_neg h64, if_pos hsmall]
    dsimp only
    rw [if_neg (Nat.not_le.2 hsmall)]
    exact UInt32.toNat_ofNat_of_lt' hsmall
  · rw [if_neg hsmall]
    by_cases h64 : 2 ^ 64 ≤ digitsValue number
    · rw [if_pos h64]
    · rw [if_neg h64]
      dsimp only
      rw [if_pos (Nat.not_lt.1 hsmall)]

/-- Whatever the configuration, the job is mined at the difficulty that the pool wrote, and it is one
that `load_config` and `--bits` admit. -/
def MinedAsAnnounced (number : Bytes) (job : StratumJob) : Prop :=
  ∀ cfg, (miningConfig cfg job).difficultyBits.toNat = digitsValue number ∧
    (miningConfig cfg job).difficultyBits ≤ 255

/-- The first text of the line that looks like the parameters of a job has the number, or one that is
taken for it: any number from `2 ^ 32` on counts as 20. -/
def ReadAs (line number : Bytes) : Prop :=
  ∃ jobCode prefixCode digits, FirstJob line jobCode prefixCode digits ∧
    (digitsValue digits = digitsValue number ∨
      2 ^ 32 ≤ digitsValue digits ∧ digitsValue number = 20)

/-- **The announced difficulty**: a job that `wait_for_job` accepts is mined as it was announced
exactly when the number in the line is at most 255 and it is the one that is read: so it is where no
earlier text looks like the parameters of a job and no quote is escaped in the id and the prefix. -/
theorem difficulty_as_announced_iff {line number : Bytes} (hline : InLine line)
    (hnumber : ThirdParameter line number) {job : StratumJob} (h : Accepts line job) :
    (MinedAsAnnounced number job ↔ digitsValue number ≤ 255 ∧ ReadAs line number) ∧
      ∀ n : Notification, n.text = line → n.difficulty = number → n.Clear →
        ch '"' ∉ n.jobCode → ch '"' ∉ n.prefixCode → ReadAs line number := by
  obtain ⟨-, hparse⟩ := (accepts_iff hline job).1 h
  obtain ⟨-, digits, hfirst, hbits⟩ := parseNotify_iff.1 ⟨job.cleanJob, hparse⟩
  have hvalue : job.difficultyBits.toNat =
      if digitsValue digits < 2 ^ 32 then digitsValue digits else 20 := by
    rw [hbits, parseU32_digits hfirst.digits.1 hfirst.digits.2]
    rfl
  refine ⟨⟨?_, ?_⟩, ?_⟩
  · intro hmined
    obtain ⟨hequal, hrange⟩ := hmined (MinerConfig.default 1)
    rw [UInt32.le_iff_toNat_le, hequal] at hrange
    refine ⟨hrange, job.jobId, job.prefixText, digits, hfirst, ?_⟩
    rw [miningConfig, hvalue] at hequal
    split at hequal
    · exact .inl hequal
    · next hbig => exact .inr ⟨Nat.not_lt.1 hbig, hequal.symm⟩
  · rintro ⟨hsmall, jobCode, prefixCode, digits', hfirst', hread⟩
    obtain ⟨-, -, rfl⟩ := hfirst.unique hfirst'
    have hequal : job.difficultyBits.toNat = digitsValue number := by
      rw [hvalue]
      rcases hread with hsame | ⟨hbig, htwenty⟩
      · rw [if_pos (by omega), hsame]
      · rw [if_neg (by omega), htwenty]
    intro cfg
    refine ⟨hequal, UInt32.le_iff_toNat_le.2 ?_⟩
    rw [miningConfig, hequal]
    exact hsmall
  · rintro n rfl rfl hclear hjob hpref
    exact ⟨n.jobCode, n.prefixCode, n.difficulty, hclear.firstJob hjob hpref, .inl rfl⟩

/-- A notification with these parameters. -/
theorem document_announcement {jobCode prefixCode jobId prefixText : Bytes} (hjob : Chars jobCode jobId)
    (hpref : Chars prefixCode prefixText) (n : Nat) :
    ∃ v, thirdParameter v = some (dec n) ∧
      Document (str "\x7b\"id\":null,\"method\":\"mining.notify\",\"params\":[\"" ++ (jobCode ++
        (str "\",\"" ++ (prefixCode ++ (str "\"," ++ (dec n ++ str ",true]\x7d")))))) v := by
  have hname : ∀ name ∈ [str "id", str "method", str "mining.notify", str "params"],
      Chars name name := by
    intro name hname
    have hall : ∀ name ∈ [str "id", str "method", str "mining.notify", str "params"],
        ∀ c ∈ name, 0x20 ≤ c ∧ c ≠ 0x22 ∧ c ≠ 0x5C := by decide +kernel
    exact chars_self (hall name hname)
  have hparams := Elements.cons (element_tight (.string hjob)) (.cons (element_tight (.string hpref))
    (.cons (element_tight (valueText_dec n)) (.last (element_tight .trueText))))
  have hmembers := Members.cons (member_tight (hname (str "id") (by simp)) .nullText)
    (.cons (member_tight (hname (str "method") (by simp))
      (.string (hname (str "mining.notify") (by simp))))
      (.last (member_tight (hname (str "params") (by simp)) (.array hparams))))
  have hall : (dec n).all isDigit = true := List.all_eq_true.2 fun d hd => isDigit_of_mem_dec hd
  have hdocument := element_tight (.object hmembers)
  refine ⟨.object [(str "id", .null), (str "method", .string (str "mining.notify")),
    (str "params", .array [.string jobId, .string prefixText, .number (dec n), .bool true])], ?_, ?_⟩
  · simp [thirdParameter, str, ch, List.lookup_cons, hall]
  · simpa [Document, Rfc8259.quoted, str, ch] using hdocument

theorem accepts_easyNotify : Accepts easyNotify ⟨str "j", [], 0, true⟩ :=
  (accepts_iff (by decide +kernel) _).2 ⟨by decide, by decide⟩

theorem thirdParameter_easyNotify : ThirdParameter easyNotify (str "0") := by
  obtain ⟨v, hthird, hdocument⟩ :=
    document_announcement (chars_self (s := str "j") (by decide +kernel)) .nil 0
  exact thirdParameter_of_document hdocument hthird

theorem difficulty_as_announced_easy :
    (MinedAsAnnounced (str "0") ⟨str "j", [], 0, true⟩ ↔
        digitsValue (str "0") ≤ 255 ∧ ReadAs easyNotify (str "0")) ∧
      ∀ n : Notification, n.text = easyNotify → n.difficulty = str "0" → n.Clear →
        ch '"' ∉ n.jobCode → ch '"' ∉ n.prefixCode → ReadAs easyNotify (str "0") :=
  difficulty_as_announced_iff (by decide +kernel) thirdParameter_easyNotify accepts_easyNotify

/-- A job of difficulty `2 ^ 32`. -/
def hugeNotify : Bytes :=
  str "\x7b\"id\":null,\"method\":\"mining.notify\",\"params\":[\"j\",\"p\",4294967296,true]\x7d"

/-- It is mined at 20. -/
theorem difficulty_not_as_announced :
    InLine hugeNotify ∧ Accepts hugeNotify ⟨str "j", str "p", 20, true⟩ ∧
      ThirdParameter hugeNotify (str "4294967296") ∧
      ¬MinedAsAnnounced (str "4294967296") ⟨str "j", str "p", 20, true⟩ := by
  have hline : InLine hugeNotify := by decide +kernel
  obtain ⟨v, hthird, hdocument⟩ :=
    document_announcement (chars_self (s := str "j") (by decide +kernel))
      (chars_self (s := str "p") (by decide +kernel)) 4294967296
  refine ⟨hline, (accepts_iff hline _).2 ⟨by decide, by decide⟩,
    thirdParameter_of_document hdocument hthird, ?_⟩
  intro h
  have hvalue := (h (MinerConfig.default 1)).1
  revert hvalue
  decide

end HermitMiner
