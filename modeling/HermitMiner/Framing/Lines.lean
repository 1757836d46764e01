import Mathlib.Data.List.Basic
import Mathlib.Data.List.Infix

/-!
# Reading lines from a stream with interruptions

A reader takes items one by one, keeps those that `skip` does not drop, and hands a line back at
every terminator `nl`. It can be cut off between any two items; a cut forgets what the reader holds
of the current line.

* `read_lines_eq_iff`: the lines handed back are the lines of the stream exactly when no line that
  was completed had been cut after one of its kept items.
-/

namespace Framing

/-- What a reader of a stream meets. -/
inductive Rx (α : Type) where
  | item (a : α)
  | cut
  deriving DecidableEq

/-- The part of the current line held so far, and the lines handed back. -/
structure Reader (α : Type) where
  held : List α
  lines : List (List α)
  deriving DecidableEq

section Defs

variable {α : Type}

/-- Hold one more item, unless it is dropped; a cut forgets what was held. -/
def hold (skip : α → Bool) (held : List α) : Rx α → List α
  | .item a => if skip a then held else held ++ [a]
  | .cut => []

/-- The items of the stream, without the cuts. -/
def items (rx : List (Rx α)) : List α :=
  rx.filterMap fun
    | .item a => some a
    | .cut => none

/-- No cut of this line comes after one of its kept items. -/
def Intact (skip : α → Bool) (seg : List (Rx α)) : Prop :=
  ∀ before after, seg = before ++ .cut :: after → ∀ x ∈ items before, skip x = true

variable [DecidableEq α] (nl : α) (skip : α → Bool)

def Reader.step (r : Reader α) (x : Rx α) : Reader α :=
  if x = .item nl then ⟨[], r.lines ++ [r.held]⟩ else ⟨hold skip r.held x, r.lines⟩

/-- The reader after `rx`, starting with nothing held. -/
def read (rx : List (Rx α)) : Reader α := rx.foldl (Reader.step nl skip) ⟨[], []⟩

/-- The terminated lines of a stream, without the dropped items. -/
def lines (s : List α) : List (List α) := (s.splitOn nl).dropLast.map (·.filter (!skip ·))

/-- What the reader met of each line that was terminated. -/
def completed (rx : List (Rx α)) : List (List (Rx α)) := (rx.splitOn (.item nl)).dropLast

end Defs

/-! ## One line -/

section Segment

variable {α : Type} {skip : α → Bool}

@[simp] theorem items_nil : items ([] : List (Rx α)) = [] := rfl

@[simp] theorem items_append (xs ys : List (Rx α)) : items (xs ++ ys) = items xs ++ items ys := by
  simp [items]

@[simp] theorem items_item (a : α) (xs : List (Rx α)) : items (.item a :: xs) = a :: items xs :=
  rfl

@[simp] theorem items_cut (xs : List (Rx α)) : items (.cut :: xs) = items xs := rfl

@[simp] theorem items_map_item (s : List α) : items (s.map .item) = s := by
  induction s with
  | nil => rfl
  | cons a s ih => rw [List.map_cons, items_item, ih]

theorem Intact.of_append {xs ys : List (Rx α)} (h : Intact skip (xs ++ ys)) :
    Intact skip xs :=
  fun before after he => h before (after ++ ys) (by simp [he])

/-- A line is handed back whole exactly when it is intact. -/
theorem held_eq_iff (seg : List (Rx α)) :
    seg.foldl (hold skip) [] = (items seg).filter (!skip ·) ↔ Intact skip seg := by
  induction seg using List.reverseRecOn with
  | nil => simp [Intact]
  | append_singleton seg x ih =>
    rw [List.foldl_append, items_append, List.filter_append]
    cases x with
    | cut =>
      have hcut : List.foldl (hold skip) (List.foldl (hold skip) [] seg) [.cut] = [] := rfl
      rw [hcut]
      constructor
      · intro h before after he y hy
        have hnil : (items seg).filter (!skip ·) = [] := by simpa using h.symm
        have hmem : y ∈ items seg := by
          obtain ⟨rest, hrest⟩ : before <+: seg := by
            have hlen := congrArg List.length he
            simp only [List.length_append, List.length_cons, List.length_nil] at hlen
            exact List.prefix_of_prefix_length_le ⟨_, he.symm⟩ (List.prefix_append seg _) (by omega)
          rw [← hrest, items_append]
          exact List.mem_append_left _ hy
        simpa using (List.filter_eq_nil_iff.1 hnil) y hmem
      · intro h
        have hall := h seg [] rfl
        simpa using fun y hy => hall y hy
    | item a =>
      -- the last item is held exactly when it is kept, so only the segment before it decides
      have hlast : List.foldl (hold skip) (List.foldl (hold skip) [] seg) [.item a] =
          List.foldl (hold skip) [] seg ++ (items [.item a]).filter (!skip ·) := by
        by_cases ha : skip a = true <;> simp [hold, ha]
      rw [hlast, List.append_left_inj, ih]
      refine ⟨?_, fun h => h.of_append⟩
      intro h before after he
      rcases List.eq_nil_or_concat after with rfl | ⟨after', y, rfl⟩
      · have := List.append_inj' he rfl
        simp at this
      · apply h before after'
        have he' : seg ++ [.item a] = (before ++ .cut :: after') ++ [y] := by simpa using he
        exact (List.append_inj' he' rfl).1

end Segment

variable {α : Type} [DecidableEq α] {nl : α} {skip : α → Bool}

/-! ## Splitting at the terminator -/

theorem splitOn_snoc {β : Type} [DecidableEq β] {a x : β} (h : x ≠ a) (xs : List β) :
    ∃ init last, xs.splitOn a = init ++ [last] ∧ (xs ++ [x]).splitOn a = init ++ [last ++ [x]] := by
  induction xs with
  | nil => exact ⟨[], [], by simp, by simp [List.splitOn_cons_eq_if_modifyHead, h]⟩
  | cons y ys ih =>
    obtain ⟨init, last, h₁, h₂⟩ := ih
    by_cases hy : y = a
    · refine ⟨[] :: init, last, ?_, ?_⟩
      · simp [List.splitOn_cons_eq_if_modifyHead, hy, h₁]
      · simp [List.splitOn_cons_eq_if_modifyHead, hy, h₂]
    · cases init with
      | nil =>
        refine ⟨[], y :: last, ?_, ?_⟩
        · simp [List.splitOn_cons_eq_if_modifyHead, hy, h₁]
        · simp [List.splitOn_cons_eq_if_modifyHead, hy, h₂]
      | cons z zs =>
        refine ⟨(y :: z) :: zs, last, ?_, ?_⟩
        · simp [List.splitOn_cons_eq_if_modifyHead, hy, h₁]
        · simp [List.splitOn_cons_eq_if_modifyHead, hy, h₂]

theorem mem_of_mem_splitOn {β : Type} [DecidableEq β] {a x : β} {xs seg : List β}
    (h : seg ∈ xs.splitOn a) (hx : x ∈ seg) : x ∈ xs := by
  induction xs generalizing seg with
  | nil =>
    rw [List.splitOn_nil, List.mem_singleton] at h
    simp [h] at hx
  | cons y ys ih =>
    obtain ⟨z, zs, hz⟩ := List.exists_cons_of_ne_nil (List.splitOn_ne_nil a ys)
    rw [hz] at ih
    rw [List.splitOn_cons_eq_if_modifyHead, hz] at h
    by_cases hy : y = a
    · rw [if_pos (by simp [hy]), List.mem_cons] at h
      rcases h with rfl | h
      · simp at hx
      · exact List.mem_cons_of_mem y (ih h hx)
    · rw [if_neg (by simp [hy]), List.modifyHead_cons, List.mem_cons] at h
      rcases h with rfl | h
      · rcases List.mem_cons.1 hx with rfl | hx
        · exact List.mem_cons_self
        · exact List.mem_cons_of_mem y (ih List.mem_cons_self hx)
      · exact List.mem_cons_of_mem y (ih (List.mem_cons_of_mem z h) hx)

theorem read_concat (rx : List (Rx α)) (x : Rx α) :
    read nl skip (rx ++ [x]) = (read nl skip rx).step nl skip x := by
  simp [read]

variable (nl skip) in
/-- The reader in terms of the segments between terminators. -/
theorem read_eq (rx : List (Rx α)) :
    ∃ init last, rx.splitOn (.item nl) = init ++ [last] ∧
      read nl skip rx = ⟨last.foldl (hold skip) [], init.map (List.foldl (hold skip) [])⟩ := by
  induction rx using List.reverseRecOn with
  | nil => exact ⟨[], [], by simp, rfl⟩
  | append_singleton rx x ih =>
    have hstep : read nl skip (rx ++ [x]) = (read nl skip rx).step nl skip x := read_concat rx x
    by_cases hx : x = .item nl
    · obtain ⟨init, last, hs, hr⟩ := ih
      refine ⟨init ++ [last], [], ?_, ?_⟩
      · rw [hx, List.splitOn_append_cons_self, hs, List.splitOn_nil]
      · rw [hstep, hr]
        simp [Reader.step, hx]
    · obtain ⟨init, last, hs, hs'⟩ := splitOn_snoc hx rx
      obtain ⟨init', last', hs₂, hr⟩ := ih
      obtain ⟨rfl, rfl⟩ : init = init' ∧ last = last' := by
        rw [hs] at hs₂
        have hl := List.append_inj' hs₂ rfl
        exact ⟨hl.1, by simpa using hl.2⟩
      refine ⟨init, last ++ [x], hs', ?_⟩
      rw [hstep, hr]
      simp [Reader.step, hx]

/-- The stream splits where what the reader met splits. -/
theorem splitOn_items (rx : List (Rx α)) :
    (items rx).splitOn nl = (rx.splitOn (.item nl)).map items := by
  induction rx with
  | nil => simp
  | cons x xs ih =>
    obtain ⟨y, ys, hy⟩ := List.exists_cons_of_ne_nil (List.splitOn_ne_nil (.item nl) xs)
    cases x with
    | cut =>
      rw [items_cut, ih, List.splitOn_cons_eq_if_modifyHead, hy]
      simp
    | item a =>
      rw [items_item, List.splitOn_cons_eq_if_modifyHead, ih, List.splitOn_cons_eq_if_modifyHead, hy]
      by_cases ha : a = nl <;> simp [ha]

theorem read_lines (rx : List (Rx α)) :
    (read nl skip rx).lines = (completed nl rx).map (List.foldl (hold skip) []) := by
  obtain ⟨init, last, hs, hr⟩ := read_eq nl skip rx
  simp [completed, hs, hr]

theorem lines_items (rx : List (Rx α)) :
    lines nl skip (items rx) = (completed nl rx).map fun seg => (items seg).filter (!skip ·) := by
  simp only [lines, completed, splitOn_items, ← List.map_dropLast, List.map_map]
  rfl

/-! ## Whole streams -/

/-- **Framing**: the lines handed back are the lines of the stream exactly when no completed line
was cut after one of its kept items. -/
theorem read_lines_eq_iff (rx : List (Rx α)) :
    (read nl skip rx).lines = lines nl skip (items rx) ↔
      ∀ seg ∈ completed nl rx, Intact skip seg := by
  rw [read_lines, lines_items, List.map_inj_left]
  exact forall₂_congr fun seg _ => held_eq_iff seg

/-- Without cuts the lines handed back are the lines of the stream. -/
theorem read_map_item (s : List α) : (read nl skip (s.map .item)).lines = lines nl skip s := by
  have hwhole : (∀ seg ∈ completed nl (s.map .item), Intact skip seg) →
      (read nl skip (s.map .item)).lines = lines nl skip (items (s.map .item)) :=
    (read_lines_eq_iff _).2
  rw [items_map_item] at hwhole
  apply hwhole
  intro seg hseg before after he
  have hcut : Rx.cut ∈ s.map Rx.item :=
    mem_of_mem_splitOn (List.mem_of_mem_dropLast hseg) (by simp [he])
  simp at hcut

/-- The lines of a stream that has been read in part come first among its lines. -/
theorem lines_prefix (s t : List α) : lines nl skip s <+: lines nl skip (s ++ t) := by
  induction t using List.reverseRecOn with
  | nil => simp
  | append_singleton t x ih =>
    apply ih.trans
    rw [← List.append_assoc]
    by_cases hx : x = nl
    · rw [lines, lines, hx, List.splitOn_append_cons_self]
      exact List.IsPrefix.map _ (by simpa using List.dropLast_prefix _)
    · obtain ⟨init, last, h₁, h₂⟩ := splitOn_snoc hx (s ++ t)
      rw [lines, lines, h₁, h₂, List.dropLast_concat, List.dropLast_concat]

/-- The lines of a stream of terminated texts are the texts. -/
theorem lines_flatMap {texts : List (List α)} (h : ∀ l ∈ texts, nl ∉ l) :
    lines nl skip (texts.flatMap (· ++ [nl])) = texts.map (·.filter (!skip ·)) := by
  induction texts with
  | nil => simp [lines]
  | cons l ls ih =>
    have hl := h l List.mem_cons_self
    have hls := ih fun m hm => h m (List.mem_cons_of_mem l hm)
    have hsplit : ((l :: ls).flatMap (· ++ [nl])).splitOn nl =
        l :: (ls.flatMap (· ++ [nl])).splitOn nl := by
      rw [List.flatMap_cons, List.append_assoc, List.singleton_append,
        List.splitOn_append_cons_self, List.splitOn_eq_singleton hl, List.singleton_append]
    unfold lines at hls ⊢
    rw [hsplit, List.dropLast_cons_of_ne_nil (List.splitOn_ne_nil _ _), List.map_cons, hls,
      List.map_cons]

end Framing
