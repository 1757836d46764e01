import HermitMiner.Rfc8259.Text

/-!
# Values in their places

Where a value stands in a JSON text, and what the text denotes when another one is written there.

* `ValueAt`: the place of a value.
* `Elements.place`, `Members.place`: the places of an element and of a named member.
* `ValueAt.trans`: a place in a place.
-/

namespace Rfc8259

variable {β γ : Type} {R : Text → β → Prop} {text : Text} {v : Value}

/-- The value stands in the text, and with another one in its place the text denotes what `put` makes
of that one. -/
def ValueAt (R : Text → β → Prop) (text : Text) (v : Value) (put : Value → β) : Prop :=
  ∃ a t b, text = a ++ (t ++ b) ∧ ValueText t v ∧
    ∀ t' v', ValueText t' v' → R (a ++ (t' ++ b)) (put v')

/-- A place in a text is one in what is written around it. -/
theorem ValueAt.within {S : Text → γ → Prop} {put : Value → β} {f : β → γ} {x y : Text}
    (h : ValueAt R text v put) (hf : ∀ s c, R s c → S (x ++ (s ++ y)) (f c)) :
    ValueAt S (x ++ (text ++ y)) v fun v' => f (put v') := by
  obtain ⟨a, t, b, rfl, hvalue, hput⟩ := h
  refine ⟨x ++ a, t, b ++ y, by simp only [List.append_assoc], hvalue, ?_⟩
  intro t' v' h'
  have hwithin := hf _ _ (hput t' v' h')
  simp only [List.append_assoc] at hwithin ⊢
  exact hwithin

theorem Element.place (h : Element text v) : ValueAt Element text v id := by
  cases h with
  | @mk a t b _ ha hvalue hb => exact ⟨a, t, b, rfl, hvalue, fun t' v' h' => .mk ha h' hb⟩

/-- The place of an element. -/
theorem Elements.place {values : List Value} {i : Nat} (h : Elements text values)
    (hi : values[i]? = some v) : ValueAt Elements text v fun v' => values.set i v' := by
  induction values generalizing text i with
  | nil => cases h
  | cons u values ih =>
    cases i with
    | zero =>
      obtain rfl : u = v := by simpa using hi
      cases h with
      | last helement =>
        have hplace := helement.place.within (S := Elements) (x := []) (y := []) (f := fun v' => [v'])
          fun s v' h' => by simpa using Elements.last h'
        simpa using hplace
      | @cons first rest _ _ helement hrest =>
        exact helement.place.within (x := []) (f := fun v' => v' :: values)
          fun s v' h' => .cons h' hrest
    | succ i =>
      cases h with
      | last helement => simp at hi
      | @cons first rest _ _ helement hrest =>
        have hplace := (ih hrest (by simpa using hi)).within (S := Elements) (x := first ++ [0x2C])
          (y := []) (f := fun values' => u :: values')
          fun s values' h' => by simpa using Elements.cons helement h'
        simpa using hplace

theorem Member.place {k : Text} (h : Member text (k, v)) :
    ValueAt Member text v fun v' => (k, v') := by
  cases h with
  | @mk a key _ b _ _ ha hkey hb helement =>
    have hplace := helement.place.within (S := Member) (x := a ++ (quoted key ++ (b ++ [0x3A])))
      (y := []) (f := fun v' => (k, v')) fun s v' h' => by simpa using Member.mk ha hkey hb h'
    simpa using hplace

/-- The members with another value for the first one of a name. -/
def setMember (k : Text) (v : Value) : List (Text × Value) → List (Text × Value)
  | [] => []
  | (k', u) :: members => if k = k' then (k', v) :: members else (k', u) :: setMember k v members

theorem lookup_setMember {members : List (Text × Value)} {k : Text} {w : Value}
    (hk : members.lookup k = some v) : (setMember k w members).lookup k = some w := by
  induction members with
  | nil => cases hk
  | cons m members ih =>
    obtain ⟨k', u⟩ := m
    by_cases hname : k = k'
    · rw [setMember, if_pos hname, hname, List.lookup_cons_self]
    · have hother : (k == k') = false := beq_eq_false_iff_ne.2 hname
      rw [List.lookup_cons, hother] at hk
      rw [setMember, if_neg hname, List.lookup_cons, hother]
      exact ih hk

/-- The place of the first member of a name. -/
theorem Members.place {members : List (Text × Value)} {k : Text} (h : Members text members)
    (hk : members.lookup k = some v) :
    ValueAt Members text v fun v' => setMember k v' members := by
  induction members generalizing text with
  | nil => cases h
  | cons m members ih =>
    obtain ⟨k', u⟩ := m
    by_cases hname : k = k'
    · subst hname
      obtain rfl : u = v := by simpa using hk
      simp only [setMember, if_true]
      cases h with
      | last hmember =>
        have hplace := hmember.place.within (S := Members) (x := []) (y := [])
          (f := fun m => [m]) fun s m h' => by simpa using Members.last h'
        simpa using hplace
      | @cons first rest _ _ hmember hrest =>
        exact hmember.place.within (x := []) (f := fun m => m :: members)
          fun s m h' => .cons h' hrest
    · have hother : (k == k') = false := beq_eq_false_iff_ne.2 hname
      rw [List.lookup_cons, hother] at hk
      simp only [setMember, if_neg hname]
      cases h with
      | last hmember => cases hk
      | @cons first rest _ _ hmember hrest =>
        have hplace := (ih hrest hk).within (S := Members) (x := first ++ [0x2C]) (y := [])
          (f := fun members' => (k', u) :: members')
          fun s members' h' => by simpa using Members.cons hmember h'
        simpa using hplace

/-- The place of an element of an array. -/
theorem ValueText.place_array {values : List Value} {i : Nat} (h : ValueText text (.array values))
    (hi : values[i]? = some v) : ValueAt ValueText text v fun v' => .array (values.set i v') := by
  cases h with
  | emptyArray => simp at hi
  | array helements =>
    have hplace := (helements.place hi).within (S := ValueText) (x := [0x5B]) (y := [0x5D])
      (f := Value.array) fun s values' h' => .array h'
    simpa using hplace

/-- The place of a member of an object. -/
theorem ValueText.place_object {members : List (Text × Value)} {k : Text}
    (h : ValueText text (.object members)) (hk : members.lookup k = some v) :
    ValueAt ValueText text v fun v' => .object (setMember k v' members) := by
  cases h with
  | emptyObject => cases hk
  | object hmembers =>
    have hplace := (hmembers.place hk).within (S := ValueText) (x := [0x7B]) (y := [0x7D])
      (f := Value.object) fun s members' h' => .object h'
    simpa using hplace

/-- A place in a place. -/
theorem ValueAt.trans {u : Value} {put : Value → β} {put' : Value → Value} (h : ValueAt R text u put)
    (h' : ∀ s, ValueText s u → ValueAt ValueText s v put') :
    ValueAt R text v fun v' => put (put' v') := by
  obtain ⟨a, t, b, rfl, hvalue, hput⟩ := h
  obtain ⟨a', t', b', rfl, hvalue', hput'⟩ := h' t hvalue
  refine ⟨a ++ a', t', b' ++ b, by simp only [List.append_assoc], hvalue', ?_⟩
  intro s w hs
  have hthere := hput _ _ (hput' s w hs)
  simp only [List.append_assoc] at hthere ⊢
  exact hthere

end Rfc8259
