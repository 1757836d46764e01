import HermitMiner.Rfc8259.Unique

/-!
# The members in a value

All members of a JSON value, at any depth, in the order in which its text has them.

* `fields`: the members, each with its value.
* `Ended`: what can follow a value.
-/

namespace Rfc8259

mutual

/-- The members in a value, at any depth, in the order of the text. -/
def fields : Value → List (Text × Value)
  | .array values => fieldsOfValues values
  | .object members => fieldsOfMembers members
  | _ => []

def fieldsOfValues : List Value → List (Text × Value)
  | [] => []
  | v :: values => fields v ++ fieldsOfValues values

def fieldsOfMembers : List (Text × Value) → List (Text × Value)
  | [] => []
  | (k, v) :: members => (k, v) :: (fields v ++ fieldsOfMembers members)

end

/-- What ends a value, after white space: a comma, a bracket or nothing. -/
def Ended (rest : Text) : Prop :=
  ∃ a tail, rest = a ++ tail ∧ Ws a ∧ ∀ c ∈ tail.head?, c = 0x2C ∨ c = 0x5D ∨ c = 0x7D

theorem ended_nil : Ended [] := ⟨[], [], rfl, List.forall_mem_nil _, by simp⟩

theorem ended_cons {c : UInt8} (hc : c = 0x2C ∨ c = 0x5D ∨ c = 0x7D) (rest : Text) :
    Ended (c :: rest) := by
  refine ⟨[], c :: rest, rfl, List.forall_mem_nil _, ?_⟩
  rintro _ ⟨⟩
  exact hc

theorem Ended.ws_append {a rest : Text} (ha : Ws a) (h : Ended rest) : Ended (a ++ rest) := by
  obtain ⟨b, tail, rfl, hb, htail⟩ := h
  refine ⟨a ++ b, tail, (List.append_assoc a b tail).symm, ?_, htail⟩
  exact List.forall_mem_append.2 ⟨ha, hb⟩

end Rfc8259
