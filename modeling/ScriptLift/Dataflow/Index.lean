namespace ScriptLift

/-- Rows grow with the largest number that was used. -/
structure Index (α : Type) where
  rows : Array (List α) := #[]
  deriving DecidableEq

namespace Index

variable {α : Type}

def get (index : Index α) (i : Nat) : List α := index.rows.getD i []

def add (index : Index α) (i : Nat) (x : α) : Index α :=
  let rows := index.rows ++ Array.replicate (i + 1 - index.rows.size) []
  { rows := rows.modify i (· ++ [x]) }

theorem get_empty (i : Nat) : ({} : Index α).get i = [] := by
  simp [get]

theorem get_add (index : Index α) (i j : Nat) (x : α) :
    (index.add i x).get j = index.get j ++ if i = j then [x] else [] := by
  simp only [get, add, Array.getD_eq_getD_getElem?, Array.getElem?_modify]
  by_cases hj : j < index.rows.size
  · by_cases hij : i = j <;>
      simp [Array.getElem?_append_left hj, hij, Array.getElem?_eq_getElem hj]
  · by_cases hij : i = j
    · subst hij
      have hlt : i - index.rows.size < i + 1 - index.rows.size := by omega
      simp [Array.getElem?_append_right (Nat.le_of_not_lt hj), hlt,
        Array.getElem?_eq_none (Nat.le_of_not_lt hj)]
    · simp only [hij, if_false, Array.getElem?_append_right (Nat.le_of_not_lt hj),
        Array.getElem?_replicate, Array.getElem?_eq_none (Nat.le_of_not_lt hj)]
      split <;> simp

end Index

end ScriptLift
