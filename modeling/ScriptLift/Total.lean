namespace ScriptLift

def total {α : Type} (f : α → Nat) (xs : List α) : Nat := xs.foldr (fun x sum => f x + sum) 0

variable {α : Type} {f g : α → Nat} {xs : List α}

@[simp] theorem total_nil (f : α → Nat) : total f [] = 0 := rfl

@[simp] theorem total_cons (f : α → Nat) (x : α) (xs : List α) :
    total f (x :: xs) = f x + total f xs := rfl

@[simp] theorem total_append (f : α → Nat) (xs ys : List α) :
    total f (xs ++ ys) = total f xs + total f ys := by
  induction xs with
  | nil => simp
  | cons x xs ih =>
    simp only [List.cons_append, total_cons, ih]
    omega

theorem total_map {β : Type} (f : β → Nat) (g : α → β) (xs : List α) :
    total f (xs.map g) = total (fun x => f (g x)) xs :=
  List.foldr_map

theorem total_le_total (xs : List α) (h : ∀ x, g x ≤ f x) : total g xs ≤ total f xs := by
  induction xs with
  | nil => exact Nat.le_refl _
  | cons x xs ih => exact Nat.add_le_add (h x) ih

theorem add_total_le_total {x : α} (hx : x ∈ xs) (hzero : g x = 0) (h : ∀ y, g y ≤ f y) :
    f x + total g xs ≤ total f xs := by
  induction xs with
  | nil => cases hx
  | cons y xs ih =>
    simp only [total_cons]
    rcases List.mem_cons.1 hx with rfl | hmem
    · have := total_le_total xs h
      omega
    · have := ih hmem
      have := h y
      omega

end ScriptLift
