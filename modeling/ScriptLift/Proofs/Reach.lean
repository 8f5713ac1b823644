import Mathlib.Data.Finset.Card
import Mathlib.Data.Finset.Union
import Mathlib.Logic.Relation
import Mathlib.Order.Monotone.Basic

namespace ScriptLift.Reach

section Ends

variable {α : Type} {r r' : α → α → Prop} {a b : α}

theorem not_cycle_of_acc (h : Acc (Function.swap r) a) : ¬Relation.TransGen r a a := by
  have htrans := h.transGen
  clear h
  induction htrans with
  | intro x _ ih =>
    intro hcycle
    exact ih x (Relation.transGen_swap.2 hcycle) hcycle

theorem acc_of_reaches (h : Acc (Function.swap r) a) (hab : Relation.ReflTransGen r a b) :
    Acc (Function.swap r) b := by
  induction hab with
  | refl => exact h
  | tail _ hstep ih => exact ih.inv hstep

theorem acc_of_shorter (hr : ∀ x y, r' x y → Relation.TransGen r x y)
    (h : Acc (Function.swap r) a) : Acc (Function.swap r') a :=
  Subrelation.accessible (fun hstep => Relation.transGen_swap.2 (hr _ _ hstep)) h.transGen

theorem exists_step_of_cycle (hcycle : Relation.TransGen r a a) (h : ¬Relation.TransGen r' a a) :
    ∃ x y, Relation.ReflTransGen r a x ∧ r x y ∧ Relation.ReflTransGen r y a ∧ ¬r' x y := by
  by_contra hnone
  push Not at hnone
  have hsame : ∀ b, Relation.TransGen r a b → Relation.ReflTransGen r b a →
      Relation.TransGen r' a b := by
    intro b hab hba
    induction hab with
    | single hstep => exact .single (hnone a _ .refl hstep hba)
    | tail hab hstep ih =>
      exact (ih (.head hstep hba)).tail (hnone _ _ hab.to_reflTransGen hstep hba)
  exact h (hsame a hcycle .refl)

theorem acc_of_below (hr : ∀ x y, Relation.ReflTransGen r a x → r' x y → r x y)
    (h : Acc (Function.swap r) a) : Acc (Function.swap r') a := by
  induction h with
  | intro x _ ih =>
    refine Acc.intro x fun y hy => ?_
    have hstep := hr x y .refl hy
    exact ih y hstep fun z w hz => hr z w (.head hstep hz)

theorem acc_of_added (hr : ∀ x y, r' x y → r x y ∨ Acc (Function.swap r') y)
    (h : Acc (Function.swap r) a) : Acc (Function.swap r') a := by
  induction h with
  | intro x _ ih =>
    refine Acc.intro x fun y hy => ?_
    rcases hr x y hy with hstep | hacc
    · exact ih y hstep
    · exact hacc

end Ends

variable {α : Type} [DecidableEq α] (next : α → Finset α)

def widen (nodes : Finset α) : Finset α := nodes ∪ nodes.biUnion next

variable {next} {a b : α}

theorem subset_widen (steps : Nat) :
    (widen next)^[steps] {a} ⊆ (widen next)^[steps + 1] {a} := by
  rw [Function.iterate_succ_apply']
  exact Finset.subset_union_left

theorem reflTransGen_of_mem_iterate {steps : Nat} (h : b ∈ (widen next)^[steps] {a}) :
    Relation.ReflTransGen (fun x y => y ∈ next x) a b := by
  induction steps generalizing b with
  | zero =>
    obtain rfl : b = a := by simpa using h
    exact .refl
  | succ steps ih =>
    rw [Function.iterate_succ_apply', widen, Finset.mem_union, Finset.mem_biUnion] at h
    rcases h with h | ⟨mid, hmid, hnext⟩
    · exact ih h
    · exact (ih hmid).tail hnext

theorem iterate_subset {all : Finset α} (ha : a ∈ all) (hall : ∀ x ∈ all, next x ⊆ all)
    (steps : Nat) : (widen next)^[steps] {a} ⊆ all := by
  induction steps with
  | zero => simpa using ha
  | succ steps ih =>
    rw [Function.iterate_succ_apply', widen]
    exact Finset.union_subset ih (Finset.biUnion_subset.2 fun x hx => hall x (ih hx))

theorem widen_iterate {all : Finset α} (ha : a ∈ all) (hall : ∀ x ∈ all, next x ⊆ all)
    {steps : Nat} (hsteps : all.card ≤ steps) :
    widen next ((widen next)^[steps] {a}) = (widen next)^[steps] {a} := by
  have hstable := Nat.stabilises_of_monotone (f := fun k => ((widen next)^[k] {a}).card)
    (b := steps) (n := steps + 1)
    (monotone_nat_of_le_succ fun k => Finset.card_le_card (subset_widen k))
    (fun k => (Finset.card_le_card (iterate_subset ha hall k)).trans hsteps)
    (fun k hk => by
      have heq := Finset.eq_of_subset_of_card_le (subset_widen k) hk.ge
      rw [Function.iterate_succ_apply' (widen next) (k + 1), ← heq,
        ← Function.iterate_succ_apply' (widen next) k, ← heq])
    (Nat.le_succ _)
  have heq := Finset.eq_of_subset_of_card_le (subset_widen steps) hstable.le
  rw [← Function.iterate_succ_apply' (widen next) steps, ← heq]

theorem mem_iterate_iff {all : Finset α} (ha : a ∈ all) (hall : ∀ x ∈ all, next x ⊆ all)
    {steps : Nat} (hsteps : all.card ≤ steps) :
    b ∈ (widen next)^[steps] {a} ↔ Relation.ReflTransGen (fun x y => y ∈ next x) a b := by
  refine ⟨reflTransGen_of_mem_iterate, fun h => ?_⟩
  induction h with
  | refl =>
    have hself : ∀ k, a ∈ (widen next)^[k] {a} := by
      intro k
      induction k with
      | zero => simp
      | succ k ih => exact subset_widen k ih
    exact hself steps
  | tail _ hnext ih =>
    rw [← widen_iterate ha hall hsteps, widen]
    exact Finset.mem_union_right _ (Finset.mem_biUnion.2 ⟨_, ih, hnext⟩)

theorem card_iterate_lt {all : Finset α} (ha : a ∈ all) (hall : ∀ x ∈ all, next x ⊆ all)
    {steps : Nat} (hsteps : all.card ≤ steps)
    (hab : Relation.ReflTransGen (fun x y => y ∈ next x) a b)
    (hba : ¬Relation.ReflTransGen (fun x y => y ∈ next x) b a) :
    ((widen next)^[steps] {b}).card < ((widen next)^[steps] {a}).card := by
  have hb : b ∈ all := iterate_subset ha hall steps ((mem_iterate_iff ha hall hsteps).2 hab)
  refine Finset.card_lt_card (Finset.ssubset_iff_subset_ne.2 ⟨fun x hx => ?_, fun heq => hba ?_⟩)
  · exact (mem_iterate_iff ha hall hsteps).2 (hab.trans ((mem_iterate_iff hb hall hsteps).1 hx))
  · have hself : a ∈ (widen next)^[steps] {a} := (mem_iterate_iff ha hall hsteps).2 .refl
    exact (mem_iterate_iff hb hall hsteps).1 (heq ▸ hself)

theorem acc_of_acyclic {all : Finset α} (ha : a ∈ all) (hall : ∀ x ∈ all, next x ⊆ all)
    (h : ∀ x, Relation.ReflTransGen (fun x y => y ∈ next x) a x →
      ¬Relation.TransGen (fun x y => y ∈ next x) x x) :
    Acc (Function.swap fun x y => y ∈ next x) a := by
  induction hcard : ((widen next)^[all.card] {a}).card using Nat.strong_induction_on
    generalizing a with
  | _ card ih =>
    refine Acc.intro a fun b hb => ?_
    have hstep : Relation.ReflTransGen (fun x y => y ∈ next x) a b := .single hb
    have hback : ¬Relation.ReflTransGen (fun x y => y ∈ next x) b a :=
      fun hback => h a .refl (Relation.TransGen.head' hb hback)
    have hless := card_iterate_lt ha hall (Nat.le_refl _) hstep hback
    exact ih _ (hcard ▸ hless) (hall a ha hb) (fun x hx => h x (hstep.trans hx)) rfl

end ScriptLift.Reach
