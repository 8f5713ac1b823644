/-! Loops that need not end. -/
namespace ScriptLift

variable {σ ρ : Type} {step : σ → Option (σ ⊕ ρ)} {start : σ} {result : ρ}

/-- Finitely many steps lead from a state to a result. A step goes on to a state or stops with a result;
one that does not return leads to neither. -/
inductive Concludes (step : σ → Option (σ ⊕ ρ)) : σ → ρ → Prop where
  | stop {state : σ} {result : ρ} (h : step state = some (.inr result)) : Concludes step state result
  | next {state next : σ} {result : ρ} (h : step state = some (.inl next))
    (hrest : Concludes step next result) : Concludes step state result

/-- A state of a loop from `start`: whatever it leads to, `start` does. -/
structure Looping (step : σ → Option (σ ⊕ ρ)) (start : σ) where
  state : σ
  leads : ∀ result, Concludes step state result → Concludes step start result

namespace Looping

def begin (step : σ → Option (σ ⊕ ρ)) (start : σ) : Looping step start := ⟨start, fun _ h => h⟩

def advance (here : Looping step start) :
    Looping step start ⊕ Option { result // Concludes step start result } :=
  match h : step here.state with
  | none => .inr none
  | some (.inl next) => .inl ⟨next, fun result hrest => here.leads result (.next h hrest)⟩
  | some (.inr result) => .inr (some ⟨result, here.leads result (.stop h)⟩)

/-- The answer comes with the steps that lead to it. -/
def answer : Looping step start → Option { result // Concludes step start result } :=
  repeatM (m := Id) advance

end Looping

/-- Repeats a step until it stops. There is no answer if it never does, or if a step does not return. -/
def loop (step : σ → Option (σ ⊕ ρ)) (start : σ) : Option ρ :=
  (Looping.begin step start).answer.map (·.1)

namespace Looping

variable {here : Looping step start}

theorem advance_of_stop (h : step here.state = some (.inr result)) :
    here.advance = .inr (some ⟨result, here.leads result (.stop h)⟩) := by
  unfold advance
  split
  · next heq => cases heq.symm.trans h
  · next heq => cases heq.symm.trans h
  · next heq =>
    cases heq.symm.trans h
    rfl

theorem advance_of_next {next : σ} (h : step here.state = some (.inl next)) :
    here.advance = .inl ⟨next, fun result hrest => here.leads result (.next h hrest)⟩ := by
  unfold advance
  split
  · next heq => cases heq.symm.trans h
  · next heq =>
    cases heq.symm.trans h
    rfl
  · next heq => cases heq.symm.trans h

theorem answer_eq (here : Looping step start) :
    here.answer = match here.advance with
      | .inl next => next.answer
      | .inr answer => answer := by
  rw [answer, repeatM_eq_of_monadTail, repeatM.body]
  cases here.advance with
  | inl next => rfl
  | inr answer => rfl

theorem answer_of_concludes {state : σ} (h : Concludes step state result)
    (hleads : ∀ result, Concludes step state result → Concludes step start result) :
    (⟨state, hleads⟩ : Looping step start).answer = some ⟨result, hleads result h⟩ := by
  induction h with
  | stop h => rw [answer_eq, advance_of_stop h]
  | next h _ ih =>
    rw [answer_eq, advance_of_next h]
    exact ih _

end Looping

theorem loop_eq_some_iff : loop step start = some result ↔ Concludes step start result := by
  constructor
  · intro h
    obtain ⟨⟨result, hresult⟩, -, rfl⟩ := Option.map_eq_some_iff.1 h
    exact hresult
  · intro h
    exact congrArg (Option.map (·.1)) (Looping.answer_of_concludes h fun _ h => h)

theorem loop_eq (step : σ → Option (σ ⊕ ρ)) (start : σ) :
    loop step start = match step start with
      | none => none
      | some (.inl next) => loop step next
      | some (.inr result) => some result := by
  refine Option.ext fun result => ?_
  rw [loop_eq_some_iff]
  constructor
  · rintro (h | ⟨h, hrest⟩)
    · rw [h]
    · rw [h]
      exact loop_eq_some_iff.2 hrest
  · intro h
    split at h
    · cases h
    · next hstep => exact .next hstep (loop_eq_some_iff.1 h)
    · next hstep =>
      cases h
      exact .stop hstep

end ScriptLift
