import ScriptLift.Proofs.Lift.Refusals

namespace ScriptLift

variable {script : Script} {settings : LiftSettings} {m later : Machine} {depth fuel : Nat}

namespace Machine

theorem Apart.length_le {callers : List Activation} {base : Tree} (h : m.Apart callers base) :
    callers.length ≤ m.active.length := by
  obtain ⟨inner, hactive, -⟩ := h.active
  rw [hactive, List.length_append]
  exact Nat.le_add_left _ _

theorem Apart.active_eq {callers : List Activation} {base : Tree} (h : m.Apart callers base)
    (hlength : m.active.length ≤ callers.length) : m.active = callers := by
  obtain ⟨inner, hactive, -⟩ := h.active
  rw [hactive, List.length_append] at hlength
  have hinner : inner = [] := List.eq_nil_of_length_eq_zero (by omega)
  rw [hactive, hinner, List.nil_append]

/-- Moves until no more than `depth` subroutines are in progress, if `fuel` moves are enough. -/
def descend (script : Script) (settings : LiftSettings) (depth : Nat) :
    Nat → Machine → Option Machine
  | 0, _ => none
  | fuel + 1, m =>
    if depth < m.active.length then
      match m.tick script settings with
      | .ok (some next) => descend script settings depth fuel next
      | _ => none
    else some m

theorem above_of_descend (h : m.descend script settings depth fuel = some later) :
    Above script settings depth m later ∧ later.active.length ≤ depth := by
  induction fuel generalizing m with
  | zero => cases h
  | succ fuel ih =>
    rw [descend] at h
    split at h
    · next hlt =>
      split at h
      · next next htick =>
        obtain ⟨habove, hle⟩ := ih h
        exact ⟨.head ⟨hlt, htick⟩ habove, hle⟩
      · cases h
    · next hle =>
      cases h
      exact ⟨.refl, Nat.le_of_not_lt hle⟩

end Machine

namespace Visit

variable {visit : Visit} {target : Nat}

theorem length_le_of_above
    (habove : Machine.Above script settings (visit.act :: visit.callers).length
      (visit.begun m target) later) :
    (visit.act :: visit.callers).length ≤ later.active.length :=
  ((apart_begun target).above habove).length_le

/-- The caller stands where it stood; only the last offset it reached is noted. -/
theorem active_of_above
    (habove : Machine.Above script settings (visit.act :: visit.callers).length
      (visit.begun m target) later)
    (hlength : later.active.length ≤ (visit.act :: visit.callers).length) :
    later.active =
      { visit.act with last := max visit.act.last visit.walk.offset } :: visit.callers :=
  ((apart_begun target).above habove).active_eq hlength

end Visit

theorem Site.execute_unknown {site : Site} {callees : List (Nat × SubId)} {ws : Workspace}
    (hop : site.ins.opcode.operation = .call) (hnone : callees.lookup site.ins.target = none) :
    site.execute script callees ws = .ok (.enter site.ins.target) ws := by
  simp only [execute, hop, hnone]
  rfl

namespace Lift

variable {program : Program} {routines : Routines} {count : Nat} {visit : Visit}

def accepts {α : Type} (x : Lift α) (ws : Workspace) : Bool :=
  match x ws with
  | .ok _ _ => true
  | .error _ _ => false

theorem exists_of_accepts {α : Type} (x : Lift α) (ws : Workspace) (h : accepts x ws) :
    ∃ a ws', x ws = .ok a ws' := by
  unfold accepts at h
  split at h
  · next a ws' hrun => exact ⟨a, ws', hrun⟩
  · cases h

/-- The call that is executed next behind `count` moves, if its subroutine is unknown, and the machine
once that is lifted, if `fuel` moves are enough for it. -/
def descentAt (program : Program) (routines : Routines) (settings : LiftSettings)
    (count fuel : Nat) : Option (Machine × Visit × Machine) :=
  (stage program routines settings count).bind fun m => (m.visit? program).bind fun visit =>
    if visit.ins.opcode.operation = .call ∧ m.callees.lookup visit.ins.target = none then
      ((visit.begun m visit.ins.target).descend (Lift.script program routines) settings
        (visit.act :: visit.callers).length fuel).map fun later => (m, visit, later)
    else none

theorem descentAt_eq_some
    (h : descentAt program routines settings count fuel = some (m, visit, later)) :
    stage program routines settings count = some m ∧ m.visit? program = some visit ∧
      visit.ins.opcode.operation = .call ∧ m.callees.lookup visit.ins.target = none ∧
      Machine.Above (Lift.script program routines) settings (visit.act :: visit.callers).length
        (visit.begun m visit.ins.target) later ∧
      later.active.length = (visit.act :: visit.callers).length := by
  obtain ⟨m, hstage, h⟩ := Option.bind_eq_some_iff.1 h
  obtain ⟨visit, hvisit, h⟩ := Option.bind_eq_some_iff.1 h
  split at h
  · next hcall =>
    obtain ⟨later, hdescend, heq⟩ := Option.map_eq_some_iff.1 h
    cases heq
    obtain ⟨habove, hle⟩ := Machine.above_of_descend hdescend
    exact ⟨hstage, hvisit, hcall.1, hcall.2, habove,
      Nat.le_antisymm hle (Visit.length_le_of_above habove)⟩
  · cases h

end Lift

end ScriptLift
