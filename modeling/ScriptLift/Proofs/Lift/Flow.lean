import Mathlib.Logic.Relation
import ScriptLift.Proofs.Lift.Moves

namespace ScriptLift

namespace Program

variable (program : Program)

/-- Offsets that control may come to from an instruction. A call comes back, and a saved state
resumes behind the jump that follows it. -/
def successors (ins : Instruction) : List Nat :=
  match ins.opcode.operation with
  | .ret => []
  | .jump => [ins.target]
  | .branch | .call => [ins.next, ins.target]
  | .storeState => ins.next :: ((program.at? ins.next).map (·.next)).toList
  | _ => [ins.next]

def Leads (a b : Nat) : Prop := ∃ ins, program.at? a = some ins ∧ b ∈ program.successors ins

def Reaches : Nat → Nat → Prop := Relation.ReflTransGen program.Leads

end Program

namespace Site

variable {site : Site} {script : Script} {callees : List (Nat × SubId)} {ws ws' : Workspace}
  {offset : Nat}

theorem Asks.mem_successors (h : site.Asks script.program offset) :
    offset ∈ script.program.successors site.ins := by
  rcases h with ⟨hop, rfl⟩ | ⟨hop, jump, hjump, rfl⟩
  · simp [Program.successors, hop]
  · simp [Program.successors, hop, hjump]

theorem onward_next {handler : Lift Unit} (h : site.onward handler ws = .ok (.next offset) ws') :
    offset = site.ins.next := by
  obtain ⟨_, _, _, h⟩ := Lift.bind_eq_ok h
  cases h
  rfl

theorem jump_next {labels : List (Nat × NodeId)}
    (h : site.jump labels ws = .ok (.next offset) ws') : offset = site.ins.target := by
  unfold jump at h
  split at h
  · cases h
    rfl
  · obtain ⟨_, _, _, h⟩ := Lift.bind_eq_ok h
    cases h

theorem visit_next (h : site.visit script callees ws = .ok (.next offset) ws') :
    offset ∈ script.program.successors site.ins := by
  obtain ⟨_, _, _, h⟩ := Lift.bind_eq_ok h
  unfold Program.successors
  cases hop : site.ins.opcode.operation <;> simp only [execute, hop] at h ⊢
  case ret =>
    obtain ⟨_, _, _, h⟩ := Lift.bind_eq_ok h
    cases h
  case jump => exact List.mem_singleton.2 (jump_next h)
  case call =>
    cases hc : callees.lookup site.ins.target with
    | some callee =>
      simp only [hc] at h
      exact List.mem_cons.2 (.inl (onward_next h))
    | none =>
      simp only [hc] at h
      cases h
  all_goals exact List.mem_cons.2 (.inl (onward_next h))

/-- The block asked for is an old one, or starts at a successor of the instruction. -/
def Spawns (site : Site) (program : Program) (a b : Workspace) : Prop :=
  ∀ job, b.spawned = some job → a.spawned = some job ∨ job.start ∈ program.successors site.ins

theorem closed_spawns (site : Site) (script : Script) :
    site.Closed script (site.Spawns script.program) where
  refl _ _ h := .inl h
  trans hab hbc job h := (hbc job h).elim (hab job) .inr
  alloc _ _ _ _ h := .inl h
  record _ _ _ _ h := .inl h
  label _ _ _ _ _ h := .inl h
  jump _ _ _ h := .inl h
  schedule _ _ hasks job h := by
    cases h
    exact .inr hasks.mem_successors
  slot _ _ _ _ h := .inl h
  outer _ _ _ h := .inl h
  context _ _ _ _ h := .inl h
  warn _ _ _ h := .inl h

theorem visit_spawns (site : Site) (script : Script) (callees : List (Nat × SubId)) :
    Lift.Keeps (site.Spawns script.program) (site.visit script callees) :=
  (site.closed_spawns script).keeps_visit callees
    (fun _ callee _ => (site.closed_spawns script).keeps_call callee fun _ _ _ h => .inl h)
    fun _ _ _ h => .inl h

end Site

/-- All that a subroutine in progress comes to, and has still to come to, is reached from its
entry. -/
structure Activation.Flows (program : Program) (act : Activation) : Prop where
  walk : ∀ walk ∈ act.walk, program.Reaches act.entry walk.offset
  work : ∀ job ∈ act.work, program.Reaches act.entry job.start

namespace Activation.Flows

variable {program : Program} {act : Activation}

theorem start (program : Program) (sub : SubId) (entry : Nat) (root : NodeId) (context : Context) :
    (Activation.start sub entry root context).Flows program where
  walk := by simp [Activation.start]
  work job hjob := by
    rw [List.mem_singleton.1 hjob]
    exact .refl

theorem halt (h : act.Flows program) : { act with walk := none }.Flows program :=
  ⟨by simp, h.work⟩

theorem visited (h : act.Flows program) {walk : Walk} (hwalk : act.walk = some walk)
    {site : Site} (hat : program.at? walk.offset = some site.ins) {context : Context}
    {tree : Tree} {ws : Workspace} {last : Nat}
    (hspawns : site.Spawns program ⟨tree, context, act.outer, act.blocks, none⟩ ws)
    {onward : Option Walk} (honward : ∀ w ∈ onward, w.offset ∈ program.successors site.ins) :
    { Machine.commit { act with last } ws with walk := onward }.Flows program := by
  have hreach : ∀ offset ∈ program.successors site.ins, program.Reaches act.entry offset :=
    fun offset hoffset => (h.walk walk hwalk).tail ⟨site.ins, hat, hoffset⟩
  refine ⟨fun w hw => hreach _ (honward w hw), fun job hjob => ?_⟩
  rcases Machine.mem_work_commit.1 hjob with hspawned | hjob
  · rcases hspawns job hspawned with hnone | hnew
    · cases hnone
    · exact hreach _ hnew
  · exact h.work job hjob

end Activation.Flows

namespace Machine

variable {script : Script} {settings : LiftSettings} {m m' : Machine}

/-- The machine follows the control flow of its program. -/
structure Flows (script : Script) (m : Machine) : Prop where
  each : ∀ act ∈ m.active, act.Flows script.program
  nested : m.active.Pairwise fun inner outer => script.program.Reaches outer.entry inner.entry

namespace Flows

variable {act act' : Activation} {callers : List Activation}

theorem head (h : m.Flows script) (hactive : m.active = act :: callers) :
    act.Flows script.program :=
  h.each act (first_mem hactive)

theorem reaches_head (h : m.Flows script) (hactive : m.active = act :: callers)
    {other : Activation} (hother : other ∈ m.active) :
    script.program.Reaches other.entry act.entry := by
  have hnested := h.nested
  rw [hactive] at hother hnested
  rcases List.mem_cons.1 hother with rfl | hother
  · exact .refl
  · exact (List.pairwise_cons.1 hnested).1 other hother

theorem goesOn (h : m.Flows script) (hactive : m.active = act :: callers)
    (hactive' : m'.active = act' :: callers) (hentry : act'.entry = act.entry)
    (hact : act'.Flows script.program) : m'.Flows script := by
  obtain ⟨heach, hnested⟩ := h
  rw [hactive] at heach hnested
  refine ⟨fun other hother => ?_, ?_⟩
  · rw [hactive'] at hother
    rcases List.mem_cons.1 hother with rfl | hother
    · exact hact
    · exact heach other (List.mem_cons_of_mem _ hother)
  · rw [hactive']
    refine List.pairwise_cons.2 ⟨?_, (List.pairwise_cons.1 hnested).2⟩
    rw [hentry]
    exact (List.pairwise_cons.1 hnested).1

theorem begin (h : m.Flows script) (name : String) {entry : Nat} (context : SubId → Context)
    (hentry : ∀ act ∈ m.active, script.program.Reaches act.entry entry) :
    (m.begin name entry context).Flows script := by
  refine ⟨fun act hact => ?_, List.pairwise_cons.2 ⟨hentry, h.nested⟩⟩
  rcases List.mem_cons.1 hact with rfl | hact
  · exact .start ..
  · exact h.each act hact

end Flows

theorem Move.flows (h : Move script settings m m') (hm : m.Flows script) : m'.Flows script := by
  cases h with
  | @finish act callers hact =>
    obtain ⟨heach, hnested⟩ := hm
    rw [hact] at heach hnested
    exact ⟨fun other hother => heach other (List.mem_cons_of_mem _ hother),
      (List.pairwise_cons.1 hnested).2⟩
  | @skip act callers job work hact _ hwork =>
    have hhead := hm.head hact
    have hjobs := hwork ▸ hhead.work
    exact hm.goesOn hact rfl rfl
      ⟨hhead.walk, fun other hother => hjobs other (List.mem_cons_of_mem _ hother)⟩
  | @start act callers job work hact _ hwork =>
    have hjobs := hwork ▸ (hm.head hact).work
    refine hm.goesOn hact rfl rfl
      ⟨fun walk hwalk => ?_, fun other hother => hjobs other (List.mem_cons_of_mem _ hother)⟩
    cases hwalk
    exact hjobs job List.mem_cons_self
  | leave hact => exact hm.goesOn hact rfl rfl (hm.head hact).halt
  | lost hact => exact hm.goesOn hact rfl rfl (hm.head hact).halt
  | next hact hwalk hat hrun =>
    refine hm.goesOn hact rfl rfl ((hm.head hact).visited hwalk hat
      ((Site.visit_spawns _ _ _).ok hrun) fun w hw => ?_)
    cases hw
    exact Site.visit_next hrun
  | stop hact hwalk hat hrun =>
    exact hm.goesOn hact rfl rfl ((hm.head hact).visited hwalk hat
      ((Site.visit_spawns _ _ _).ok hrun) (by simp))
  | @enter act callers walk ins target ws hact hwalk hat hrun =>
    obtain ⟨hop, htarget, -⟩ := Site.visit_enter hrun
    have hleads : script.program.Leads walk.offset target :=
      ⟨ins, hat,
        by simp [Program.successors, show ins.opcode.operation = .call from hop, ← htarget]⟩
    have hhead := hm.head hact
    have hlast : Flows script
        { m with active := { act with last := max act.last walk.offset } :: callers } :=
      hm.goesOn hact rfl rfl ⟨hhead.walk, hhead.work⟩
    refine hlast.begin "" walk.context.enter fun other hother => ?_
    exact ((hlast.reaches_head rfl hother).trans (hhead.walk walk hwalk)).tail hleads
  | fault hact hwalk hat hrun =>
    exact hm.goesOn hact rfl rfl ((hm.head hact).visited hwalk hat
      ((Site.visit_spawns _ _ _).error hrun) (by simp))

end Machine

theorem Lift.start_flows (program : Program) (routines : Routines) :
    (Lift.start (Lift.labels program).1).Flows (Lift.script program routines) := by
  have hempty : Machine.Flows (Lift.script program routines) ⟨(Lift.labels program).1, [], []⟩ :=
    ⟨by simp, List.Pairwise.nil⟩
  exact hempty.begin startName Context.entering (by simp)

end ScriptLift
