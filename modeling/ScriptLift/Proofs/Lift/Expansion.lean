import ScriptLift.Proofs.Lift.Arguments
import ScriptLift.Proofs.Lift.Termination

/-! Every block that is asked for is begun once.

A subroutine in progress keeps a table of its blocks, the keys of those that it has begun, and a list
of those that wait. Every entry of the table is begun or waits, never both, so a block that is taken
up has not been begun before, and none is left when the subroutine is. -/
namespace ScriptLift

namespace Machine

variable {script : Script} {m : Machine} {sub : SubId} {job : Job} {block : NodeId}

/-- The block that waits first, once the innermost walk has ended. -/
def waiting? (m : Machine) : Option (Activation × Job) :=
  match m.active with
  | act :: _ =>
    match act.walk, act.work with
    | none, job :: _ => some (act, job)
    | _, _ => none
  | [] => none

/-- The block that is begun next, and the subroutine it belongs to. -/
def begins? (m : Machine) : Option (SubId × Job) :=
  (m.waiting?.filter fun (act, job) => !act.done.contains job.key).map fun (act, job) => (act.sub, job)

/-- The block that is dropped next, as one with its key has been begun. -/
def skips? (m : Machine) : Option (SubId × Job) :=
  (m.waiting?.filter fun (act, job) => act.done.contains job.key).map fun (act, job) => (act.sub, job)

/-- The block that the next instruction is given for what it asks for: the one in the table, where a
new one has been entered. -/
def schedules? (script : Script) (m : Machine) : Option (SubId × NodeId) :=
  (m.visit? script.program).bind fun visit =>
    (visit.ins.request? script.program visit.walk.context).bind fun (offset, ctx) =>
      ((visit.outcome script m).blocks.lookup (offset, ctx.depth)).map fun block =>
        (visit.act.sub, block)

theorem waiting?_eq_some {act : Activation} : m.waiting? = some (act, job) ↔
    ∃ callers work, m.active = act :: callers ∧ act.walk = none ∧ act.work = job :: work := by
  unfold waiting?
  constructor
  · intro h
    split at h
    · next callers hactive =>
      split at h
      · next work hwalk hwork =>
        cases h
        exact ⟨callers, work, hactive, hwalk, hwork⟩
      · cases h
    · cases h
  · rintro ⟨callers, work, hactive, hwalk, hwork⟩
    simp [hactive, hwalk, hwork]

theorem begins?_eq_some : m.begins? = some (sub, job) ↔
    ∃ act, m.waiting? = some (act, job) ∧ job.key ∉ act.done ∧ act.sub = sub := by
  simp [begins?, Option.filter_eq_some_iff, and_assoc]

theorem skips?_eq_some : m.skips? = some (sub, job) ↔
    ∃ act, m.waiting? = some (act, job) ∧ job.key ∈ act.done ∧ act.sub = sub := by
  simp [skips?, Option.filter_eq_some_iff, and_assoc]

theorem schedules?_eq_some : m.schedules? script = some (sub, block) ↔
    ∃ visit offset ctx, m.visit? script.program = some visit ∧
      visit.ins.request? script.program visit.walk.context = some (offset, ctx) ∧
      (visit.outcome script m).blocks.lookup (offset, ctx.depth) = some block ∧
      visit.act.sub = sub := by
  simp [schedules?, Option.bind_eq_some_iff]

theorem head_of_begins? (h : m.begins? = some (sub, job)) :
    m.active.head?.map (·.sub) = some sub := by
  obtain ⟨act, hwaiting, -, rfl⟩ := begins?_eq_some.1 h
  obtain ⟨callers, work, hactive, -, -⟩ := waiting?_eq_some.1 hwaiting
  simp [hactive]

theorem head_of_schedules? (h : m.schedules? script = some (sub, block)) :
    m.active.head?.map (·.sub) = some sub := by
  obtain ⟨visit, _, _, hvisit, -, -, rfl⟩ := schedules?_eq_some.1 h
  simp [(visit?_eq_some.1 hvisit).1]

theorem begins?_of_walk {act : Activation} {callers : List Activation} {walk : Walk}
    (hactive : m.active = act :: callers) (hwalk : act.walk = some walk) : m.begins? = none := by
  simp [begins?, waiting?, hactive, hwalk]

theorem schedules?_of_visit (h : m.visit? script.program = none) : m.schedules? script = none := by
  simp [schedules?, h]

end Machine

namespace Lift

variable {α : Type} (program : Program) (routines : Routines) (settings : LiftSettings)

/-- What `event` tells of a machine, it told of one before this move. -/
def Past (event : Machine → Option (SubId × α)) (count : Nat) (sub : SubId) (a : α) : Prop :=
  ∃ earlier n, earlier < count ∧ stage program routines settings earlier = some n ∧
    event n = some (sub, a)

variable {program routines settings} {count : Nat} {m m' : Machine} {sub : SubId} {a : α}
  {event : Machine → Option (SubId × α)}

namespace Past

theorem mono {later : Nat} (h : Past program routines settings event count sub a)
    (hle : count ≤ later) : Past program routines settings event later sub a := by
  obtain ⟨earlier, n, hlt, hstage, hevent⟩ := h
  exact ⟨earlier, n, Nat.lt_of_lt_of_le hlt hle, hstage, hevent⟩

theorem now (h : stage program routines settings count = some m) (hevent : event m = some (sub, a)) :
    Past program routines settings event (count + 1) sub a :=
  ⟨count, m, Nat.lt_succ_self _, h, hevent⟩

theorem of_succ (h : Past program routines settings event (count + 1) sub a)
    (hm : stage program routines settings count = some m) :
    Past program routines settings event count sub a ∨ event m = some (sub, a) := by
  obtain ⟨earlier, n, hlt, hstage, hevent⟩ := h
  rcases Nat.lt_or_eq_of_le (Nat.le_of_lt_succ hlt) with hlt | rfl
  · exact .inl ⟨earlier, n, hlt, hstage, hevent⟩
  · obtain rfl : n = m := Option.some.inj (hstage.symm.trans hm)
    exact .inr hevent

end Past

theorem Step.hasSub (h : Step program routines settings count m m') (hsub : m.tree.HasSub sub) :
    m'.tree.HasSub sub :=
  (Machine.move_of_tick h.tick).hasSub hsub

theorem stage_hasSub (h : stage program routines settings count = some m) {act : Activation}
    (hact : act ∈ m.active) : m.tree.HasSub act.sub :=
  (((stage_entered h).known _ _).1 ((stage_entered h).active act hact)).1

theorem Past.hasSub (h : Past program routines settings event (count + 1) sub a)
    (hevent : ∀ n sub a, event n = some (sub, a) → n.active.head?.map (·.sub) = some sub)
    (hm : stage program routines settings count = some m) : m.tree.HasSub sub := by
  obtain ⟨earlier, n, hlt, hstage, htold⟩ := h
  obtain ⟨act, hhead, rfl⟩ := Option.map_eq_some_iff.1 (hevent n sub a htold)
  exact stage_persists (P := fun n => n.tree.HasSub act.sub) (fun hstep => hstep.hasSub) hstage hm
    (Nat.le_of_lt_succ hlt) (stage_hasSub hstage (List.mem_of_mem_head? hhead))

variable (program routines settings)

/-- A block of the subroutine `sub` that was begun. -/
abbrev Begun : Nat → SubId → Job → Prop := Past program routines settings Machine.begins?

/-- A block that an instruction of `sub` was given. -/
abbrev Scheduled : Nat → SubId → NodeId → Prop :=
  Past program routines settings (Machine.schedules? (script program routines))

/-- The table, the list and the keys of a subroutine in progress agree with what has happened. -/
structure Tracked (count : Nat) (act : Activation) : Prop where
  handles : (act.blocks.map Prod.snd).Nodup
  distinct : (act.work.map Job.key).Nodup
  waits : ∀ job ∈ act.work, job.key ∉ act.done ∧ (job.key, job.block) ∈ act.blocks
  begun : ∀ job, Begun program routines settings count act.sub job →
    job.key ∈ act.done ∧ (job.key, job.block) ∈ act.blocks
  scheduled : ∀ block, Scheduled program routines settings count act.sub block →
    ∃ key, (key, block) ∈ act.blocks
  accounted : ∀ entry ∈ act.blocks, ∃ job : Job, (job.key, job.block) = entry ∧
    (job ∈ act.work ∨ Begun program routines settings count act.sub job)

variable {program routines settings} {act act' : Activation} {visit : Visit}

namespace Tracked

theorem start {offset : Nat} {root : NodeId} {context : Context}
    (hbegun : ∀ job, ¬Begun program routines settings count sub job)
    (hscheduled : ∀ block, ¬Scheduled program routines settings count sub block) :
    Tracked program routines settings count (.start sub offset root context) where
  handles := by simp [Activation.start]
  distinct := by simp [Activation.start]
  waits job hjob := by
    obtain rfl := List.mem_singleton.1 hjob
    exact ⟨by simp [Activation.start], List.mem_singleton.2 rfl⟩
  begun job hpast := absurd hpast (hbegun job)
  scheduled block hpast := absurd hpast (hscheduled block)
  accounted entry hentry := by
    obtain rfl := List.mem_singleton.1 hentry
    exact ⟨⟨root, offset, context⟩, rfl, .inl (List.mem_singleton.2 rfl)⟩

/-- A move that begins no block of the subroutine and gives it none that is new. -/
theorem keep (h : Tracked program routines settings count act)
    (hm : stage program routines settings count = some m)
    (hbegins : ∀ job, m.begins? ≠ some (act.sub, job))
    (hschedules : ∀ block, m.schedules? (script program routines) = some (act.sub, block) →
      ∃ key, (key, block) ∈ act.blocks)
    (hsub : act'.sub = act.sub) (hblocks : act'.blocks = act.blocks) (hdone : act'.done = act.done)
    (hwork : act'.work = act.work) : Tracked program routines settings (count + 1) act' := by
  constructor
  · rw [hblocks]
    exact h.handles
  · rw [hwork]
    exact h.distinct
  · rw [hwork, hdone, hblocks]
    exact h.waits
  · intro job hbegun
    rw [hsub] at hbegun
    rw [hdone, hblocks]
    exact h.begun job ((hbegun.of_succ hm).resolve_right (hbegins job))
  · intro block hscheduled
    rw [hsub] at hscheduled
    rw [hblocks]
    exact (hscheduled.of_succ hm).elim (h.scheduled block) (hschedules block)
  · intro entry hentry
    rw [hblocks] at hentry
    rw [hwork, hsub]
    obtain ⟨job, heq, hcase⟩ := h.accounted entry hentry
    exact ⟨job, heq, hcase.imp_right fun hpast => hpast.mono (by omega)⟩

/-- A move that begins no block of the subroutine and opens one. -/
theorem enlarge (h : Tracked program routines settings count act)
    (hm : stage program routines settings count = some m) {new : Job}
    (hbegins : ∀ job, m.begins? ≠ some (act.sub, job))
    (hschedules : ∀ block, m.schedules? (script program routines) = some (act.sub, block) →
      ∃ key, (key, block) ∈ act'.blocks)
    (hkey : new.key ∉ act.blocks.map Prod.fst) (hhandle : new.block ∉ act.blocks.map Prod.snd)
    (hkeyed : act.Keyed) (hsub : act'.sub = act.sub)
    (hblocks : act'.blocks = (new.key, new.block) :: act.blocks) (hdone : act'.done = act.done)
    (hwork : act'.work = new :: act.work) :
    Tracked program routines settings (count + 1) act' := by
  constructor
  · rw [hblocks]
    exact List.nodup_cons.2 ⟨hhandle, h.handles⟩
  · rw [hwork]
    refine List.nodup_cons.2 ⟨fun hmem => ?_, h.distinct⟩
    obtain ⟨job, hjob, heq⟩ := List.mem_map.1 hmem
    exact hkey (heq ▸ hkeyed.work job hjob)
  · intro job hjob
    rw [hwork] at hjob
    rw [hdone, hblocks]
    rcases List.mem_cons.1 hjob with rfl | hjob
    · exact ⟨fun hbegun => hkey (hkeyed.begun hbegun), List.mem_cons_self⟩
    · obtain ⟨hfresh, hentry⟩ := h.waits job hjob
      exact ⟨hfresh, List.mem_cons_of_mem _ hentry⟩
  · intro job hbegun
    rw [hsub] at hbegun
    obtain ⟨hbefore, hentry⟩ := h.begun job ((hbegun.of_succ hm).resolve_right (hbegins job))
    rw [hdone, hblocks]
    exact ⟨hbefore, List.mem_cons_of_mem _ hentry⟩
  · intro block hscheduled
    rw [hsub] at hscheduled
    rcases hscheduled.of_succ hm with hpast | hnow
    · obtain ⟨key, hentry⟩ := h.scheduled block hpast
      exact ⟨key, by rw [hblocks]; exact List.mem_cons_of_mem _ hentry⟩
    · exact hschedules block hnow
  · intro entry hentry
    rw [hsub, hwork]
    rw [hblocks] at hentry
    rcases List.mem_cons.1 hentry with rfl | hentry
    · exact ⟨new, rfl, .inl List.mem_cons_self⟩
    · obtain ⟨job, heq, hcase⟩ := h.accounted entry hentry
      exact ⟨job, heq, hcase.imp (List.mem_cons_of_mem _) fun hpast => hpast.mono (by omega)⟩

/-- The block that waits first is begun. -/
theorem take (h : Tracked program routines settings count act)
    (hm : stage program routines settings count = some m) {job : Job} {work : List Job}
    (hbegins : m.begins? = some (act.sub, job)) (hvisit : m.visit? program = none)
    (hwork : act.work = job :: work) :
    Tracked program routines settings (count + 1)
      { act with work, done := job.key :: act.done, walk := some job.walk } := by
  have hdistinct := h.distinct
  rw [hwork, List.map_cons, List.nodup_cons] at hdistinct
  have hfirst := h.waits job (hwork ▸ List.mem_cons_self)
  constructor
  · exact h.handles
  · exact hdistinct.2
  · intro other hother
    obtain ⟨hfresh, hentry⟩ := h.waits other (hwork ▸ List.mem_cons_of_mem _ hother)
    refine ⟨fun hmem => ?_, hentry⟩
    rcases List.mem_cons.1 hmem with heq | hmem
    · exact hdistinct.1 (heq ▸ List.mem_map_of_mem hother)
    · exact hfresh hmem
  · intro other hbegun
    rcases hbegun.of_succ hm with hpast | hnow
    · obtain ⟨hdone, hentry⟩ := h.begun other hpast
      exact ⟨List.mem_cons_of_mem _ hdone, hentry⟩
    · cases hbegins.symm.trans hnow
      exact ⟨List.mem_cons_self, hfirst.2⟩
  · intro block hscheduled
    refine h.scheduled block ((hscheduled.of_succ hm).resolve_right ?_)
    have hnone : m.schedules? (script program routines) = none :=
      Machine.schedules?_of_visit hvisit
    simp [hnone]
  · intro entry hentry
    obtain ⟨other, heq, hcase⟩ := h.accounted entry hentry
    refine ⟨other, heq, ?_⟩
    rcases hcase with hmem | hpast
    · rw [hwork] at hmem
      rcases List.mem_cons.1 hmem with rfl | hmem
      · exact .inr (.now hm hbegins)
      · exact .inl hmem
    · exact .inr (hpast.mono (by omega))

/-- A block that an instruction opens is new to the table, and waits. -/
theorem visited (h : Tracked program routines settings count visit.act)
    (hm : stage program routines settings count = some m) (hvisit : m.visit? program = some visit)
    {ws : Workspace} (hws : visit.outcome (script program routines) m = ws) (last : Nat)
    (onward : Option Walk) :
    Tracked program routines settings (count + 1)
      { Machine.commit { visit.act with last } ws with walk := onward } := by
  have hact := Machine.act_mem_of_visit? hvisit
  have hbegins : ∀ job, m.begins? ≠ some (visit.act.sub, job) := by
    obtain ⟨hactive, hwalk, -⟩ := Machine.visit?_eq_some.1 hvisit
    simp [Machine.begins?_of_walk hactive hwalk]
  have hschedules : ∀ block,
      m.schedules? (script program routines) = some (visit.act.sub, block) →
        ∃ key, (key, block) ∈ ws.blocks := by
    intro block hnow
    obtain ⟨other, offset, ctx, hother, -, hlookup, -⟩ := Machine.schedules?_eq_some.1 hnow
    obtain rfl : other = visit := Option.some.inj (hother.symm.trans hvisit)
    exact ⟨_, Site.mem_of_lookup (hws ▸ hlookup)⟩
  have hserves := visit_serves hm hvisit
  rw [hws] at hserves
  cases hserves with
  | kept _ hblocks hspawned =>
    have hsame : ws.blocks = visit.act.blocks := hblocks
    have hnone : ws.spawned = none := hspawned
    exact h.keep hm hbegins (hsame ▸ hschedules) rfl hsame rfl (by simp [Machine.commit, hnone])
  | @opened new _ hlookup hnew _ hblocks hspawned =>
    -- Neither the key nor the handle has been in the table.
    have hkey : new.key ∉ visit.act.blocks.map Prod.fst := Site.lookup_eq_none_iff.1 hlookup
    have hhandle : new.block ∉ visit.act.blocks.map Prod.snd := by
      intro hmem
      obtain ⟨entry, hentry, heq⟩ := List.mem_map.1 hmem
      have hlt := ((stage_fills hm _ hact).blocks entry hentry).lt
      rw [heq] at hlt
      exact absurd hlt (Nat.not_lt.2 hnew)
    exact h.enlarge hm hbegins hschedules hkey hhandle (stage_keyed hm _ hact) rfl hblocks rfl
      (by simp [Machine.commit, hspawned])

section Innermost

variable {callers : List Activation} {walk : Walk}
  (hm : stage program routines settings count = some m)
  (htracked : ∀ act ∈ m.active, Tracked program routines settings count act)
  (hactive : m.active = act :: callers)
include hm htracked hactive

/-- A caller begins no block and asks for none: those are the innermost subroutine's. -/
theorem caller {other : Activation} (hother : other ∈ callers) :
    Tracked program routines settings (count + 1) other := by
  have hne : act.sub ≠ other.sub := by
    have hdistinct := (stage_matched hm).distinct
    rw [Machine.inProgress, hactive, List.map_cons, List.nodup_cons] at hdistinct
    exact fun heq => hdistinct.1 (heq ▸ List.mem_map_of_mem hother)
  have hmem : other ∈ m.active := Machine.caller_mem hactive hother
  refine (htracked other hmem).keep hm (fun job hnow => ?_) (fun block hnow => ?_) rfl rfl rfl rfl
  · have hhead := Machine.head_of_begins? hnow
    rw [hactive] at hhead
    exact hne (Option.some.inj hhead)
  · have hhead := Machine.head_of_schedules? hnow
    rw [hactive] at hhead
    exact absurd (Option.some.inj hhead) hne

theorem onward (hact' : Tracked program routines settings (count + 1) act') :
    ∀ other ∈ act' :: callers, Tracked program routines settings (count + 1) other := by
  intro other hother
  rcases List.mem_cons.1 hother with rfl | hother
  · exact hact'
  · exact caller hm htracked hactive hother

theorem walking (hwalk : act.walk = some walk)
    (hnone : m.schedules? (script program routines) = none)
    (hsub : act'.sub = act.sub) (hblocks : act'.blocks = act.blocks) (hdone : act'.done = act.done)
    (hwork : act'.work = act.work) : Tracked program routines settings (count + 1) act' := by
  have hact : Tracked program routines settings count act :=
    htracked act (Machine.first_mem hactive)
  exact hact.keep hm (by simp [Machine.begins?_of_walk hactive hwalk]) (by simp [hnone])
    hsub hblocks hdone hwork

end Innermost

end Tracked

/-- All blocks of all subroutines in progress are tracked. -/
theorem stage_tracked (h : stage program routines settings count = some m) :
    ∀ act ∈ m.active, Tracked program routines settings count act := by
  refine stage_induction
    (P := fun count m => ∀ act ∈ m.active, Tracked program routines settings count act) ?_ ?_ h
  · intro act hact
    obtain rfl := List.mem_singleton.1 hact
    refine .start ?_ ?_ <;> exact fun _ ⟨earlier, _, hlt, _⟩ => absurd hlt (Nat.not_lt_zero earlier)
  · intro count m m' hstep hm
    have hstage := hstep.before
    have hfirst : ∀ {act callers}, m.active = act :: callers →
        Tracked program routines settings count act :=
      fun {act _} hactive => hm act (Machine.first_mem hactive)
    have hdropped : ∀ {act callers walk}, m.active = act :: callers → act.walk = some walk →
        program.length ≤ walk.offset ∨ program.at? walk.offset = none →
        ∀ other ∈ { act with walk := none } :: callers,
          Tracked program routines settings (count + 1) other := by
      intro act callers walk hactive hwalk hlost
      refine .onward hstage hm hactive (.walking hstage hm hactive hwalk ?_ rfl rfl rfl rfl)
      exact Machine.schedules?_of_visit (Machine.visit?_of_lost hactive hwalk hlost)
    rcases Machine.tick_cases hstep.tick with
      ⟨hwithin, hmove⟩ | ⟨act, callers, walk, hactive, hwalk, hend, rfl⟩
    · cases hmove with
      | finish hactive => exact fun _ => .caller hstage hm hactive
      | @skip act callers job work hactive _ hwork hdone =>
        exact absurd hdone ((hfirst hactive).waits job (hwork ▸ List.mem_cons_self)).1
      | @start act callers job work hactive hwalk hwork hfresh =>
        refine .onward hstage hm hactive ((hfirst hactive).take hstage ?_
          (Machine.visit?_of_walk hactive hwalk) hwork)
        exact Machine.begins?_eq_some.2
          ⟨act, Machine.waiting?_eq_some.2 ⟨callers, work, hactive, hwalk, hwork⟩, hfresh, rfl⟩
      | leave hactive hwalk hend => exact hdropped hactive hwalk (.inl hend)
      | lost hactive hwalk hat => exact hdropped hactive hwalk (.inr hat)
      | @next act callers walk ins _ _ hactive hwalk hat hrun
      | @stop act callers walk ins _ hactive hwalk hat hrun
      | @fault act callers walk ins _ _ hactive hwalk hat hrun =>
        let visit : Visit := ⟨act, callers, walk, ins⟩
        have hact : Tracked program routines settings count visit.act := hfirst hactive
        exact .onward hstage hm hactive
          (hact.visited hstage (hwithin.visit? hactive hwalk hat) (congrArg left hrun) _ _)
      | @enter act callers walk ins target ws hactive hwalk hat hrun =>
        have hcall : ins.opcode.operation = .call := (Site.visit_enter hrun).1
        have hnone : m.schedules? (script program routines) = none := by
          change (m.visit? program).bind _ = none
          have hvisit : m.visit? program = some ⟨act, callers, walk, ins⟩ :=
            hwithin.visit? hactive hwalk hat
          rw [hvisit]
          simp [Instruction.request?, hcall]
        intro other hother
        rcases List.mem_cons.1 hother with rfl | hother
        · refine .start ?_ ?_
          · exact fun _ hpast => (hpast.hasSub (fun _ _ _ => Machine.head_of_begins?)
              hstage).ne_nextSubId rfl
          · exact fun _ hpast => (hpast.hasSub (fun _ _ _ => Machine.head_of_schedules?)
              hstage).ne_nextSubId rfl
        · refine .onward hstage hm hactive ?_ other hother
          exact .walking hstage hm hactive hwalk hnone rfl rfl rfl rfl
    · exact hdropped hactive hwalk (.inl hend)

theorem tracked_of_begins? (h : stage program routines settings count = some m) {job : Job}
    (hbegins : m.begins? = some (sub, job)) : ∃ act ∈ m.active, act.sub = sub ∧
      job ∈ act.work ∧ Tracked program routines settings count act := by
  obtain ⟨act, hwaiting, -, rfl⟩ := Machine.begins?_eq_some.1 hbegins
  obtain ⟨callers, work, hactive, -, hwork⟩ := Machine.waiting?_eq_some.1 hwaiting
  have hact : act ∈ m.active := Machine.first_mem hactive
  exact ⟨act, hact, rfl, hwork ▸ List.mem_cons_self, stage_tracked h act hact⟩

theorem Begun.apart {job job' : Job} (h : Begun program routines settings count sub job)
    (hm : stage program routines settings count = some m)
    (hbegins : m.begins? = some (sub, job')) : job.key ≠ job'.key ∧ job.block ≠ job'.block := by
  obtain ⟨act, -, rfl, hwork, htracked⟩ := tracked_of_begins? hm hbegins
  obtain ⟨hdone, hentry⟩ := htracked.begun job h
  obtain ⟨hfresh, hentry'⟩ := htracked.waits job' hwork
  have hkey : job.key ≠ job'.key := fun heq => hfresh (heq ▸ hdone)
  refine ⟨hkey, fun heq => hkey ?_⟩
  exact congrArg Prod.fst (List.inj_on_of_nodup_map htracked.handles hentry hentry' heq)

end Lift

/-- A subroutine begins each of its blocks once. No two blocks that it begins share a key or a handle,
none is dropped because one with its key has been begun, and once it is left, every block that one of
its instructions was given has been begun. -/
theorem blocks_begun_once (program : Program) (routines : Routines) (settings : LiftSettings) :
    (∀ count m other n sub job job', Lift.stage program routines settings count = some m →
      Lift.stage program routines settings other = some n → m.begins? = some (sub, job) →
      n.begins? = some (sub, job') → job.key = job'.key ∨ job.block = job'.block →
      count = other ∧ job = job') ∧
    (∀ count m, Lift.stage program routines settings count = some m → m.skips? = none) ∧
    ∀ count m m' act block, Lift.Step program routines settings count m m' →
      m.active = act :: m'.active → Lift.Scheduled program routines settings count act.sub block →
      ∃ job, job.block = block ∧ Lift.Begun program routines settings count act.sub job := by
  refine ⟨?_, ?_, ?_⟩
  · intro count m other n sub job job' hm hn hbegins hbegins' hshared
    rcases Nat.lt_trichotomy count other with hlt | rfl | hlt
    · have hbegun : Lift.Begun program routines settings other sub job :=
        ⟨count, m, hlt, hm, hbegins⟩
      have hapart := hbegun.apart hn hbegins'
      exact absurd hshared (not_or.2 hapart)
    · obtain rfl : m = n := Option.some.inj (hm.symm.trans hn)
      cases hbegins.symm.trans hbegins'
      exact ⟨rfl, rfl⟩
    · have hbegun : Lift.Begun program routines settings count sub job' :=
        ⟨other, n, hlt, hn, hbegins'⟩
      obtain ⟨hkey, hblock⟩ := hbegun.apart hm hbegins
      exact absurd hshared (not_or.2 ⟨hkey.symm, hblock.symm⟩)
  · intro count m hm
    by_contra hskips
    obtain ⟨⟨sub, job⟩, hsome⟩ := Option.ne_none_iff_exists'.1 hskips
    obtain ⟨act, hwaiting, hdone, -⟩ := Machine.skips?_eq_some.1 hsome
    obtain ⟨callers, work, hactive, -, hwork⟩ := Machine.waiting?_eq_some.1 hwaiting
    have htracked := Lift.stage_tracked hm act (Machine.first_mem hactive)
    exact (htracked.waits job (hwork ▸ List.mem_cons_self)).1 hdone
  · intro count m m' act block hstep hleft hscheduled
    have htracked := Lift.stage_tracked hstep.before act (Machine.first_mem hleft)
    obtain ⟨key, hentry⟩ := htracked.scheduled block hscheduled
    obtain ⟨job, heq, hcase⟩ := htracked.accounted _ hentry
    have hblock : job.block = block := congrArg Prod.snd heq
    have hnone : act.work = [] := (Machine.drained_of_left hstep.tick hleft).2
    refine ⟨job, hblock, hcase.resolve_left fun hwork => ?_⟩
    rw [hnone] at hwork
    cases hwork

/-- Two branches lead to one place. -/
def forkScript : Program := .ofList "" [
  { opcode := .jsr, jump := 8 },
  { opcode := .retn },
  { opcode := .consti, value := some (.int 0) },
  { opcode := .jz, jump := 20 },
  { opcode := .consti, value := some (.int 1) },
  { opcode := .jz, jump := 8 },
  { opcode := .retn },
  { opcode := .retn }
]

/-- The block behind both is asked for in the moves 4 and 6, and begun in the move 8 only. -/
theorem forkScript_begins_once :
    (Lift.stage forkScript {} .strictly 4).bind (·.schedules? (Lift.script forkScript {})) =
      some (⟨1⟩, ⟨7⟩) ∧
    (Lift.stage forkScript {} .strictly 6).bind (·.schedules? (Lift.script forkScript {})) =
      some (⟨1⟩, ⟨7⟩) ∧
    ((Lift.stage forkScript {} .strictly 8).bind (·.begins?)).map (fun p => (p.1, p.2.block)) =
      some (⟨1⟩, ⟨7⟩) ∧
    ∀ other n job, Lift.stage forkScript {} .strictly other = some n →
      n.begins? = some (⟨1⟩, job) → job.block = ⟨7⟩ → other = 8 := by
  have hbegins : ((Lift.stage forkScript {} .strictly 8).bind (·.begins?)).map
      (fun p => (p.1, p.2.block)) = some (⟨1⟩, ⟨7⟩) := by decide +kernel
  refine ⟨by decide +kernel, by decide +kernel, hbegins, ?_⟩
  intro other n job hn hagain hblock
  obtain ⟨⟨sub, first⟩, hfirst, heq⟩ := Option.map_eq_some_iff.1 hbegins
  obtain ⟨m, hm, hbegun⟩ := Option.bind_eq_some_iff.1 hfirst
  have hsub : sub = ⟨1⟩ := congrArg Prod.fst heq
  have hfirstBlock : first.block = ⟨7⟩ := congrArg Prod.snd heq
  subst hsub
  exact ((blocks_begun_once forkScript {} .strictly).1 other n 8 m ⟨1⟩ job first hn hm hagain
    hbegun (.inr (hblock.trans hfirstBlock.symm))).1

end ScriptLift
