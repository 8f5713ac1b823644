import ScriptLift.Proofs.Lift.History
import ScriptLift.Proofs.Lift.Placement
import ScriptLift.Total

/-! The run of the machine ends.

As long as offsets do not wrap, an instruction goes on behind itself and asks for at most one block,
which lies behind it as well. A subroutine begins each of its blocks once, and a subroutine is entered
once. All this is counted in one number that every move makes smaller. -/
namespace ScriptLift

namespace Instruction

variable {program : Program} {ins : Instruction} {ctx ctx' : Context} {offset : Nat}

theorem offset_lt_target (hoffset : ins.offset < 2 ^ 31) (hjump : 0 < ins.jump) :
    ins.offset < ins.target := by
  have hpos : 0 < ins.jump.toInt := Int32.lt_iff_toInt_lt.1 hjump
  have hlt : ins.jump.toInt < 2 ^ 31 := ins.jump.toInt_lt
  have htarget : ((ins.offset : Int) + ins.jump.toInt) % UInt32.size =
      (ins.offset : Int) + ins.jump.toInt :=
    Int.emod_eq_of_lt (by omega) (by simp only [UInt32.size]; omega)
  rw [target, htarget]
  omega

theorem offset_lt_of_request? (hoffset : ins.offset < 2 ^ 31)
    (h : ins.request? program ctx = some (offset, ctx')) : ins.offset < offset := by
  unfold request? at h
  split at h
  · split at h
    · split at h
      · next hjump =>
        cases h
        exact offset_lt_target hoffset hjump
      · cases h
    · cases h
  · obtain ⟨jump, hjump, heq⟩ := Option.map_eq_some_iff.1 h
    cases heq
    have hat := (Option.filter_eq_some_iff.1 hjump).1
    calc ins.offset < ins.next := ins.offset_lt_next
      _ = jump.offset := (Program.offset_of_at? hat).symm
      _ < jump.next := jump.offset_lt_next
  · cases h

theorem offset_lt_of_onward? (hoffset : ins.offset < 2 ^ 31) (h : ins.onward? = some offset) :
    ins.offset < offset := by
  unfold onward? at h
  split at h
  · cases h
  · split at h
    · next hjump =>
      cases h
      exact offset_lt_target hoffset hjump
    · cases h
  · cases h
    exact ins.offset_lt_next

end Instruction

namespace Visit

variable (visit : Visit) (script : Script) (m : Machine)

/-- Where the walk goes on behind the instruction, if it does. -/
def onward? : Option Nat :=
  match visit.site.visit script m.callees (visit.start m) with
  | .ok (.next offset) _ => some offset
  | _ => none

/-- The subroutine behind the instruction: the block asked for is taken up and the walk goes on. -/
def proceed : Activation :=
  let ws := visit.outcome script m
  { visit.act with
    last := max visit.act.last visit.walk.offset
    outer := ws.outer
    blocks := ws.blocks
    work := ws.spawned.toList ++ visit.act.work
    walk := (visit.onward? script m).map fun offset =>
      { visit.walk with offset, context := ws.context } }

/-- The instruction leads ahead only. -/
structure Ahead : Prop where
  onward : ∀ offset, visit.onward? script m = some offset → visit.walk.offset < offset
  asked : ∀ job, (visit.outcome script m).spawned = some job → visit.walk.offset < job.start

variable {visit script m}

theorem onward?_of_visit {offset : Nat} {ws : Workspace}
    (h : visit.site.visit script m.callees (visit.start m) = .ok (.next offset) ws) :
    visit.onward? script m = some offset := by
  rw [onward?, h]

end Visit

namespace Machine

variable {script : Script} {settings : LiftSettings} {m m' : Machine} {visit : Visit}

/-- The subroutine that the next move asks for, if it is not known yet. -/
def enters? (script : Script) (m : Machine) : Option Nat :=
  (m.visit? script.program).bind fun visit =>
    match visit.site.visit script m.callees (visit.start m) with
    | .ok (.enter target) _ => some target
    | _ => none

theorem enters?_eq_some {target : Nat} : m.enters? script = some target ↔
    ∃ visit ws, m.visit? script.program = some visit ∧
      visit.site.visit script m.callees (visit.start m) = .ok (.enter target) ws := by
  simp only [enters?, Option.bind_eq_some_iff]
  constructor
  · rintro ⟨visit, hvisit, h⟩
    split at h
    · next ws hrun =>
      cases h
      exact ⟨visit, ws, hvisit, hrun⟩
    · cases h
  · rintro ⟨visit, ws, hvisit, hrun⟩
    exact ⟨visit, hvisit, by rw [hrun]⟩

theorem tick_of_visit? (hvisit : m.visit? script.program = some visit) :
    m.tick script settings =
      some <$> advance script settings m visit.act visit.callers visit.walk visit.ins := by
  obtain ⟨hactive, hwalk, hlt, hat⟩ := visit?_eq_some.1 hvisit
  simp only [tick, hactive, hwalk, hlt, if_true, hat]

/-- A move that executes an instruction leads to where the instruction does. -/
theorem active_of_visit? (hvisit : m.visit? script.program = some visit) (hstays : m.enters? script = none)
    (htick : m.tick script settings = .ok (some m')) :
    m'.active = visit.proceed script m :: visit.callers := by
  rw [tick_of_visit? hvisit] at htick
  have hrun := eq_ok_of_map htick
  unfold advance at hrun
  simp only at hrun
  split at hrun
  · next offset ws hok =>
    have hresult : visit.site.visit script m.callees (visit.start m) = .ok (.next offset) ws := hok
    have hws : visit.outcome script m = ws := congrArg Lift.left hresult
    have honward : visit.onward? script m = some offset := Visit.onward?_of_visit hresult
    cases hrun
    rw [← hws]
    simp only [Visit.proceed, commit, honward, Option.map_some]
  · next ws hok =>
    have hresult : visit.site.visit script m.callees (visit.start m) = .ok .stop ws := hok
    have hws : visit.outcome script m = ws := congrArg Lift.left hresult
    have honward : visit.onward? script m = none := by rw [Visit.onward?, hresult]
    cases hrun
    rw [← hws]
    simp only [Visit.proceed, commit, honward, Option.map_none]
  · next target ws hok =>
    have hsome : m.enters? script = some target := enters?_eq_some.2 ⟨visit, ws, hvisit, hok⟩
    cases hstays.symm.trans hsome
  · next fault ws herror =>
    have hresult : visit.site.visit script m.callees (visit.start m) = .error fault ws := herror
    have hws : visit.outcome script m = ws := congrArg Lift.left hresult
    have honward : visit.onward? script m = none := by rw [Visit.onward?, hresult]
    obtain ⟨-, rfl⟩ := abandon_eq_ok hrun (walk_of_visit? hvisit)
    rw [← hws]
    simp only [Visit.proceed, commit, honward, Option.map_none]

theorem Move.known (h : Move script settings m m') {target : Nat}
    (hknown : (m.callees.lookup target).isSome) : (m'.callees.lookup target).isSome := by
  cases h with
  | @enter act callers walk ins entry ws _ _ _ _ =>
    change (List.lookup target ((entry, m.tree.nextSubId) :: m.callees)).isSome
    rw [List.lookup_cons]
    split
    · rfl
    · exact hknown
  | _ => exact hknown

theorem known_of_enters? {target : Nat} (h : m.enters? script = some target)
    (htick : m.tick script settings = .ok (some m')) : (m'.callees.lookup target).isSome := by
  obtain ⟨visit, ws, hvisit, hrun⟩ := enters?_eq_some.1 h
  rw [tick_of_visit? hvisit] at htick
  have hadvance := eq_ok_of_map htick
  unfold advance at hadvance
  simp only at hadvance
  split at hadvance
  · next hok => cases hrun.symm.trans hok
  · next hok => cases hrun.symm.trans hok
  · next hok =>
    cases hrun.symm.trans hok
    split at hadvance
    · rw [abandon_of_isFinal rfl] at hadvance
      cases hadvance
    · cases hadvance
      simp [begin]
  · next herror => cases hrun.symm.trans herror

theorem drained_of_left {act : Activation} (htick : m.tick script settings = .ok (some m'))
    (hleft : m.active = act :: m'.active) : act.walk = none ∧ act.work = [] := by
  cases move_of_tick htick with
  | finish hactive hwalk hwork =>
    cases hactive.symm.trans hleft
    exact ⟨hwalk, hwork⟩
  | skip hactive | start hactive | leave hactive | lost hactive | next hactive | stop hactive
  | fault hactive =>
    have hlength := congrArg List.length (hactive.symm.trans hleft)
    simp at hlength
  | enter hactive =>
    have hlength := congrArg List.length (hactive.symm.trans hleft)
    simp [begin] at hlength

end Machine

/-- Blocks of a subroutine in progress are told apart by their keys, and each is begun once. -/
structure Activation.Keyed (act : Activation) : Prop where
  blocks : (act.blocks.map Prod.fst).Nodup
  work : ∀ job ∈ act.work, job.key ∈ act.blocks.map Prod.fst
  begun : act.done ⊆ act.blocks.map Prod.fst
  done : act.done.Nodup

namespace Activation.Keyed

variable {act : Activation} {program : Program} {site : Site} {before ws : Workspace}

theorem start (sub : SubId) (entry : Nat) (root : NodeId) (context : Context) :
    (Activation.start sub entry root context).Keyed where
  blocks := by simp [Activation.start]
  work := by simp [Activation.start, Job.key]
  begun := by simp [Activation.start]
  done := List.nodup_nil

/-- A block that is opened gets a key that was not there. -/
theorem visited (h : act.Keyed) (hserves : site.Serves program before ws)
    (hblocks : before.blocks = act.blocks) (hnone : before.spawned = none) (last : Nat)
    (onward : Option Walk) :
    { Machine.commit { act with last } ws with walk := onward }.Keyed := by
  cases hserves with
  | kept _ hsame hspawned =>
    rw [hblocks] at hsame
    refine ⟨?_, fun job hjob => ?_, ?_, h.done⟩
    · change (ws.blocks.map Prod.fst).Nodup
      rw [hsame]
      exact h.blocks
    · change job.key ∈ ws.blocks.map Prod.fst
      rw [hsame]
      rcases Machine.mem_work_commit.1 hjob with hjob | hjob
      · cases (hspawned.trans hnone).symm.trans hjob
      · exact h.work job hjob
    · change act.done ⊆ ws.blocks.map Prod.fst
      rw [hsame]
      exact h.begun
  | @opened new _ hlookup _ _ hsame hspawned =>
    rw [hblocks] at hsame hlookup
    have hfresh : new.key ∉ act.blocks.map Prod.fst := Site.lookup_eq_none_iff.1 hlookup
    refine ⟨?_, fun job hjob => ?_, ?_, h.done⟩
    · change (ws.blocks.map Prod.fst).Nodup
      rw [hsame]
      exact List.nodup_cons.2 ⟨hfresh, h.blocks⟩
    · change job.key ∈ ws.blocks.map Prod.fst
      rw [hsame]
      rcases Machine.mem_work_commit.1 hjob with hjob | hjob
      · cases hspawned.symm.trans hjob
        exact List.mem_cons_self
      · exact List.mem_cons_of_mem _ (h.work job hjob)
    · change act.done ⊆ ws.blocks.map Prod.fst
      rw [hsame]
      exact fun key hkey => List.mem_cons_of_mem _ (h.begun hkey)

end Activation.Keyed

namespace Machine

variable {script : Script} {settings : LiftSettings} {m m' : Machine}

theorem Move.keyed (h : Move script settings m m') (hfills : ∀ act ∈ m.active, act.Fills m.tree)
    (hm : ∀ act ∈ m.active, act.Keyed) : ∀ act ∈ m'.active, act.Keyed := by
  -- All moves but two replace the innermost subroutine.
  have hreplace : ∀ {act act' callers}, m.active = act :: callers →
      (act.Keyed → act'.Keyed) → ∀ other ∈ act' :: callers, other.Keyed := by
    intro act act' callers hactive hact other hother
    rw [hactive] at hm
    rcases List.mem_cons.1 hother with rfl | hother
    · exact hact (hm act List.mem_cons_self)
    · exact hm other (List.mem_cons_of_mem _ hother)
  have hserves : ∀ {act callers walk ins ws}, m.active = act :: callers → act.walk = some walk →
      Lift.left (Site.visit ⟨ins, act.entry, walk.block, walk.start⟩ script m.callees
        ⟨m.tree, walk.context, act.outer, act.blocks, none⟩) = ws →
      Site.Serves ⟨ins, act.entry, walk.block, walk.start⟩ script.program
        ⟨m.tree, walk.context, act.outer, act.blocks, none⟩ ws := by
    rintro act callers walk ins _ hactive hwalk rfl
    have hact := hfills act (first_mem hactive)
    refine Site.visit_serves _ script m.callees _ (hact.pending (walk.block, walk.context) ?_).lt
    rw [Activation.pending, hwalk]
    exact List.mem_cons_self
  cases h with
  | finish hactive =>
    rw [hactive] at hm
    exact fun act hact => hm act (List.mem_cons_of_mem _ hact)
  | skip hactive _ hwork =>
    refine hreplace hactive fun hact => ⟨hact.blocks, fun job hjob => ?_, hact.begun, hact.done⟩
    exact hact.work job (hwork ▸ List.mem_cons_of_mem _ hjob)
  | @start act callers job work hactive _ hwork hfresh =>
    refine hreplace hactive fun hact => ⟨hact.blocks, fun other hother => ?_, ?_, ?_⟩
    · exact hact.work other (hwork ▸ List.mem_cons_of_mem _ hother)
    · have hkey := hact.work job (hwork ▸ List.mem_cons_self)
      exact List.cons_subset.2 ⟨hkey, hact.begun⟩
    · exact List.nodup_cons.2 ⟨hfresh, hact.done⟩
  | leave hactive | lost hactive =>
    exact hreplace hactive fun hact => ⟨hact.blocks, hact.work, hact.begun, hact.done⟩
  | next hactive hwalk _ hrun | stop hactive hwalk _ hrun | fault hactive hwalk _ hrun =>
    have hserved := hserves hactive hwalk (congrArg Lift.left hrun)
    exact hreplace hactive fun hact => hact.visited hserved rfl rfl _ _
  | @enter act callers walk _ _ _ hactive =>
    intro other hother
    rcases List.mem_cons.1 hother with rfl | hother
    · exact .start ..
    · let caller := { act with last := max act.last walk.offset }
      refine @hreplace act caller callers hactive ?_ other hother
      exact fun hact => ⟨hact.blocks, hact.work, hact.begun, hact.done⟩

end Machine

namespace Machine

variable {script : Script} {settings : LiftSettings} {m m' : Machine} {visit : Visit}

def walkCost (script : Script) (offset : Nat) : Nat :=
  Nat.pow 4 (script.program.length - offset)

/-- Beginning a block costs a move of its own. -/
def jobCost (script : Script) (job : Job) : Nat := 2 * walkCost script job.start

def onwardCost (script : Script) (walk : Option Walk) : Nat :=
  walk.elim 0 fun walk => walkCost script walk.offset

def actCost (script : Script) (act : Activation) : Nat :=
  1 + total (jobCost script) act.work + onwardCost script act.walk

/-- Calls in the program whose target is not known yet. -/
def unknown (script : Script) (m : Machine) : Nat :=
  total (fun ins =>
    if ins.opcode.operation = .call ∧ m.callees.lookup ins.target = none then 1 else 0)
    script.program.instructions.toList

/-- An upper bound for the moves to come. -/
def cost (script : Script) (m : Machine) : Nat :=
  total (actCost script) m.active + m.unknown script * (2 * walkCost script 0 + 2)

theorem walkCost_pos (script : Script) (offset : Nat) : 0 < walkCost script offset :=
  Nat.pow_pos (by omega)

theorem walkCost_anti (script : Script) {a b : Nat} (h : a ≤ b) :
    walkCost script b ≤ walkCost script a :=
  Nat.pow_le_pow_right (by omega) (by omega)

theorem four_mul_walkCost_le {a b : Nat} (hab : a < b) (ha : a < script.program.length) :
    4 * walkCost script b ≤ walkCost script a := by
  have hlength : script.program.length - a = script.program.length - (a + 1) + 1 := by omega
  calc 4 * walkCost script b
    _ ≤ 4 * walkCost script (a + 1) := Nat.mul_le_mul_left 4 (walkCost_anti script hab)
    _ = walkCost script a := by
      unfold walkCost
      rw [hlength]
      exact Nat.mul_comm 4 _

theorem cost_lt_of_actCost {act act' : Activation} {callers : List Activation} {tree : Tree}
    (hm : m.active = act :: callers) (h : actCost script act' < actCost script act) :
    cost script { m with tree, active := act' :: callers } < cost script m := by
  simp only [cost, hm, total_cons, unknown]
  omega

theorem actCost_drop {act : Activation} {walk : Walk} (hwalk : act.walk = some walk) :
    actCost script { act with walk := none } < actCost script act := by
  have hpos := walkCost_pos script walk.offset
  simp only [actCost, hwalk, onwardCost, Option.elim_none, Option.elim_some]
  omega

/-- What an instruction adds to the work is paid by the walk that it belongs to. -/
theorem actCost_commit {act : Activation} {walk : Walk} {ws : Workspace} {onward : Option Walk}
    (hwalk : act.walk = some walk) (hlt : walk.offset < script.program.length)
    (honward : ∀ next, onward = some next → walk.offset < next.offset)
    (hasked : ∀ job, ws.spawned = some job → walk.offset < job.start) (last : Nat) :
    actCost script { commit { act with last } ws with walk := onward } < actCost script act := by
  have hnext : 4 * onwardCost script onward ≤ walkCost script walk.offset := by
    cases onward with
    | none => exact Nat.zero_le _
    | some next => exact four_mul_walkCost_le (honward next rfl) hlt
  have hjob : 2 * total (jobCost script) ws.spawned.toList ≤ walkCost script walk.offset := by
    cases hspawned : ws.spawned with
    | none => exact Nat.zero_le _
    | some job =>
      have hcost := four_mul_walkCost_le (hasked job hspawned) hlt
      simp only [Option.toList_some, total_cons, total_nil, jobCost]
      omega
  have hpos := walkCost_pos script walk.offset
  simp only [actCost, commit, hwalk, onwardCost, Option.elim_some, total_append] at hnext ⊢
  omega

/-- A subroutine that is begun takes its calls from those whose target is not known. -/
theorem cost_begin {name : String} {ins : Instruction} {context : SubId → Context}
    (hins : ins ∈ script.program.instructions) (hop : ins.opcode.operation = .call)
    (hnone : m.callees.lookup ins.target = none) :
    cost script (m.begin name ins.target context) < cost script m := by
  have hknown : 1 + (m.begin name ins.target context).unknown script ≤ m.unknown script := by
    let asks (callees : List (Nat × SubId)) (ins : Instruction) : Nat :=
      if ins.opcode.operation = .call ∧ callees.lookup ins.target = none then 1 else 0
    have hone : asks m.callees ins = 1 := if_pos ⟨hop, hnone⟩
    have htotal := add_total_le_total (f := asks m.callees)
      (g := asks (m.begin name ins.target context).callees) (Array.mem_toList_iff.2 hins)
      (by simp [asks, begin]) fun other => by
        have hlookup : (m.begin name ins.target context).callees.lookup other.target = none →
            m.callees.lookup other.target = none := by
          intro h
          simp only [begin, List.lookup_cons] at h
          split at h
          · cases h
          · exact h
        by_cases hasks : other.opcode.operation = .call ∧
            (m.begin name ins.target context).callees.lookup other.target = none
        · simp [asks, hasks, hlookup hasks.2]
        · exact Nat.le_trans (Nat.le_of_eq (if_neg hasks)) (Nat.zero_le _)
    rwa [hone] at htotal
  have hact : actCost script (Activation.start m.tree.nextSubId ins.target m.tree.nextId
      (context m.tree.nextSubId)) ≤ 2 * walkCost script 0 + 1 := by
    have hle := walkCost_anti script (Nat.zero_le ins.target)
    simp only [actCost, Activation.start, total_cons, total_nil, jobCost, onwardCost,
      Option.elim_none]
    omega
  have hmul : (1 + (m.begin name ins.target context).unknown script) *
      (2 * walkCost script 0 + 2) ≤ m.unknown script * (2 * walkCost script 0 + 2) :=
    Nat.mul_le_mul_right _ hknown
  have hactive : (m.begin name ins.target context).active =
      Activation.start m.tree.nextSubId ins.target m.tree.nextId
        (context m.tree.nextSubId) :: m.active := rfl
  rw [Nat.add_mul, Nat.one_mul] at hmul
  simp only [cost, hactive, total_cons]
  omega

/-- Every move makes the cost smaller as long as instructions lead ahead. -/
theorem Move.cost_lt (h : Move script settings m m') (hwithin : m.Within script)
    (hahead : ∀ visit, m.visit? script.program = some visit → visit.Ahead script m) :
    m'.cost script < m.cost script := by
  have hvisited : ∀ {act callers walk ins ws}, m.active = act :: callers → act.walk = some walk →
      script.program.at? walk.offset = some ins →
      Lift.left (Site.visit ⟨ins, act.entry, walk.block, walk.start⟩ script m.callees
        ⟨m.tree, walk.context, act.outer, act.blocks, none⟩) = ws →
      ∀ (onward : Option Walk) (last : Nat),
        (∀ next, onward = some next → walk.offset < next.offset) →
        actCost script { commit { act with last } ws with walk := onward } <
          actCost script act := by
    rintro act callers walk ins _ hm hwalk hat rfl onward last honward
    have hlt := hwithin act callers walk hm hwalk
    exact actCost_commit hwalk hlt honward
      (hahead ⟨act, callers, walk, ins⟩ (visit?_eq_some.2 ⟨hm, hwalk, hlt, hat⟩)).asked last
  cases h with
  | @finish act callers hm hwalk hwork =>
    have hsame : (m.finish act callers).unknown script = m.unknown script := rfl
    have hactive : (m.finish act callers).active = callers := rfl
    simp only [cost, hsame, hactive, hm, total_cons, actCost]
    omega
  | @skip act callers job work hm hwalk hwork | @start act callers job work hm hwalk hwork =>
    refine cost_lt_of_actCost hm ?_
    have hpos := walkCost_pos script job.start
    simp only [actCost, hwork, hwalk, total_cons, jobCost, Job.walk, onwardCost, Option.elim_none,
      Option.elim_some]
    omega
  | leave hm hwalk | lost hm hwalk => exact cost_lt_of_actCost hm (actCost_drop hwalk)
  | @next act callers walk ins offset ws hm hwalk hat hrun =>
    refine cost_lt_of_actCost hm (hvisited hm hwalk hat (congrArg Lift.left hrun) _ _ ?_)
    rintro next ⟨⟩
    let visit : Visit := ⟨act, callers, walk, ins⟩
    have hresult : visit.site.visit script m.callees (visit.start m) = .ok (.next offset) ws := hrun
    have hlead := hahead visit
      (visit?_eq_some.2 ⟨hm, hwalk, hwithin act callers walk hm hwalk, hat⟩)
    exact hlead.onward offset (by rw [Visit.onward?, hresult])
  | stop hm hwalk hat hrun | fault hm hwalk hat hrun =>
    exact cost_lt_of_actCost hm (hvisited hm hwalk hat (congrArg Lift.left hrun) none _ (by simp))
  | @enter act callers walk ins target ws hm hwalk hat hrun =>
    obtain ⟨hop, rfl, hnone⟩ := Site.visit_enter hrun
    refine Nat.lt_of_lt_of_le (cost_begin (Program.mem_of_at? hat) hop hnone) ?_
    simp only [cost, hm, total_cons, actCost, unknown]
    exact Nat.le_refl _

theorem cost_lt_of_tick (h : m.tick script settings = .ok (some m'))
    (hahead : ∀ visit, m.visit? script.program = some visit → visit.Ahead script m) :
    m'.cost script < m.cost script := by
  rcases tick_cases h with ⟨hwithin, hmove⟩ | ⟨act, callers, walk, hm, hwalk, -, rfl⟩
  · exact hmove.cost_lt hwithin hahead
  · exact cost_lt_of_actCost hm (actCost_drop hwalk)

end Machine

namespace Lift

variable {program : Program} {routines : Routines} {settings : LiftSettings} {count : Nat}
  {m : Machine} {visit : Visit}

theorem stage_keyed (h : stage program routines settings count = some m) :
    ∀ act ∈ m.active, act.Keyed := by
  refine stage_induction (P := fun _ m => ∀ act ∈ m.active, act.Keyed) ?_ ?_ h
  · intro act hact
    obtain rfl := List.mem_singleton.1 hact
    exact .start ..
  · intro count m m' hstep hm
    exact (Machine.move_of_tick hstep.tick).keyed (stage_fills hstep.before) hm

theorem stage_ahead (hlength : program.length ≤ 2 ^ 31)
    (h : stage program routines settings count = some m)
    (hvisit : m.visit? program = some visit) : visit.Ahead (script program routines) m := by
  obtain ⟨-, -, hlt, hat⟩ := Machine.visit?_eq_some.1 hvisit
  have hoffset : visit.site.ins.offset = visit.walk.offset := Program.offset_of_at? hat
  have hbound : visit.site.ins.offset < 2 ^ 31 := by omega
  constructor <;> rw [← hoffset]
  · intro offset honward
    unfold Visit.onward? at honward
    split at honward
    · next hrun =>
      cases honward
      exact Instruction.offset_lt_of_onward? hbound (Site.visit_onward_next hrun)
    · cases honward
  · intro job hjob
    exact Instruction.offset_lt_of_request? hbound (visit_opens h hvisit hjob).request

theorem stage_enters {later : Nat} {n : Machine} {target : Nat}
    (h : stage program routines settings count = some m)
    (h' : stage program routines settings later = some n)
    (henters : m.enters? (script program routines) = some target) (hlt : count < later) :
    n.enters? (script program routines) ≠ some target := by
  intro hagain
  obtain ⟨mid, next, hstep⟩ := exists_step h' hlt
  obtain rfl : mid = m := Option.some.inj (hstep.before.symm.trans h)
  have hknown := stage_persists (P := fun n => (n.callees.lookup target).isSome)
    (fun hstep hm => (Machine.move_of_tick hstep.tick).known hm) hstep.behind h' hlt
    (Machine.known_of_enters? henters hstep.tick)
  obtain ⟨visit, ws, -, hrun⟩ := Machine.enters?_eq_some.1 hagain
  obtain ⟨-, htarget, hnone⟩ := Site.visit_enter hrun
  rw [htarget] at hnone
  simp [hnone] at hknown

theorem stage_ne_entry {target : Nat} (h : stage program routines settings count = some m)
    (henters : m.enters? (script program routines) = some target) : target ≠ Program.entry := by
  rintro rfl
  have hknown := stage_persists (P := fun n => (n.callees.lookup Program.entry).isSome)
    (fun hstep hm => (Machine.move_of_tick hstep.tick).known hm) (m := start (labels program).1) rfl
    h (Nat.zero_le _) rfl
  obtain ⟨visit, ws, -, hrun⟩ := Machine.enters?_eq_some.1 henters
  obtain ⟨-, htarget, hnone⟩ := Site.visit_enter hrun
  rw [htarget] at hnone
  simp [hnone] at hknown

theorem exists_end (hlength : program.length ≤ 2 ^ 31)
    (h : stage program routines settings count = some m) {bound : Nat}
    (hbound : count + m.cost (script program routines) ≤ bound) :
    ∃ last n result, last ≤ bound ∧ stage program routines settings last = some n ∧
      n.Ends (script program routines) settings result := by
  induction hcost : m.cost (script program routines) using Nat.strongRecOn generalizing count m with
  | ind cost ih =>
    cases htick : m.tick (script program routines) settings with
    | error e => exact ⟨count, m, .error e, by omega, h, .inr ⟨e, htick, rfl⟩⟩
    | ok next =>
      cases next with
      | none => exact ⟨count, m, .ok m.tree, by omega, h, .inl ⟨Machine.active_of_rest htick, rfl⟩⟩
      | some m' =>
        have hless := Machine.cost_lt_of_tick htick fun visit => stage_ahead hlength h
        exact ih _ (hcost ▸ hless) (Machine.after_succ h htick) (by omega) rfl

end Lift

/-- Lifting ends. The run has a last stage, at which no subroutine is left or the error of the whole
comes up. Up to there every instruction leads ahead and its subroutine goes on to all that it leads
to; a subroutine begins each block once and is left when no block is left; and no two moves enter a
subroutine at the same offset. -/
theorem lift_terminates {program : Program} (hlength : program.length ≤ 2 ^ 31)
    (routines : Routines) (settings : LiftSettings) :
    (∃ last m, last ≤ (Lift.start (Lift.labels program).1).cost (Lift.script program routines) ∧
      Lift.stage program routines settings last = some m ∧
      ((m.active = [] ∧ lift program routines settings = some (.ok (Lift.complete m.tree))) ∨
        ∃ e, m.tick (Lift.script program routines) settings = .error e ∧
          lift program routines settings = some (.error e))) ∧
    (∀ count m visit, Lift.stage program routines settings count = some m →
      m.visit? program = some visit → visit.Ahead (Lift.script program routines) m) ∧
    (∀ count m m' visit, Lift.Step program routines settings count m m' →
      m.visit? program = some visit → m.enters? (Lift.script program routines) = none →
      m'.active = visit.proceed (Lift.script program routines) m :: visit.callers) ∧
    (∀ count m, Lift.stage program routines settings count = some m →
      ∀ act ∈ m.active, act.Keyed) ∧
    (∀ count m m' act, Lift.Step program routines settings count m m' →
      m.active = act :: m'.active → act.walk = none ∧ act.work = []) ∧
    (∀ count m other n target, Lift.stage program routines settings count = some m →
      Lift.stage program routines settings other = some n →
      m.enters? (Lift.script program routines) = some target →
      n.enters? (Lift.script program routines) = some target →
      count = other ∧ target ≠ Program.entry) := by
  refine ⟨?_, ?_, ?_, ?_, ?_, ?_⟩
  · have hstart : Lift.stage program routines settings 0 = some (Lift.start (Lift.labels program).1) :=
      rfl
    obtain ⟨last, m, result, hle, hstage, hends⟩ :=
      Lift.exists_end hlength hstart (Nat.le_of_eq (Nat.zero_add _))
    refine ⟨last, m, hle, hstage, ?_⟩
    rw [lift_eq, Machine.run_eq_some_iff.2 ⟨last, m, hstage, hends⟩]
    rcases hends with ⟨hrest, rfl⟩ | ⟨e, htick, rfl⟩
    · exact .inl ⟨hrest, rfl⟩
    · exact .inr ⟨e, htick, rfl⟩
  · intro count m visit hstage hvisit
    exact Lift.stage_ahead hlength hstage hvisit
  · intro count m m' visit hstep hvisit hstays
    exact Machine.active_of_visit? hvisit hstays hstep.tick
  · intro count m hstage
    exact Lift.stage_keyed hstage
  · intro count m m' act hstep hleft
    exact Machine.drained_of_left hstep.tick hleft
  · intro count m other n target hm hn henters hagain
    refine ⟨?_, Lift.stage_ne_entry hm henters⟩
    rcases Nat.lt_trichotomy count other with hlt | heq | hlt
    · exact absurd hagain (Lift.stage_enters hm hn henters hlt)
    · exact heq
    · exact absurd henters (Lift.stage_enters hn hm hagain hlt)

/-- A loop that is left by a branch ahead, in a subroutine that also calls itself. -/
def loopingScript : Program := .ofList "" [
  { opcode := .jsr, jump := 8 },
  { opcode := .retn },
  { opcode := .consti, value := some (.int 0) },
  { opcode := .jz, jump := 18 },
  { opcode := .jsr, jump := -12 },
  { opcode := .jmp, jump := -18 },
  { opcode := .retn }
]

/-- Whether the machine enters the subroutine at `target` behind `count` moves. -/
def Lift.entersAt (program : Program) (routines : Routines) (settings : LiftSettings)
    (count target : Nat) : Bool :=
  (stage program routines settings count).any fun m =>
    m.enters? (script program routines) = some target

/-- The subroutine at 21 is entered behind the first move and never again. -/
theorem loopingScript_terminates : loopingScript.length ≤ 2 ^ 31 ∧
    (∃ last m, Lift.stage loopingScript {} .strictly last = some m ∧
      ((m.active = [] ∧ lift loopingScript {} .strictly = some (.ok (Lift.complete m.tree))) ∨
        ∃ e, m.tick (Lift.script loopingScript {}) .strictly = .error e ∧
          lift loopingScript {} .strictly = some (.error e))) ∧
    Lift.entersAt loopingScript {} .strictly 1 21 ∧
    ∀ count, Lift.entersAt loopingScript {} .strictly count 21 → count = 1 := by
  have hlength : loopingScript.length ≤ 2 ^ 31 := by decide
  obtain ⟨⟨last, m, -, hstage, hend⟩, -, -, -, -, honce⟩ :=
    lift_terminates hlength {} .strictly
  have hfirst : Lift.entersAt loopingScript {} .strictly 1 21 := by decide +kernel
  refine ⟨hlength, ⟨last, m, hstage, hend⟩, hfirst, fun count hcount => ?_⟩
  simp only [Lift.entersAt, Option.any_eq_true, decide_eq_true_eq] at hfirst hcount
  obtain ⟨first, hfirst, henters⟩ := hfirst
  obtain ⟨n, hn, hagain⟩ := hcount
  exact (honce _ n _ first 21 hn hfirst hagain henters).1

end ScriptLift
