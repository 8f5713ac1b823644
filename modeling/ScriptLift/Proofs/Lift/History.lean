import ScriptLift.Proofs.Lift.Blocks
import ScriptLift.Proofs.Lift.Entries
import ScriptLift.Proofs.Lift.Requests

/-! The history of a run: the machine after each of its moves.

A move executes one instruction, or enters a subroutine in front of one, or only takes up and drops
blocks. Nodes are never removed, so every node is made in one move, while one subroutine is in
progress. -/
namespace ScriptLift

/-- An instruction about to be executed by a walk of the innermost subroutine. -/
structure Visit where
  act : Activation
  callers : List Activation
  walk : Walk
  ins : Instruction

namespace Visit

variable (visit : Visit)

def site : Site := ⟨visit.ins, visit.act.entry, visit.walk.block, visit.walk.start⟩

def start (m : Machine) : Workspace := m.workspace visit.act visit.walk

/-- The workspace behind the instruction, failing or not. -/
def outcome (script : Script) (m : Machine) : Workspace :=
  Lift.left (visit.site.visit script m.callees (visit.start m))

end Visit

/-- The instruction that is executed next, if the innermost walk stands at one. -/
def Machine.visit? (program : Program) (m : Machine) : Option Visit :=
  match m.active with
  | [] => none
  | act :: callers =>
    match act.walk with
    | none => none
    | some walk =>
      if walk.offset < program.length then
        (program.at? walk.offset).map fun ins => { act, callers, walk, ins }
      else none

/-- Blocks that are begun or wait to be, with the contexts that they go on with. -/
def Activation.pending (act : Activation) : List (NodeId × Context) :=
  (act.walk.map fun walk => (walk.block, walk.context)).toList ++
    act.work.map fun job => (job.block, job.context)

/-- A subroutine in progress goes on as `act'`, with what has been found so far; only the blocks in
`more` are new to it. -/
structure Activation.GoesOn (act act' : Activation) (outer : Outer) (blocks : Blocks)
    (more : List (NodeId × Context)) : Prop where
  sub : act'.sub = act.sub
  outer : act'.outer = outer
  blocks : act'.blocks = blocks
  pending : act'.pending ⊆ more ++ act.pending

def Visit.Leads (visit : Visit) (script : Script) (m : Machine) (act' : Activation) : Prop :=
  let ws := visit.outcome script m
  visit.act.GoesOn act' ws.outer ws.blocks
    ((visit.walk.block, ws.context) :: ws.spawned.toList.map fun job => (job.block, job.context))

namespace Machine

variable {script : Script} {settings : LiftSettings} {m m' : Machine}

theorem visit?_eq_some {program : Program} {visit : Visit} :
    m.visit? program = some visit ↔ m.active = visit.act :: visit.callers ∧
      visit.act.walk = some visit.walk ∧ visit.walk.offset < program.length ∧
      program.at? visit.walk.offset = some visit.ins := by
  obtain ⟨act, callers, walk, ins⟩ := visit
  unfold visit?
  constructor
  · intro h
    split at h
    · cases h
    · next hactive =>
      split at h
      · cases h
      · next hwalk =>
        split at h
        · next hlt =>
          obtain ⟨_, hat, heq⟩ := Option.map_eq_some_iff.1 h
          cases heq
          exact ⟨hactive, hwalk, hlt, hat⟩
        · cases h
  · rintro ⟨hactive, hwalk, hlt, hat⟩
    dsimp only at hactive hwalk hlt hat
    simp [hactive, hwalk, hlt, hat]

theorem act_mem_of_visit? {program : Program} {visit : Visit}
    (h : m.visit? program = some visit) : visit.act ∈ m.active := by
  rw [(visit?_eq_some.1 h).1]
  exact List.mem_cons_self

theorem walk_of_visit? {program : Program} {visit : Visit} (h : m.visit? program = some visit) :
    visit.act.walk = some visit.walk :=
  (visit?_eq_some.1 h).2.1

theorem active_ne_nil_of_visit? {program : Program} {visit : Visit}
    (h : m.visit? program = some visit) : m.active ≠ [] := by
  simp [(visit?_eq_some.1 h).1]

theorem visit?_of_walk {program : Program} {act : Activation} {callers : List Activation}
    (hactive : m.active = act :: callers) (hwalk : act.walk = none) : m.visit? program = none := by
  simp [visit?, hactive, hwalk]

theorem visit?_of_lost {program : Program} {act : Activation} {callers : List Activation}
    {walk : Walk} (hactive : m.active = act :: callers) (hwalk : act.walk = some walk)
    (h : program.length ≤ walk.offset ∨ program.at? walk.offset = none) :
    m.visit? program = none := by
  rcases h with hle | hnone
  · simp [visit?, hactive, hwalk, Nat.not_lt.2 hle]
  · simp [visit?, hactive, hwalk, hnone]

theorem Within.visit? (h : m.Within script) {act : Activation} {callers : List Activation}
    {walk : Walk} {ins : Instruction} (hactive : m.active = act :: callers)
    (hwalk : act.walk = some walk) (hat : script.program.at? walk.offset = some ins) :
    m.visit? script.program = some ⟨act, callers, walk, ins⟩ :=
  visit?_eq_some.2 ⟨hactive, hwalk, h act callers walk hactive hwalk, hat⟩

/-- What a move does to the nodes and to the subroutines in progress. -/
inductive Turn (script : Script) (m m' : Machine) : Prop
  /-- The innermost subroutine is complete. -/
  | ended {act} : m.visit? script.program = none → m.active = act :: m'.active →
      m'.tree.exprs = m.tree.exprs → Turn script m m'
  /-- A block is taken up or dropped. -/
  | shifted {act act' callers} : m.visit? script.program = none → m.active = act :: callers →
      m'.active = act' :: callers → act.GoesOn act' act.outer act.blocks [] →
      m'.tree.exprs = m.tree.exprs → Turn script m m'
  | visited {visit act'} : m.visit? script.program = some visit →
      (∀ target ws, visit.site.visit script m.callees (visit.start m) ≠ .ok (.enter target) ws) →
      m'.active = act' :: visit.callers → visit.Leads script m act' →
      m'.tree.exprs = (visit.outcome script m).tree.exprs → Turn script m m'
  | entered {visit act' target ws} : m.visit? script.program = some visit →
      visit.site.visit script m.callees (visit.start m) = .ok (.enter target) ws →
      m'.active = Activation.start m.tree.nextSubId target m.tree.nextId
        (visit.walk.context.enter m.tree.nextSubId) :: act' :: visit.callers →
      visit.act.GoesOn act' visit.act.outer visit.act.blocks [] →
      m'.tree.exprs = (m.tree.alloc target (.block [])).exprs → Turn script m m'

/-- The walk goes on or ends, and a block that is asked for may be taken up. -/
theorem leads_commit {visit : Visit} {ws : Workspace} (hws : visit.outcome script m = ws)
    (last : Nat) {onward : Option Walk}
    (honward : ∀ walk, onward = some walk →
      walk.block = visit.walk.block ∧ walk.context = ws.context) :
    visit.Leads script m
      { commit { visit.act with last } ws with walk := onward } := by
  subst hws
  refine ⟨rfl, rfl, rfl, ?_⟩
  intro p hp
  rcases List.mem_append.1 hp with hp | hp
  · obtain ⟨walk, hsome, rfl⟩ : ∃ walk, onward = some walk ∧ (walk.block, walk.context) = p := by
      simpa using hp
    obtain ⟨hblock, hcontext⟩ := honward walk hsome
    rw [hblock, hcontext]
    exact List.mem_cons_self
  · obtain ⟨job, hjob, rfl⟩ := List.mem_map.1 hp
    rcases mem_work_commit.1 hjob with hspawned | hjob
    · refine List.mem_append_left _ (List.mem_cons_of_mem _ ?_)
      exact List.mem_map.2 ⟨job, Option.mem_toList.2 hspawned, rfl⟩
    · exact List.mem_append_right _ (List.mem_append_right _ (List.mem_map.2 ⟨job, hjob, rfl⟩))

theorem turn_of_tick (h : m.tick script settings = .ok (some m')) : Turn script m m' := by
  have hdropped : ∀ act : Activation,
      act.GoesOn { act with walk := none } act.outer act.blocks [] := by
    intro act
    refine ⟨rfl, rfl, rfl, ?_⟩
    intro p hp
    exact List.mem_append_right _ (List.mem_append_right _ hp)
  rcases tick_cases h with ⟨hwithin, hmove⟩ | ⟨act, callers, walk, hactive, hwalk, hend, rfl⟩
  · cases hmove with
    | finish hactive hwalk => exact .ended (visit?_of_walk hactive hwalk) hactive rfl
    | @skip act callers job work hactive hwalk hwork =>
      refine .shifted (visit?_of_walk hactive hwalk) hactive rfl ⟨rfl, rfl, rfl, ?_⟩ rfl
      intro p hp
      simp only [Activation.pending, hwalk, hwork, Option.map_none, Option.toList_none,
        List.nil_append, List.map_cons] at hp ⊢
      exact List.mem_cons_of_mem _ hp
    | @start act callers job work hactive hwalk hwork =>
      refine .shifted (visit?_of_walk hactive hwalk) hactive rfl ⟨rfl, rfl, rfl, ?_⟩ rfl
      intro p hp
      simpa [Activation.pending, hwalk, hwork, Job.walk] using hp
    | leave hactive hwalk hend =>
      exact .shifted (visit?_of_lost hactive hwalk (.inl hend)) hactive rfl (hdropped _) rfl
    | lost hactive hwalk hat =>
      exact .shifted (visit?_of_lost hactive hwalk (.inr hat)) hactive rfl (hdropped _) rfl
    | @next act callers walk ins offset ws hactive hwalk hat hrun =>
      have hws : Visit.outcome ⟨act, callers, walk, ins⟩ script m = ws := congrArg Lift.left hrun
      refine .visited (hwithin.visit? hactive hwalk hat)
        (fun _ _ heq => by cases hrun.symm.trans heq) rfl (leads_commit hws _ ?_) (by rw [hws])
      intro walk' hsome
      cases hsome
      exact ⟨rfl, rfl⟩
    | @stop act callers walk ins ws hactive hwalk hat hrun =>
      have hws : Visit.outcome ⟨act, callers, walk, ins⟩ script m = ws := congrArg Lift.left hrun
      exact .visited (hwithin.visit? hactive hwalk hat)
        (fun _ _ heq => by cases hrun.symm.trans heq) rfl (leads_commit hws _ (by simp)) (by rw [hws])
    | @fault act callers walk ins cause ws hactive hwalk hat hrun =>
      have hws : Visit.outcome ⟨act, callers, walk, ins⟩ script m = ws := congrArg Lift.left hrun
      exact .visited (hwithin.visit? hactive hwalk hat)
        (fun _ _ heq => by cases hrun.symm.trans heq) rfl (leads_commit hws _ (by simp)) (by rw [hws])
    | @enter act callers walk ins target ws hactive hwalk hat hrun =>
      exact .entered (hwithin.visit? hactive hwalk hat) hrun rfl
        ⟨rfl, rfl, rfl, List.Subset.refl _⟩ rfl
  · exact .shifted (visit?_of_lost hactive hwalk (.inl hend)) hactive rfl (hdropped _) rfl

/-- What a move does to the record of a subroutine that is there behind it. -/
inductive Accounts (script : Script) (m m' : Machine) (sub : SubId) : Prop
  /-- One that was in progress still is. -/
  | kept : m.tree.HasSub sub → m'.tree.sub sub = m.tree.sub sub →
      ((∃ act ∈ m.active, act.sub = sub) → ∃ act ∈ m'.active, act.sub = sub) →
      Accounts script m m' sub
  /-- It ends with the last offset that it came to and the arguments that it used. -/
  | completed {act} : act ∈ m.active → act.sub = sub → m.tree.HasSub sub →
      m'.tree.sub sub = { m.tree.sub sub with
        stop := act.last, formals := Activation.formals m.tree act.outer } →
      Accounts script m m' sub
  /-- A call has begun it, with a root of its own. -/
  | begun {visit target ws} : sub = m.tree.nextSubId → m.visit? script.program = some visit →
      visit.site.visit script m.callees (visit.start m) = .ok (.enter target) ws →
      m'.active.head? = some (Activation.start sub target m.tree.nextId
        (visit.walk.context.enter sub)) →
      m'.tree.exprs = (m.tree.alloc target (.block [])).exprs →
      m'.tree.sub sub = { start := target, stop := target, root := m.tree.nextId } →
      Accounts script m m' sub

theorem accounts_of_tick (h : m.tick script settings = .ok (some m')) {sub : SubId}
    (hsub : m'.tree.HasSub sub) : Accounts script m m' sub := by
  -- All moves but two leave the records alone, and the innermost subroutine goes on.
  have hkept : ∀ {act act' callers}, m.active = act :: callers → m'.active = act' :: callers →
      act'.sub = act.sub → m'.tree.subroutines = m.tree.subroutines → Accounts script m m' sub := by
    intro act act' callers hactive hactive' hgoes hsame
    have hold : m.tree.HasSub sub := by
      rw [Tree.HasSub, ← hsame]
      exact hsub
    refine .kept hold (Tree.sub_of_subroutines_eq hsame hold) ?_
    rintro ⟨other, hother, rfl⟩
    rw [hactive] at hother
    rw [hactive']
    rcases List.mem_cons.1 hother with rfl | hother
    · exact ⟨act', List.mem_cons_self, hgoes⟩
    · exact ⟨other, List.mem_cons_of_mem _ hother, rfl⟩
  rcases tick_cases h with ⟨hwithin, hmove⟩ | ⟨act, callers, walk, hactive, -, -, rfl⟩
  · cases hmove with
    | @finish act callers hactive =>
      have hold : m.tree.HasSub sub := Tree.hasSub_modifySub.1 hsub
      by_cases heq : sub = act.sub
      · subst heq
        exact .completed (first_mem hactive) rfl hold (Tree.sub_modifySub_self hold)
      · refine .kept hold (Tree.sub_modifySub_of_ne heq) ?_
        rintro ⟨other, hother, rfl⟩
        rw [hactive] at hother
        rcases List.mem_cons.1 hother with rfl | hother
        · exact absurd rfl heq
        · exact ⟨other, hother, rfl⟩
    | skip hactive | start hactive | leave hactive | lost hactive =>
      exact hkept hactive rfl rfl rfl
    | next hactive _ _ hrun | stop hactive _ _ hrun =>
      exact hkept hactive rfl rfl ((Site.visit_subroutines _ _ _).ok hrun).2
    | fault hactive _ _ hrun =>
      exact hkept hactive rfl rfl ((Site.visit_subroutines _ _ _).error hrun).2
    | @enter act callers walk ins target ws hactive hwalk hat hrun =>
      rcases hasSub_begin.1 hsub with hold | rfl
      · refine .kept hold (sub_begin_of_hasSub hold) ?_
        rintro ⟨other, hother, rfl⟩
        rw [hactive] at hother
        rcases List.mem_cons.1 hother with rfl | hother
        · exact ⟨_, List.mem_cons_of_mem _ List.mem_cons_self, rfl⟩
        · exact ⟨other, List.mem_cons_of_mem _ (List.mem_cons_of_mem _ hother), rfl⟩
      · exact .begun rfl (hwithin.visit? hactive hwalk hat) hrun rfl rfl sub_begin_nextSubId
  · exact hkept hactive rfl rfl rfl

end Machine

namespace Lift

variable (program : Program) (routines : Routines) (settings : LiftSettings)

/-- The machine after this many moves from the entry of the program, if the run gets so far. -/
def stage (count : Nat) : Option Machine :=
  (start (labels program).1).after (script program routines) settings count

/-- A move of the run, and the number of moves before it. -/
structure Step (count : Nat) (m m' : Machine) : Prop where
  before : stage program routines settings count = some m
  behind : stage program routines settings (count + 1) = some m'

variable {program routines settings} {count : Nat} {m m' : Machine}

theorem stage_succ (h : stage program routines settings (count + 1) = some m') :
    ∃ m, Step program routines settings count m m' ∧
      m.tick (script program routines) settings = .ok (some m') := by
  obtain ⟨m, hm, htick⟩ := Machine.after_succ_iff.1 h
  exact ⟨m, ⟨hm, h⟩, htick⟩

namespace Step

theorem tick (h : Step program routines settings count m m') :
    m.tick (script program routines) settings = .ok (some m') := by
  obtain ⟨mid, hmid, htick⟩ := stage_succ h.behind
  obtain rfl : mid = m := Option.some.inj (hmid.before.symm.trans h.before)
  exact htick

theorem turn (h : Step program routines settings count m m') :
    m.Turn (script program routines) m' :=
  Machine.turn_of_tick h.tick

theorem accounts (h : Step program routines settings count m m') {sub : SubId}
    (hsub : m'.tree.HasSub sub) : m.Accounts (script program routines) m' sub :=
  Machine.accounts_of_tick h.tick hsub

theorem grows (h : Step program routines settings count m m') : m.tree.Grows m'.tree :=
  (Machine.move_of_tick h.tick).grows

end Step

theorem stage_induction {P : Nat → Machine → Prop} (hstart : P 0 (start (labels program).1))
    (hstep : ∀ {count m m'}, Step program routines settings count m m' → P count m →
      P (count + 1) m') (h : stage program routines settings count = some m) : P count m := by
  induction count generalizing m with
  | zero =>
    cases h
    exact hstart
  | succ count ih =>
    obtain ⟨mid, hmid, -⟩ := stage_succ h
    exact hstep hmid (ih hmid.before)

theorem exists_step {later : Nat} (h : stage program routines settings later = some m')
    (hlt : count < later) : ∃ n n', Step program routines settings count n n' := by
  induction later generalizing m' with
  | zero => cases hlt
  | succ later ih =>
    obtain ⟨mid, hmid, -⟩ := stage_succ h
    rcases Nat.lt_or_eq_of_le (Nat.le_of_lt_succ hlt) with hlt | rfl
    · exact ih hmid.before hlt
    · exact ⟨mid, m', hmid⟩

theorem exists_stage {tree : Tree}
    (h : (start (labels program).1).run (script program routines) settings = some (.ok tree)) :
    ∃ count last, stage program routines settings count = some last ∧ last.active = [] ∧
      last.tree = tree := by
  obtain ⟨count, last, hlast, hends⟩ := Machine.run_eq_some_iff.1 h
  rcases hends with ⟨hrest, heq⟩ | ⟨e, -, heq⟩
  · cases heq
    exact ⟨count, last, hlast, hrest, rfl⟩
  · cases heq

theorem stage_sound (h : stage program routines settings count = some m) :
    m.Sound (script program routines) :=
  stage_induction (P := fun _ m => m.Sound (script program routines))
    (start_sound program routines)
    (fun hstep hm => (Machine.move_of_tick hstep.tick).sound hm) h

theorem stage_entered (h : stage program routines settings count = some m) : m.Entered :=
  stage_induction (P := fun _ m => m.Entered) (start_entered program)
    (fun hstep hm => (Machine.move_of_tick hstep.tick).entered hm) h

theorem stage_persists {P : Machine → Prop} {later : Nat}
    (hstep : ∀ {count m m'}, Step program routines settings count m m' → P m → P m')
    (h : stage program routines settings count = some m)
    (h' : stage program routines settings later = some m') (hle : count ≤ later) (hm : P m) :
    P m' := by
  induction later generalizing m' with
  | zero =>
    obtain rfl := Nat.le_zero.1 hle
    cases h.symm.trans h'
    exact hm
  | succ later ih =>
    obtain ⟨mid, hmid, -⟩ := stage_succ h'
    rcases Nat.lt_or_eq_of_le hle with hlt | rfl
    · exact hstep hmid (ih hmid.before (Nat.le_of_lt_succ hlt))
    · cases h.symm.trans h'
      exact hm

theorem stage_lt_rest {final : Nat} {last : Machine}
    (hlast : stage program routines settings final = some last) (hrest : last.active = [])
    (h : stage program routines settings count = some m) (hactive : m.active ≠ []) :
    count < final := by
  refine Nat.lt_of_not_le fun hle => ?_
  rcases Nat.lt_or_eq_of_le hle with hlt | rfl
  · obtain ⟨n, n', hstep⟩ := exists_step h hlt
    cases hlast.symm.trans hstep.before
    have htick := hstep.tick
    simp [Machine.tick, hrest] at htick
  · cases hlast.symm.trans h
    exact hactive hrest

theorem stage_grows {later : Nat} (h : stage program routines settings count = some m)
    (h' : stage program routines settings later = some m') (hle : count ≤ later) :
    m.tree.Grows m'.tree :=
  stage_persists (P := fun n => m.tree.Grows n.tree) (fun hstep hn => hn.trans hstep.grows) h h' hle
    (.refl _)

theorem start_sub {program : Program} {sub : SubId}
    (h : (start (labels program).1).tree.HasSub sub) :
    sub = (labels program).1.nextSubId ∧ (start (labels program).1).tree.sub sub =
      { name := startName, start := Program.entry, stop := Program.entry,
        root := (labels program).1.nextId } := by
  have hnone : ¬(labels program).1.HasSub sub := by simp [Tree.HasSub, subroutines_labels]
  obtain rfl := (Machine.hasSub_begin.1 h).resolve_left hnone
  exact ⟨rfl, Machine.sub_begin_nextSubId⟩

theorem start_size (program : Program) :
    (start (labels program).1).tree.size = (labels program).1.size + 1 :=
  Tree.size_alloc

theorem Step.labels_lt (h : Step program routines settings count m m') :
    (labels program).1.size < m.tree.size := by
  have hsize := (stage_grows (m := start (labels program).1) rfl h.before (Nat.zero_le _)).size
  rw [start_size] at hsize
  exact hsize

theorem exists_made {id : NodeId} (h : stage program routines settings count = some m)
    (hstart : (labels program).1.size < id.index) (hlt : id.index < m.tree.size) :
    ∃ earlier n n', Step program routines settings earlier n n' ∧ earlier < count ∧
      n.tree.size ≤ id.index ∧ id.index < n'.tree.size := by
  induction count generalizing m with
  | zero =>
    cases h
    rw [start_size] at hlt
    omega
  | succ count ih =>
    obtain ⟨mid, hmid, -⟩ := stage_succ h
    by_cases hmade : id.index < mid.tree.size
    · obtain ⟨earlier, n, n', hstep, hcount, hbounds⟩ := ih hmid.before hmade
      exact ⟨earlier, n, n', hstep, Nat.lt_succ_of_lt hcount, hbounds⟩
    · exact ⟨count, mid, m, hmid, Nat.lt_succ_self _, Nat.le_of_not_lt hmade, hlt⟩

/-- The activation that the entry of the program begins with. -/
abbrev entry (program : Program) : Activation :=
  let tree := (labels program).1
  Activation.start tree.nextSubId Program.entry tree.nextId (Context.entering tree.nextSubId)

/-- What holds of the subroutine at the entry, is kept by every move, and passes from a subroutine
to what it becomes and to those that it enters, holds of all subroutines in progress. -/
theorem active_induction {P : Nat → Tree → Activation → Prop}
    (hstart : P 0 (start (labels program).1).tree (entry program))
    (hmono : ∀ {count m m' act}, Step program routines settings count m m' → P count m.tree act →
      P (count + 1) m'.tree act)
    (hshift : ∀ {count tree act act'}, act.GoesOn act' act.outer act.blocks [] →
      P count tree act → P count tree act')
    (hvisit : ∀ {count m m' visit act'}, Step program routines settings count m m' →
      m.visit? program = some visit →
      (∀ target ws, visit.site.visit (script program routines) m.callees (visit.start m) ≠
        .ok (.enter target) ws) →
      m'.active = act' :: visit.callers → visit.Leads (script program routines) m act' →
      m'.tree.exprs = (visit.outcome (script program routines) m).tree.exprs →
      P count m.tree visit.act → P (count + 1) m'.tree act')
    (henter : ∀ {count m m' visit target ws}, Step program routines settings count m m' →
      m.visit? program = some visit →
      visit.site.visit (script program routines) m.callees (visit.start m) =
        .ok (.enter target) ws →
      let act' := Activation.start m.tree.nextSubId target m.tree.nextId
        (visit.walk.context.enter m.tree.nextSubId)
      m'.active.head? = some act' → m'.tree.exprs = (m.tree.alloc target (.block [])).exprs →
      P count m.tree visit.act → P (count + 1) m'.tree act')
    (h : stage program routines settings count = some m) :
    ∀ act ∈ m.active, P count m.tree act := by
  refine stage_induction (P := fun count m => ∀ act ∈ m.active, P count m.tree act) ?_ ?_ h
  · intro act hact
    obtain rfl := List.mem_singleton.1 hact
    exact hstart
  · intro count m m' hstep hm
    cases hstep.turn with
    | @ended act hnone hactive htree =>
      intro other hother
      exact hmono hstep (hm other (Machine.caller_mem hactive hother))
    | @shifted act act' callers hnone hactive hactive' hgoes htree =>
      rw [hactive] at hm
      rw [hactive']
      intro other hother
      refine hmono hstep ?_
      rcases List.mem_cons.1 hother with rfl | hother
      · exact hshift hgoes (hm act List.mem_cons_self)
      · exact hm other (List.mem_cons_of_mem _ hother)
    | @visited visit act' hvisited hstays hactive' hleads htree =>
      obtain ⟨hactive, -⟩ := Machine.visit?_eq_some.1 hvisited
      rw [hactive] at hm
      rw [hactive']
      intro other hother
      rcases List.mem_cons.1 hother with rfl | hother
      · exact hvisit hstep hvisited hstays hactive' hleads htree (hm _ List.mem_cons_self)
      · exact hmono hstep (hm other (List.mem_cons_of_mem _ hother))
    | @entered visit act' target ws hvisited hrun hactive' hgoes htree =>
      obtain ⟨hactive, -⟩ := Machine.visit?_eq_some.1 hvisited
      rw [hactive] at hm
      intro other hother
      rw [hactive'] at hother
      rcases List.mem_cons.1 hother with rfl | hother
      · exact henter hstep hvisited hrun (by rw [hactive']; rfl) htree (hm _ List.mem_cons_self)
      · refine hmono hstep ?_
        rcases List.mem_cons.1 hother with rfl | hother
        · exact hshift hgoes (hm _ List.mem_cons_self)
        · exact hm other (List.mem_cons_of_mem _ hother)

end Lift

/-- A node of the tree that is a block. -/
structure Tree.IsBlock (tree : Tree) (id : NodeId) : Prop where
  lt : id.index < tree.size
  kind : tree.kind id = .block

theorem Tree.IsBlock.mono {old new : Tree} {id : NodeId} (h : old.IsBlock id)
    (hgrow : old.Grows new) : new.IsBlock id :=
  ⟨Nat.lt_of_lt_of_le h.lt hgrow.size, by rw [hgrow.kind_eq h.lt, h.kind]⟩

theorem Tree.isBlock_alloc {tree new : Tree} {offset : Nat}
    (h : new.exprs = (tree.alloc offset (.block [])).exprs) : new.IsBlock tree.nextId := by
  have hroot : (tree.alloc offset (.block [])).IsBlock tree.nextId :=
    ⟨by simp, by rw [Tree.kind, Tree.node_alloc_nextId, Node.kind]⟩
  exact hroot.mono (.of_exprs_eq h)

/-- What a subroutine in progress takes for blocks are blocks. -/
structure Activation.Fills (tree : Tree) (act : Activation) : Prop where
  pending : ∀ p ∈ act.pending, tree.IsBlock p.1
  saved : ∀ p ∈ act.pending, ∀ block, p.2.savedAction = some block → tree.IsBlock block
  blocks : ∀ entry ∈ act.blocks, tree.IsBlock entry.2

theorem Activation.Fills.mono {old new : Tree} {act : Activation} (h : act.Fills old)
    (hgrow : old.Grows new) : act.Fills new where
  pending p hp := (h.pending p hp).mono hgrow
  saved p hp block hblock := (h.saved p hp block hblock).mono hgrow
  blocks entry hentry := (h.blocks entry hentry).mono hgrow

theorem Activation.fills_start {tree new : Tree} {sub : SubId} {offset : Nat} {context : Context}
    (h : new.exprs = (tree.alloc offset (.block [])).exprs)
    (hsaved : ∀ block, context.savedAction = some block → new.IsBlock block) :
    (Activation.start sub offset tree.nextId context).Fills new := by
  have hroot := Tree.isBlock_alloc h
  constructor
  · intro p hp
    obtain rfl := List.mem_singleton.1 hp
    exact hroot
  · intro p hp
    obtain rfl := List.mem_singleton.1 hp
    exact hsaved
  · intro entry hentry
    obtain rfl := List.mem_singleton.1 hentry
    exact hroot

namespace Visit

variable {visit : Visit} {script : Script} {m : Machine}

theorem mem_pending (h : visit.act.walk = some visit.walk) :
    (visit.walk.block, visit.walk.context) ∈ visit.act.pending := by
  rw [Activation.pending, h]
  exact List.mem_cons_self

theorem trail (hwalk : visit.act.walk = some visit.walk) (h : visit.act.Fills m.tree) :
    visit.site.Trail script (visit.start m) (visit.outcome script m) :=
  have hblock := h.pending _ (mem_pending hwalk)
  Site.visit_trail visit.site script m.callees (visit.start m) hblock.lt hblock.kind

theorem serves (hwalk : visit.act.walk = some visit.walk) (h : visit.act.Fills m.tree) :
    visit.site.Serves script.program (visit.start m) (visit.outcome script m) :=
  Site.visit_serves visit.site script m.callees (visit.start m)
    (h.pending _ (mem_pending hwalk)).lt

theorem opens (hwalk : visit.act.walk = some visit.walk) (h : visit.act.Fills m.tree) {job : Job}
    (hjob : (visit.outcome script m).spawned = some job) :
    visit.site.Opens script.program (visit.start m) (visit.outcome script m) job :=
  (serves hwalk h).opens rfl hjob

theorem isBlock_of_spawned (hwalk : visit.act.walk = some visit.walk)
    (h : visit.act.Fills m.tree) {job : Job} (hjob : (visit.outcome script m).spawned = some job) :
    (visit.outcome script m).tree.IsBlock job.block := by
  obtain ⟨-, -, hspawned⟩ := visit.site.visit_spares script m.callees (visit.start m)
    (h.pending _ (mem_pending hwalk)).lt
  rcases hspawned with hnone | ⟨other, hother, -, hlt, -⟩
  · cases hnone.symm.trans hjob
  · obtain rfl : other = job := Option.some.inj (hother.symm.trans hjob)
    exact ⟨hlt, by rw [Tree.kind, Tree.node, (opens hwalk h hjob).get, Node.kind]⟩

/-- A block that is pending behind an instruction is the one of the walk, one that was asked for, or
was pending before. -/
theorem Leads.pending_cases {act' : Activation} (h : visit.Leads script m act')
    {p : NodeId × Context} (hp : p ∈ act'.pending) :
    p = (visit.walk.block, (visit.outcome script m).context) ∨
      (∃ job, (visit.outcome script m).spawned = some job ∧ p = (job.block, job.context)) ∨
      p ∈ visit.act.pending := by
  rcases List.mem_append.1 (h.pending hp) with hp | hp
  · rcases List.mem_cons.1 hp with rfl | hp
    · exact .inl rfl
    · obtain ⟨job, hjob, rfl⟩ := List.mem_map.1 hp
      exact .inr (.inl ⟨job, Option.mem_toList.1 hjob, rfl⟩)
  · exact .inr (.inr hp)

theorem context_of_spawned (hwalk : visit.act.walk = some visit.walk) (h : visit.act.Fills m.tree)
    {job : Job} (hjob : (visit.outcome script m).spawned = some job) :
    job.context.stack.Sublist visit.walk.context.stack ∧
      job.context = { visit.walk.context with stack := job.context.stack } :=
  Instruction.context_of_request? (opens hwalk h hjob).request

theorem Leads.fills {act' : Activation} (hleads : visit.Leads script m act')
    (hwalk : visit.act.walk = some visit.walk) (h : visit.act.Fills m.tree) :
    act'.Fills (visit.outcome script m).tree := by
  have htrail : visit.site.Trail script (visit.start m) (visit.outcome script m) := trail hwalk h
  have hserves : visit.site.Serves script.program (visit.start m) (visit.outcome script m) :=
    serves hwalk h
  have hgrow : m.tree.Grows (visit.outcome script m).tree :=
    visit.site.visit_grows script m.callees (visit.start m)
  have hblocks : ∀ entry ∈ (visit.outcome script m).blocks,
      (visit.outcome script m).tree.IsBlock entry.2 := by
    intro entry hentry
    cases hserves with
    | kept _ hsame _ =>
      rw [hsame] at hentry
      exact (h.blocks entry hentry).mono hgrow
    | opened _ _ _ _ hsame hsome =>
      rw [hsame] at hentry
      rcases List.mem_cons.1 hentry with rfl | hentry
      · exact isBlock_of_spawned hwalk h hsome
      · exact (h.blocks entry hentry).mono hgrow
  have hsaved := h.saved _ (mem_pending hwalk)
  constructor
  · intro p hp
    rcases hleads.pending_cases hp with rfl | ⟨job, hjob, rfl⟩ | hp
    · exact (h.pending (visit.walk.block, visit.walk.context) (mem_pending hwalk)).mono hgrow
    · exact isBlock_of_spawned hwalk h hjob
    · exact (h.pending p hp).mono hgrow
  · intro p hp block hblock
    rcases hleads.pending_cases hp with rfl | ⟨job, hjob, rfl⟩ | hp
    · rcases htrail.saved block hblock with hold | ⟨key, hkey⟩
      · exact (hsaved block hold).mono hgrow
      · exact hblocks _ hkey
    · rw [(context_of_spawned hwalk h hjob).2] at hblock
      exact (hsaved block hblock).mono hgrow
    · exact (h.saved p hp block hblock).mono hgrow
  · intro entry hentry
    rw [hleads.blocks] at hentry
    exact hblocks entry hentry

end Visit

namespace Lift

variable {program : Program} {routines : Routines} {settings : LiftSettings} {count : Nat}
  {m m' : Machine}

theorem stage_fills (h : stage program routines settings count = some m) :
    ∀ act ∈ m.active, act.Fills m.tree := by
  refine active_induction (P := fun _ tree act => act.Fills tree) ?_ ?_ ?_ ?_ ?_ h
  · exact Activation.fills_start rfl (by simp [Context.entering])
  · intro count m m' act hstep hact
    exact hact.mono hstep.grows
  · intro count tree act act' hgoes hact
    exact ⟨fun p hp => hact.pending p (hgoes.pending hp),
      fun p hp => hact.saved p (hgoes.pending hp),
      fun entry hentry => hact.blocks entry (hgoes.blocks ▸ hentry)⟩
  · intro count m m' visit act' hstep hvisit _ _ hleads htree hact
    exact (hleads.fills (Machine.walk_of_visit? hvisit) hact).mono (.of_exprs_eq htree)
  · intro count m m' visit target ws hstep hvisit _ act' _ htree hact
    refine Activation.fills_start htree ?_
    intro block hblock
    have hpending := Visit.mem_pending (Machine.walk_of_visit? hvisit)
    exact (hact.saved _ hpending block hblock).mono hstep.grows

variable {visit : Visit}

theorem visit_fills (h : stage program routines settings count = some m)
    (hvisit : m.visit? program = some visit) : visit.act.Fills m.tree :=
  stage_fills h _ (Machine.act_mem_of_visit? hvisit)

theorem visit_trail (h : stage program routines settings count = some m)
    (hvisit : m.visit? program = some visit) :
    visit.site.Trail (script program routines) (visit.start m)
      (visit.outcome (script program routines) m) :=
  Visit.trail (Machine.walk_of_visit? hvisit) (visit_fills h hvisit)

theorem visit_serves (h : stage program routines settings count = some m)
    (hvisit : m.visit? program = some visit) :
    visit.site.Serves program (visit.start m) (visit.outcome (script program routines) m) :=
  have hserves : visit.site.Serves (script program routines).program (visit.start m)
      (visit.outcome (script program routines) m) :=
    Visit.serves (Machine.walk_of_visit? hvisit) (visit_fills h hvisit)
  hserves

theorem visit_spared (h : stage program routines settings count = some m)
    (hvisit : m.visit? program = some visit) {block : NodeId} (hlt : block.index < m.tree.size)
    (hne : block ≠ visit.walk.block) :
    (visit.outcome (script program routines) m).tree.statements block =
      m.tree.statements block :=
  have hwalk := Visit.mem_pending (Machine.walk_of_visit? hvisit)
  (visit.site.visit_spares (script program routines) m.callees (visit.start m)
    ((visit_fills h hvisit).pending _ hwalk).lt).2.1 block hlt hne

theorem visit_opens (h : stage program routines settings count = some m)
    (hvisit : m.visit? program = some visit) {job : Job}
    (hjob : (visit.outcome (script program routines) m).spawned = some job) :
    visit.site.Opens program (visit.start m) (visit.outcome (script program routines) m) job :=
  (visit_serves h hvisit).opens rfl hjob

theorem Step.unique {other : Nat} {n n' : Machine} {id : NodeId}
    (h : Step program routines settings count m m') (h' : Step program routines settings other n n')
    (hnew : m.tree.size ≤ id.index) (hlt : id.index < m'.tree.size)
    (hnew' : n.tree.size ≤ id.index) (hlt' : id.index < n'.tree.size) : count = other := by
  rcases Nat.lt_trichotomy count other with hless | heq | hless
  · have hsize := (stage_grows h.behind h'.before hless).size
    omega
  · exact heq
  · have hsize := (stage_grows h'.behind h.before hless).size
    omega

end Lift

end ScriptLift
