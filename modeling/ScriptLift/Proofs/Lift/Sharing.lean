import Mathlib.Data.List.Perm.Subperm
import Mathlib.Data.List.Sort
import ScriptLift.Proofs.Compact.Inlining
import ScriptLift.Proofs.Lift.History
import ScriptLift.Proofs.Semantics.Mirror

/-! Blocks that are used again.

A block is known by its offset and the depth of the stack, and goes on with the context that it was
opened with. Whoever asks for it later brings a stack of the same depth, which need not hold the
same words. Since every word has a slot of its own and later words lie above earlier ones, the two
stacks are the same exactly if no word of the later one is missing in the earlier one. -/
namespace ScriptLift

namespace Context

variable {a b : Context} {size size' : Nat}

theorem Ordered.slots_increasing (h : a.Ordered size) :
    a.slots.Pairwise fun lower upper => lower.index < upper.index := by
  rw [slots, List.pairwise_map, List.pairwise_reverse]
  exact h.descending

theorem slots_eq_iff (ha : a.Ordered size) (hb : b.Ordered size') (hdepth : a.depth = b.depth) :
    a.slots = b.slots ↔ b.slots ⊆ a.slots := by
  constructor
  · intro heq
    rw [heq]
    exact List.Subset.refl _
  · intro hsub
    have hnodup : b.slots.Nodup := hb.slots_increasing.imp fun hlt heq => by
      rw [heq] at hlt
      exact Nat.lt_irrefl _ hlt
    have hlength : a.slots.length ≤ b.slots.length := by
      rw [length_slots, length_slots, hdepth]
    have hperm : b.slots.Perm a.slots :=
      (List.subperm_of_subset hnodup hsub).perm_of_length_le hlength
    refine (hperm.eq_of_pairwise ?_ hb.slots_increasing ha.slots_increasing).symm
    intro lower upper _ _ hlt hgt
    exact absurd hgt (Nat.lt_asymm hlt)

end Context

namespace Machine

variable {script : Script} {m : Machine} {sub : SubId} {job : Job}

/-- The block that the next move opens, and the subroutine that it belongs to. -/
def opens? (script : Script) (m : Machine) : Option (SubId × Job) :=
  (m.visit? script.program).bind fun visit =>
    match visit.site.visit script m.callees (visit.start m) with
    | .ok (.enter target) _ =>
      let sub := m.tree.nextSubId
      some (sub, ⟨m.tree.nextId, target, visit.walk.context.enter sub⟩)
    | result => (Lift.left result).spawned.map fun job => (visit.act.sub, job)

/-- The block that the next move uses again, and the context that it is asked for with. -/
def reuses? (program : Program) (m : Machine) : Option (NodeId × Context) :=
  (m.visit? program).bind fun visit =>
    (visit.ins.request? program visit.walk.context).bind fun (offset, ctx) =>
      (visit.act.blocks.lookup (offset, ctx.depth)).map fun block => (block, ctx)

theorem opens?_of_enter {visit : Visit} {target : Nat} {ws : Workspace}
    (hvisit : m.visit? script.program = some visit)
    (hrun : visit.site.visit script m.callees (visit.start m) = .ok (.enter target) ws) :
    m.opens? script = some (m.tree.nextSubId,
      ⟨m.tree.nextId, target, visit.walk.context.enter m.tree.nextSubId⟩) := by
  simp [opens?, hvisit, hrun]

theorem opens?_of_stay {visit : Visit} (hvisit : m.visit? script.program = some visit)
    (hstays : ∀ target ws, visit.site.visit script m.callees (visit.start m) ≠
      .ok (.enter target) ws) :
    m.opens? script = (visit.outcome script m).spawned.map fun job => (visit.act.sub, job) := by
  rw [opens?, hvisit, Option.bind_some, Visit.outcome]
  split
  · next target ws hrun => exact absurd hrun (hstays target ws)
  · rfl

theorem reuses?_eq_some {program : Program} {block : NodeId} {ctx : Context}
    (h : m.reuses? program = some (block, ctx)) :
    ∃ visit offset, m.visit? program = some visit ∧
      visit.ins.request? program visit.walk.context = some (offset, ctx) ∧
      visit.act.blocks.lookup (offset, ctx.depth) = some block := by
  obtain ⟨visit, hvisit, h⟩ := Option.bind_eq_some_iff.1 h
  obtain ⟨⟨offset, asked⟩, hrequest, h⟩ := Option.bind_eq_some_iff.1 h
  obtain ⟨found, hlookup, heq⟩ := Option.map_eq_some_iff.1 h
  cases heq
  exact ⟨visit, offset, hvisit, hrequest, hlookup⟩

end Machine

namespace Lift

variable (program : Program) (routines : Routines) (settings : LiftSettings)

/-- The block was opened for the subroutine within the first `count` moves. -/
inductive Opened (count : Nat) : SubId → Job → Prop
  | entry : Opened count (labels program).1.nextSubId
      ⟨(labels program).1.nextId, Program.entry, .entering (labels program).1.nextSubId⟩
  | move {earlier m m' sub job} : Step program routines settings earlier m m' → earlier < count →
      m.opens? (script program routines) = some (sub, job) → Opened count sub job

/-- The contexts of a subroutine in progress are ordered, and its blocks have been opened. -/
structure Recorded (count : Nat) (tree : Tree) (act : Activation) : Prop where
  ordered : ∀ p ∈ act.pending, p.2.Ordered tree.size
  opened : ∀ entry ∈ act.blocks, ∃ job, Opened program routines settings count act.sub job ∧
    (job.key, job.block) = entry ∧ job.context.Ordered tree.size

variable {program routines settings} {count : Nat} {m m' : Machine} {sub : SubId} {job : Job}

theorem Opened.mono {later : Nat} (h : Opened program routines settings count sub job)
    (hle : count ≤ later) : Opened program routines settings later sub job := by
  cases h with
  | entry => exact .entry
  | move hstep hlt hopens => exact .move hstep (Nat.lt_of_lt_of_le hlt hle) hopens

/-- A block that a move opens is made in that move. -/
theorem Step.bounds_of_opens (h : Step program routines settings count m m')
    (hopens : m.opens? (script program routines) = some (sub, job)) :
    m.tree.size ≤ job.block.index ∧ job.block.index < m'.tree.size := by
  cases h.turn with
  | ended hnone | shifted hnone => simp [Machine.opens?, hnone] at hopens
  | @visited visit act' hvisit hstays hactive hleads htree =>
    rw [Machine.opens?_of_stay hvisit hstays, Option.map_eq_some_iff] at hopens
    obtain ⟨spawned, hspawned, heq⟩ := hopens
    cases heq
    have hlt : (visit.outcome (script program routines) m).tree.IsBlock job.block :=
      Visit.isBlock_of_spawned (Machine.walk_of_visit? hvisit) (visit_fills h.before hvisit)
        hspawned
    have hgrow : (visit.outcome (script program routines) m).tree.Grows m'.tree :=
      .of_exprs_eq htree
    exact ⟨(visit_opens h.before hvisit hspawned).fresh, Nat.lt_of_lt_of_le hlt.lt hgrow.size⟩
  | entered hvisit hrun hactive hgoes htree =>
    rw [Machine.opens?_of_enter hvisit hrun, Option.some.injEq] at hopens
    cases hopens
    exact ⟨Nat.le_refl _, (Tree.isBlock_alloc htree).lt⟩

/-- A block is opened once. -/
theorem Opened.unique {sub' : SubId} {job' : Job}
    (h : Opened program routines settings count sub job)
    (h' : Opened program routines settings count sub' job') (heq : job.block = job'.block) :
    sub = sub' ∧ job = job' := by
  -- The block of the entry is there before the first move.
  have hentry : ∀ {earlier m m' sub job}, Step program routines settings earlier m m' →
      m.opens? (script program routines) = some (sub, job) →
      job.block ≠ (labels program).1.nextId := by
    intro earlier m m' sub job hstep hopens hblock
    have hnew := (hstep.bounds_of_opens hopens).1
    rw [hblock, Tree.nextId_index] at hnew
    exact absurd hstep.labels_lt (Nat.not_lt.2 hnew)
  cases h with
  | entry =>
    cases h' with
    | entry => exact ⟨rfl, rfl⟩
    | move hstep _ hopens => exact absurd heq.symm (hentry hstep hopens)
  | move hstep _ hopens =>
    cases h' with
    | entry => exact absurd heq (hentry hstep hopens)
    | move hstep' _ hopens' =>
      obtain ⟨hnew, hlt⟩ := hstep.bounds_of_opens hopens
      obtain ⟨hnew', hlt'⟩ := hstep'.bounds_of_opens hopens'
      rw [← heq] at hnew' hlt'
      cases hstep.unique hstep' hnew hlt hnew' hlt'
      cases hstep.before.symm.trans hstep'.before
      cases hopens.symm.trans hopens'
      exact ⟨rfl, rfl⟩

namespace Recorded

variable {act act' : Activation} {tree : Tree} {visit : Visit}

theorem mono (h : Recorded program routines settings count tree act) {later : Nat}
    (hle : count ≤ later) {new : Tree} (hsize : tree.size ≤ new.size) :
    Recorded program routines settings later new act := by
  constructor
  · intro p hp
    exact (h.ordered p hp).mono hsize
  · intro entry hentry
    obtain ⟨job, hopened, heq, hordered⟩ := h.opened entry hentry
    exact ⟨job, hopened.mono hle, heq, hordered.mono hsize⟩

theorem shift (h : Recorded program routines settings count tree act)
    (hgoes : act.GoesOn act' act.outer act.blocks []) :
    Recorded program routines settings count tree act' := by
  constructor
  · intro p hp
    exact h.ordered p (hgoes.pending hp)
  · intro entry hentry
    rw [hgoes.sub]
    exact h.opened entry (hgoes.blocks ▸ hentry)

theorem start {root : NodeId} {offset : Nat} {ctx : Context}
    (hopened : Opened program routines settings count sub ⟨root, offset, ctx⟩)
    (hordered : ctx.Ordered tree.size) :
    Recorded program routines settings count tree (.start sub offset root ctx) := by
  constructor
  · intro p hp
    obtain rfl := List.mem_singleton.1 hp
    exact hordered
  · intro entry hentry
    obtain rfl := List.mem_singleton.1 hentry
    exact ⟨_, hopened, rfl, hordered⟩

/-- Behind an instruction: what it asks for, it asks for with words of the walk. -/
theorem visited (hstep : Step program routines settings count m m')
    (hvisit : m.visit? program = some visit)
    (hstays : ∀ target ws, visit.site.visit (script program routines) m.callees (visit.start m) ≠
      .ok (.enter target) ws)
    (hleads : visit.Leads (script program routines) m act')
    (hsize : (visit.outcome (script program routines) m).tree.size ≤ m'.tree.size)
    (h : Recorded program routines settings count m.tree visit.act) :
    Recorded program routines settings (count + 1) m'.tree act' := by
  have hwalk := h.ordered _ (Visit.mem_pending (Machine.walk_of_visit? hvisit))
  have hbehind := (visit_trail hstep.before hvisit).context.ordered hwalk
  have hold := h.mono (Nat.le_succ _) hstep.grows.size
  have hjob : ∀ {job}, (visit.outcome (script program routines) m).spawned = some job →
      job.context.Ordered m'.tree.size := by
    intro job hspawned
    have hstack := (Visit.context_of_spawned (Machine.walk_of_visit? hvisit)
      (visit_fills hstep.before hvisit) hspawned).1
    exact (hwalk.shrink hstack).mono hstep.grows.size
  constructor
  · intro p hp
    rcases hleads.pending_cases hp with rfl | ⟨job, hspawned, rfl⟩ | hp
    · exact hbehind.mono hsize
    · exact hjob hspawned
    · exact hold.ordered p hp
  · intro entry hentry
    rw [hleads.blocks] at hentry
    rw [hleads.sub]
    cases visit_serves hstep.before hvisit with
    | kept _ hsame _ =>
      rw [hsame] at hentry
      exact hold.opened entry hentry
    | @opened job _ _ _ _ hsame hsome =>
      rw [hsame] at hentry
      rcases List.mem_cons.1 hentry with rfl | hentry
      · refine ⟨job, .move hstep (Nat.lt_succ_self _) ?_, rfl, hjob hsome⟩
        rw [Machine.opens?_of_stay hvisit hstays, hsome, Option.map_some]
      · exact hold.opened entry hentry

end Recorded

theorem stage_recorded (h : stage program routines settings count = some m) :
    ∀ act ∈ m.active, Recorded program routines settings count m.tree act := by
  refine active_induction (P := Recorded program routines settings) ?_ ?_ ?_ ?_ ?_ h
  · exact .start .entry ⟨List.Pairwise.nil, by simp [Context.entering]⟩
  · intro count m m' act hstep hact
    exact hact.mono (Nat.le_succ _) hstep.grows.size
  · intro count tree act act' hgoes hact
    exact hact.shift hgoes
  · intro count m m' visit act' hstep hvisit hstays _ hleads htree hact
    exact .visited hstep hvisit hstays hleads (Tree.Grows.of_exprs_eq htree).size hact
  · intro count m m' visit target ws hstep hvisit hrun act' _ _ hact
    have hordered := hact.ordered _ (Visit.mem_pending (Machine.walk_of_visit? hvisit))
    refine .start (.move hstep (Nat.lt_succ_self _) (Machine.opens?_of_enter hvisit hrun)) ?_
    exact ⟨hordered.descending, (hordered.mono hstep.grows.size).bound⟩

end Lift

/-- A block that is used again was opened once before, for the same subroutine and with a stack of
the same depth. The stack that it is asked for with has the same slots exactly if none of them was
missing then. -/
theorem reused_block_slots_iff {program : Program} {routines : Routines} {settings : LiftSettings}
    {count : Nat} {m : Machine} {block : NodeId} {ctx : Context}
    (hstage : Lift.stage program routines settings count = some m)
    (hreuse : m.reuses? program = some (block, ctx)) :
    ∃ sub job, Lift.Opened program routines settings count sub job ∧ job.block = block ∧
      (∀ sub' job', Lift.Opened program routines settings count sub' job' → job'.block = block →
        sub' = sub ∧ job' = job) ∧
      m.active.head?.map (·.sub) = some sub ∧ job.context.depth = ctx.depth ∧
      (job.context.slots = ctx.slots ↔ ctx.slots ⊆ job.context.slots) := by
  obtain ⟨visit, offset, hvisit, hrequest, hlookup⟩ := Machine.reuses?_eq_some hreuse
  obtain ⟨hactive, hwalk, -⟩ := Machine.visit?_eq_some.1 hvisit
  have hrecorded := Lift.stage_recorded hstage visit.act (Machine.act_mem_of_visit? hvisit)
  obtain ⟨job, hopened, hentry, hordered⟩ := hrecorded.opened _ (Site.mem_of_lookup hlookup)
  obtain ⟨hkey, rfl⟩ := Prod.mk.injEq .. ▸ hentry
  have hdepth : job.context.depth = ctx.depth := congrArg Prod.snd hkey
  have hasked := (hrecorded.ordered _ (Visit.mem_pending hwalk)).shrink
    (Instruction.context_of_request? hrequest).1
  refine ⟨visit.act.sub, job, hopened, rfl, ?_, by rw [hactive]; rfl, hdepth,
    Context.slots_eq_iff hordered hasked hdepth⟩
  intro sub' job' hopened' heq
  exact hopened'.unique hopened heq

namespace Lift

/-- Whether the block opened behind `earlier` moves is used again behind `count` moves, with other
slots. -/
def clashes (program : Program) (routines : Routines) (settings : LiftSettings)
    (earlier count : Nat) : Bool :=
  (stage program routines settings earlier).any fun m =>
    (m.opens? (script program routines)).any fun opened =>
      (stage program routines settings count).any fun n => (n.reuses? program).any fun reused =>
        opened.2.block = reused.1 && opened.2.context.slots ≠ reused.2.slots

theorem exists_of_clashes {program : Program} {routines : Routines} {settings : LiftSettings}
    {earlier count : Nat} (hlt : earlier < count)
    (h : clashes program routines settings earlier count) :
    ∃ n sub job ctx, stage program routines settings count = some n ∧
      Opened program routines settings count sub job ∧
      n.reuses? program = some (job.block, ctx) ∧ job.context.slots ≠ ctx.slots := by
  simp only [clashes, Option.any_eq_true, Bool.and_eq_true, decide_eq_true_eq] at h
  obtain ⟨m, hm, ⟨sub, job⟩, hopens, n, hn, ⟨block, ctx⟩, hreuses, rfl, hslots⟩ := h
  obtain ⟨m', n', hstep⟩ := exists_step hn hlt
  obtain rfl : m' = m := Option.some.inj (hstep.before.symm.trans hm)
  exact ⟨n, sub, job, ctx, hn, .move hstep hlt hopens, hreuses, hslots⟩

end Lift

/-- Two branches to the same offset, each with a word of its own below the test. -/
def mergedScript : Program := .ofList "" [
  { opcode := .jsr, jump := 8 },
  { opcode := .retn },
  { opcode := .consti, value := some (.int 0) },
  { opcode := .jz, jump := 26 },
  { opcode := .consti, value := some (.int 1) },
  { opcode := .consti, value := some (.int 0) },
  { opcode := .jz, jump := 26 },
  { opcode := .retn },
  { opcode := .consti, value := some (.int 2) },
  { opcode := .consti, value := some (.int 0) },
  { opcode := .jz, jump := 6 },
  { opcode := .action, routine := 1, arity := 1 },
  { opcode := .retn }
]

/-- The second branch uses the block of the first again. -/
theorem reused_block_slots_mergedScript : ∃ m block ctx sub job,
    Lift.stage mergedScript printRoutines .strictly 15 = some m ∧
    m.reuses? mergedScript = some (block, ctx) ∧
    Lift.Opened mergedScript printRoutines .strictly 15 sub job ∧ job.block = block ∧
    ¬ctx.slots ⊆ job.context.slots ∧
    (job.context.slots = ctx.slots ↔ ctx.slots ⊆ job.context.slots) := by
  obtain ⟨m, sub, job, ctx, hstage, hopened, hreuse, hslots⟩ :=
    Lift.exists_of_clashes (show 7 < 15 by decide)
      (show Lift.clashes mergedScript printRoutines .strictly 7 15 by decide +kernel)
  obtain ⟨_, job', _, _, hunique, _, _, hiff⟩ := reused_block_slots_iff hstage hreuse
  obtain rfl : job = job' := (hunique sub job hopened rfl).2
  exact ⟨m, job.block, ctx, sub, job, hstage, hreuse, hopened, rfl,
    fun hsub => hslots (hiff.2 hsub), hiff⟩

/-- Blocks are entered with other words than they were opened with. -/
theorem not_forall_reused_block_slots : ¬∀ (program : Program) (routines : Routines)
    (settings : LiftSettings) (count : Nat) (m : Machine) (block : NodeId) (ctx : Context)
    (sub : SubId) (job : Job), Lift.stage program routines settings count = some m →
    m.reuses? program = some (block, ctx) → Lift.Opened program routines settings count sub job →
    job.block = block → job.context.slots = ctx.slots := by
  intro h
  obtain ⟨m, sub, job, ctx, hstage, hopened, hreuse, hslots⟩ :=
    Lift.exists_of_clashes (show 7 < 15 by decide)
      (show Lift.clashes mergedScript printRoutines .strictly 7 15 by decide +kernel)
  exact hslots (h _ _ _ 15 m job.block ctx sub job hstage hreuse hopened rfl)

end ScriptLift
