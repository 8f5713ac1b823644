import ScriptLift.Proofs.Lift.Ownership
import ScriptLift.Proofs.Lift.Termination
import ScriptLift.Proofs.Tree.Cycles

/-! Where the nodes of a tree stand.

A node stands at the instruction that makes it. A block that an instruction asks for stands where it
starts, ahead of the instruction, and a walk fills it from there on. So a statement stands no earlier
than its block, and what a node holds stands where the node does, or is a block further ahead. The
block that an engine call keeps for later is free to stand anywhere; a conditional goto has a block
of its own, which no walk fills. -/
namespace ScriptLift

/-- What an instruction adds stands at its offset, apart from the blocks that it asks for. -/
structure Site.Marks (site : Site) (a b : Workspace) : Prop where
  grows : a.tree.Grows b.tree
  blocks : a.blocks ⊆ b.blocks
  offset : ∀ id : NodeId, a.tree.size ≤ id.index → id.index < b.tree.size →
    b.tree.offset id = site.ins.offset ∨ ∃ key, (key, id) ∈ b.blocks

namespace Site

variable {site : Site} {a b c : Workspace}

namespace Marks

theorem trans (h : site.Marks a b) (g : site.Marks b c) : site.Marks a c := by
  refine ⟨h.grows.trans g.grows, List.Subset.trans h.blocks g.blocks, fun id hnew hlt => ?_⟩
  by_cases hid : id.index < b.tree.size
  · rw [g.grows.offset id hid]
    refine (h.offset id hnew hid).imp_right ?_
    rintro ⟨key, hkey⟩
    exact ⟨key, g.blocks hkey⟩
  · exact g.offset id (Nat.le_of_not_lt hid) hlt

theorem of_size_eq (hgrow : a.tree.Grows b.tree) (hsize : b.tree.size = a.tree.size)
    (hblocks : b.blocks = a.blocks) : site.Marks a b := by
  refine ⟨hgrow, by rw [hblocks]; exact List.Subset.refl _, fun id hnew hlt => ?_⟩
  rw [hsize] at hlt
  exact absurd hlt (Nat.not_lt.2 hnew)

theorem alloc (ws : Workspace) (node : Node) :
    site.Marks ws { ws with tree := ws.tree.alloc site.ins.offset node } := by
  refine ⟨.alloc _ _ _, List.Subset.refl _, fun id hnew hlt => .inl ?_⟩
  rw [Tree.eq_nextId_of_alloc hnew hlt, Tree.offset, Tree.get_alloc_nextId]

theorem pushStatement (ws : Workspace) (block s : NodeId) :
    site.Marks ws { ws with tree := ws.tree.pushStatement block s } :=
  .of_size_eq (.pushStatement _ _ _) Tree.size_pushStatement rfl

theorem record (ws : Workspace) (node : Node) (block s : NodeId) : site.Marks ws { ws with
    tree := (ws.tree.alloc site.ins.offset node).pushStatement block s } :=
  (alloc ws node).trans (pushStatement _ block s)

end Marks

theorem closed_marks (site : Site) (script : Script) : site.Closed script site.Marks where
  refl _ := .of_size_eq (.refl _) rfl rfl
  trans h g := h.trans g
  alloc ws node _ := .alloc ws node
  record ws node _ := .record ws node _ _
  label ws _ _ _ := .pushStatement ws _ _
  jump ws label := (Marks.alloc ws (.block [])).trans (.record _ (.goto label) _ _)
  schedule ws offset _ := by
    refine ⟨.alloc _ _ _, List.subset_cons_self _ _, fun id hnew hlt => .inr ?_⟩
    refine ⟨(offset, ws.context.depth), ?_⟩
    rw [Tree.eq_nextId_of_alloc hnew hlt]
    exact List.mem_cons_self
  slot _ _ _ := .of_size_eq (.modifySlot _ _ _) (Tree.size_modifySlot _) rfl
  outer _ _ := .of_size_eq (.refl _) rfl rfl
  context _ _ _ := .of_size_eq (.refl _) rfl rfl
  warn _ _ := .of_size_eq (.of_exprs_eq rfl) rfl rfl

theorem visit_marks (site : Site) (script : Script) (callees : List (Nat × SubId)) :
    Lift.Keeps site.Marks (site.visit script callees) :=
  (site.closed_marks script).keeps_visit callees
    (fun _ callee _ => (site.closed_marks script).keeps_call callee fun ws _ => .record ws _ _ _)
    fun _ ws => .record ws _ _ _

end Site

/-- Blocks of a subroutine in progress stand where they start, and a walk goes on from there. -/
structure Activation.Anchored (tree : Tree) (act : Activation) : Prop where
  blocks : ∀ entry ∈ act.blocks, tree.offset entry.2 = entry.1.1
  work : ∀ job ∈ act.work, tree.offset job.block = job.start
  walk : ∀ walk, act.walk = some walk → tree.offset walk.block ≤ walk.offset

namespace Activation.Anchored

variable {act : Activation} {old new : Tree}

theorem start {root : NodeId} {entry : Nat} (h : new.offset root = entry) (sub : SubId)
    (context : Context) : (Activation.start sub entry root context).Anchored new where
  blocks := by simp [Activation.start, Job.key, h]
  work := by simp [Activation.start, h]
  walk := by simp [Activation.start]

theorem mono (h : act.Anchored old) (hfills : act.Fills old) (hgrow : old.Grows new) :
    act.Anchored new := by
  constructor
  · intro entry hentry
    rw [hgrow.offset _ (hfills.blocks entry hentry).lt, h.blocks entry hentry]
  · intro job hjob
    have hpending : (job.block, job.context) ∈ act.pending :=
      List.mem_append_right _ (List.mem_map.2 ⟨job, hjob, rfl⟩)
    rw [hgrow.offset _ (hfills.pending _ hpending).lt, h.work job hjob]
  · intro walk hwalk
    have hpending : (walk.block, walk.context) ∈ act.pending := by
      rw [Activation.pending, hwalk]
      exact List.mem_cons_self
    rw [hgrow.offset _ (hfills.pending _ hpending).lt]
    exact h.walk walk hwalk

/-- Behind an instruction: a block that is opened stands where it starts. -/
theorem visited {visit : Visit} {script : Script} {m : Machine} {ws : Workspace}
    {act' : Activation} (hws : visit.outcome script m = ws) (htree : new.exprs = ws.tree.exprs)
    (h : visit.act.Anchored new) (hwalk : visit.act.walk = some visit.walk)
    (hfills : visit.act.Fills m.tree)
    (hblocks : act'.blocks = ws.blocks)
    (hwork : act'.work = (Machine.commit visit.act ws).work)
    (honward : ∀ walk, act'.walk = some walk →
      walk.block = visit.walk.block ∧ visit.walk.offset < walk.offset) :
    act'.Anchored new := by
  subst hws
  have hserves : visit.site.Serves script.program (visit.start m) (visit.outcome script m) :=
    Visit.serves hwalk hfills
  have hopened : ∀ job, (visit.outcome script m).spawned = some job →
      new.offset job.block = job.start := by
    intro job hjob
    have hget : new.get job.block = ⟨job.start, .block []⟩ := by
      rw [← (hserves.opens rfl hjob).get, Tree.get, Tree.get, Tree.get?, Tree.get?, htree]
    rw [Tree.offset, hget]
  constructor
  · intro entry hentry
    rw [hblocks] at hentry
    cases hserves with
    | kept _ hsame _ =>
      rw [hsame] at hentry
      exact h.blocks entry hentry
    | @opened job _ _ _ _ hsame hsome =>
      rw [hsame] at hentry
      rcases List.mem_cons.1 hentry with rfl | hentry
      · exact hopened job hsome
      · exact h.blocks entry hentry
  · intro job hjob
    rw [hwork] at hjob
    rcases Machine.mem_work_commit.1 hjob with hspawned | hjob
    · exact hopened job hspawned
    · exact h.work job hjob
  · intro walk hnext
    obtain ⟨hblock, hlt⟩ := honward walk hnext
    rw [hblock]
    exact Nat.le_trans (h.walk _ hwalk) (Nat.le_of_lt hlt)

end Activation.Anchored

namespace Machine

variable {script : Script} {settings : LiftSettings} {m m' : Machine}

/-- Where instructions lead ahead, walks stay ahead of where their blocks start. -/
theorem anchored_of_tick (h : m.tick script settings = .ok (some m'))
    (hfills : ∀ act ∈ m.active, act.Fills m.tree)
    (hahead : ∀ visit, m.visit? script.program = some visit → visit.Ahead script m)
    (hm : ∀ act ∈ m.active, act.Anchored m.tree) : ∀ act ∈ m'.active, act.Anchored m'.tree := by
  have hold : ∀ act ∈ m.active, act.Anchored m'.tree :=
    fun act hact => (hm act hact).mono (hfills act hact) (move_of_tick h).grows
  -- All moves but two replace the innermost subroutine.
  have hreplace : ∀ {act act' callers}, m.active = act :: callers →
      act'.Anchored m'.tree → ∀ other ∈ act' :: callers, other.Anchored m'.tree := by
    intro act act' callers hactive hact other hother
    rcases List.mem_cons.1 hother with rfl | hother
    · exact hact
    · exact hold other (caller_mem hactive hother)
  have hended : ∀ {act callers}, m.active = act :: callers →
      ∀ other ∈ { act with walk := none } :: callers, other.Anchored m'.tree := by
    intro act callers hactive
    have hact := hold _ (first_mem hactive)
    exact hreplace hactive ⟨hact.blocks, hact.work, by simp⟩
  rcases tick_cases h with ⟨hwithin, hmove⟩ | ⟨act, callers, walk, hactive, -, -, rfl⟩
  · cases hmove with
    | finish hactive =>
      intro act hact
      exact hold act (caller_mem hactive hact)
    | skip hactive hwalk hwork =>
      have hact := hold _ (first_mem hactive)
      refine hreplace hactive ⟨hact.blocks, fun other hother => hact.work other ?_, hact.walk⟩
      exact hwork ▸ List.mem_cons_of_mem _ hother
    | start hactive hwalk hwork =>
      have hact := hold _ (first_mem hactive)
      refine hreplace hactive ⟨hact.blocks, fun other hother => hact.work other ?_, ?_⟩
      · exact hwork ▸ List.mem_cons_of_mem _ hother
      · intro walk hstarted
        cases hstarted
        exact Nat.le_of_eq (hact.work _ (hwork ▸ List.mem_cons_self))
    | leave hactive | lost hactive => exact hended hactive
    | @next act callers walk ins offset ws hactive hwalk hat hrun =>
      have hws : Visit.outcome ⟨act, callers, walk, ins⟩ script m = ws := congrArg Lift.left hrun
      have hact := first_mem hactive
      refine hreplace hactive
        (.visited hws rfl (hold act hact) hwalk (hfills act hact) rfl rfl ?_)
      rintro walk' ⟨⟩
      have honward : Visit.onward? ⟨act, callers, walk, ins⟩ script m = some offset :=
        Visit.onward?_of_visit hrun
      exact ⟨rfl, (hahead _ (hwithin.visit? hactive hwalk hat)).onward offset honward⟩
    | @stop act callers walk ins ws hactive hwalk _ hrun
    | @fault act callers walk ins cause ws hactive hwalk _ hrun =>
      have hws : Visit.outcome ⟨act, callers, walk, ins⟩ script m = ws := congrArg Lift.left hrun
      have hact := first_mem hactive
      exact hreplace hactive
        (.visited hws rfl (hold act hact) hwalk (hfills act hact) rfl rfl
          (by simp))
    | @enter act callers walk ins target ws hactive =>
      intro other hother
      rcases List.mem_cons.1 hother with rfl | hother
      · refine .start ?_ _ _
        exact congrArg Expr.offset Tree.get_alloc_nextId
      · have hact := hold _ (first_mem hactive)
        have hwaits : Activation.Anchored _ { act with last := max act.last walk.offset } :=
          ⟨hact.blocks, hact.work, hact.walk⟩
        exact hreplace hactive hwaits other hother
  · exact hended hactive

/-- A block that no walk fills: it is bare, and nobody asks for it. -/
structure Idle (m : Machine) (block : NodeId) : Prop where
  isBlock : m.tree.IsBlock block
  unasked : ∀ act ∈ m.active, ∀ p ∈ act.pending, p.1 ≠ block
  bare : m.tree.isBare block

/-- What a node may hold: a slot, a block that no walk fills, a block that an engine call keeps for
later, something ahead, or another value at the same offset. -/
inductive MayHold (m : Machine) (n id : NodeId) : Prop
  | slot : m.tree.kind id = .slot → MayHold m n id
  | idle : m.Idle id → MayHold m n id
  | kept : m.tree.kind n = .action → m.tree.kind id = .block → MayHold m n id
  | ahead : m.tree.offset n < m.tree.offset id → MayHold m n id
  | beside : m.tree.offset n = m.tree.offset id → m.tree.kind id ≠ .block → MayHold m n id

end Machine

namespace Lift

variable {program : Program} {routines : Routines} {settings : LiftSettings} {count : Nat}
  {m m' : Machine} {visit : Visit} {block id n s : NodeId}

/-- A block that no walk fills is never filled. -/
theorem Step.idle (hstep : Step program routines settings count m m') (h : m.Idle block) :
    m'.Idle block := by
  have hkeeps : (∀ act ∈ m'.active, ∀ p ∈ act.pending, p.1 ≠ block) →
      m'.tree.statements block = m.tree.statements block → m'.Idle block := by
    intro hunasked hsame
    refine ⟨h.isBlock.mono hstep.grows, hunasked, ?_⟩
    rw [Tree.isBare_eq (stage_sound hstep.before).tree.wellFormed hstep.grows hsame]
    exact h.bare
  cases hstep.turn with
  | ended _ hactive htree =>
    exact hkeeps (fun act hact => h.unasked act (Machine.caller_mem hactive hact))
      (Tree.statements_of_exprs_eq htree)
  | shifted _ hactive hactive' hgoes htree =>
    have hunasked := h.unasked
    rw [hactive, List.forall_mem_cons] at hunasked
    refine hkeeps ?_ (Tree.statements_of_exprs_eq htree)
    rw [hactive', List.forall_mem_cons]
    exact ⟨fun p hp => hunasked.1 p (hgoes.pending hp), hunasked.2⟩
  | @visited visit act' hvisit _ hactive hleads htree =>
    have hunasked := h.unasked
    have hwalk := Visit.mem_pending (Machine.walk_of_visit? hvisit)
    rw [(Machine.visit?_eq_some.1 hvisit).1, List.forall_mem_cons] at hunasked
    refine hkeeps ?_ ((Tree.statements_of_exprs_eq htree).trans
      (visit_spared hstep.before hvisit h.isBlock.lt (hunasked.1 _ hwalk).symm))
    rw [hactive, List.forall_mem_cons]
    refine ⟨fun p hp => ?_, hunasked.2⟩
    rcases hleads.pending_cases hp with rfl | ⟨job, hjob, rfl⟩ | hp
    · exact hunasked.1 (visit.walk.block, visit.walk.context) hwalk
    · rintro rfl
      exact Nat.not_lt.2 (visit_opens hstep.before hvisit hjob).fresh h.isBlock.lt
    · exact hunasked.1 p hp
  | @entered visit act' target ws hvisit _ hactive hgoes htree =>
    have hunasked := h.unasked
    rw [(Machine.visit?_eq_some.1 hvisit).1, List.forall_mem_cons] at hunasked
    refine hkeeps ?_ ((Tree.statements_of_exprs_eq htree).trans (Tree.statements_alloc (by simp)))
    rw [hactive, List.forall_mem_cons, List.forall_mem_cons]
    refine ⟨fun p hp => ?_, fun p hp => hunasked.1 p (hgoes.pending hp), hunasked.2⟩
    obtain rfl := List.mem_singleton.1 hp
    rintro rfl
    exact Nat.lt_irrefl _ h.isBlock.lt

theorem Step.mayHold (hstep : Step program routines settings count m m') (h : m.MayHold n id)
    (hn : n.index < m.tree.size) (hid : id.index < m.tree.size) : m'.MayHold n id := by
  have hgrow := hstep.grows
  cases h with
  | slot hslot => exact .slot (by rw [hgrow.kind_eq hid, hslot])
  | idle hidle => exact .idle (hstep.idle hidle)
  | kept haction hblock =>
    exact .kept (by rw [hgrow.kind_eq hn, haction]) (by rw [hgrow.kind_eq hid, hblock])
  | ahead hlt => exact .ahead (by rw [hgrow.offset _ hn, hgrow.offset _ hid]; exact hlt)
  | beside heq hkind =>
    exact .beside (by rw [hgrow.offset _ hn, hgrow.offset _ hid, heq])
      (by rw [hgrow.kind_eq hid]; exact hkind)

/-- A node that an instruction makes stands where the instruction does, or it is the block that the
instruction asks for, empty and where it starts. -/
theorem visit_stands (h : stage program routines settings count = some m)
    (hvisit : m.visit? program = some visit)
    (hsame : m'.tree.exprs = (visit.outcome (script program routines) m).tree.exprs)
    (hnew : m.tree.size ≤ id.index) (hlt : id.index < m'.tree.size) :
    m'.tree.offset id = visit.walk.offset ∨
      ∃ job, (visit.outcome (script program routines) m).spawned = some job ∧
        m'.tree.get id = ⟨job.start, .block []⟩ := by
  have hmarks : visit.site.Marks (visit.start m) (visit.outcome (script program routines) m) :=
    visit.site.visit_marks (script program routines) m.callees (visit.start m)
  have hold : ∀ key, (key, id) ∉ visit.act.blocks := fun key hkey =>
    Nat.not_lt.2 hnew ((visit_fills h hvisit).blocks _ hkey).lt
  have hgets : ∀ id, m'.tree.get id = (visit.outcome (script program routines) m).tree.get id := by
    intro id
    rw [Tree.get, Tree.get, Tree.get?, Tree.get?, hsame]
  rw [Tree.size, hsame] at hlt
  rw [Tree.offset, hgets]
  rcases hmarks.offset id hnew hlt with hoffset | ⟨key, hkey⟩
  · exact .inl (hoffset.trans (Program.offset_of_at? (Machine.visit?_eq_some.1 hvisit).2.2.2))
  · cases visit_serves h hvisit with
    | kept _ hblocks _ =>
      rw [hblocks] at hkey
      exact absurd hkey (hold key)
    | @opened job _ _ _ hget hblocks hsome =>
      rw [hblocks] at hkey
      rcases List.mem_cons.1 hkey with heq | hkey
      · cases heq
        exact .inr ⟨job, hsome, hget⟩
      · exact absurd hkey (hold key)

section Ahead

variable (hlength : program.length ≤ 2 ^ 31)
include hlength

theorem stage_anchored (h : stage program routines settings count = some m) :
    ∀ act ∈ m.active, act.Anchored m.tree := by
  refine stage_induction (P := fun _ m => ∀ act ∈ m.active, act.Anchored m.tree) ?_ ?_ h
  · intro act hact
    obtain rfl := List.mem_singleton.1 hact
    refine .start ?_ _ _
    exact congrArg Expr.offset Tree.get_alloc_nextId
  · intro count m m' hstep hm
    exact Machine.anchored_of_tick hstep.tick (stage_fills hstep.before)
      (fun visit => stage_ahead hlength hstep.before) hm

theorem visit_offset (h : stage program routines settings count = some m)
    (hvisit : m.visit? program = some visit)
    (hsame : m'.tree.exprs = (visit.outcome (script program routines) m).tree.exprs)
    (hnew : m.tree.size ≤ id.index) (hlt : id.index < m'.tree.size) :
    m'.tree.offset id = visit.walk.offset ∨
      m'.tree.node id = .block [] ∧ visit.walk.offset < m'.tree.offset id := by
  refine (visit_stands h hvisit hsame hnew hlt).imp_right ?_
  rintro ⟨job, hjob, hget⟩
  rw [Tree.node, Tree.offset, hget]
  exact ⟨rfl, (stage_ahead hlength h hvisit).asked job hjob⟩

/-- A statement stands no earlier than its block, unless it is a label. -/
theorem stage_statement_offset (h : stage program routines settings count = some m)
    (hs : s ∈ m.tree.statements block) :
    m.tree.kind s = .label ∨ m.tree.offset block ≤ m.tree.offset s := by
  refine stage_induction (P := fun _ m => ∀ block s, s ∈ m.tree.statements block →
    m.tree.kind s = .label ∨ m.tree.offset block ≤ m.tree.offset s) ?_ ?_ h block s hs
  · intro block s hs
    rcases start_node program block with hnode | hnode <;> simp [Tree.statements, hnode] at hs
  · intro count m m' hstep hm block s hs
    have hstatement := (stage_sound hstep.behind).tree.wellFormed.statement hs
    have hold : s ∈ m.tree.statements block →
        m'.tree.kind s = .label ∨ m'.tree.offset block ≤ m'.tree.offset s := by
      intro hs
      have hlt := ((stage_sound hstep.before).tree.wellFormed.statement hs).lt
      have hblock := Tree.lt_size_of_statement hs
      rw [hstep.grows.kind_eq hlt, hstep.grows.offset _ hblock, hstep.grows.offset _ hlt]
      exact hm block s hs
    cases hstep.turn with
    | ended _ _ hsame | shifted _ _ _ _ hsame =>
      rw [Tree.statements_of_exprs_eq hsame] at hs
      exact hold hs
    | entered _ _ _ _ hsame =>
      rw [Tree.statements_of_exprs_eq hsame, Tree.statements_alloc (by simp)] at hs
      exact hold hs
    | @visited visit act' hvisit _ _ _ hsame =>
      rcases visit_statement hstep.before hvisit (Tree.statements_of_exprs_eq hsame ▸ hs) with
        hs | ⟨-, hlabel⟩ | ⟨hfresh, hblock⟩
      · exact hold hs
      · exact .inl ((stage_sound hstep.behind).labels _ hlabel)
      · have hat : m'.tree.offset s = visit.walk.offset := by
          refine (visit_offset hlength hstep.before hvisit hsame hfresh
            hstatement.lt).resolve_right ?_
          rintro ⟨hempty, -⟩
          exact hstatement.kind (by rw [Tree.kind, hempty, Node.kind])
        rw [hat]
        rcases hblock with rfl | ⟨hnew, hlt⟩
        · have hact := Machine.act_mem_of_visit? hvisit
          have hwalk := Machine.walk_of_visit? hvisit
          have hlt := ((visit_fills hstep.before hvisit).pending _ (Visit.mem_pending hwalk)).lt
          rw [hstep.grows.offset _ hlt]
          exact .inr ((stage_anchored hlength hstep.before _ hact).walk _ hwalk)
        · rw [Tree.size, ← hsame] at hlt
          rcases visit_offset hlength hstep.before hvisit hsame hnew hlt with heq | ⟨hempty, -⟩
          · exact .inr (Nat.le_of_eq heq)
          · simp [Tree.statements, hempty] at hs

theorem found_ahead (h : stage program routines settings count = some m)
    (hvisit : m.visit? program = some visit)
    (hfinds : visit.site.Finds routines (visit.start m) id) :
    m.tree.isSlot id ∨ id.index < m.tree.size ∧ visit.walk.offset < m.tree.offset id := by
  rcases found_made h hvisit hfinds with ⟨hslot, -⟩ | ⟨hblock, -, key, hkey, htarget, hjump⟩
  · exact .inl hslot
  · obtain ⟨-, -, hlt, hat⟩ := Machine.visit?_eq_some.1 hvisit
    have hoffset := Program.offset_of_at? hat
    have hstart := (stage_anchored hlength h _ (Machine.act_mem_of_visit? hvisit)).blocks _ hkey
    refine .inr ⟨hblock.lt, ?_⟩
    rw [hstart, htarget, ← hoffset]
    exact Instruction.offset_lt_target (by omega) hjump

/-- A new block at the offset of the instruction is filled by no walk: those that are asked for stand
ahead. -/
theorem Step.idle_of_new (hstep : Step program routines settings count m m')
    (hvisit : m.visit? program = some visit) {act' : Activation}
    (hactive : m'.active = act' :: visit.callers)
    (hleads : visit.Leads (script program routines) m act')
    (hsame : m'.tree.exprs = (visit.outcome (script program routines) m).tree.exprs)
    (hnew : m.tree.size ≤ id.index) (hblock : m'.tree.IsBlock id)
    (hat : m'.tree.offset id = visit.walk.offset) : m'.Idle id := by
  have hold : ∀ block, m.tree.IsBlock block → block ≠ id := by
    rintro block hthere rfl
    exact Nat.not_lt.2 hnew hthere.lt
  have hfills := visit_fills hstep.before hvisit
  refine ⟨hblock, ?_, ?_⟩
  · rw [hactive, List.forall_mem_cons]
    constructor
    · intro p hp
      rcases hleads.pending_cases hp with rfl | ⟨job, hjob, rfl⟩ | hp
      · exact hold visit.walk.block (hfills.pending (visit.walk.block, visit.walk.context)
          (Visit.mem_pending (Machine.walk_of_visit? hvisit)))
      · rintro rfl
        have hkey : (job.key, job.block) ∈ act'.blocks := by
          rw [hleads.blocks, (visit_opens hstep.before hvisit hjob).blocks]
          exact List.mem_cons_self
        have hanchored := stage_anchored hlength hstep.behind act' (Machine.first_mem hactive)
        have hstart := hanchored.blocks _ hkey
        have hahead := (stage_ahead hlength hstep.before hvisit).asked job hjob
        exact absurd (hstart.symm.trans hat) (Nat.ne_of_gt hahead)
      · exact hold _ (hfills.pending _ hp)
    · intro act hact p hp
      have hmem : act ∈ m.active := by
        rw [(Machine.visit?_eq_some.1 hvisit).1]
        exact List.mem_cons_of_mem _ hact
      exact hold _ ((stage_fills hstep.before act hmem).pending _ hp)
  · have hmade := (visit_trail hstep.before hvisit).tree.made id hnew
      (by rw [Tree.size, ← hsame]; exact hblock.lt)
    have hbare := hmade.bare
    simp only [Tree.isBare, Tree.statements, Tree.kind, Tree.node_of_exprs_eq hsame] at hbare ⊢
    exact hbare

/-- Nodes hold what they may. -/
theorem stage_mayHold (h : stage program routines settings count = some m)
    {o : Role × NodeId} (ho : o ∈ (m.tree.node n).operands) : m.MayHold n o.2 := by
  refine stage_induction (P := fun _ m => ∀ n o, o ∈ (m.tree.node n).operands →
    m.MayHold n o.2) ?_ ?_ h n o ho
  · intro n o ho
    rcases start_node program n with hnode | hnode <;> simp [hnode, Node.operands] at ho
  · intro count m m' hstep hm n o ho
    by_cases hn : n.index < m.tree.size
    · rw [hstep.grows.operands_eq hn] at ho
      exact hstep.mayHold (hm n o ho) hn ((stage_sound hstep.before).tree.wellFormed.operand ho).lt
    · have hnew := Nat.le_of_not_lt hn
      have hlt := ((stage_sound hstep.behind).tree.wellFormed.operand ho).lt
      obtain ⟨visit, act', hvisit, hactive, hleads, hsame⟩ := hstep.visited_of_operand ho hnew
      have hat : m'.tree.offset n = visit.walk.offset := by
        refine (visit_offset hlength hstep.before hvisit hsame hnew
          (Tree.lt_size_of_operand ho)).resolve_right ?_
        rintro ⟨hempty, -⟩
        exact (Tree.kind_of_operand ho).2.2 (by rw [Tree.kind, hempty, Node.kind])
      rcases hstep.holds hvisit hsame ho hnew with (hfresh | hfinds) | ⟨haction, hsaved⟩
      · rcases visit_offset hlength hstep.before hvisit hsame hfresh hlt with heq | ⟨-, hahead⟩
        · by_cases hblock : m'.tree.kind o.2 = .block
          · exact .idle
              (hstep.idle_of_new hlength hvisit hactive hleads hsame hfresh ⟨hlt, hblock⟩ heq)
          · exact .beside (hat.trans heq.symm) hblock
        · exact .ahead (hat ▸ hahead)
      · rcases found_ahead hlength hstep.before hvisit hfinds with hslot | ⟨hlt, hahead⟩
        · exact .slot (Tree.isSlot_iff_kind.1 (hstep.grows.isSlot hslot))
        · rw [← hstep.grows.offset _ hlt, ← hat] at hahead
          exact .ahead hahead
      · have hblock := (saved_made hstep.before hvisit hsaved).1.mono hstep.grows
        exact .kept haction hblock.kind

end Ahead

end Lift

end ScriptLift
