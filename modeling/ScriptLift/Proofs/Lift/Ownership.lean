import ScriptLift.Proofs.Compact.Inlining
import ScriptLift.Proofs.Lift.History
import ScriptLift.Proofs.Lift.Placement

/-! Who made the slots that a subroutine names.

A word is made by the subroutine that pushes it, and a callee sees the words of its callers. It
reaches most of them through arguments of its own; those that an instruction takes as they lie it
names directly. A saved state that it finds belongs to a caller too, with everything in it. Nothing
else of another subroutine gets into a body. -/
namespace ScriptLift

namespace Lift

variable (program : Program) (routines : Routines) (settings : LiftSettings)

/-- The node is made in the move behind `count` others, while `sub` is in progress. -/
def MadeAt (count : Nat) (sub : SubId) (id : NodeId) : Prop :=
  ∃ m m', Step program routines settings count m m' ∧ m.tree.size ≤ id.index ∧
    id.index < m'.tree.size ∧ m'.active.head?.map (·.sub) = some sub

/-- The node is made while `sub` is in progress. The root of the script is there from the start. -/
inductive MadeBy : SubId → NodeId → Prop
  | entry : MadeBy (labels program).1.nextSubId (labels program).1.nextId
  | move {count sub id} : MadeAt program routines settings count sub id → MadeBy sub id

/-- The words of a context are made by those who pushed them, no later than `sub` began. -/
structure OwnedBy (sub : SubId) (ctx : Context) : Prop where
  current : ctx.current = sub
  word : ∀ word ∈ ctx.stack,
    MadeBy program routines settings word.owner word.slot ∧ word.owner.index ≤ sub.index
  saved : ∀ block, ctx.savedAction = some block →
    ∃ maker, MadeBy program routines settings maker block ∧ maker.index ≤ sub.index

/-- What a subroutine in progress has of its own. -/
structure Owned (act : Activation) : Prop where
  outer : ∀ argument ∈ act.outer, MadeBy program routines settings act.sub argument.2
  blocks : ∀ entry ∈ act.blocks, MadeBy program routines settings act.sub entry.2
  block : ∀ p ∈ act.pending, MadeBy program routines settings act.sub p.1
  context : ∀ p ∈ act.pending, OwnedBy program routines settings act.sub p.2

instance (count : Nat) (sub : SubId) (id : NodeId) :
    Decidable (MadeAt program routines settings count sub id) :=
  decidable_of_iff ((stage program routines settings count).any fun m =>
      (stage program routines settings (count + 1)).any fun m' =>
        m.tree.size ≤ id.index && (id.index < m'.tree.size &&
          m'.active.head?.map (·.sub) = some sub)) <| by
    simp only [Option.any_eq_true, Bool.and_eq_true, decide_eq_true_eq]
    constructor
    · rintro ⟨m, hm, m', hm', hnew, hlt, hsub⟩
      exact ⟨m, m', ⟨hm, hm'⟩, hnew, hlt, hsub⟩
    · rintro ⟨m, m', hstep, hnew, hlt, hsub⟩
      exact ⟨m, hstep.before, m', hstep.behind, hnew, hlt, hsub⟩

variable {program routines settings} {count : Nat} {m m' : Machine} {sub sub' : SubId} {id : NodeId}

theorem MadeAt.unique {other : Nat} (h : MadeAt program routines settings count sub id)
    (h' : MadeAt program routines settings other sub' id) : count = other ∧ sub = sub' := by
  obtain ⟨m, m', hstep, hnew, hlt, hsub⟩ := h
  obtain ⟨n, n', hstep', hnew', hlt', hsub'⟩ := h'
  obtain rfl := hstep.unique hstep' hnew hlt hnew' hlt'
  cases hstep.behind.symm.trans hstep'.behind
  exact ⟨rfl, Option.some.inj (hsub.symm.trans hsub')⟩

theorem MadeBy.unique (h : MadeBy program routines settings sub id)
    (h' : MadeBy program routines settings sub' id) : sub = sub' := by
  have hentry : ∀ {count sub},
      ¬MadeAt program routines settings count sub (labels program).1.nextId := by
    rintro count sub ⟨m, m', hstep, hnew, -⟩
    exact absurd hstep.labels_lt (Nat.not_lt.2 hnew)
  cases h with
  | entry =>
    cases h' with
    | entry => rfl
    | move hmade => exact absurd hmade hentry
  | move hmade =>
    cases h' with
    | entry => exact absurd hmade hentry
    | move hmade' => exact (hmade.unique hmade').2

theorem OwnedBy.shrink {ctx : Context} (h : OwnedBy program routines settings sub ctx)
    {stack : List Word} (hsub : stack ⊆ ctx.stack) :
    OwnedBy program routines settings sub { ctx with stack } :=
  ⟨h.current, fun word hword => h.word word (hsub hword), h.saved⟩

theorem OwnedBy.enter {ctx : Context} (h : OwnedBy program routines settings sub ctx)
    {callee : SubId} (hle : sub.index ≤ callee.index) :
    OwnedBy program routines settings callee (ctx.enter callee) := by
  refine ⟨rfl, ?_, ?_⟩
  · intro word hword
    obtain ⟨hmade, howner⟩ := h.word word hword
    exact ⟨hmade, Nat.le_trans howner hle⟩
  · intro block hblock
    obtain ⟨maker, hmade, hmaker⟩ := h.saved block hblock
    exact ⟨maker, hmade, Nat.le_trans hmaker hle⟩

namespace Owned

variable {act act' : Activation} {visit : Visit}

theorem shift (h : Owned program routines settings act)
    (hgoes : act.GoesOn act' act.outer act.blocks []) : Owned program routines settings act' := by
  constructor
  · rw [hgoes.sub, hgoes.outer]
    exact h.outer
  · rw [hgoes.sub, hgoes.blocks]
    exact h.blocks
  · intro p hp
    rw [hgoes.sub]
    exact h.block p (hgoes.pending hp)
  · intro p hp
    rw [hgoes.sub]
    exact h.context p (hgoes.pending hp)

theorem start {root : NodeId} {offset : Nat} {ctx : Context}
    (hroot : MadeBy program routines settings sub root)
    (hctx : OwnedBy program routines settings sub ctx) :
    Owned program routines settings (.start sub offset root ctx) := by
  constructor
  · intro argument hargument
    cases hargument
  · intro entry hentry
    obtain rfl := List.mem_singleton.1 hentry
    exact hroot
  · intro p hp
    obtain rfl := List.mem_singleton.1 hp
    exact hroot
  · intro p hp
    obtain rfl := List.mem_singleton.1 hp
    exact hctx

end Owned

theorem Step.madeAt {visit : Visit} {act' : Activation}
    (h : Step program routines settings count m m') (hactive : m'.active = act' :: visit.callers)
    (hsub : act'.sub = visit.act.sub) (hnew : m.tree.size ≤ id.index)
    (hlt : id.index < m'.tree.size) :
    MadeAt program routines settings count visit.act.sub id :=
  ⟨m, m', h, hnew, hlt, by rw [hactive, ← hsub]; rfl⟩

end Lift

theorem Activation.Sound.pending {tree : Tree} {act : Activation} (h : act.Sound tree)
    {p : NodeId × Context} (hp : p ∈ act.pending) : p.2.Sound tree := by
  rcases List.mem_append.1 hp with hp | hp
  · obtain ⟨walk, hwalk, rfl⟩ : ∃ walk, act.walk = some walk ∧ (walk.block, walk.context) = p := by
      simpa using hp
    exact h.walk walk hwalk
  · obtain ⟨job, hjob, rfl⟩ := List.mem_map.1 hp
    exact h.work job hjob

namespace Lift

variable {program : Program} {routines : Routines} {settings : LiftSettings} {count : Nat}
  {m m' : Machine}

theorem Owned.visited {visit : Visit} {act' : Activation}
    (hstep : Step program routines settings count m m') (hvisit : m.visit? program = some visit)
    (hactive : m'.active = act' :: visit.callers)
    (hleads : visit.Leads (script program routines) m act')
    (h : Owned program routines settings visit.act) : Owned program routines settings act' := by
  have htrail := visit_trail hstep.before hvisit
  have hsound : act'.Sound m'.tree :=
    (stage_sound hstep.behind).active act' (Machine.first_mem hactive)
  have hwalk := Visit.mem_pending (Machine.walk_of_visit? hvisit)
  have hmade : ∀ id : NodeId, Site.IsNew (visit.start m) id → id.index < m'.tree.size →
      MadeBy program routines settings visit.act.sub id :=
    fun id hnew hlt => .move (hstep.madeAt hactive hleads.sub hnew hlt)
  have hblocks : ∀ entry ∈ act'.blocks, MadeBy program routines settings visit.act.sub entry.2 := by
    intro entry hentry
    rcases htrail.blocks entry (hleads.blocks ▸ hentry) with hold | hnew
    · exact h.blocks entry hold
    · exact hmade entry.2 hnew (hsound.blocks entry hentry).lt
  have hspawned : ∀ {job}, (visit.outcome (script program routines) m).spawned = some job →
      MadeBy program routines settings visit.act.sub job.block ∧
        OwnedBy program routines settings visit.act.sub job.context := by
    intro job hjob
    obtain ⟨hstack, hcontext⟩ := Visit.context_of_spawned (Machine.walk_of_visit? hvisit)
      (visit_fills hstep.before hvisit) hjob
    refine ⟨?_, by rw [hcontext]; exact (h.context _ hwalk).shrink hstack.subset⟩
    refine hblocks (job.key, job.block) ?_
    rw [hleads.blocks, (visit_opens hstep.before hvisit hjob).blocks]
    exact List.mem_cons_self
  constructor
  · intro argument hargument
    rw [hleads.sub]
    rcases htrail.outer argument (hleads.outer ▸ hargument) with hold | hnew
    · exact h.outer argument hold
    · exact hmade argument.2 hnew (Tree.lt_size_of_isSlot (hsound.outer argument hargument))
  · rw [hleads.sub]
    exact hblocks
  · intro p hp
    rw [hleads.sub]
    rcases hleads.pending_cases hp with rfl | ⟨job, hjob, rfl⟩ | hp
    · exact h.block (visit.walk.block, visit.walk.context) hwalk
    · exact (hspawned hjob).1
    · exact h.block p hp
  · intro p hp
    rw [hleads.sub]
    have hcontext := hsound.pending hp
    rcases hleads.pending_cases hp with rfl | ⟨job, hjob, rfl⟩ | hp
    · have hcurrent := (h.context _ hwalk).current
      refine ⟨htrail.current.trans hcurrent, ?_, ?_⟩
      · intro word hword
        rcases htrail.context.word word hword with hold | ⟨hnew, howner⟩
        · exact (h.context _ hwalk).word word hold
        · rw [howner.trans hcurrent]
          have hlt := Tree.lt_size_of_isSlot (hcontext.words word hword)
          exact ⟨hmade word.slot hnew hlt, Nat.le_refl _⟩
      · intro block hblock
        rcases htrail.saved block hblock with hold | ⟨key, hkey⟩
        · exact (h.context _ hwalk).saved block hold
        · exact ⟨visit.act.sub, hblocks _ (hleads.blocks ▸ hkey), Nat.le_refl _⟩
    · exact (hspawned hjob).2
    · exact h.context p hp

theorem stage_sub_lt (h : stage program routines settings count = some m) {act : Activation}
    (hact : act ∈ m.active) : act.sub.index < m.tree.nextSubId.index :=
  (((stage_entered h).known _ _).1 ((stage_entered h).active act hact)).1

theorem stage_owned (h : stage program routines settings count = some m) :
    ∀ act ∈ m.active, Owned program routines settings act := by
  refine active_induction (P := fun _ _ act => Owned program routines settings act)
    ?_ ?_ ?_ ?_ ?_ h
  · exact .start .entry ⟨rfl, by simp [Context.entering], by simp [Context.entering]⟩
  · intro count m m' act _ hact
    exact hact
  · intro count tree act act' hgoes hact
    exact hact.shift hgoes
  · intro count m m' visit act' hstep hvisit _ hactive hleads _ hact
    exact hact.visited hstep hvisit hactive hleads
  · intro count m m' visit target ws hstep hvisit _ act' hhead htree hact
    have hlt : visit.act.sub.index < m.tree.nextSubId.index :=
      stage_sub_lt hstep.before (Machine.act_mem_of_visit? hvisit)
    refine .start (.move ⟨m, m', hstep, Nat.le_refl _, (Tree.isBlock_alloc htree).lt, ?_⟩) ?_
    · rw [hhead]
      rfl
    · have hcontext := hact.context _ (Visit.mem_pending (Machine.walk_of_visit? hvisit))
      exact hcontext.enter (Nat.le_of_lt hlt)

theorem start_node (program : Program) (id : NodeId) :
    (start (labels program).1).tree.node id = .label ∨
      (start (labels program).1).tree.node id = .block [] := by
  change ((labels program).1.alloc Program.entry (.block [])).node id = .label ∨
    ((labels program).1.alloc Program.entry (.block [])).node id = .block []
  rcases Nat.lt_trichotomy id.index (labels program).1.size with hlt | heq | hgt
  · rw [Tree.node_alloc_of_lt hlt]
    exact labels_node program id
  · rw [Tree.eq_nextId_of_index heq, Tree.node_alloc_nextId]
    exact .inr rfl
  · exact .inr (Tree.node_of_size_le (by rw [Tree.size_alloc]; omega))

theorem Step.visited_of_operand (h : Step program routines settings count m m') {n : NodeId}
    {o : Role × NodeId} (ho : o ∈ (m'.tree.node n).operands) (hnew : m.tree.size ≤ n.index) :
    ∃ visit act', m.visit? program = some visit ∧ m'.active = act' :: visit.callers ∧
      visit.Leads (script program routines) m act' ∧
      m'.tree.exprs = (visit.outcome (script program routines) m).tree.exprs := by
  have hlt := Tree.lt_size_of_operand ho
  cases h.turn with
  | ended _ _ htree | shifted _ _ _ _ htree =>
    rw [Tree.size, htree] at hlt
    exact absurd hlt (Nat.not_lt.2 hnew)
  | @visited visit act' hvisit _ hactive hleads htree =>
    exact ⟨visit, act', hvisit, hactive, hleads, htree⟩
  | @entered visit act' target ws _ _ _ _ htree =>
    -- The only new node is the root, an empty block.
    have hsame : (m.tree.alloc target (.block [])).Grows m'.tree := .of_exprs_eq htree
    rw [Tree.size, htree] at hlt
    rw [hsame.operands_eq hlt, Tree.eq_nextId_of_alloc hnew hlt, Tree.node_alloc_nextId] at ho
    simp [Node.operands] at ho

theorem Step.holds (h : Step program routines settings count m m') {visit : Visit}
    (hvisit : m.visit? program = some visit)
    (htree : m'.tree.exprs = (visit.outcome (script program routines) m).tree.exprs) {n : NodeId}
    {o : Role × NodeId} (ho : o ∈ (m'.tree.node n).operands) (hnew : m.tree.size ≤ n.index) :
    visit.site.Holds (script program routines) (visit.start m) (m'.tree.kind n) o.2 := by
  have hsame : (visit.outcome (script program routines) m).tree.Grows m'.tree := .of_exprs_eq htree
  have hlt : n.index < (visit.outcome (script program routines) m).tree.size := by
    rw [Tree.size, ← htree]
    exact Tree.lt_size_of_operand ho
  rw [hsame.kind_eq hlt]
  exact ((visit_trail h.before hvisit).tree.made n hnew hlt).operand o (hsame.operands_eq hlt ▸ ho)

/-- A node with operands was made by an instruction, which made them as well or found them. An engine
call may hold the saved state, too. -/
theorem exists_visit_of_operand (h : stage program routines settings count = some m) {n : NodeId}
    {o : Role × NodeId} (ho : o ∈ (m.tree.node n).operands) :
    ∃ earlier m₀ visit, stage program routines settings earlier = some m₀ ∧ earlier < count ∧
      m₀.visit? program = some visit ∧ MadeAt program routines settings earlier visit.act.sub n ∧
      ((MadeAt program routines settings earlier visit.act.sub o.2 ∨
        visit.site.Finds routines (visit.start m₀) o.2) ∨
        m.tree.kind n = .action ∧ visit.walk.context.savedAction = some o.2) := by
  have hlt := Tree.lt_size_of_operand ho
  have hstart : (labels program).1.size < n.index := by
    by_contra hle
    have hgrow := stage_grows (m := start (labels program).1) rfl h (Nat.zero_le _)
    rw [hgrow.operands_eq (by rw [start_size]; omega)] at ho
    rcases start_node program n with hnode | hnode <;> simp [hnode, Node.operands] at ho
  obtain ⟨earlier, m₀, m₁, hstep, hcount, hnew, hmade⟩ := exists_made h hstart hlt
  have hgrow : m₁.tree.Grows m.tree := stage_grows hstep.behind h hcount
  rw [hgrow.operands_eq hmade] at ho
  obtain ⟨visit, act', hvisit, hactive, hleads, htree⟩ := hstep.visited_of_operand ho hnew
  have hholds := hstep.holds hvisit htree ho hnew
  rw [← hgrow.kind_eq hmade] at hholds
  refine ⟨earlier, m₀, visit, hstep.before, hcount, hvisit,
    hstep.madeAt hactive hleads.sub hnew hmade, hholds.imp_left (Or.imp_left fun hfresh => ?_)⟩
  exact hstep.madeAt hactive hleads.sub hfresh
    ((stage_sound hstep.behind).tree.wellFormed.operand ho).lt

/-- A statement behind an instruction was there before, is the label of its offset, placed in the
block of the walk, or is new: in the block of the walk, or in a block that is new as well. -/
theorem visit_statement (h : stage program routines settings count = some m) {visit : Visit}
    (hvisit : m.visit? program = some visit) {block s : NodeId}
    (hs : s ∈ (visit.outcome (script program routines) m).tree.statements block) :
    s ∈ m.tree.statements block ∨
      block = visit.walk.block ∧ (visit.ins.offset, s) ∈ (script program routines).labels ∨
      Site.IsNew (visit.start m) s ∧ (block = visit.walk.block ∨
        Site.IsNew (visit.start m) block ∧
          block.index < (visit.outcome (script program routines) m).tree.size) := by
  have htrail := visit_trail h hvisit
  by_cases hblock : block.index < m.tree.size
  · by_cases hown : block = visit.walk.block
    · subst hown
      obtain ⟨more, hstatements, hfresh⟩ := htrail.tree.statements
      have hs' : s ∈ m.tree.statements visit.walk.block ++
          ((script program routines).labels.lookup visit.ins.offset).toList ++ more :=
        hstatements ▸ hs
      rcases List.mem_append.1 hs' with hs' | hs'
      · rcases List.mem_append.1 hs' with hs' | hs'
        · exact .inl hs'
        · exact .inr (.inl ⟨rfl, Site.mem_of_lookup (Option.mem_toList.1 hs')⟩)
      · exact .inr (.inr ⟨hfresh s hs', .inl rfl⟩)
    · exact .inl (visit_spared h hvisit hblock hown ▸ hs)
  · have hlt := Tree.lt_size_of_statement hs
    have hnew := Nat.le_of_not_lt hblock
    exact .inr (.inr ⟨((htrail.tree.made block hnew hlt).statement s hs).1, .inr ⟨hnew, hlt⟩⟩)

/-- A statement is a label, or made by the subroutine that made the block. -/
theorem stage_statement (h : stage program routines settings count = some m) {block s : NodeId}
    (hs : s ∈ m.tree.statements block) : m.tree.kind s = .label ∨
      ∃ maker, MadeBy program routines settings maker block ∧
        MadeBy program routines settings maker s := by
  refine stage_induction (P := fun _ m => ∀ block s, s ∈ m.tree.statements block →
    m.tree.kind s = .label ∨ ∃ maker, MadeBy program routines settings maker block ∧
      MadeBy program routines settings maker s) ?_ ?_ h block s hs
  · intro block s hs
    rcases start_node program block with hnode | hnode <;> simp [Tree.statements, hnode] at hs
  · intro count m m' hstep hm block s hs
    have hlt : s.index < m'.tree.size := ((stage_sound hstep.behind).tree.wellFormed.statement hs).lt
    have hold : s ∈ m.tree.statements block → m'.tree.kind s = .label ∨
        ∃ maker, MadeBy program routines settings maker block ∧
          MadeBy program routines settings maker s := by
      intro hs
      rw [hstep.grows.kind_eq ((stage_sound hstep.before).tree.wellFormed.statement hs).lt]
      exact hm block s hs
    cases hstep.turn with
    | ended _ _ htree | shifted _ _ _ _ htree =>
      rw [Tree.statements_of_exprs_eq htree] at hs
      exact hold hs
    | entered _ _ _ _ htree =>
      rw [Tree.statements_of_exprs_eq htree, Tree.statements_alloc (by simp)] at hs
      exact hold hs
    | @visited visit act' hvisit _ hactive hleads htree =>
      have hmade : ∀ id : NodeId, m.tree.size ≤ id.index → id.index < m'.tree.size →
          MadeBy program routines settings visit.act.sub id :=
        fun id hnew hlt => .move (hstep.madeAt hactive hleads.sub hnew hlt)
      rw [Tree.statements_of_exprs_eq htree] at hs
      rcases visit_statement hstep.before hvisit hs with
        hs | ⟨-, hlabel⟩ | ⟨hfresh, rfl | ⟨hnew, hblock⟩⟩
      · exact hold hs
      · exact .inl ((stage_sound hstep.behind).labels _ hlabel)
      · have howned := stage_owned hstep.before visit.act (Machine.act_mem_of_visit? hvisit)
        have hpending := Visit.mem_pending (Machine.walk_of_visit? hvisit)
        exact .inr ⟨_, howned.block _ hpending, hmade s hfresh hlt⟩
      · rw [Tree.size, ← htree] at hblock
        exact .inr ⟨_, hmade block hnew hblock, hmade s hfresh hlt⟩

theorem Step.root (h : Step program routines settings count m m') {sub : SubId}
    (hsub : m'.tree.HasSub sub) :
    (m.tree.HasSub sub ∧ (m'.tree.sub sub).root = (m.tree.sub sub).root) ∨
      ((m'.tree.sub sub).root = m.tree.nextId ∧ m'.tree.IsBlock m.tree.nextId ∧
        MadeAt program routines settings count sub m.tree.nextId) := by
  cases h.accounts hsub with
  | kept hold heq => exact .inl ⟨hold, congrArg Subroutine.root heq⟩
  | completed _ _ hold heq => exact .inl ⟨hold, by rw [heq]⟩
  | begun _ _ _ hhead htree heq =>
    have hblock := Tree.isBlock_alloc htree
    refine .inr ⟨congrArg Subroutine.root heq, hblock, m, m', h, Nat.le_refl _, hblock.lt, ?_⟩
    rw [hhead]
    rfl

theorem stage_root (h : stage program routines settings count = some m) {sub : SubId}
    (hsub : m.tree.HasSub sub) : MadeBy program routines settings sub (m.tree.sub sub).root := by
  refine stage_induction (P := fun _ m => ∀ sub, m.tree.HasSub sub →
    MadeBy program routines settings sub (m.tree.sub sub).root) ?_ ?_ h sub hsub
  · intro sub hsub
    obtain ⟨rfl, hnew⟩ := start_sub hsub
    rw [hnew]
    exact .entry
  · intro count m m' hstep hm sub hsub
    rcases hstep.root hsub with ⟨hold, hroot⟩ | ⟨hroot, -, hmade⟩
    · rw [hroot]
      exact hm sub hold
    · rw [hroot]
      exact .move hmade

theorem stage_root_isBlock (h : stage program routines settings count = some m) {sub : SubId}
    (hsub : m.tree.HasSub sub) : m.tree.IsBlock (m.tree.sub sub).root := by
  refine stage_induction (P := fun _ m => ∀ sub, m.tree.HasSub sub →
    m.tree.IsBlock (m.tree.sub sub).root) ?_ ?_ h sub hsub
  · intro sub hsub
    rw [(start_sub hsub).2]
    exact Tree.isBlock_alloc rfl
  · intro count m m' hstep hm sub hsub
    rcases hstep.root hsub with ⟨hold, hroot⟩ | ⟨hroot, hblock, -⟩
    · rw [hroot]
      exact (hm sub hold).mono hstep.grows
    · rw [hroot]
      exact hblock

theorem Step.global (h : Step program routines settings count m m') {id : NodeId}
    (hglobal : m.tree.storage? id = some .global) : m'.tree.storage? id = some .global := by
  have hlt : id.index < m.tree.size := by
    apply Tree.lt_size_of_isSlot
    obtain ⟨slot, hslot, -⟩ := Option.map_eq_some_iff.1 hglobal
    rw [Tree.isSlot, hslot, Option.isSome_some]
  have hsame : ∀ {old : Tree}, m'.tree.exprs = old.exprs →
      m'.tree.storage? id = old.storage? id := by
    intro old heq
    simp only [Tree.storage?, Tree.slot?, Tree.node, Tree.get, Tree.get?, heq]
  cases h.turn with
  | ended _ _ htree | shifted _ _ _ _ htree =>
    rw [hsame htree]
    exact hglobal
  | visited hvisit _ _ _ htree =>
    rw [hsame htree]
    rcases (visit_trail h.before hvisit).tree.storage id hlt with heq | ⟨hnow, -⟩
    · exact heq.trans hglobal
    · exact hnow
  | entered _ _ _ _ htree =>
    rw [hsame htree, Tree.storage?_alloc_of_lt hlt]
    exact hglobal

theorem mem_below_of_complete {tree : Tree} {id n : NodeId}
    (h : n ∈ (complete tree).below true id) : n ∈ tree.below true id := by
  obtain ⟨-, hkind, hnode⟩ := node_complete tree id
  by_cases hblock : tree.kind id = .block
  · obtain ⟨p, -, hstatements⟩ := statements_complete tree id
    rw [Tree.below_of_kind_block (hkind.trans hblock), hstatements] at h
    rw [Tree.below_of_kind_block hblock]
    exact (List.mem_filter.1 h).1
  · rw [Tree.below_of_kind_ne_block (hkind ▸ hblock), hnode hblock] at h
    rw [Tree.below_of_kind_ne_block hblock]
    exact h

end Lift

theorem Tree.kind_of_operand {tree : Tree} {n : NodeId} {o : Role × NodeId}
    (h : o ∈ (tree.node n).operands) :
    tree.kind n ≠ .label ∧ tree.kind n ≠ .slot ∧ tree.kind n ≠ .block := by
  unfold Tree.kind
  cases hnode : tree.node n <;> simp_all [Node.kind, Node.operands]

theorem Tree.kind_of_below {tree : Tree} {id n : NodeId} (h : n ∈ tree.below true id) :
    tree.kind id ≠ .label ∧ tree.kind id ≠ .slot := by
  unfold Tree.below at h
  unfold Tree.kind
  cases hnode : tree.node id <;> simp_all [Node.kind, Node.operands]

theorem Tree.subtreeTo_induction {tree : Tree} {P : NodeId → Prop}
    (hbelow : ∀ id n, P id → n ∈ tree.below true id → P n) {depth : Nat} {top n : NodeId}
    (htop : P top) (hn : n ∈ tree.subtreeTo true depth top) : P n := by
  induction depth generalizing top with
  | zero =>
    obtain rfl : n = top := by simpa [subtreeTo] using hn
    exact htop
  | succ depth ih =>
    rcases List.mem_cons.1 hn with rfl | hn
    · exact htop
    · obtain ⟨child, hchild, hn⟩ := List.mem_flatMap.1 hn
      exact ih (hbelow top child htop hchild) hn

namespace Lift

variable {program : Program} {routines : Routines} {settings : LiftSettings} {count : Nat}
  {m : Machine} {visit : Visit} {id : NodeId}

theorem saved_made (h : stage program routines settings count = some m)
    (hvisit : m.visit? program = some visit)
    (hsaved : visit.walk.context.savedAction = some id) :
    m.tree.IsBlock id ∧ ∃ maker, MadeBy program routines settings maker id ∧
      maker.index ≤ visit.act.sub.index := by
  have hact := Machine.act_mem_of_visit? hvisit
  have hpending := Visit.mem_pending (Machine.walk_of_visit? hvisit)
  exact ⟨(stage_fills h _ hact).saved _ hpending _ hsaved,
    ((stage_owned h _ hact).context _ hpending).saved _ hsaved⟩

/-- What an instruction finds: a slot, which is a global, or was made for the subroutine in
progress, or is a word that is taken; else a block, made for that subroutine, at the target of a
branch ahead. -/
theorem found_made (h : stage program routines settings count = some m)
    (hvisit : m.visit? program = some visit)
    (hfinds : visit.site.Finds routines (visit.start m) id) :
    (m.tree.isSlot id ∧ (m.tree.storage? id = some .global ∨
      MadeBy program routines settings visit.act.sub id ∨
      ∃ word ∈ visit.ins.taken routines visit.walk.context, word.slot = id)) ∨
    (m.tree.IsBlock id ∧ MadeBy program routines settings visit.act.sub id ∧
      ∃ key, (key, id) ∈ visit.act.blocks ∧ key.1 = visit.ins.target ∧ 0 < visit.ins.jump) := by
  have hact := Machine.act_mem_of_visit? hvisit
  have hpending := Visit.mem_pending (Machine.walk_of_visit? hvisit)
  have hsound := (stage_sound h).active _ hact
  have hwords := (hsound.pending hpending).words
  have hfills := stage_fills h _ hact
  have howned := stage_owned h _ hact
  have hcontext := howned.context _ hpending
  cases hfinds with
  | @taken word hword =>
    exact .inl ⟨hwords word (List.mem_of_mem_take hword), .inr (.inr ⟨word, hword, rfl⟩)⟩
  | @own word hword howner =>
    have hmade := (hcontext.word word hword).1
    rw [howner.trans hcontext.current] at hmade
    exact .inl ⟨hwords word hword, .inr (.inl hmade)⟩
  | global hglobal =>
    obtain ⟨slot, hslot, -⟩ := Option.map_eq_some_iff.1 hglobal
    exact .inl ⟨Option.isSome_iff_exists.2 ⟨slot, hslot⟩, .inl hglobal⟩
  | argument hargument =>
    exact .inl ⟨hsound.outer _ hargument, .inr (.inl (howned.outer _ hargument))⟩
  | @block key id hblock htarget hjump =>
    exact .inr ⟨hfills.blocks _ hblock, howned.blocks _ hblock, key, hblock, htarget, hjump⟩

/-- What lies below a node is a label or a slot, or it was made for the same subroutine, or it is a
saved state that an engine call holds. -/
theorem made_below (h : stage program routines settings count = some m) {sub : SubId} {n : NodeId}
    (hid : MadeBy program routines settings sub id) (hn : n ∈ m.tree.below true id) :
    m.tree.kind n = .label ∨ m.tree.kind n = .slot ∨ MadeBy program routines settings sub n ∨
      m.tree.kind id = .action ∧ m.tree.IsBlock n ∧
        ∃ maker, MadeBy program routines settings maker n ∧ maker.index ≤ sub.index := by
  by_cases hblock : m.tree.kind id = .block
  · rw [Tree.below_of_kind_block hblock] at hn
    rcases stage_statement h hn with hlabel | ⟨maker, hmaker, hn⟩
    · exact .inl hlabel
    · obtain rfl := hid.unique hmaker
      exact .inr (.inr (.inl hn))
  · rw [Tree.below_of_kind_ne_block hblock] at hn
    obtain ⟨o, ho, rfl⟩ := List.mem_map.1 hn
    obtain ⟨earlier, m₀, visit, hstage, hlt, hvisit, hat, hknown⟩ := exists_visit_of_operand h ho
    obtain rfl := hid.unique (.move hat)
    have hgrow := stage_grows hstage h (Nat.le_of_lt hlt)
    rcases hknown with (hnew | hfinds) | ⟨haction, hsaved⟩
    · exact .inr (.inr (.inl (.move hnew)))
    · rcases found_made hstage hvisit hfinds with ⟨hslot, -⟩ | ⟨-, hmade, -⟩
      · exact .inr (.inl (Tree.isSlot_iff_kind.1 (hgrow.isSlot hslot)))
      · exact .inr (.inr (.inl hmade))
    · obtain ⟨hsavedBlock, hmaker⟩ := saved_made hstage hvisit hsaved
      exact .inr (.inr (.inr ⟨haction, hsavedBlock.mono hgrow, hmaker⟩))

/-- Nothing that began later gets into the body of a subroutine. -/
theorem made_of_mem_body (h : stage program routines settings count = some m) {sub : SubId}
    (hsub : m.tree.HasSub sub) (hid : id ∈ (complete m.tree).body sub) :
    m.tree.kind id = .label ∨ m.tree.kind id = .slot ∨
      ∃ maker, MadeBy program routines settings maker id ∧ maker.index ≤ sub.index := by
  refine Tree.subtreeTo_induction (P := fun id => m.tree.kind id = .label ∨
    m.tree.kind id = .slot ∨
      ∃ maker, MadeBy program routines settings maker id ∧ maker.index ≤ sub.index) ?_ ?_ hid
  · intro id n hmade hn
    have hn := mem_below_of_complete hn
    obtain ⟨hlabel, hslot⟩ := Tree.kind_of_below hn
    obtain ⟨maker, hmaker, hle⟩ := (hmade.resolve_left hlabel).resolve_left hslot
    rcases made_below h hmaker hn with hlabel | hslot | hsame | ⟨-, -, maker', hmaker', hle'⟩
    · exact .inl hlabel
    · exact .inr (.inl hslot)
    · exact .inr (.inr ⟨maker, hsame, hle⟩)
    · exact .inr (.inr ⟨maker', hmaker', Nat.le_trans hle' hle⟩)
  · have hroot : ((complete m.tree).sub sub).root = (m.tree.sub sub).root :=
      field_complete (·.root) (fun _ _ => rfl) m.tree sub
    rw [hroot]
    exact .inr (.inr ⟨sub, stage_root h hsub, Nat.le_refl _⟩)

/-- A local or an argument that a node holds was made for the subroutine that the node was made for,
or it is a word that the instruction took. -/
theorem exists_visit_of_slot (h : stage program routines settings count = some m) {n : NodeId}
    {o : Role × NodeId} (ho : o ∈ (m.tree.node n).operands) (hslot : m.tree.isSlot o.2)
    (hlocal : m.tree.storage? o.2 ≠ some .global) :
    ∃ earlier m₀ visit, stage program routines settings earlier = some m₀ ∧
      m₀.visit? program = some visit ∧ MadeAt program routines settings earlier visit.act.sub n ∧
      (∀ word ∈ visit.ins.taken routines visit.walk.context,
        MadeBy program routines settings word.owner word.slot ∧
          word.owner.index ≤ visit.act.sub.index) ∧
      (MadeBy program routines settings visit.act.sub o.2 ∨
        ∃ word ∈ visit.ins.taken routines visit.walk.context, word.slot = o.2) := by
  obtain ⟨earlier, m₀, visit, hstage, hlt, hvisit, hmade, hknown⟩ := exists_visit_of_operand h ho
  have howned := stage_owned hstage visit.act (Machine.act_mem_of_visit? hvisit)
  have hcontext := howned.context _ (Visit.mem_pending (Machine.walk_of_visit? hvisit))
  have hgrow := stage_grows hstage h (Nat.le_of_lt hlt)
  refine ⟨earlier, m₀, visit, hstage, hvisit, hmade,
    fun word hword => hcontext.word word (List.mem_of_mem_take hword), ?_⟩
  have hnotBlock : ¬m₀.tree.IsBlock o.2 := by
    intro hblock
    cases (hblock.mono hgrow).kind.symm.trans (Tree.isSlot_iff_kind.1 hslot)
  rcases hknown with (hnew | hfinds) | ⟨-, hsaved⟩
  · exact .inl (.move hnew)
  · rcases found_made hstage hvisit hfinds with ⟨-, hglobal | hfound⟩ | ⟨hblock, -⟩
    · have hlater := stage_persists (P := fun m => m.tree.storage? o.2 = some .global)
        (fun hstep => hstep.global) hstage h (Nat.le_of_lt hlt) hglobal
      exact absurd hlater hlocal
    · exact hfound
    · exact absurd hblock hnotBlock
  · exact absurd (saved_made hstage hvisit hsaved).1 hnotBlock

theorem slot?_complete (tree : Tree) (id : NodeId) :
    (complete tree).slot? id = tree.slot? id := by
  obtain ⟨-, hkind, hnode⟩ := node_complete tree id
  by_cases hblock : tree.kind id = .block
  · have hnone : ∀ tree : Tree, tree.kind id = .block → tree.slot? id = none := by
      intro tree hblock
      unfold Tree.kind at hblock
      unfold Tree.slot?
      cases hcase : tree.node id <;> simp_all [Node.kind]
    rw [hnone _ hblock, hnone _ (hkind.trans hblock)]
  · rw [Tree.slot?, hnode hblock, Tree.slot?]

end Lift

section Lifted

variable {program : Program} {routines : Routines} {settings : LiftSettings} {tree : Tree}
  {sub : SubId} {n : NodeId} {o : Role × NodeId}

/-- A local or an argument that occurs in the body of a subroutine was made while that subroutine
was lifted exactly if the instruction that named it was executed for that subroutine, and did not
take it as a word that another subroutine had pushed. -/
theorem operand_made_iff (hlift : lift program routines settings = some (.ok tree))
    (hsub : sub ∈ tree.order) (hn : n ∈ tree.body sub) (ho : o ∈ (tree.node n).operands) (hslot : tree.isSlot o.2)
    (hlocal : tree.storage? o.2 ≠ some .global) :
    ∃ count m visit, Lift.stage program routines settings count = some m ∧
      m.visit? program = some visit ∧
      Lift.MadeAt program routines settings count visit.act.sub n ∧
      (Lift.MadeBy program routines settings sub o.2 ↔ visit.act.sub = sub ∧
        ∀ word ∈ visit.ins.taken routines visit.walk.context, word.slot = o.2 →
          word.owner = sub) := by
  obtain ⟨lifted, hrun, rfl⟩ := lift_eq_ok hlift
  obtain ⟨last, machine, hlast, -, rfl⟩ := Lift.exists_stage hrun
  change sub ∈ (Lift.complete machine.tree).order at hsub
  change n ∈ (Lift.complete machine.tree).body sub at hn
  change o ∈ ((Lift.complete machine.tree).node n).operands at ho
  change (Lift.complete machine.tree).isSlot o.2 at hslot
  change (Lift.complete machine.tree).storage? o.2 ≠ some .global at hlocal
  obtain ⟨-, hsameKind, hsame⟩ := Lift.node_complete machine.tree n
  rw [hsame (hsameKind ▸ (Tree.kind_of_operand ho).2.2)] at ho
  rw [Tree.isSlot, Lift.slot?_complete] at hslot
  rw [Tree.storage?, Lift.slot?_complete] at hlocal
  rw [Lift.order_complete, (Lift.stage_entered hlast).order] at hsub
  obtain ⟨count, m, visit, hstage, hvisit, hmade, htaken, hfound⟩ :=
    Lift.exists_visit_of_slot hlast ho hslot hlocal
  refine ⟨count, m, visit, hstage, hvisit, hmade, ?_⟩
  constructor
  · intro hown
    -- The instruction was executed for a subroutine no later than `sub`, and no earlier than the
    -- maker of the slot.
    have hle : visit.act.sub.index ≤ sub.index := by
      obtain ⟨hlabel, hslot', -⟩ := Tree.kind_of_operand ho
      obtain ⟨maker, hmaker, hle⟩ :=
        ((Lift.made_of_mem_body hlast hsub hn).resolve_left hlabel).resolve_left hslot'
      rw [hmaker.unique (.move hmade)] at hle
      exact hle
    constructor
    · rcases hfound with hmade' | ⟨word, hword, heq⟩
      · exact hmade'.unique hown
      · obtain ⟨howner, hge⟩ := htaken word hword
        rw [heq] at howner
        rw [howner.unique hown] at hge
        exact Facts.sub_index_eq_iff.1 (Nat.le_antisymm hle hge)
    · intro word hword heq
      obtain ⟨howner, -⟩ := htaken word hword
      rw [heq] at howner
      exact howner.unique hown
  · rintro ⟨rfl, howner⟩
    rcases hfound with hmade' | ⟨word, hword, heq⟩
    · exact hmade'
    · rw [← howner word hword heq, ← heq]
      exact (htaken word hword).1

end Lifted

/-- Whether some slot that a body names, and that is no global, has a property. -/
def Tree.someOperand (tree : Tree) (p : SubId → NodeId → Bool) : Bool :=
  tree.order.any fun sub => (tree.body sub).any fun n => (tree.node n).operands.any fun o =>
    tree.isSlot o.2 && (tree.storage? o.2 ≠ some .global && p sub o.2)

theorem Tree.exists_of_someOperand {tree : Tree} {p : SubId → NodeId → Bool}
    (h : tree.someOperand p) : ∃ sub ∈ tree.order, ∃ n ∈ tree.body sub,
      ∃ o ∈ (tree.node n).operands,
        tree.isSlot o.2 ∧ tree.storage? o.2 ≠ some .global ∧ p sub o.2 := by
  simpa only [someOperand, List.any_eq_true, Bool.and_eq_true, decide_eq_true_eq] using h

/-- A subroutine that prints a word of its caller. -/
def leakingScript : Program := .ofList "" [
  { opcode := .jsr, jump := 8 },
  { opcode := .retn },
  { opcode := .consti, value := some (.int 1) },
  { opcode := .jsr, jump := 8 },
  { opcode := .retn },
  { opcode := .action, routine := 1, arity := 1 },
  { opcode := .retn }
]

theorem leakingScript_leaks : ∃ tree sub n o,
    lift leakingScript printRoutines .strictly = some (.ok tree) ∧ sub ∈ tree.order ∧
    n ∈ tree.body sub ∧ o ∈ (tree.node n).operands ∧ tree.isSlot o.2 ∧
    tree.storage? o.2 ≠ some .global ∧
    ¬Lift.MadeBy leakingScript printRoutines .strictly sub o.2 := by
  obtain ⟨tree, hlift, hsome⟩ := exists_of_lift leakingScript printRoutines .strictly
    (fun tree => tree.someOperand fun sub slot => sub = ⟨2⟩ && slot = ⟨3⟩) (by decide +kernel)
  obtain ⟨sub, hsub, n, hn, o, ho, hslot, hlocal, hleak⟩ := Tree.exists_of_someOperand hsome
  simp only [Bool.and_eq_true, decide_eq_true_eq] at hleak
  refine ⟨tree, sub, n, o, hlift, hsub, hn, ho, hslot, hlocal, ?_⟩
  intro hmade
  have hcaller : Lift.MadeAt leakingScript printRoutines .strictly 3 ⟨1⟩ ⟨3⟩ := by decide +kernel
  rw [hleak.1, hleak.2] at hmade
  cases hmade.unique (.move hcaller)

/-- The instruction takes the word as it lies. -/
theorem operand_made_leakingScript : ∃ tree sub n o,
    lift leakingScript printRoutines .strictly = some (.ok tree) ∧ sub ∈ tree.order ∧
    n ∈ tree.body sub ∧ o ∈ (tree.node n).operands ∧ tree.isSlot o.2 ∧
    tree.storage? o.2 ≠ some .global ∧
    ¬Lift.MadeBy leakingScript printRoutines .strictly sub o.2 ∧
    ∃ count m visit, Lift.stage leakingScript printRoutines .strictly count = some m ∧
      m.visit? leakingScript = some visit ∧
      Lift.MadeAt leakingScript printRoutines .strictly count visit.act.sub n ∧
      (Lift.MadeBy leakingScript printRoutines .strictly sub o.2 ↔ visit.act.sub = sub ∧
        ∀ word ∈ visit.ins.taken printRoutines visit.walk.context, word.slot = o.2 →
          word.owner = sub) := by
  obtain ⟨tree, sub, n, o, hlift, hsub, hn, ho, hslot, hlocal, hleak⟩ := leakingScript_leaks
  exact ⟨tree, sub, n, o, hlift, hsub, hn, ho, hslot, hlocal, hleak,
    operand_made_iff hlift hsub hn ho hslot hlocal⟩

/-- Locals of other subroutines do get into a body. -/
theorem not_forall_operand_made : ¬∀ (program : Program) (routines : Routines)
    (settings : LiftSettings) (tree : Tree), lift program routines settings = some (.ok tree) →
    ∀ sub ∈ tree.order, ∀ n ∈ tree.body sub, ∀ o ∈ (tree.node n).operands,
      tree.isSlot o.2 → tree.storage? o.2 ≠ some .global →
        Lift.MadeBy program routines settings sub o.2 := by
  intro h
  obtain ⟨tree, sub, n, o, hlift, hsub, hn, ho, hslot, hlocal, hleak⟩ := leakingScript_leaks
  exact hleak (h _ _ _ tree hlift sub hsub n hn o ho hslot hlocal)

end ScriptLift
