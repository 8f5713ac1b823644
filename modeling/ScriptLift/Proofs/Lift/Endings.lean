import ScriptLift.Proofs.Lift.Changes
import ScriptLift.Proofs.Lift.Expansion
import ScriptLift.Proofs.Lift.Integrity
import ScriptLift.Proofs.Tree.Cycles

namespace ScriptLift

namespace Tree

variable {tree new : Tree} {block s : NodeId}

/-- Control does not pass the statement: a return or a goto. -/
def leaves (tree : Tree) (s : NodeId) : Bool := tree.kind s = .ret || tree.kind s = .goto

/-- Control passes all statements of the block. -/
def Passable (tree : Tree) (block : NodeId) : Prop :=
  ∀ s ∈ tree.statements block, tree.leaves s = false

/-- Control passes all statements of the block but the last, which it does not. -/
def Ended (tree : Tree) (block : NodeId) : Prop :=
  ∃ before s, tree.statements block = before ++ [s] ∧ tree.leaves s ∧
    ∀ t ∈ before, tree.leaves t = false

theorem leaves_eq : tree.leaves s = (tree.node s).leaves := by
  unfold leaves kind
  cases tree.node s <;> rfl

theorem leaves_grows (h : tree.Grows new) (hs : s.index < tree.size) :
    new.leaves s = tree.leaves s := by
  rw [leaves, leaves, h.kind_eq hs]

theorem Passable.mono (h : tree.Passable block) (htree : tree.WellFormed) (hgrow : tree.Grows new)
    (hsame : new.statements block = tree.statements block) : new.Passable block := by
  intro s hs
  rw [hsame] at hs
  rw [leaves_grows hgrow (htree.statement hs).lt]
  exact h s hs

theorem Ended.mono (h : tree.Ended block) (htree : tree.WellFormed) (hgrow : tree.Grows new)
    (hsame : new.statements block = tree.statements block) : new.Ended block := by
  obtain ⟨before, s, hstatements, hleaves, hbefore⟩ := h
  have hlt : ∀ t ∈ before ++ [s], t.index < tree.size := fun t ht =>
    (htree.statement (hstatements ▸ ht)).lt
  refine ⟨before, s, hsame.trans hstatements, ?_, fun t ht => ?_⟩
  · rw [leaves_grows hgrow (hlt s (by simp)), hleaves]
  · rw [leaves_grows hgrow (hlt t (List.mem_append_left _ ht)), hbefore t ht]

theorem passable_of_empty (h : tree.statements block = []) : tree.Passable block := by
  simp [Passable, h]

end Tree

namespace Site

open Lift

variable {site : Site} {script : Script} {ws ws' : Workspace}

/-- The block of the instruction as long as control passes all that is recorded there. -/
structure Passes (site : Site) (script : Script) (tree : Tree) : Prop
    extends site.InTree script tree where
  statement : ∀ s ∈ tree.statements site.block, s.index < tree.size
  passable : tree.Passable site.block

namespace Passes

variable {tree new : Tree} {node : Node}

theorem grows (h : site.Passes script tree) (hgrow : tree.Grows new)
    (hstatement : ∀ s ∈ new.statements site.block, s ∈ tree.statements site.block ∨
      s.index < new.size ∧ new.leaves s = false) : site.Passes script new := by
  have hall : ∀ s ∈ new.statements site.block, s.index < new.size ∧ new.leaves s = false := by
    intro s hs
    rcases hstatement s hs with hold | hadded
    · have hlt := h.statement s hold
      exact ⟨Nat.lt_of_lt_of_le hlt hgrow.size,
        by rw [Tree.leaves_grows hgrow hlt]; exact h.passable s hold⟩
    · exact hadded
  exact ⟨h.toInTree.grows hgrow, fun s hs => (hall s hs).1, fun s hs => (hall s hs).2⟩

theorem of_statements_eq (h : site.Passes script tree) (hgrow : tree.Grows new)
    (hsame : new.statements site.block = tree.statements site.block) : site.Passes script new :=
  h.grows hgrow fun s hs => .inl (by rwa [← hsame])

theorem alloc (h : site.Passes script tree) (offset : Nat)
    (hempty : ∀ statements, node = .block statements → statements = []) :
    site.Passes script (tree.alloc offset node) :=
  h.of_statements_eq (.alloc _ _ _) (Tree.statements_alloc hempty)

theorem pushStatement (h : site.Passes script tree) {s : NodeId} (hs : s.index < tree.size)
    (hleaves : tree.leaves s = false) :
    site.Passes script (tree.pushStatement site.block s) := by
  have hgrow := Tree.Grows.pushStatement tree site.block s
  refine h.grows hgrow fun t ht => ?_
  rw [Tree.pushStatement, Tree.statements_modifyStatements_self _ h.block.kind h.block.lt,
    List.mem_append, List.mem_singleton] at ht
  refine ht.imp_right ?_
  rintro rfl
  exact ⟨Nat.lt_of_lt_of_le hs hgrow.size, by rw [Tree.leaves_grows hgrow hs, hleaves]⟩

theorem record (h : site.Passes script tree) (offset : Nat) (hblock : node.kind ≠ .block)
    (hleaves : node.leaves = false) :
    site.Passes script ((tree.alloc offset node).pushStatement site.block tree.nextId) := by
  refine (h.alloc offset fun _ => Node.statements_eq_nil hblock).pushStatement (by simp) ?_
  rw [Tree.leaves_eq, Tree.node_alloc_nextId, hleaves]

theorem ended (h : site.Passes script tree) (offset : Nat) (hleaves : node.leaves) :
    ((tree.alloc offset node).pushStatement site.block tree.nextId).Ended site.block := by
  have hblock := Node.kind_ne_block_of_leaves hleaves
  have hgrow := Tree.Grows.alloc tree offset node
  have hpush := Tree.Grows.pushStatement (tree.alloc offset node) site.block tree.nextId
  have hopen : site.Passes script (tree.alloc offset node) :=
    h.alloc offset fun _ => Node.statements_eq_nil hblock
  refine ⟨(tree.alloc offset node).statements site.block, tree.nextId, ?_, ?_, fun t ht => ?_⟩
  · rw [Tree.pushStatement,
      Tree.statements_modifyStatements_self _ hopen.block.kind hopen.block.lt]
  · rw [Tree.leaves_grows hpush (by simp), Tree.leaves_eq, Tree.node_alloc_nextId, hleaves]
  · rw [Tree.leaves_grows hpush (hopen.statement t ht)]
    exact hopen.passable t ht

end Passes

theorem Change.passes (h : site.Change script ws ws') (hws : site.Passes script ws.tree) :
    site.Passes script ws'.tree := by
  cases h with
  | make hplain =>
    exact hws.alloc _ fun _ => Node.statements_eq_nil (Node.kind_ne_block_of_isPlain hplain)
  | record hplain =>
    exact hws.record _ (Node.kind_ne_block_of_isPlain hplain) (Node.leaves_of_isPlain hplain)
  | label hlabel =>
    obtain ⟨hlt, hkind⟩ := hws.label _ _ hlabel
    exact hws.pushStatement hlt (by simp [Tree.leaves, hkind])
  | @fork label =>
    have hblock : site.Passes script (ws.tree.alloc site.ins.offset (.block [])) :=
      hws.alloc _ (by simp)
    have hfork : site.Passes script ((ws.tree.alloc site.ins.offset (.block [])).alloc
        site.ins.offset (.goto label)) := hblock.alloc _ (by simp)
    refine hfork.of_statements_eq (.pushStatement _ _ _) ?_
    exact Tree.statements_modifyStatements_of_ne _ fun heq => by
      have hlt := hws.block.lt
      rw [heq] at hlt
      exact Nat.lt_irrefl _ hlt
  | schedule | argument => exact hws.alloc _ (by simp)
  | reserve => exact hws.record _ (by simp [Node.kind]) rfl
  | @declare slot made value hown hmade =>
    have hslot : site.Passes script (ws.tree.alloc site.ins.offset (.slot slot)) :=
      hws.alloc _ (by simp)
    cases made with
    | none => exact hslot.record _ (by simp [Node.kind]) rfl
    | some node =>
      have hplain := hmade node rfl
      exact (hslot.alloc site.ins.offset fun _ => Node.statements_eq_nil
        (Node.kind_ne_block_of_isPlain hplain)).record _ (by simp [Node.kind]) rfl
  | push | context => exact hws
  | mark | retype | promote =>
    exact hws.of_statements_eq (.modifySlot _ _ _) (Tree.statements_modifySlot _)
  | warn => exact hws.of_statements_eq (.of_exprs_eq rfl) rfl

theorem Changes.passes (h : site.Changes script ws ws') (hws : site.Passes script ws.tree) :
    site.Passes script ws'.tree :=
  h.keeps (P := fun ws => site.Passes script ws.tree) (fun hchange => hchange.passes) hws

/-- Every block from `size` on that is still empty has been asked for. -/
def Opened (size : Nat) (tree : Tree) (blocks : Blocks) : Prop :=
  ∀ id, size ≤ id.index → tree.IsBlock id → tree.statements id = [] → ∃ key, (key, id) ∈ blocks

namespace Opened

variable {size : Nat} {tree new : Tree} {blocks more : Blocks} {node : Node}

theorem grows (h : Opened size tree blocks) (hgrow : tree.Grows new) (hsub : blocks ⊆ more)
    (hnew : ∀ id, tree.size ≤ id.index → new.IsBlock id → new.statements id = [] →
      ∃ key, (key, id) ∈ more) : Opened size new more := by
  intro id hid hblock hempty
  by_cases hlt : id.index < tree.size
  · have hold : tree.IsBlock id := ⟨hlt, by rw [← hgrow.kind_eq hlt, hblock.kind]⟩
    have hprefix := hgrow.statements id hlt
    rw [hempty, List.prefix_nil] at hprefix
    obtain ⟨key, hkey⟩ := h id hid hold hprefix
    exact ⟨key, hsub hkey⟩
  · exact hnew id (Nat.le_of_not_lt hlt) hblock hempty

theorem of_size_eq (h : Opened size tree blocks) (hgrow : tree.Grows new)
    (hsize : new.size = tree.size) : Opened size new blocks :=
  h.grows hgrow (List.Subset.refl _) fun id hid hblock _ =>
    absurd hblock.lt (by rw [hsize]; exact Nat.not_lt.2 hid)

theorem alloc (h : Opened size tree blocks) (offset : Nat) (hnode : node.kind ≠ .block) :
    Opened size (tree.alloc offset node) blocks := by
  refine h.grows (.alloc _ _ _) (List.Subset.refl _) fun id hid hblock _ => ?_
  have hkind := hblock.kind
  rw [Tree.eq_nextId_of_alloc hid hblock.lt, Tree.kind, Tree.node_alloc_nextId] at hkind
  exact absurd hkind hnode

theorem record (h : Opened size tree blocks) (offset : Nat) (hnode : node.kind ≠ .block)
    (block s : NodeId) : Opened size ((tree.alloc offset node).pushStatement block s) blocks :=
  (h.alloc offset hnode).of_size_eq (.pushStatement _ _ _) Tree.size_pushStatement

end Opened

/-- A block of its own for a goto is not empty. -/
theorem Opened.fork {size : Nat} {tree : Tree} {blocks : Blocks} (h : Opened size tree blocks)
    (offset : Nat) (label : NodeId) :
    let block := tree.alloc offset (.block [])
    Opened size ((block.alloc offset (.goto label)).pushStatement tree.nextId block.nextId)
      blocks := by
  intro block
  have hgrow : block.Grows (block.alloc offset (.goto label)) := .alloc _ _ _
  have hopen : (block.alloc offset (.goto label)).IsBlock tree.nextId :=
    (Tree.isBlock_alloc rfl).mono hgrow
  refine h.grows (((Tree.Grows.alloc _ _ _).trans hgrow).trans (.pushStatement _ _ _))
    (List.Subset.refl _) fun id hid hblock hempty => ?_
  by_cases heq : id = tree.nextId
  · rw [heq, Tree.pushStatement,
      Tree.statements_modifyStatements_self _ hopen.kind hopen.lt] at hempty
    simp at hempty
  · have hkind := hblock.kind
    have hindex : block.size ≤ id.index := by
      have hne : id.index ≠ tree.size := fun hindex => heq (Tree.eq_nextId_of_index hindex)
      simp only [block, Tree.size_alloc]
      omega
    have hlt : id.index < (block.alloc offset (.goto label)).size := by
      have hlt := hblock.lt
      rwa [Tree.size_pushStatement] at hlt
    have hlast : id = block.nextId := Tree.eq_nextId_of_alloc hindex hlt
    rw [Tree.pushStatement, Tree.kind_modifyStatements, hlast, Tree.kind,
      Tree.node_alloc_nextId] at hkind
    cases hkind

theorem Change.opened {size : Nat} (h : site.Change script ws ws')
    (hws : Opened size ws.tree ws.blocks) : Opened size ws'.tree ws'.blocks := by
  cases h with
  | make hplain => exact hws.alloc _ (Node.kind_ne_block_of_isPlain hplain)
  | record hplain => exact hws.record _ (Node.kind_ne_block_of_isPlain hplain) _ _
  | label => exact hws.of_size_eq (.pushStatement _ _ _) Tree.size_pushStatement
  | fork => exact hws.fork _ _
  | schedule =>
    refine hws.grows (.alloc _ _ _) (List.subset_cons_self _ _) fun id hid hblock _ => ?_
    rw [Tree.eq_nextId_of_alloc hid hblock.lt]
    exact ⟨_, List.mem_cons_self⟩
  | reserve => exact hws.record _ (by simp [Node.kind]) _ _
  | argument => exact hws.alloc _ (by simp [Node.kind])
  | @declare slot made value hown hmade =>
    have hslot : Opened size (ws.tree.alloc site.ins.offset (.slot slot)) ws.blocks :=
      hws.alloc _ (by simp [Node.kind])
    cases made with
    | none => exact hslot.record _ (by simp [Node.kind]) _ _
    | some node =>
      exact (hslot.alloc _ (Node.kind_ne_block_of_isPlain (hmade node rfl))).record _
        (by simp [Node.kind]) _ _
  | push | context => exact hws
  | mark | retype | promote => exact hws.of_size_eq (.modifySlot _ _ _) (Tree.size_modifySlot _)
  | warn => exact hws.of_size_eq (.of_exprs_eq rfl) rfl

theorem visit_opened (site : Site) (script : Script) (callees : List (Nat × SubId))
    (ws : Workspace) :
    let outcome := left (site.visit script callees ws)
    Opened ws.tree.size outcome.tree outcome.blocks :=
  visit_induction (P := fun mid => Opened ws.tree.size mid.tree mid.blocks)
    (fun hchange hmid => hchange.opened hmid)
    (fun hleaves hmid => hmid.record _ (Node.kind_ne_block_of_leaves hleaves) _ _)
    fun _ hid hblock _ => absurd hblock.lt (Nat.not_lt.2 hid)

section Passes

variable {callees : List (Nat × SubId)} (h : site.Passes script ws.tree)
include h

theorem visit_ended (hrun : site.visit script callees ws = .ok .stop ws') :
    ws'.tree.Ended site.block := by
  have hleaves := visit_leaves site script callees ws
  rw [hrun] at hleaves
  obtain ⟨mid, node, hchanges, hnode, rfl⟩ := hleaves
  exact (Changes.passes hchanges h).ended _ hnode

theorem visit_passes {offset : Nat} (hrun : site.visit script callees ws = .ok (.next offset) ws') :
    ws'.tree.Passable site.block := by
  have hleaves := visit_leaves site script callees ws
  rw [hrun] at hleaves
  exact (Changes.passes hleaves h).passable

end Passes

end Site

namespace Lift

variable (program : Program) (routines : Routines) (settings : LiftSettings)

/-- The walk that fills the block comes to the end of the program, or past it. -/
def RunsOff (block : NodeId) : Prop :=
  ∃ count m act callers walk, stage program routines settings count = some m ∧
    m.active = act :: callers ∧ act.walk = some walk ∧ walk.block = block ∧
    program.length ≤ walk.offset

/-- Blocks that are not filled yet let control pass; the others are ended, or have run out. -/
structure Halts (m : Machine) : Prop where
  unfinished : ∀ block ∈ m.unfinished, m.tree.Passable block
  done : ∀ block, m.tree.IsBlock block → block ∉ m.unfinished →
    m.tree.Ended block ∨ m.tree.Passable block ∧ RunsOff program routines settings block

variable {program routines settings} {count : Nat} {m m' : Machine} {visit : Visit}
  {block : NodeId}

namespace Halts

/-- No nodes change, and blocks that are dropped have run out. -/
theorem shrink (h : Halts program routines settings m) (hsound : m.Sound (script program routines))
    (htree : m'.tree.exprs = m.tree.exprs) (hsub : m'.unfinished ⊆ m.unfinished)
    (hdropped : ∀ block ∈ m.unfinished, block ∉ m'.unfinished →
      RunsOff program routines settings block) : Halts program routines settings m' := by
  have hgrow : m.tree.Grows m'.tree := .of_exprs_eq htree
  have hsame : ∀ id, m'.tree.statements id = m.tree.statements id :=
    fun _ => Tree.statements_of_exprs_eq htree
  have hpass : ∀ block, m.tree.Passable block → m'.tree.Passable block :=
    fun block hblock => hblock.mono hsound.tree.wellFormed hgrow (hsame block)
  refine ⟨fun block hblock => hpass block (h.unfinished block (hsub hblock)),
    fun block hblock hnot => ?_⟩
  by_cases hmem : block ∈ m.unfinished
  · exact .inr ⟨hpass block (h.unfinished block hmem), hdropped block hmem hnot⟩
  · have hlt : block.index < m.tree.size := by
      have hlt := hblock.lt
      rwa [Tree.size, htree] at hlt
    have hold : m.tree.IsBlock block := ⟨hlt, by rw [← hgrow.kind_eq hlt, hblock.kind]⟩
    refine (h.done block hold hmem).imp (fun hended => ?_) fun hout => ⟨hpass block hout.1, hout.2⟩
    exact hended.mono hsound.tree.wellFormed hgrow (hsame block)

/-- A new block is one that was asked for, or is ended. -/
theorem made (hstage : stage program routines settings count = some m)
    (hvisit : m.visit? program = some visit) (hnew : m.tree.size ≤ block.index)
    (hblock : (visit.outcome (script program routines) m).tree.IsBlock block) :
    (visit.outcome (script program routines) m).tree.Ended block ∨
      (visit.outcome (script program routines) m).tree.Passable block ∧
        ∃ job, (visit.outcome (script program routines) m).spawned = some job ∧
          job.block = block := by
  have hbare := ((visit_trail hstage hvisit).tree.made block hnew hblock.lt).bare
  have hopened : Site.Opened m.tree.size (visit.outcome (script program routines) m).tree
      (visit.outcome (script program routines) m).blocks :=
    Site.visit_opened visit.site (script program routines) m.callees (visit.start m)
  unfold Tree.isBare at hbare
  split at hbare
  · next hempty =>
    obtain ⟨key, hkey⟩ := hopened block hnew hblock hempty
    refine .inr ⟨Tree.passable_of_empty hempty, ?_⟩
    have hold : (key, block) ∉ (visit.start m).blocks := fun hmem =>
      absurd ((visit_fills hstage hvisit).blocks _ hmem).lt (Nat.not_lt.2 hnew)
    cases visit_serves hstage hvisit with
    | kept _ hsame _ =>
      rw [hsame] at hkey
      exact absurd hkey hold
    | @opened job _ _ _ _ hsame hspawned =>
      rw [hsame] at hkey
      rcases List.mem_cons.1 hkey with heq | hkey
      · exact ⟨job, hspawned, (congrArg Prod.snd heq).symm⟩
      · exact absurd hkey hold
  · next s hstatements =>
    have hgoto : Tree.kind _ s = .goto := of_decide_eq_true hbare
    exact .inl ⟨[], s, hstatements, by simp [Tree.leaves, hgoto], by simp⟩
  · cases hbare

/-- An instruction that succeeds. Where the walk does not go on, its block is ended. -/
theorem visited (h : Halts program routines settings m)
    (hstage : stage program routines settings count = some m)
    (hvisit : m.visit? program = some visit) {ws : Workspace}
    (hws : visit.outcome (script program routines) m = ws) (last : Nat) (onward : Option Walk)
    (honward : ∀ walk, onward = some walk →
      walk.block = visit.walk.block ∧ ws.tree.Passable visit.walk.block)
    (hdone : onward = none → ws.tree.Ended visit.walk.block) :
    Halts program routines settings { m with
      tree := ws.tree
      active := { Machine.commit { visit.act with last } ws with
        walk := onward } :: visit.callers } := by
  have hsound := stage_sound hstage
  obtain ⟨hactive, hwalk, -, -⟩ := Machine.visit?_eq_some.1 hvisit
  have hold := Machine.unfinished_of_walk hactive hwalk
  have hlt : visit.walk.block.index < m.tree.size :=
    (hsound.unfinished _ (by rw [hold]; exact List.mem_cons_self)).lt
  have hgrow : m.tree.Grows ws.tree :=
    hws ▸ visit.site.visit_grows (script program routines) m.callees (visit.start m)
  obtain ⟨-, hother, -⟩ :=
    visit.site.visit_spares (script program routines) m.callees (visit.start m) hlt
  change ∀ id : NodeId, id.index < m.tree.size → id ≠ visit.walk.block →
    (visit.outcome (script program routines) m).tree.statements id = m.tree.statements id at hother
  have hmade := @made program routines settings count m visit
  have hwaits : ∀ job, (visit.outcome (script program routines) m).spawned = some job →
      (visit.outcome (script program routines) m).tree.statements job.block = [] := fun job hjob =>
    ((visit_serves hstage hvisit).waits rfl hjob).empty
  rw [hws] at hother hmade hwaits
  have hrest : ∀ block ∈ visit.act.work.map (·.block) ++
      visit.callers.flatMap Activation.unfinished, ws.tree.Passable block := by
    intro block hmem
    have hin : block ∈ m.unfinished := hold ▸ List.mem_cons_of_mem _ hmem
    exact (h.unfinished block hin).mono hsound.tree.wellFormed hgrow
      (hsound.spared hactive hwalk hother hmem)
  constructor
  · intro block hmem
    rw [Machine.unfinished_commit] at hmem
    rcases List.mem_append.1 hmem with hmem | hmem
    · obtain ⟨walk, hsome, rfl⟩ : ∃ walk, onward = some walk ∧ walk.block = block := by
        simpa using hmem
      obtain ⟨hblock, hpass⟩ := honward walk hsome
      rwa [hblock]
    · rcases List.mem_append.1 hmem with hmem | hmem
      · obtain ⟨job, hjob, rfl⟩ := List.mem_map.1 hmem
        exact Tree.passable_of_empty (hwaits job (Option.mem_toList.1 hjob))
      · exact hrest block hmem
  · intro block hblock hnot
    rw [Machine.unfinished_commit] at hnot
    simp only [List.mem_append, not_or] at hnot
    obtain ⟨hnotWalk, hnotAhead, hnotRest⟩ := hnot
    by_cases heq : block = visit.walk.block
    · subst heq
      refine .inl (hdone ?_)
      cases honw : onward with
      | none => rfl
      | some walk => simp [honw, (honward walk honw).1] at hnotWalk
    · by_cases hblockLt : block.index < m.tree.size
      · have hbefore : m.tree.IsBlock block :=
          ⟨hblockLt, by rw [← hgrow.kind_eq hblockLt, hblock.kind]⟩
        have hnotOld : block ∉ m.unfinished := by
          rw [hold, List.mem_cons, List.mem_append]
          exact fun hmem => hmem.elim heq fun hmem => hmem.elim hnotRest.1 hnotRest.2
        have hsame := hother block hblockLt heq
        refine (h.done block hbefore hnotOld).imp (fun hended => ?_) fun hout => ⟨?_, hout.2⟩
        · exact hended.mono hsound.tree.wellFormed hgrow hsame
        · exact hout.1.mono hsound.tree.wellFormed hgrow hsame
      · refine .inl ((hmade hstage hvisit (Nat.le_of_not_lt hblockLt) hblock).resolve_right ?_)
        rintro ⟨-, job, hjob, rfl⟩
        exact hnotAhead (List.mem_map_of_mem (Option.mem_toList.2 hjob))

end Halts

/-- A subroutine begins with an empty block. -/
theorem Halts.begin (h : Halts program routines settings m)
    (hsound : m.Sound (script program routines)) {active : List Activation}
    (hactive : active.flatMap Activation.unfinished = m.unfinished) (name : String) (entry : Nat)
    (context : SubId → Context) : Halts program routines settings
      (Machine.begin { m with active } name entry context) := by
  have hgrow : m.tree.Grows (Machine.begin { m with active } name entry context).tree :=
    (Tree.Grows.alloc m.tree entry (.block [])).trans (.of_exprs_eq rfl)
  have hsame : ∀ id, (Machine.begin { m with active } name entry context).tree.statements id =
      m.tree.statements id :=
    fun id => (Tree.statements_of_exprs_eq rfl).trans (Tree.statements_alloc (by simp))
  have hunfinished : (Machine.begin { m with active } name entry context).unfinished =
      m.tree.nextId :: m.unfinished := by
    rw [← hactive]
    rfl
  constructor
  · intro block hmem
    rw [hunfinished] at hmem
    rcases List.mem_cons.1 hmem with rfl | hmem
    · refine Tree.passable_of_empty ?_
      rw [hsame, Tree.statements, Tree.node_nextId]
    · exact (h.unfinished block hmem).mono hsound.tree.wellFormed hgrow (hsame block)
  · intro block hblock hnot
    rw [hunfinished, List.mem_cons, not_or] at hnot
    have hlt : block.index < m.tree.size := by
      have hlt : block.index < (m.tree.alloc entry (.block [])).size := hblock.lt
      by_contra hle
      exact hnot.1 (Tree.eq_nextId_of_alloc (Nat.le_of_not_lt hle) hlt)
    have hold : m.tree.IsBlock block := ⟨hlt, by rw [← hgrow.kind_eq hlt, hblock.kind]⟩
    refine (h.done block hold hnot.2).imp (fun hended => ?_) fun hout => ⟨?_, hout.2⟩
    · exact hended.mono hsound.tree.wellFormed hgrow (hsame block)
    · exact hout.1.mono hsound.tree.wellFormed hgrow (hsame block)

theorem Halts.passes (h : Halts program routines settings m)
    (hstage : stage program routines settings count = some m)
    (hvisit : m.visit? program = some visit) :
    visit.site.Passes (script program routines) (visit.start m).tree := by
  obtain ⟨hactive, hwalk, -, -⟩ := Machine.visit?_eq_some.1 hvisit
  refine ⟨visit_inTree hstage hvisit,
    fun s hs => ((stage_sound hstage).tree.wellFormed.statement hs).lt, h.unfinished _ ?_⟩
  rw [Machine.unfinished_of_walk hactive hwalk]
  exact List.mem_cons_self

/-- In a strict run every move leaves blocks ended, run out, or to be filled. -/
theorem Step.halts (h : Step program routines settings count m m') (hstrict : settings.strict = true)
    (hm : Halts program routines settings m) : Halts program routines settings m' := by
  have hsound := stage_sound h.before
  have hleave : ∀ {act callers walk}, m.active = act :: callers → act.walk = some walk →
      program.length ≤ walk.offset → Halts program routines settings
        { m with active := { act with walk := none } :: callers } := by
    intro act callers walk hactive hwalk hend
    have hold := Machine.unfinished_of_walk hactive hwalk
    have hnew : Machine.unfinished { m with active := { act with walk := none } :: callers } =
        act.work.map (·.block) ++ callers.flatMap Activation.unfinished := rfl
    refine hm.shrink hsound rfl ?_ fun block hmem hnot => ?_
    · rw [hold, hnew]
      exact List.subset_cons_self _ _
    · rw [hold] at hmem
      rw [hnew] at hnot
      rw [(List.mem_cons.1 hmem).resolve_right hnot]
      exact ⟨count, m, act, callers, walk, h.before, hactive, hwalk, rfl, hend⟩
  rcases Machine.tick_cases h.tick with
    ⟨hwithin, hmove⟩ | ⟨act, callers, walk, hactive, hwalk, hend, rfl⟩
  · cases hmove with
    | @finish act callers hactive hwalk hwork =>
      have hold : m.unfinished = callers.flatMap Activation.unfinished := by
        simp [Machine.unfinished, hactive, Activation.unfinished, hwalk, hwork]
      refine hm.shrink hsound rfl ?_ fun block hmem hnot => ?_
      · rw [hold]
        exact List.Subset.refl _
      · rw [hold] at hmem
        exact absurd hmem hnot
    | @skip act callers job work hactive hwalk hwork hdone =>
      have htracked := stage_tracked h.before act (Machine.first_mem hactive)
      exact absurd hdone (htracked.waits job (hwork ▸ List.mem_cons_self)).1
    | @start act callers job work hactive hwalk hwork hdone =>
      have hold : m.unfinished = Machine.unfinished { m with
          active := { act with
            work, done := job.key :: act.done, walk := some job.walk } :: callers } := by
        simp [Machine.unfinished, hactive, Activation.unfinished, hwalk, hwork, Job.walk]
      refine hm.shrink hsound rfl ?_ fun block hmem hnot => ?_
      · rw [hold]
        exact List.Subset.refl _
      · rw [hold] at hmem
        exact absurd hmem hnot
    | leave hactive hwalk hend => exact hleave hactive hwalk hend
    | lost hactive hwalk hat hlenient => cases hstrict.symm.trans hlenient
    | @next act callers walk ins offset ws hactive hwalk hat hrun =>
      have hvisit : m.visit? program = some ⟨act, callers, walk, ins⟩ :=
        hwithin.visit? hactive hwalk hat
      have hpass : ws.tree.Passable walk.block :=
        Site.visit_passes (hm.passes h.before hvisit) hrun
      refine hm.visited h.before hvisit (congrArg left hrun) _ _ ?_ (by simp)
      rintro w ⟨⟩
      exact ⟨rfl, hpass⟩
    | @stop act callers walk ins ws hactive hwalk hat hrun =>
      have hvisit : m.visit? program = some ⟨act, callers, walk, ins⟩ :=
        hwithin.visit? hactive hwalk hat
      refine hm.visited h.before hvisit (congrArg left hrun) _ none (by simp) fun _ => ?_
      exact Site.visit_ended (hm.passes h.before hvisit) hrun
    | @enter act callers walk ins target ws hactive hwalk hat hrun =>
      refine hm.begin hsound ?_ "" target walk.context.enter
      rw [Machine.unfinished, hactive]
      rfl
    | fault hactive hwalk hat hrun hlenient => cases hstrict.symm.trans hlenient
  · exact hleave hactive hwalk hend

theorem start_halts : Halts program routines settings (start (labels program).1) := by
  have hkind : ∀ id : NodeId, id.index < (labels program).1.size →
      (labels program).1.kind id = .label := by
    refine labels_induction (P := fun state => ∀ id : NodeId, id.index < state.1.size →
      state.1.kind id = .label) (fun id hid => absurd hid (Nat.not_lt_zero _)) ?_ program
    intro tree known target hkind id hid
    by_cases hlt : id.index < tree.size
    · rw [(Tree.Grows.alloc tree target .label).kind_eq hlt, hkind id hlt]
    · rw [Tree.eq_nextId_of_alloc (Nat.le_of_not_lt hlt) hid, Tree.kind, Tree.node_alloc_nextId,
        Node.kind]
  let first : Machine := ⟨(labels program).1, [], []⟩
  have hfirst : Halts program routines settings first := by
    refine ⟨by simp [first, Machine.unfinished], fun block hblock _ => ?_⟩
    cases (hkind block hblock.lt).symm.trans hblock.kind
  obtain ⟨htree, hlabels⟩ := labels_sound program
  have hsound : first.Sound (script program routines) :=
    ⟨htree, hlabels, by simp [first], by simp [first, Machine.unfinished],
      by simp [first, Machine.unfinished]⟩
  exact hfirst.begin hsound rfl startName Program.entry Context.entering

theorem stage_halts (hstrict : settings.strict = true)
    (h : stage program routines settings count = some m) : Halts program routines settings m :=
  stage_induction (P := fun _ m => Halts program routines settings m) start_halts
    (fun hstep hm => hstep.halts hstrict hm) h

end Lift

namespace Tree

variable {tree : Tree} {block : NodeId}

theorem leaves_complete (tree : Tree) (s : NodeId) :
    (Lift.complete tree).leaves s = tree.leaves s := by
  rw [leaves, leaves, (Lift.node_complete tree s).2.1]

theorem Ended.complete (h : tree.Ended block) : (Lift.complete tree).Ended block := by
  obtain ⟨before, s, hstatements, hleaves, hbefore⟩ := h
  obtain ⟨p, hp, hkept⟩ := Lift.statements_complete tree block
  have hs : p s := by
    refine hp s ?_
    rw [storage?_eq_none fun hslot => by simp [leaves, hslot] at hleaves]
    simp
  refine ⟨before.filter p, s, ?_, by rw [leaves_complete, hleaves], fun t ht => ?_⟩
  · rw [hkept, hstatements, List.filter_append, List.filter_cons_of_pos hs, List.filter_nil]
  · rw [leaves_complete]
    exact hbefore t (List.mem_filter.1 ht).1

theorem Passable.complete (h : tree.Passable block) : (Lift.complete tree).Passable block := by
  obtain ⟨p, -, hkept⟩ := Lift.statements_complete tree block
  intro s hs
  rw [hkept] at hs
  rw [leaves_complete]
  exact h s (List.mem_filter.1 hs).1

theorem Ended.eq_nil (h : tree.Ended block) {before after : List NodeId} {s : NodeId}
    (hstatements : tree.statements block = before ++ s :: after) (hs : tree.leaves s) :
    after = [] := by
  obtain ⟨others, last, hothers, -, hpass⟩ := h
  by_contra hne
  have hdrop : others = before ++ s :: after.dropLast := by
    rw [← List.dropLast_cons_of_ne_nil hne, ← List.dropLast_append_of_ne_nil (by simp),
      ← hstatements, hothers, List.dropLast_concat]
  have hopen := hpass s (by simp [hdrop])
  rw [hopen] at hs
  cases hs

theorem Ended.getLast? (h : tree.Ended block) :
    ∃ s, (tree.statements block).getLast? = some s ∧ tree.leaves s := by
  obtain ⟨before, s, hstatements, hleaves, -⟩ := h
  exact ⟨s, by rw [hstatements, List.getLast?_concat], hleaves⟩

end Tree

section Lifted

variable {program : Program} {routines : Routines} {settings : LiftSettings} {tree : Tree}

theorem lift_halts (hstrict : settings.strict = true)
    (hlift : lift program routines settings = some (.ok tree)) {block : NodeId}
    (hblock : tree.IsBlock block) : tree.Ended block ∨
      tree.Passable block ∧ Lift.RunsOff program routines settings block := by
  obtain ⟨lifted, hrun, rfl⟩ := lift_eq_ok hlift
  obtain ⟨count, last, hlast, hrest, rfl⟩ := Lift.exists_stage hrun
  have hold : last.tree.IsBlock block :=
    ⟨by rw [← Lift.size_complete]; exact hblock.lt,
      by rw [← (Lift.node_complete last.tree block).2.1]; exact hblock.kind⟩
  have hdone := (Lift.stage_halts hstrict hlast).done block hold
    (by simp [Machine.unfinished, hrest])
  exact hdone.imp Tree.Ended.complete fun hout => ⟨hout.1.complete, hout.2⟩

theorem isBlock_of_conditional (hlift : lift program routines settings = some (.ok tree))
    {n test branch : NodeId} (h : tree.node n = .conditional test branch) :
    tree.IsBlock branch := by
  obtain ⟨lifted, hrun, rfl⟩ := lift_eq_ok hlift
  obtain ⟨count, last, hlast, -, rfl⟩ := Lift.exists_stage hrun
  exact (Lift.apt_complete (Lift.stage_apt hlast) n).branch _ _ h

/-- Blocks end where control leaves. In a strict run a return or a goto is the last statement of its
block, and a block whose last statement is neither was filled by a walk that came to the end of the
program. So a branch that is taken does not fall back behind its conditional, unless control runs off
the end of the program. -/
theorem blocks_end_where_control_leaves (hstrict : settings.strict = true)
    (hlift : lift program routines settings = some (.ok tree)) :
    (∀ block before s after, tree.statements block = before ++ s :: after → tree.leaves s →
      after = []) ∧
    (∀ block, tree.IsBlock block →
      (∀ s, (tree.statements block).getLast? = some s → ¬tree.leaves s) →
      Lift.RunsOff program routines settings block) ∧
    ∀ n test branch, tree.node n = .conditional test branch →
      (∃ s, (tree.statements branch).getLast? = some s ∧ tree.leaves s) ∨
      Lift.RunsOff program routines settings branch := by
  refine ⟨fun block before s after hstatements hleaves => ?_, fun block hblock hnone => ?_,
    fun n test branch hnode => ?_⟩
  · have hmem : s ∈ tree.statements block := by
      rw [hstatements]
      exact List.mem_append_right _ List.mem_cons_self
    have hblock : tree.IsBlock block :=
      ⟨Tree.lt_size_of_statement hmem, Tree.kind_of_statement hmem⟩
    rcases lift_halts hstrict hlift hblock with hended | ⟨hpass, -⟩
    · exact hended.eq_nil hstatements hleaves
    · rw [hpass s hmem] at hleaves
      cases hleaves
  · rcases lift_halts hstrict hlift hblock with hended | ⟨-, hout⟩
    · obtain ⟨s, hs, hleaves⟩ := hended.getLast?
      exact absurd hleaves (hnone s hs)
    · exact hout
  · have hblock : tree.IsBlock branch := isBlock_of_conditional hlift hnode
    exact (lift_halts hstrict hlift hblock).imp Tree.Ended.getLast? And.right

end Lifted

/-- The code behind the first branch returns, the code behind the second is the end of the
program. -/
def fallingScript : Program := .ofList "" [
  { opcode := .jsr, jump := 8 },
  { opcode := .retn },
  { opcode := .consti, value := some (.int 0) },
  { opcode := .jz, jump := 20 },
  { opcode := .consti, value := some (.int 1) },
  { opcode := .jz, jump := 10 },
  { opcode := .retn },
  { opcode := .retn },
  { opcode := .nop }
]

/-- The first branch ends with its return; the walk of the second one runs off the end. -/
theorem fallingScript_blocks_end : ∃ tree, lift fallingScript {} .strictly = some (.ok tree) ∧
    tree.node ⟨8⟩ = .conditional ⟨6⟩ ⟨7⟩ ∧ tree.node ⟨15⟩ = .conditional ⟨13⟩ ⟨14⟩ ∧
    (∃ s, (tree.statements ⟨7⟩).getLast? = some s ∧ tree.leaves s) ∧
    Lift.RunsOff fallingScript {} .strictly ⟨14⟩ := by
  obtain ⟨tree, hlift, hcond⟩ := exists_of_lift fallingScript {} .strictly
    (fun tree => decide (tree.node ⟨8⟩ = .conditional ⟨6⟩ ⟨7⟩ ∧
      tree.node ⟨15⟩ = .conditional ⟨13⟩ ⟨14⟩ ∧ tree.statements ⟨14⟩ = [] ∧
      ((tree.statements ⟨7⟩).getLast?.any fun s => tree.leaves s))) (by decide +kernel)
  obtain ⟨hfirst, hsecond, hempty, hleft⟩ := of_decide_eq_true hcond
  refine ⟨tree, hlift, hfirst, hsecond, by simpa [Option.any_eq_true] using hleft, ?_⟩
  rcases (blocks_end_where_control_leaves rfl hlift).2.2 _ _ _ hsecond with
    ⟨s, hs, -⟩ | hoff
  · simp [hempty] at hs
  · exact hoff

end ScriptLift
