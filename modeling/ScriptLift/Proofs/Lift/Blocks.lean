import ScriptLift.Proofs.Lift.Shape

namespace ScriptLift

/-- What an instruction leaves as it was: the blocks other than its own. A block that it asks for is
new and empty. -/
def Site.Spares (site : Site) (a b : Workspace) : Prop :=
  site.block.index < a.tree.size →
    a.tree.size ≤ b.tree.size ∧
    (∀ id : NodeId, id.index < a.tree.size → id ≠ site.block →
      b.tree.statements id = a.tree.statements id) ∧
    (b.spawned = a.spawned ∨ ∃ job, b.spawned = some job ∧ a.tree.size ≤ job.block.index ∧
      job.block.index < b.tree.size ∧ b.tree.statements job.block = [])

namespace Site

variable (site : Site)

theorem spares_of_tree (ws : Workspace) {tree : Tree} (hsize : ws.tree.size ≤ tree.size)
    (h : ∀ id : NodeId, id.index < ws.tree.size → id ≠ site.block →
      tree.statements id = ws.tree.statements id) : site.Spares ws { ws with tree } :=
  fun _ => ⟨hsize, h, .inl rfl⟩

theorem spares_trans {a b c : Workspace} (h : site.Spares a b) (g : site.Spares b c) :
    site.Spares a c := by
  intro hblock
  obtain ⟨hsize, hother, hspawned⟩ := h hblock
  obtain ⟨hsize', hother', hspawned'⟩ := g (Nat.lt_of_lt_of_le hblock hsize)
  refine ⟨Nat.le_trans hsize hsize', fun id hid hne => ?_, ?_⟩
  · rw [hother' id (Nat.lt_of_lt_of_le hid hsize) hne, hother id hid hne]
  · rcases hspawned' with heq | ⟨job, hjob, hle, hlt, hempty⟩
    · rw [heq]
      refine hspawned.imp_right ?_
      rintro ⟨job, hjob, hle, hlt, hempty⟩
      refine ⟨job, hjob, hle, Nat.lt_of_lt_of_le hlt hsize', ?_⟩
      rw [hother' job.block hlt (by intro heq; rw [heq] at hle; omega), hempty]
    · exact .inr ⟨job, hjob, Nat.le_trans hsize hle, hlt, hempty⟩

theorem spares_record (ws : Workspace) (node : Node) : site.Spares ws { ws with
    tree := (ws.tree.alloc site.ins.offset node).pushStatement site.block ws.tree.nextId } :=
  site.spares_of_tree ws (by simp) fun id hid hne => by
    rw [Tree.pushStatement, Tree.statements_modifyStatements_of_ne _ hne, Tree.statements,
      Tree.node_alloc_of_lt hid, Tree.statements]

theorem closed_spares (script : Script) : site.Closed script site.Spares where
  refl ws := site.spares_of_tree ws (Nat.le_refl _) fun _ _ _ => rfl
  trans h g := site.spares_trans h g
  alloc ws node _ := site.spares_of_tree ws (by simp) fun id hid _ => by
    rw [Tree.statements, Tree.node_alloc_of_lt hid, Tree.statements]
  record ws node _ := site.spares_record ws node
  label ws _ _ _ := site.spares_of_tree ws (by simp) fun id _ hne => by
    rw [Tree.pushStatement, Tree.statements_modifyStatements_of_ne _ hne]
  jump ws label := site.spares_of_tree ws (by simp; omega) fun id hid _ => by
    rw [Tree.pushStatement, Tree.statements_modifyStatements_of_ne _ (by rintro rfl; simp at hid),
      Tree.statements_alloc (by simp), Tree.statements_alloc (by simp)]
  schedule ws offset _ := fun _ => by
    refine ⟨by simp, fun id hid _ => Tree.statements_alloc (by simp), .inr ⟨_, rfl, ?_⟩⟩
    refine ⟨Nat.le_refl _, by simp, ?_⟩
    simp [Tree.statements]
  slot ws id f := site.spares_of_tree ws (by simp) fun _ _ _ => Tree.statements_modifySlot f
  outer _ _ := fun _ => ⟨Nat.le_refl _, fun _ _ _ => rfl, .inl rfl⟩
  context _ _ _ := fun _ => ⟨Nat.le_refl _, fun _ _ _ => rfl, .inl rfl⟩
  warn ws _ := site.spares_of_tree ws (Nat.le_refl _) fun _ _ _ => rfl

theorem visit_spares (script : Script) (callees : List (Nat × SubId)) :
    Lift.Keeps site.Spares (site.visit script callees) :=
  (site.closed_spares script).keeps_visit callees
    (fun _ callee _ => (site.closed_spares script).keeps_call callee fun ws _ =>
      site.spares_record ws _)
    fun _ ws => site.spares_record ws _

end Site

/-- Blocks of a subroutine in progress that are begun or wait to be. -/
def Activation.unfinished (act : Activation) : List NodeId :=
  (act.walk.map (·.block)).toList ++ act.work.map (·.block)

def Machine.unfinished (m : Machine) : List NodeId := m.active.flatMap Activation.unfinished

/-- All that a subroutine in progress names is in the tree. -/
structure Activation.Sound (tree : Tree) (act : Activation) : Prop where
  outer : ∀ argument ∈ act.outer, tree.isSlot argument.2
  blocks : ∀ block ∈ act.blocks, tree.IsValue block.2
  work : ∀ job ∈ act.work, job.context.Sound tree
  walk : ∀ walk, act.walk = some walk → walk.context.Sound tree

/-- A block that statements may be added to. -/
structure Tree.IsOpen (tree : Tree) (block : NodeId) : Prop where
  lt : block.index < tree.size
  unended : ∀ s ∈ tree.statements block, tree.kind s ≠ .ret

/-- What holds of the machine at all times. -/
structure Machine.Sound (script : Script) (m : Machine) : Prop where
  tree : m.tree.Built
  labels : ∀ entry ∈ script.labels, m.tree.kind entry.2 = .label
  active : ∀ act ∈ m.active, act.Sound m.tree
  unfinished : ∀ block ∈ m.unfinished, m.tree.IsOpen block
  nodup : m.unfinished.Nodup

theorem Activation.Sound.mono {old new : Tree} {act : Activation} (h : act.Sound old)
    (hext : old.Extends new) : act.Sound new where
  outer argument hargument := hext.isSlot (h.outer argument hargument)
  blocks block hblock := hext.isValue (h.blocks block hblock)
  work job hjob := (h.work job hjob).mono hext
  walk walk hwalk := (h.walk walk hwalk).mono hext

theorem Tree.IsOpen.mono {old new : Tree} {block : NodeId} (h : old.IsOpen block)
    (htree : old.WellFormed) (hext : old.Extends new)
    (heq : new.statements block = old.statements block) : new.IsOpen block where
  lt := Nat.lt_of_lt_of_le h.lt hext.size
  unended s hs := by
    rw [heq] at hs
    rw [hext.kind s (htree.statement hs).lt]
    exact h.unended s hs

namespace Machine

variable {script : Script} {settings : LiftSettings} {m : Machine} {act : Activation}
  {callers : List Activation} {walk : Walk}

/-- The workspace of the instruction at which a walk stands. -/
def workspace (m : Machine) (act : Activation) (walk : Walk) : Workspace :=
  ⟨m.tree, walk.context, act.outer, act.blocks, none⟩

theorem unfinished_of_walk (hm : m.active = act :: callers) (hwalk : act.walk = some walk) :
    m.unfinished = walk.block :: (act.work.map (·.block) ++
      callers.flatMap Activation.unfinished) := by
  rw [Machine.unfinished, hm]
  simp [Activation.unfinished, hwalk]

/-- Behind an instruction the block that it asks for is unfinished, and the block of its walk is where
the walk goes on. -/
theorem unfinished_commit {ws : Workspace} {tree : Tree} {last : Nat} {onward : Option Walk} :
    Machine.unfinished { m with
      tree
      active := { commit { act with last } ws with walk := onward } :: callers } =
      (onward.map (·.block)).toList ++ (ws.spawned.toList.map (·.block) ++
        (act.work.map (·.block) ++ callers.flatMap Activation.unfinished)) := by
  simp [Machine.unfinished, Activation.unfinished, commit]

namespace Sound

theorem of_exprs_eq (h : m.Sound script) {tree : Tree} (heq : tree.exprs = m.tree.exprs) :
    Machine.Sound script { m with tree } := by
  have hext := Tree.Extends.of_exprs_eq heq
  refine ⟨h.tree.of_exprs_eq heq, fun entry hentry => ?_, fun act hact => (h.active act hact).mono hext,
    fun block hblock => (h.unfinished block hblock).mono h.tree.wellFormed hext
      (Tree.statements_of_exprs_eq heq), h.nodup⟩
  rw [hext.kind_eq (by simp [h.labels entry hentry]), h.labels entry hentry]

theorem workspace_sound (h : m.Sound script) (hm : m.active = act :: callers)
    (hwalk : act.walk = some walk) (ins : Instruction) :
    (m.workspace act walk).Sound ⟨ins, act.entry, walk.block, walk.start⟩ := by
  have hact := h.active act (first_mem hm)
  have hopen : m.tree.IsOpen walk.block := by
    apply h.unfinished
    rw [unfinished_of_walk hm hwalk]
    exact List.mem_cons_self
  exact ⟨⟨h.tree, hact.walk walk hwalk, hact.outer, hact.blocks, by simp [workspace]⟩, hopen.unended⟩

/-- Unfinished blocks are distinct: a change to the block of the walk leaves the others alone. -/
theorem spared (h : m.Sound script) (hm : m.active = act :: callers)
    (hwalk : act.walk = some walk) {new : Tree}
    (hother : ∀ block, block.index < m.tree.size → block ≠ walk.block →
      new.statements block = m.tree.statements block) {block : NodeId}
    (hmem : block ∈ act.work.map (·.block) ++ callers.flatMap Activation.unfinished) :
    new.statements block = m.tree.statements block := by
  have hnodup := h.nodup
  rw [unfinished_of_walk hm hwalk] at hnodup
  refine hother block (h.unfinished block ?_).lt ?_
  · rw [unfinished_of_walk hm hwalk]
    exact List.mem_cons_of_mem _ hmem
  · rintro rfl
    exact (List.nodup_cons.1 hnodup).1 hmem

theorem opened (h : m.Sound script) {site : Site} (hblock : site.block.index < m.tree.size)
    {ws : Workspace} (hspares : site.Spares (m.workspace act walk) ws) {job : Job}
    (hjob : ws.spawned = some job) : ws.tree.IsOpen job.block ∧ job.block ∉ m.unfinished := by
  obtain ⟨-, -, hspawned⟩ := hspares hblock
  rcases hspawned with heq | ⟨other, hother, hle, hlt, hempty⟩
  · cases hjob.symm.trans heq
  · cases hjob.symm.trans hother
    refine ⟨⟨hlt, by simp [hempty]⟩, fun hmem => ?_⟩
    exact absurd (h.unfinished _ hmem).lt (Nat.not_lt.2 hle)

/-- No block is unfinished twice behind an instruction. -/
theorem nodup_commit (h : m.Sound script) (hm : m.active = act :: callers)
    (hwalk : act.walk = some walk) {ws : Workspace}
    (hopened : ∀ job, ws.spawned = some job → job.block ∉ m.unfinished) (tree : Tree) (last : Nat)
    {onward : Option Walk} (honward : ∀ w, onward = some w → w.block = walk.block) :
    (Machine.unfinished { m with
      tree
      active := { commit { act with last } ws with walk := onward } :: callers }).Nodup := by
  have hnodup := h.nodup
  rw [unfinished_of_walk hm hwalk] at hnodup hopened
  have hall : (walk.block :: (ws.spawned.toList.map (·.block) ++ (act.work.map (·.block) ++
      callers.flatMap Activation.unfinished))).Nodup := by
    cases hspawned : ws.spawned with
    | none => exact hnodup
    | some job =>
      have hjob := hopened job hspawned
      exact (List.Perm.swap _ _ _).nodup (List.nodup_cons.2 ⟨hjob, hnodup⟩)
  rw [unfinished_commit]
  cases honw : onward with
  | none => exact (List.nodup_cons.1 hall).2
  | some w =>
    rw [Option.map_some, Option.toList_some, honward w honw]
    exact hall

/-- The machine behind an instruction. The walk may go on if its block is not ended. -/
theorem advance (h : m.Sound script) (hm : m.active = act :: callers)
    (hwalk : act.walk = some walk) {ins : Instruction} {ws : Workspace} (hproper : ws.Proper)
    (hext : m.tree.Extends ws.tree)
    (hspares : Site.Spares ⟨ins, act.entry, walk.block, walk.start⟩ (m.workspace act walk) ws)
    (last : Nat) (onward : Option Walk)
    (honward : ∀ w, onward = some w → w.block = walk.block ∧ w.context = ws.context ∧
      ∀ s ∈ ws.tree.statements walk.block, ws.tree.kind s ≠ .ret) :
    Machine.Sound script { m with
      tree := ws.tree
      active := { commit { act with last } ws with walk := onward } :: callers } := by
  have hold := unfinished_of_walk hm hwalk
  have hact := h.active act (first_mem hm)
  have hblock : m.tree.IsOpen walk.block := h.unfinished _ (by rw [hold]; exact List.mem_cons_self)
  obtain ⟨hsize, hother, -⟩ := hspares hblock.lt
  have hrest : ∀ block ∈ act.work.map (·.block) ++ callers.flatMap Activation.unfinished,
      ws.tree.IsOpen block := by
    intro block hmem
    have hopen := h.unfinished block (by rw [hold]; exact List.mem_cons_of_mem _ hmem)
    exact hopen.mono h.tree.wellFormed hext (h.spared hm hwalk hother hmem)
  refine ⟨hproper.tree, fun entry hentry => ?_, fun other hmem => ?_, fun block hmem => ?_, ?_⟩
  · rw [hext.kind_eq (by simp [h.labels entry hentry]), h.labels entry hentry]
  · rcases List.mem_cons.1 hmem with rfl | hmem
    · refine ⟨hproper.outer, hproper.blocks, fun job hjob => ?_, fun w hw => ?_⟩
      · rcases mem_work_commit.1 hjob with hspawned | hjob
        · exact hproper.spawned job hspawned
        · exact (hact.work job hjob).mono hext
      · rw [(honward w hw).2.1]
        exact hproper.context
    · exact (h.active other (caller_mem hm hmem)).mono hext
  · rw [unfinished_commit] at hmem
    rcases List.mem_append.1 hmem with hmem | hmem
    · obtain ⟨w, hw, rfl⟩ : ∃ w, onward = some w ∧ w.block = block := by simpa using hmem
      obtain ⟨heq, -, hunended⟩ := honward w hw
      rw [heq]
      exact ⟨Nat.lt_of_lt_of_le hblock.lt hsize, hunended⟩
    · rcases List.mem_append.1 hmem with hmem | hmem
      · obtain ⟨job, hjob, rfl⟩ := List.mem_map.1 hmem
        exact (h.opened hblock.lt hspares (Option.mem_toList.1 hjob)).1
      · exact hrest block hmem
  · exact h.nodup_commit hm hwalk (fun job hjob => (h.opened hblock.lt hspares hjob).2) ws.tree last
      fun w hw => (honward w hw).1

theorem narrow (h : m.Sound script) {active : List Activation}
    (hactive : ∀ act ∈ active, act.Sound m.tree)
    (hsub : (active.flatMap Activation.unfinished).Sublist m.unfinished) :
    Machine.Sound script { m with active } :=
  ⟨h.tree, h.labels, hactive, fun block hmem => h.unfinished block (hsub.subset hmem),
    h.nodup.sublist hsub⟩

theorem narrow_first (h : m.Sound script) (hm : m.active = act :: callers) (act' : Activation)
    (hact : act'.Sound m.tree) (hsub : act'.unfinished.Sublist act.unfinished) :
    Machine.Sound script { m with active := act' :: callers } := by
  refine h.narrow (fun other hmem => ?_) ?_
  · rcases List.mem_cons.1 hmem with rfl | hmem
    · exact hact
    · exact h.active other (caller_mem hm hmem)
  · rw [Machine.unfinished, hm]
    exact hsub.append_right _

theorem first (h : m.Sound script) (hm : m.active = act :: callers) : act.Sound m.tree :=
  h.active act (first_mem hm)

theorem drop_walk (h : m.Sound script) (hm : m.active = act :: callers) :
    Machine.Sound script { m with active := { act with walk := none } :: callers } := by
  have hact := h.first hm
  refine h.narrow_first hm _ ⟨hact.outer, hact.blocks, hact.work, by simp⟩ ?_
  simp [Activation.unfinished]

end Sound

theorem begin_sound (h : m.Sound script) (name : String) (entry : Nat) {context : SubId → Context}
    (hcontext : ∀ sub, (context sub).Sound m.tree) :
    (m.begin name entry context).Sound script := by
  have hgrow := Tree.Grows.alloc m.tree entry (.block [])
  have hext := Tree.Extends.of_grows hgrow
  have hexprs : (m.begin name entry context).tree.exprs =
      (m.tree.alloc entry (.block [])).exprs := rfl
  have hext' : m.tree.Extends (m.begin name entry context).tree :=
    hext.trans (Tree.Extends.of_exprs_eq hexprs)
  have hstatements : ∀ id, (m.begin name entry context).tree.statements id = m.tree.statements id :=
    fun id => by rw [Tree.statements_of_exprs_eq hexprs, Tree.statements_alloc (by simp)]
  have hsize : (m.begin name entry context).tree.size = m.tree.size + 1 := by
    rw [Tree.size, hexprs, ← Tree.size, Tree.size_alloc]
  have hunfinished : (m.begin name entry context).unfinished = m.tree.nextId :: m.unfinished := by
    simp [begin, Machine.unfinished, Activation.unfinished, Activation.start]
  refine ⟨(h.tree.alloc Site.fits_empty entry).of_exprs_eq hexprs, fun label hlabel => ?_,
    fun act hact => ?_, fun block hblock => ?_, ?_⟩
  · rw [hext'.kind_eq (by simp [h.labels label hlabel]), h.labels label hlabel]
  · rcases List.mem_cons.1 hact with rfl | hact
    · refine ⟨by simp [Activation.start], ?_, ?_, by simp [Activation.start]⟩
      · intro block hblock
        simp only [Activation.start, List.mem_singleton] at hblock
        subst hblock
        refine ⟨by rw [hsize]; exact Nat.lt_succ_self _, ?_⟩
        rw [(Tree.Extends.of_exprs_eq hexprs).kind _ (by simp), Tree.kind, Tree.node_alloc_nextId]
        simp [Node.kind]
      · intro job hjob
        simp only [Activation.start, List.mem_singleton] at hjob
        subst hjob
        exact (hcontext _).mono hext'
    · exact (h.active act hact).mono hext'
  · rw [hunfinished] at hblock
    rcases List.mem_cons.1 hblock with rfl | hblock
    · refine ⟨by rw [hsize]; exact Nat.lt_succ_self _, ?_⟩
      rw [hstatements, Tree.statements, Tree.node_nextId]
      simp
    · exact (h.unfinished block hblock).mono h.tree.wellFormed hext' (hstatements block)
  · rw [hunfinished]
    refine List.nodup_cons.2 ⟨fun hmem => ?_, h.nodup⟩
    exact absurd (h.unfinished _ hmem).lt (Nat.lt_irrefl _)

theorem Move.sound {m' : Machine} (h : Move script settings m m') (hm : m.Sound script) :
    m'.Sound script := by
  cases h with
  | @finish act callers hactive hwalk hwork =>
    refine Sound.of_exprs_eq (m := { m with active := callers })
      (hm.narrow (fun other hmem => hm.active other (caller_mem hactive hmem)) ?_) rfl
    rw [Machine.unfinished, hactive]
    exact List.sublist_append_right _ _
  | @skip act callers job work hactive hwalk hwork hdone =>
    have hact := hm.first hactive
    refine hm.narrow_first hactive _ ⟨hact.outer, hact.blocks, fun other hmem => ?_, hact.walk⟩ ?_
    · exact hact.work other (by rw [hwork]; exact List.mem_cons_of_mem _ hmem)
    · simp [Activation.unfinished, hwalk, hwork]
  | @start act callers job work hactive hwalk hwork hdone =>
    have hact := hm.first hactive
    refine hm.narrow_first hactive _ ⟨hact.outer, hact.blocks, fun other hmem => ?_, ?_⟩ ?_
    · exact hact.work other (by rw [hwork]; exact List.mem_cons_of_mem _ hmem)
    · intro walk hstarted
      cases hstarted
      exact hact.work job (by rw [hwork]; exact List.mem_cons_self)
    · simp [Activation.unfinished, hwalk, hwork, Job.walk]
  | leave hactive hwalk hle => exact hm.drop_walk hactive
  | lost hactive hwalk hat hstrict => exact (hm.drop_walk hactive).of_exprs_eq rfl
  | @next act callers walk ins offset ws hactive hwalk hat hrun =>
    have hgrow := (Site.visit_grows _ _ _).ok hrun
    have hspares := (Site.visit_spares _ _ _).ok hrun
    have hproper := Site.visit_proper m.callees hm.labels (hm.workspace_sound hactive hwalk ins)
    have hret : ins.opcode.operation ≠ .ret := by
      intro hret
      have hstop := Site.visit_eq_of_ret ⟨ins, act.entry, walk.block, walk.start⟩ script m.callees
        hret (m.workspace act walk)
      rw [workspace, hrun] at hstop
      cases hstop
    rw [workspace, hrun] at hproper
    refine hm.advance hactive hwalk hproper.1 (Tree.Extends.of_grows hgrow) hspares _ _ ?_
    intro w hw
    cases hw
    exact ⟨rfl, rfl, (hproper.2 hret).unended⟩
  | @stop act callers walk ins ws hactive hwalk hat hrun =>
    have hproper := Site.visit_proper m.callees hm.labels (hm.workspace_sound hactive hwalk ins)
    rw [workspace, hrun] at hproper
    exact hm.advance hactive hwalk hproper.1 (Tree.Extends.of_grows ((Site.visit_grows _ _ _).ok hrun))
      ((Site.visit_spares _ _ _).ok hrun) _ _ (by simp)
  | @enter act callers walk ins target ws hactive hwalk hat hrun =>
    have hact := hm.first hactive
    have hwaits := hm.narrow_first hactive { act with last := max act.last walk.offset }
      ⟨hact.outer, hact.blocks, hact.work, hact.walk⟩ (List.Sublist.refl _)
    have hcontext := hact.walk walk hwalk
    exact begin_sound hwaits _ _ fun sub => ⟨hcontext.words, hcontext.saved⟩
  | @fault act callers walk ins cause ws hactive hwalk hat hrun hstrict =>
    have hproper := Site.visit_proper m.callees hm.labels (hm.workspace_sound hactive hwalk ins)
    rw [workspace, hrun] at hproper
    have hnext := hm.advance hactive hwalk hproper.1
      (Tree.Extends.of_grows ((Site.visit_grows _ _ _).error hrun))
      ((Site.visit_spares _ _ _).error hrun) (max act.last walk.offset) none (by simp)
    exact hnext.of_exprs_eq rfl

end Machine

namespace Lift

theorem labels_sound (program : Program) :
    (labels program).1.Built ∧
      ∀ entry ∈ (labels program).2, (labels program).1.kind entry.2 = .label := by
  refine labels_induction (P := fun state => state.1.Built ∧
    ∀ entry ∈ state.2, state.1.kind entry.2 = .label) ⟨Tree.Built.empty, by simp⟩ ?_ program
  intro tree known target h
  have hext := Tree.Extends.of_grows (Tree.Grows.alloc tree target .label)
  refine ⟨h.1.alloc (Tree.fits_of_operands (by simp [Node.kind]) (by simp [Node.kind])
    (by simp [Node.operands])) target, fun entry hentry => ?_⟩
  rcases List.mem_cons.1 hentry with rfl | hentry
  · simp [Tree.kind, Node.kind]
  · rw [hext.kind_eq (by simp [h.2 entry hentry]), h.2 entry hentry]

theorem start_sound (program : Program) (routines : Routines) :
    (start (labels program).1).Sound (script program routines) := by
  obtain ⟨htree, hlabels⟩ := labels_sound program
  refine Machine.begin_sound ⟨htree, hlabels, by simp, by simp [Machine.unfinished],
    by simp [Machine.unfinished]⟩ _ _ fun sub => ⟨by simp [Context.entering], by simp [Context.entering]⟩

theorem nameGlobals_wellFormed {tree : Tree} (h : tree.WellFormed) (sub : SubId) :
    (nameGlobals tree sub).WellFormed := by
  have hnamed : (tree.modifySub sub fun s => { s with name := globalsName }).WellFormed :=
    h.of_exprs_eq rfl
  exact hnamed.shrinkStatements List.filter_sublist

theorem nameSubroutines_wellFormed {tree : Tree} (h : tree.WellFormed) :
    (nameSubroutines tree).WellFormed := by
  unfold nameSubroutines
  split
  · exact h.of_exprs_eq rfl
  · exact (nameGlobals_wellFormed h _).of_exprs_eq rfl
  · exact nameGlobals_wellFormed h _
  · exact h

end Lift

theorem lift_wellFormed {program : Program} {routines : Routines} {settings : LiftSettings}
    {tree : Tree} (h : lift program routines settings = some (.ok tree)) : tree.WellFormed := by
  obtain ⟨lifted, hrun, rfl⟩ := lift_eq_ok h
  obtain ⟨last, hlast, -, rfl⟩ := Machine.run_induction (P := Machine.Sound _)
    (fun hm hmove => hmove.sound hm) (Lift.start_sound program routines) hrun
  exact Lift.nameSubroutines_wellFormed (hlast.tree.wellFormed.of_exprs_eq rfl)

end ScriptLift
