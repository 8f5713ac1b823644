import ScriptLift.Proofs.Lift.Trail

namespace ScriptLift

/-- Where the block starts that an instruction asks for, and the context it asks with. -/
def Instruction.request? (program : Program) (ins : Instruction) (ctx : Context) :
    Option (Nat × Context) :=
  match ins.opcode.operation with
  | .branch =>
    match ctx.pop with
    | .ok (_, rest) => if 0 < ins.jump then some (ins.target, rest) else none
    | .error _ => none
  | .storeState =>
    ((program.at? ins.next).filter (·.opcode = .jmp)).map fun jump => (jump.next, ctx)
  | _ => none

theorem Instruction.context_of_request? {program : Program} {ins : Instruction}
    {ctx ctx' : Context} {offset : Nat} (h : ins.request? program ctx = some (offset, ctx')) :
    ctx'.stack.Sublist ctx.stack ∧ ctx' = { ctx with stack := ctx'.stack } := by
  unfold Instruction.request? at h
  split at h
  · split at h
    · next word rest hpop =>
      obtain ⟨hstack, hcontext⟩ := Context.pop_eq_ok hpop
      split at h
      · cases h
        exact ⟨hstack ▸ List.sublist_cons_self _ _, hcontext⟩
      · cases h
    · cases h
  · obtain ⟨jump, -, heq⟩ := Option.map_eq_some_iff.1 h
    cases heq
    exact ⟨List.Sublist.refl _, rfl⟩
  · cases h

namespace Site

/-- The request of an instruction is served: a known block is used again, another one is opened. -/
inductive Serves (site : Site) (program : Program) (start ws : Workspace) : Prop
  | kept : (∀ offset ctx, site.ins.request? program start.context = some (offset, ctx) →
        ∃ block, start.blocks.lookup (offset, ctx.depth) = some block) →
      ws.blocks = start.blocks → ws.spawned = start.spawned → Serves site program start ws
  | opened {job : Job} : site.ins.request? program start.context = some (job.start, job.context) →
      start.blocks.lookup job.key = none → start.tree.size ≤ job.block.index →
      ws.tree.get job.block = ⟨job.start, .block []⟩ →
      ws.blocks = (job.key, job.block) :: start.blocks → ws.spawned = some job →
      Serves site program start ws

/-- The instruction opens the block of `job`. -/
structure Opens (site : Site) (program : Program) (start ws : Workspace) (job : Job) : Prop where
  request : site.ins.request? program start.context = some (job.start, job.context)
  fresh : start.tree.size ≤ job.block.index
  get : ws.tree.get job.block = ⟨job.start, .block []⟩
  blocks : ws.blocks = (job.key, job.block) :: start.blocks

variable {site : Site} {script : Script} {start ws : Workspace}

theorem Serves.opens {program : Program} {job : Job} (h : site.Serves program start ws)
    (hnone : start.spawned = none) (hjob : ws.spawned = some job) :
    site.Opens program start ws job := by
  cases h with
  | kept _ _ hsame => cases hjob.symm.trans (hsame.trans hnone)
  | opened hrequest _ hfresh hget hblocks hsome =>
    cases hsome.symm.trans hjob
    exact ⟨hrequest, hfresh, hget, hblocks⟩

theorem closed_unasked (h : ∀ offset, ¬site.Asks script.program offset) :
    site.Closed script fun a b => b.blocks = a.blocks ∧ b.spawned = a.spawned where
  refl _ := ⟨rfl, rfl⟩
  trans h g := ⟨g.1.trans h.1, g.2.trans h.2⟩
  alloc _ _ _ := ⟨rfl, rfl⟩
  record _ _ _ := ⟨rfl, rfl⟩
  label _ _ _ _ := ⟨rfl, rfl⟩
  jump _ _ := ⟨rfl, rfl⟩
  schedule _ offset hasks := absurd hasks (h offset)
  slot _ _ _ := ⟨rfl, rfl⟩
  outer _ _ := ⟨rfl, rfl⟩
  context _ _ _ := ⟨rfl, rfl⟩
  warn _ _ := ⟨rfl, rfl⟩

theorem get_record {tree : Tree} {node : Node} {offset : Nat} {block id : NodeId}
    (hid : id.index < tree.size) (hne : id ≠ block) :
    ((tree.alloc offset node).pushStatement block tree.nextId).get id = tree.get id := by
  rw [Tree.pushStatement, Tree.modifyStatements, Tree.get_modify_of_ne hne,
    Tree.get_alloc_of_lt hid]

/-- A branch ahead serves its request, whatever was allocated before. -/
theorem serves_branch {labels : List (Nat × NodeId)}
    (hop : site.ins.opcode.operation = .branch)
    (hblock : site.block.index < start.tree.size) :
    site.Serves script.program start (Lift.left (site.branch labels start)) := by
  unfold branch
  change site.Serves _ _ (Lift.left (EStateM.bind site.pop _ start))
  unfold EStateM.bind
  rw [pop_eq]
  have hrequest : site.ins.request? script.program start.context =
      match start.context.pop with
      | .ok (_, rest) => if 0 < site.ins.jump then some (site.ins.target, rest) else none
      | .error _ => none := by
    simp only [Instruction.request?, hop]
  cases hpop : start.context.pop with
  | error cause =>
    rw [hpop] at hrequest
    exact .kept (by simp [hrequest]) rfl rfl
  | ok popped =>
    obtain ⟨word, context⟩ := popped
    rw [hpop] at hrequest
    dsimp only at hrequest ⊢
    -- The test is allocated first; the block comes behind it.
    let first := start.tree.alloc site.ins.offset (.literal (.int 0))
    let second := first.alloc site.ins.offset
      (.binary site.ins.opcode.relation word.slot start.tree.nextId false)
    change site.Serves _ _ (Lift.left (EStateM.bind (site.branchBlock labels) _
      { start with context, tree := second }))
    unfold branchBlock
    by_cases hjump : 0 < site.ins.jump
    · rw [if_pos hjump] at hrequest
      simp only [hjump, if_true]
      unfold EStateM.bind Lift.schedule
      dsimp only
      cases hlookup : start.blocks.lookup (site.ins.target, context.depth) with
      | some block =>
        refine .kept (fun offset ctx heq => ?_) rfl rfl
        cases hrequest.symm.trans heq
        exact ⟨block, hlookup⟩
      | none =>
        let job : Job := ⟨second.nextId, site.ins.target, context⟩
        have hsize : second.size = start.tree.size + 2 := by simp [second, first]
        have hnew : start.tree.size ≤ job.block.index := by
          change start.tree.size ≤ second.size
          omega
        have hne : second.nextId ≠ site.block := by
          intro heq
          rw [← heq, Tree.nextId_index] at hblock
          omega
        exact .opened (show _ = some (job.start, job.context) from hrequest) hlookup hnew
          ((get_record (by simp) hne).trans Tree.get_alloc_nextId) rfl rfl
    · rw [if_neg hjump] at hrequest
      simp only [hjump, if_false]
      refine .kept (by simp [hrequest]) ?_ ?_ <;>
        cases hlabel : labels.lookup site.ins.target <;>
        simp [targetLabel, hlabel, EStateM.bind] <;> rfl

theorem serves_storeState (hop : site.ins.opcode.operation = .storeState) :
    site.Serves script.program start (Lift.left (site.storeState script.program start)) := by
  have hrequest : site.ins.request? script.program start.context =
      ((script.program.at? site.ins.next).filter (·.opcode = .jmp)).map fun jump =>
        (jump.next, start.context) := by
    simp only [Instruction.request?, hop]
  change site.Serves _ _ (Lift.left (EStateM.bind (site.followingJump script.program) _ start))
  unfold EStateM.bind followingJump
  cases hjump : (script.program.at? site.ins.next).filter (·.opcode = .jmp) with
  | none =>
    rw [hjump] at hrequest
    exact .kept (by simp [hrequest]) rfl rfl
  | some jump =>
    rw [hjump, Option.map_some] at hrequest
    change site.Serves _ _ (Lift.left (EStateM.bind (Lift.schedule jump.next) _ start))
    unfold EStateM.bind Lift.schedule
    dsimp only
    cases hlookup : start.blocks.lookup (jump.next, start.context.depth) with
    | some block =>
      refine .kept (fun offset ctx heq => ?_) rfl rfl
      cases hrequest.symm.trans heq
      exact ⟨block, hlookup⟩
    | none =>
      let job : Job := ⟨start.tree.nextId, jump.next, start.context⟩
      exact .opened (show _ = some (job.start, job.context) from hrequest) hlookup
        (Nat.le_refl _) Tree.get_alloc_nextId rfl rfl

theorem left_onward (handler : Lift Unit) (ws : Workspace) :
    Lift.left (site.onward handler ws) = Lift.left (handler ws) := by
  change Lift.left (EStateM.bind handler _ ws) = _
  unfold EStateM.bind
  cases handler ws <;> rfl

/-- Every instruction serves its request, failing or not. -/
theorem visit_serves (site : Site) (script : Script) (callees : List (Nat × SubId))
    (start : Workspace) (hblock : site.block.index < start.tree.size) :
    site.Serves script.program start (Lift.left (site.visit script callees start)) := by
  -- A label that is placed changes nothing that requests are about.
  let placed := Lift.left (site.placeLabel script.labels start)
  have hvisit : Lift.left (site.visit script callees start) =
      Lift.left (site.execute script callees placed) := by
    change Lift.left (EStateM.bind _ _ start) = _
    unfold EStateM.bind
    rw [placeLabel_eq_ok]
  have hplaced : placed.context = start.context ∧ placed.blocks = start.blocks ∧
      placed.spawned = start.spawned ∧ placed.tree.size = start.tree.size := by
    simp only [placed, placeLabel]
    cases script.labels.lookup site.ins.offset with
    | none => exact ⟨rfl, rfl, rfl, rfl⟩
    | some label => exact ⟨rfl, rfl, rfl, Tree.size_pushStatement⟩
  obtain ⟨hcontext, hblocks, hspawned, hsize⟩ := hplaced
  have hserves :
      site.Serves script.program placed (Lift.left (site.execute script callees placed)) →
        site.Serves script.program start (Lift.left (site.visit script callees start)) := by
    intro h
    rw [hvisit]
    cases h with
    | kept hknown hsame hnone =>
      exact .kept (by rw [← hcontext, ← hblocks]; exact hknown) (hsame.trans hblocks)
        (hnone.trans hspawned)
    | opened hrequest hlookup hnew hget hsame hsome =>
      exact .opened (hcontext ▸ hrequest) (hblocks ▸ hlookup) (hsize ▸ hnew) hget
        (hblocks ▸ hsame) hsome
  rw [← hsize] at hblock
  cases hop : site.ins.opcode.operation with
  | branch =>
    apply hserves
    simp only [execute, hop, left_onward]
    exact serves_branch hop hblock
  | storeState =>
    apply hserves
    simp only [execute, hop, left_onward]
    exact serves_storeState hop
  | _ =>
    have hclosed : site.Closed script _ := closed_unasked (by
      rintro offset (⟨hbranch, -⟩ | ⟨hstore, -⟩)
      · cases hop.symm.trans hbranch
      · cases hop.symm.trans hstore)
    obtain ⟨hsame, hnone⟩ := hclosed.keeps_visit callees
      (fun _ callee _ => hclosed.keeps_call callee fun _ _ => ⟨rfl, rfl⟩)
      (fun _ _ => ⟨rfl, rfl⟩) start
    exact .kept (by simp [Instruction.request?, hop]) hsame hnone

end Site

end ScriptLift
