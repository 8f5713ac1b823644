import ScriptLift.Proofs.Lift.Deferral
import ScriptLift.Proofs.Lift.Expansion
import ScriptLift.Proofs.Lift.Labels

/-! Between which offsets the statements of a subroutine stand.

A walk only climbs: an instruction adds its statements to a block behind those that are there, at its
own offset. A subroutine remembers the highest offset that its walks came to, so it contains what its
own instructions add. A callee also finds the state that its caller saved last, and an engine call
may keep the caller's block. That block stands where the caller's code does. -/
namespace ScriptLift

/-- Blocks that are begun or wait to be, with the offsets that their walks go on from. -/
def Activation.fronts (act : Activation) : List (NodeId × Nat) :=
  (act.walk.map fun walk => (walk.block, walk.offset)).toList ++
    act.work.map fun job => (job.block, job.start)

/-- Where a subroutine in progress behind a move comes from, and what the move does to its blocks. -/
inductive Machine.Origin (script : Script) (m m' : Machine) (act' : Activation) : Prop
  | entered {target context} :
    act' = Activation.start m.tree.nextSubId target m.tree.nextId context →
    m'.tree.statements m.tree.nextId = [] → Origin script m m' act'
  /-- Blocks may be dropped, and those that are left stay as they are. -/
  | kept {act} : act ∈ m.active → act'.sub = act.sub → act'.entry = act.entry →
    act.last ≤ act'.last → act'.fronts ⊆ act.fronts →
    (∀ front ∈ act'.fronts, m'.tree.statements front.1 = m.tree.statements front.1) →
    Origin script m m' act'
  /-- The walk goes on, or a block that is asked for is taken up. -/
  | visited {visit} : m.visit? script.program = some visit →
    m'.tree.exprs = (visit.outcome script m).tree.exprs → act'.sub = visit.act.sub →
    act'.entry = visit.act.entry → act'.last = max visit.act.last visit.walk.offset →
    (∀ front ∈ act'.fronts,
      (∃ offset, visit.onward? script m = some offset ∧ front = (visit.walk.block, offset)) ∨
      (∃ job, (visit.outcome script m).spawned = some job ∧ front = (job.block, job.start)) ∨
      front ∈ visit.act.work.map fun job => (job.block, job.start)) → Origin script m m' act'

/-- The statements of a block stand one behind the other. -/
def Tree.Climbs (tree : Tree) (block : NodeId) : Prop :=
  (tree.statements block).Pairwise fun before behind => tree.offset before ≤ tree.offset behind

/-- Walks go on behind the entry and behind the statements that their blocks have. -/
structure Activation.Climbs (tree : Tree) (act : Activation) : Prop where
  entry : ∀ front ∈ act.fronts, act.entry ≤ front.2
  passed : ∀ front ∈ act.fronts, ∀ s ∈ tree.statements front.1, tree.offset s ≤ front.2

theorem Tree.Climbs.of_statements_eq {old new : Tree} {block : NodeId} (h : old.Climbs block)
    (hwell : old.WellFormed) (hgrow : old.Grows new)
    (hsame : new.statements block = old.statements block) : new.Climbs block := by
  unfold Tree.Climbs
  rw [hsame]
  refine h.imp_of_mem fun {before behind} hbefore hbehind hle => ?_
  rw [hgrow.offset _ (hwell.statement hbefore).lt, hgrow.offset _ (hwell.statement hbehind).lt]
  exact hle

namespace Activation

variable {act act' : Activation} {old new : Tree} {front : NodeId × Nat}

theorem mem_fronts_of_walk {walk : Walk} (h : act.walk = some walk) :
    (walk.block, walk.offset) ∈ act.fronts := by
  rw [fronts, h]
  exact List.mem_cons_self

theorem mem_unfinished_of_front (h : front ∈ act.fronts) : front.1 ∈ act.unfinished := by
  rcases List.mem_append.1 h with h | h
  · obtain ⟨walk, hwalk, rfl⟩ := Option.map_eq_some_iff.1 (Option.mem_toList.1 h)
    exact List.mem_append_left _ (by simp [hwalk])
  · obtain ⟨job, hjob, rfl⟩ := List.mem_map.1 h
    exact List.mem_append_right _ (List.mem_map_of_mem hjob)

theorem climbs_start {sub : SubId} {entry : Nat} {root : NodeId} {context : Context}
    (h : new.statements root = []) : (Activation.start sub entry root context).Climbs new := by
  constructor <;> intro front hfront <;> obtain rfl := List.mem_singleton.1 hfront
  · exact Nat.le_refl _
  · simp [h]

namespace Climbs

theorem subset (h : act.Climbs old) (hwell : old.WellFormed) (hgrow : old.Grows new)
    (hentry : act'.entry = act.entry) (hfronts : act'.fronts ⊆ act.fronts)
    (hsame : ∀ front ∈ act'.fronts, new.statements front.1 = old.statements front.1) :
    act'.Climbs new where
  entry front hfront := hentry ▸ h.entry front (hfronts hfront)
  passed front hfront s hs := by
    rw [hsame front hfront] at hs
    rw [hgrow.offset s (hwell.statement hs).lt]
    exact h.passed front (hfronts hfront) s hs

end Climbs

end Activation

namespace Lift

variable {program : Program} {routines : Routines} {settings : LiftSettings} {count : Nat}
  {m m' : Machine} {visit : Visit} {block s : NodeId}

/-- A statement that an instruction adds stands at its offset: in the block of the walk, or in a new
block that stands there as well. -/
theorem Step.records (h : Step program routines settings count m m')
    (hvisit : m.visit? program = some visit)
    (hsame : m'.tree.exprs = (visit.outcome (script program routines) m).tree.exprs)
    (hs : s ∈ m'.tree.statements block) :
    s ∈ m.tree.statements block ∨ m'.tree.offset s = visit.walk.offset ∧
      (block = visit.walk.block ∨
        m.tree.size ≤ block.index ∧ m'.tree.offset block = visit.walk.offset) := by
  have hoffset := Program.offset_of_at? (Machine.visit?_eq_some.1 hvisit).2.2.2
  have hstatement := (stage_sound h.behind).tree.wellFormed.statement hs
  rcases visit_statement h.before hvisit (Tree.statements_of_exprs_eq hsame ▸ hs) with
    hold | ⟨rfl, hlabel⟩ | ⟨hfresh, hblock⟩
  · exact .inl hold
  · exact .inr ⟨((stage_label_iff h.behind).2 hlabel).2.trans hoffset, .inl rfl⟩
  · refine .inr ⟨(visit_stands h.before hvisit hsame hfresh hstatement.lt).resolve_right ?_,
      hblock.imp_right fun ⟨hnew, hlt⟩ => ⟨hnew, ?_⟩⟩
    · rintro ⟨job, -, hget⟩
      exact hstatement.kind (by rw [Tree.kind, Tree.node, hget, Node.kind])
    · rw [Tree.size, ← hsame] at hlt
      refine (visit_stands h.before hvisit hsame hnew hlt).resolve_right ?_
      rintro ⟨job, -, hget⟩
      simp [Tree.statements, Tree.node, hget] at hs

theorem front_of_commit {act : Activation} {ws : Workspace} {onward : Option Walk}
    {front : NodeId × Nat}
    (h : front ∈ Activation.fronts { Machine.commit act ws with walk := onward }) :
    (∃ walk', onward = some walk' ∧ front = (walk'.block, walk'.offset)) ∨
      (∃ job, ws.spawned = some job ∧ front = (job.block, job.start)) ∨
        front ∈ act.work.map fun job => (job.block, job.start) := by
  rcases List.mem_append.1 h with h | h
  · obtain ⟨walk', hwalk, rfl⟩ := Option.map_eq_some_iff.1 (Option.mem_toList.1 h)
    exact .inl ⟨walk', hwalk, rfl⟩
  · obtain ⟨job, hjob, rfl⟩ := List.mem_map.1 h
    rcases Machine.mem_work_commit.1 hjob with hspawned | hjob
    · exact .inr (.inl ⟨job, hspawned, rfl⟩)
    · exact .inr (.inr (List.mem_map_of_mem hjob))

theorem Step.origin_quiet (h : Step program routines settings count m m') {act : Activation}
    {callers : List Activation} (act' : Activation) (hactive : m.active = act :: callers)
    (hstatements : ∀ block : NodeId, block.index < m.tree.size →
      m'.tree.statements block = m.tree.statements block)
    (hsub : act'.sub = act.sub) (hentry : act'.entry = act.entry) (hlast : act.last ≤ act'.last)
    (hfronts : act'.fronts ⊆ act.fronts) :
    ∀ other ∈ act' :: callers, m.Origin (script program routines) m' other := by
  have hsame : ∀ act₀ ∈ m.active, ∀ front ∈ act₀.fronts,
      m'.tree.statements front.1 = m.tree.statements front.1 :=
    fun act₀ hact front hfront => hstatements _ ((stage_sound h.before).unfinished _
      (List.mem_flatMap.2 ⟨act₀, hact, Activation.mem_unfinished_of_front hfront⟩)).lt
  intro other hother
  rcases List.mem_cons.1 hother with rfl | hother
  · have hact : act ∈ m.active := Machine.first_mem hactive
    exact .kept hact hsub hentry hlast hfronts fun front hfront =>
      hsame act hact front (hfronts hfront)
  · have hact : other ∈ m.active := Machine.caller_mem hactive hother
    exact .kept hact rfl rfl (Nat.le_refl _) (List.Subset.refl _) (hsame other hact)

/-- An instruction adds statements to the block of its walk, which is none of a caller's. -/
theorem Step.origin_visited (h : Step program routines settings count m m')
    (hvisit : m.visit? program = some visit)
    (hsame : m'.tree.exprs = (visit.outcome (script program routines) m).tree.exprs)
    {onward : Option Walk} (honward : ∀ walk', onward = some walk' →
      walk'.block = visit.walk.block ∧
        visit.onward? (script program routines) m = some walk'.offset) :
    ∀ other ∈ { Machine.commit { visit.act with last := max visit.act.last visit.walk.offset }
        (visit.outcome (script program routines) m) with walk := onward } ::
      visit.callers, m.Origin (script program routines) m' other := by
  obtain ⟨hactive, hwalk, -, -⟩ := Machine.visit?_eq_some.1 hvisit
  intro other hother
  rcases List.mem_cons.1 hother with rfl | hother
  · refine .visited hvisit hsame rfl rfl rfl fun front hfront => ?_
    refine (front_of_commit hfront).imp_left ?_
    rintro ⟨walk', hnext, rfl⟩
    obtain ⟨hblock, hgoes⟩ := honward walk' hnext
    exact ⟨walk'.offset, hgoes, by rw [hblock]⟩
  · refine .kept (Machine.caller_mem hactive hother) rfl rfl (Nat.le_refl _)
      (List.Subset.refl _) fun front hfront => (stage_sound h.before).spared hactive hwalk
        (fun block hlt hne => ?_) (List.mem_append_right _ (List.mem_flatMap.2
          ⟨other, hother, Activation.mem_unfinished_of_front hfront⟩))
    exact (Tree.statements_of_exprs_eq hsame).trans (visit_spared h.before hvisit hlt hne)

theorem Step.origin (h : Step program routines settings count m m') :
    ∀ act' ∈ m'.active, m.Origin (script program routines) m' act' := by
  have hkept : m'.tree.exprs = m.tree.exprs → ∀ block : NodeId, block.index < m.tree.size →
      m'.tree.statements block = m.tree.statements block :=
    fun hsame _ _ => Tree.statements_of_exprs_eq hsame
  rcases Machine.tick_cases h.tick with ⟨hwithin, hmove⟩ | ⟨act, callers, walk, hactive, -, -, rfl⟩
  · cases hmove with
    | @finish act callers hactive =>
      exact fun other hother => h.origin_quiet _ hactive (hkept rfl) rfl rfl (Nat.le_refl _)
        (List.Subset.refl _) other (List.mem_cons_of_mem _ hother)
    | skip hactive hwalk hwork =>
      exact h.origin_quiet _ hactive (hkept rfl) rfl rfl (Nat.le_refl _)
        (by simp [Activation.fronts, hwalk, hwork])
    | start hactive hwalk hwork =>
      exact h.origin_quiet _ hactive (hkept rfl) rfl rfl (Nat.le_refl _)
        (by simp [Activation.fronts, hwalk, hwork, Job.walk])
    | leave hactive | lost hactive =>
      exact h.origin_quiet _ hactive (hkept rfl) rfl rfl (Nat.le_refl _)
        (List.subset_append_right _ _)
    | @next act callers walk ins offset ws hactive hwalk hat hrun =>
      obtain rfl : Visit.outcome ⟨act, callers, walk, ins⟩ (script program routines) m = ws :=
        congrArg left hrun
      refine h.origin_visited (hwithin.visit? hactive hwalk hat) rfl ?_
      rintro walk' ⟨⟩
      exact ⟨rfl, Visit.onward?_of_visit hrun⟩
    | @stop act callers walk ins ws hactive hwalk hat hrun
    | @fault act callers walk ins cause ws hactive hwalk hat hrun =>
      obtain rfl : Visit.outcome ⟨act, callers, walk, ins⟩ (script program routines) m = ws :=
        congrArg left hrun
      exact h.origin_visited (hwithin.visit? hactive hwalk hat) rfl (by simp)
    | @enter act callers walk ins target ws hactive =>
      have hroot : (m.tree.alloc target (.block [])).statements m.tree.nextId = [] := by
        rw [Tree.statements, Tree.node_alloc_nextId]
      intro other hother
      rcases List.mem_cons.1 hother with rfl | hother
      · exact .entered rfl ((Tree.statements_of_exprs_eq rfl).trans hroot)
      · refine h.origin_quiet { act with last := max act.last walk.offset } hactive
          (fun block _ => ?_) rfl rfl (Nat.le_max_left _ _) (List.Subset.refl _) other hother
        exact (Tree.statements_of_exprs_eq rfl).trans (Tree.statements_alloc (by simp))
  · exact h.origin_quiet _ hactive (hkept rfl) rfl rfl (Nat.le_refl _)
      (List.subset_append_right _ _)

/-- An instruction that was executed within the first `count` moves stands where `s` does, no earlier
than `block`, and belongs to the subroutine that the block was made for. -/
inductive AddedBefore (program : Program) (routines : Routines) (settings : LiftSettings)
    (count : Nat) (tree : Tree) (block s : NodeId) : Prop
  | visit {earlier m visit} : stage program routines settings earlier = some m → earlier < count →
    m.visit? program = some visit → tree.offset s = visit.walk.offset →
    tree.offset block ≤ visit.walk.offset → MadeBy program routines settings visit.act.sub block →
    AddedBefore program routines settings count tree block s

section Ahead

variable (hlength : program.length ≤ 2 ^ 31)
include hlength

/-- The subroutine that an instruction belongs to goes on behind it. -/
theorem Step.climbs_visited (h : Step program routines settings count m m')
    (hvisit : m.visit? program = some visit)
    (hsame : m'.tree.exprs = (visit.outcome (script program routines) m).tree.exprs)
    (hact : visit.act.Climbs m.tree) {act' : Activation} (hentry : act'.entry = visit.act.entry)
    (hfronts : ∀ front ∈ act'.fronts,
      (∃ offset, visit.onward? (script program routines) m = some offset ∧
        front = (visit.walk.block, offset)) ∨
      (∃ job, (visit.outcome (script program routines) m).spawned = some job ∧
        front = (job.block, job.start)) ∨
      front ∈ visit.act.work.map fun job => (job.block, job.start)) : act'.Climbs m'.tree := by
  obtain ⟨hactive, hwalk, -, -⟩ := Machine.visit?_eq_some.1 hvisit
  have hsound := stage_sound h.before
  have hahead := stage_ahead hlength h.before hvisit
  have hfront := Activation.mem_fronts_of_walk hwalk
  have hclimbed := hact.entry _ hfront
  have hwork : ∀ front ∈ visit.act.work.map (fun job => (job.block, job.start)),
      front ∈ visit.act.fronts := fun front => List.mem_append_right _
  have hold : ∀ front ∈ visit.act.fronts, ∀ s ∈ m.tree.statements front.1,
      m'.tree.offset s ≤ front.2 := by
    intro front hmem s hs
    rw [h.grows.offset s (hsound.tree.wellFormed.statement hs).lt]
    exact hact.passed front hmem s hs
  constructor
  · intro front hmem
    rw [hentry]
    rcases hfronts front hmem with ⟨offset, hoffset, rfl⟩ | ⟨job, hjob, rfl⟩ | hmem
    · exact Nat.le_trans hclimbed (Nat.le_of_lt (hahead.onward offset hoffset))
    · exact Nat.le_trans hclimbed (Nat.le_of_lt (hahead.asked job hjob))
    · exact hact.entry front (hwork front hmem)
  · intro front hmem s hs
    rcases hfronts front hmem with ⟨offset, hoffset, rfl⟩ | ⟨job, hjob, rfl⟩ | hmem
    · have hle := Nat.le_of_lt (hahead.onward offset hoffset)
      rcases h.records hvisit hsame hs with hs | ⟨heq, -⟩
      · exact Nat.le_trans (hold _ hfront s hs) hle
      · exact heq ▸ hle
    · have hget := (visit_opens h.before hvisit hjob).get
      rw [Tree.statements_of_exprs_eq hsame, Tree.statements, Tree.node, hget] at hs
      cases hs
    · obtain ⟨job, hjob, rfl⟩ := List.mem_map.1 hmem
      have hspared : m'.tree.statements job.block = m.tree.statements job.block := by
        refine hsound.spared hactive hwalk (fun block hlt hne => ?_)
          (List.mem_append_left _ (List.mem_map_of_mem hjob))
        exact (Tree.statements_of_exprs_eq hsame).trans (visit_spared h.before hvisit hlt hne)
      exact hold _ (hwork _ hmem) s (hspared ▸ hs)

/-- Subroutines in progress only climb. -/
theorem stage_climbs (h : stage program routines settings count = some m) :
    ∀ act ∈ m.active, act.Climbs m.tree := by
  refine stage_induction (P := fun _ m => ∀ act ∈ m.active, act.Climbs m.tree) ?_ ?_ h
  · intro act hact
    obtain rfl := List.mem_singleton.1 hact
    refine Activation.climbs_start ?_
    rcases start_node program (labels program).1.nextId with hnode | hnode <;>
      rw [Tree.statements, hnode]
  · intro count m m' hstep hm act' hact'
    cases hstep.origin act' hact' with
    | entered heq hroot =>
      subst heq
      exact Activation.climbs_start hroot
    | kept hact _ hentry _ hfronts hsame =>
      exact (hm _ hact).subset (stage_sound hstep.before).tree.wellFormed hstep.grows hentry hfronts
        hsame
    | visited hvisit hsame _ hentry _ hfronts =>
      exact hstep.climbs_visited hlength hvisit hsame (hm _ (Machine.act_mem_of_visit? hvisit)) hentry
        hfronts

/-- What an instruction adds to the block of the walk stands at its offset. -/
theorem Step.climbs_walk (h : Step program routines settings count m m')
    (hvisit : m.visit? program = some visit)
    (hsame : m'.tree.exprs = (visit.outcome (script program routines) m).tree.exprs)
    (hold : m.tree.Climbs visit.walk.block) : m'.tree.Climbs visit.walk.block := by
  have hsound := stage_sound h.before
  obtain ⟨more, hstatements, hfresh⟩ := (visit_trail h.before hvisit).tree.statements
  let label := ((script program routines).labels.lookup visit.ins.offset).toList
  have happend : m'.tree.statements visit.walk.block =
      m.tree.statements visit.walk.block ++ (label ++ more) :=
    (Tree.statements_of_exprs_eq hsame).trans (hstatements.trans (List.append_assoc ..))
  have hkept : ∀ s ∈ m.tree.statements visit.walk.block, m'.tree.offset s = m.tree.offset s :=
    fun s hs => h.grows.offset s (hsound.tree.wellFormed.statement hs).lt
  have hadded : ∀ s ∈ label ++ more, m'.tree.offset s = visit.walk.offset := by
    intro s hs
    rcases List.mem_append.1 hs with hs | hs
    · have hlabel := Site.mem_of_lookup (Option.mem_toList.1 hs)
      exact ((stage_label_iff h.behind).2 hlabel).2.trans
        (Program.offset_of_at? (Machine.visit?_eq_some.1 hvisit).2.2.2)
    · have hmem : s ∈ m'.tree.statements visit.walk.block := by
        rw [happend]
        exact List.mem_append_right _ (List.mem_append_right _ hs)
      refine ((h.records hvisit hsame hmem).resolve_left fun hthere => ?_).1
      exact Nat.not_lt.2 (hfresh s hs) (hsound.tree.wellFormed.statement hthere).lt
  have hpassed := (stage_climbs hlength h.before _ (Machine.act_mem_of_visit? hvisit)).passed _
    (Activation.mem_fronts_of_walk (Machine.walk_of_visit? hvisit))
  unfold Tree.Climbs
  rw [happend, List.pairwise_append]
  refine ⟨hold.imp_of_mem fun hs ht hle => ?_, ?_, ?_⟩
  · rw [hkept _ hs, hkept _ ht]
    exact hle
  · exact List.pairwise_of_forall_mem_list fun s hs t ht =>
      Nat.le_of_eq ((hadded s hs).trans (hadded t ht).symm)
  · intro s hs t ht
    rw [hkept s hs, hadded t ht]
    exact hpassed s hs

/-- The statements of all blocks stand in order. -/
theorem stage_block_climbs (h : stage program routines settings count = some m) (block : NodeId) :
    m.tree.Climbs block := by
  refine stage_induction (P := fun _ m => ∀ block, m.tree.Climbs block) ?_ ?_ h block
  · intro block
    rcases start_node program block with hnode | hnode <;>
      simp [Tree.Climbs, Tree.statements, hnode]
  · intro count m m' hstep hm block
    have hkept : m'.tree.statements block = m.tree.statements block → m'.tree.Climbs block :=
      (hm block).of_statements_eq (stage_sound hstep.before).tree.wellFormed hstep.grows
    cases hstep.turn with
    | ended _ _ hsame | shifted _ _ _ _ hsame => exact hkept (Tree.statements_of_exprs_eq hsame)
    | entered _ _ _ _ hsame =>
      exact hkept ((Tree.statements_of_exprs_eq hsame).trans (Tree.statements_alloc (by simp)))
    | @visited visit act' hvisit _ _ _ hsame =>
      by_cases hwalk : block = visit.walk.block
      · subst hwalk
        exact hstep.climbs_walk hlength hvisit hsame (hm _)
      · by_cases hlt : block.index < m.tree.size
        · exact hkept ((Tree.statements_of_exprs_eq hsame).trans
            (visit_spared hstep.before hvisit hlt hwalk))
        · have hat : ∀ s ∈ m'.tree.statements block, m'.tree.offset s = visit.walk.offset := by
            intro s hs
            refine ((hstep.records hvisit hsame hs).resolve_left fun hold => ?_).1
            exact hlt (Tree.lt_size_of_statement hold)
          exact List.pairwise_of_forall_mem_list fun s hs t ht =>
            Nat.le_of_eq ((hat s hs).trans (hat t ht).symm)

theorem stage_added (h : stage program routines settings count = some m)
    (hs : s ∈ m.tree.statements block) :
    AddedBefore program routines settings count m.tree block s := by
  refine stage_induction (P := fun count m => ∀ block s, s ∈ m.tree.statements block →
    AddedBefore program routines settings count m.tree block s) ?_ ?_ h block s hs
  · intro block s hs
    rcases start_node program block with hnode | hnode <;> simp [Tree.statements, hnode] at hs
  · intro count m m' hstep hm block s hs
    have hkept : s ∈ m.tree.statements block →
        AddedBefore program routines settings (count + 1) m'.tree block s := by
      intro hs
      obtain ⟨hstage, hlt, hvisit, hoffset, hle, hmade⟩ := hm block s hs
      rw [← hstep.grows.offset s ((stage_sound hstep.before).tree.wellFormed.statement hs).lt]
        at hoffset
      rw [← hstep.grows.offset block (Tree.lt_size_of_statement hs)] at hle
      exact .visit hstage (Nat.lt_succ_of_lt hlt) hvisit hoffset hle hmade
    cases hstep.turn with
    | ended _ _ hsame | shifted _ _ _ _ hsame => exact hkept (Tree.statements_of_exprs_eq hsame ▸ hs)
    | entered _ _ _ _ hsame =>
      rw [Tree.statements_of_exprs_eq hsame, Tree.statements_alloc (by simp)] at hs
      exact hkept hs
    | @visited visit act' hvisit _ hactive hleads hsame =>
      have hblock := Tree.lt_size_of_statement hs
      rcases hstep.records hvisit hsame hs with hs | ⟨hat, rfl | ⟨hnew, heq⟩⟩
      · exact hkept hs
      · have hact := Machine.act_mem_of_visit? hvisit
        have hwalk := Machine.walk_of_visit? hvisit
        have hpending := Visit.mem_pending hwalk
        refine .visit hstep.before (Nat.lt_succ_self _) hvisit hat ?_
          ((stage_owned hstep.before _ hact).block _ hpending)
        rw [hstep.grows.offset _ ((visit_fills hstep.before hvisit).pending _ hpending).lt]
        exact (stage_anchored hlength hstep.before _ hact).walk _ hwalk
      · exact .visit hstep.before (Nat.lt_succ_self _) hvisit hat (Nat.le_of_eq heq)
          (.move (hstep.madeAt hactive hleads.sub hnew hblock))

end Ahead

end Lift

/-- The last offset of a subroutine lies no earlier: the one reached so far if it is in progress,
else the one that it was completed with. -/
structure Machine.Spans (m : Machine) (sub : SubId) (offset : Nat) : Prop where
  active : ∀ act ∈ m.active, act.sub = sub → offset ≤ act.last
  complete : sub ∉ m.inProgress → offset ≤ (m.tree.sub sub).stop

theorem Machine.Spans.of_mem {m : Machine} {act : Activation} {sub : SubId} {offset : Nat}
    (hdistinct : m.inProgress.Nodup) (hact : act ∈ m.active) (hsub : act.sub = sub)
    (hle : offset ≤ act.last) : m.Spans sub offset where
  active _ hother heq :=
    List.inj_on_of_nodup_map hdistinct hother hact (heq.trans hsub.symm) ▸ hle
  complete hdone := absurd (hsub ▸ List.mem_map_of_mem hact) hdone

namespace Lift

variable {program : Program} {routines : Routines} {settings : LiftSettings} {count : Nat}
  {m m' : Machine} {visit : Visit} {sub : SubId} {offset : Nat}

/-- A subroutine that is complete behind a move was so before, or is completed by it. -/
theorem Step.complete_cases (h : Step program routines settings count m m')
    (hsub : m.tree.HasSub sub) (hdone : sub ∉ m'.inProgress) :
    (sub ∉ m.inProgress ∧ (m'.tree.sub sub).stop = (m.tree.sub sub).stop) ∨
      ∃ act ∈ m.active, act.sub = sub ∧ (m'.tree.sub sub).stop = act.last := by
  cases h.accounts (h.hasSub hsub) with
  | kept _ heq hstays =>
    refine .inl ⟨fun hmem => hdone ?_, congrArg Subroutine.stop heq⟩
    exact List.mem_map.2 (hstays (List.mem_map.1 hmem))
  | @completed act hact hown _ heq => exact .inr ⟨act, hact, hown, by rw [heq]⟩
  | begun hnew => exact absurd hnew hsub.ne_nextSubId

theorem Step.spans (h : Step program routines settings count m m') (hsub : m.tree.HasSub sub)
    (hm : m.Spans sub offset) : m'.Spans sub offset where
  active act' hact' heq := by
    cases h.origin act' hact' with
    | entered hnew =>
      rw [hnew] at heq
      exact absurd heq.symm hsub.ne_nextSubId
    | kept hact hold _ hlast =>
      exact Nat.le_trans (hm.active _ hact (hold.symm.trans heq)) hlast
    | visited hvisit _ hold _ hlast =>
      rw [hlast]
      exact Nat.le_trans (hm.active _ (Machine.act_mem_of_visit? hvisit) (hold.symm.trans heq))
        (Nat.le_max_left _ _)
  complete hdone := by
    rcases h.complete_cases hsub hdone with ⟨hold, heq⟩ | ⟨act, hact, hold, heq⟩
    · rw [heq]
      exact hm.complete hold
    · rw [heq]
      exact hm.active act hact hold

/-- Behind an instruction the last offset of its subroutine lies no earlier than the instruction. -/
theorem Step.spans_visited (h : Step program routines settings count m m')
    (hvisit : m.visit? program = some visit) : m'.Spans visit.act.sub visit.walk.offset := by
  have hdistinct := (stage_matched h.behind).distinct
  have hmax : visit.walk.offset ≤ max visit.act.last visit.walk.offset := Nat.le_max_right _ _
  have htick : m.tick (script program routines) settings = _ := Machine.tick_of_visit? hvisit
  have hrun := Machine.eq_ok_of_map (htick.symm.trans h.tick)
  unfold Machine.advance at hrun
  dsimp only at hrun
  split at hrun
  · cases hrun
    exact .of_mem hdistinct List.mem_cons_self rfl hmax
  · cases hrun
    exact .of_mem hdistinct List.mem_cons_self rfl hmax
  · split at hrun
    · rw [Machine.abandon_of_isFinal rfl] at hrun
      cases hrun
    · cases hrun
      exact .of_mem hdistinct (List.mem_cons_of_mem _ List.mem_cons_self) rfl hmax
  · obtain ⟨-, rfl⟩ := Machine.abandon_eq_ok hrun (Machine.walk_of_visit? hvisit)
    exact .of_mem hdistinct List.mem_cons_self rfl hmax

/-- A complete subroutine contains the instructions that were executed for it. -/
theorem visit_contained (hlength : program.length ≤ 2 ^ 31) {last : Nat} {final : Machine}
    (h : stage program routines settings count = some m) (hvisit : m.visit? program = some visit)
    (hlast : stage program routines settings last = some final) (hrest : final.active = []) :
    (final.tree.sub visit.act.sub).contains visit.walk.offset := by
  have hact := Machine.act_mem_of_visit? hvisit
  have hlt := stage_lt_rest hlast hrest h (Machine.active_ne_nil_of_visit? hvisit)
  obtain ⟨n, m', hstep⟩ := exists_step hlast hlt
  cases hstep.before.symm.trans h
  have hsub := hstep.hasSub (stage_hasSub h hact)
  have hspans := (stage_persists (P := fun n => n.tree.HasSub visit.act.sub ∧
    n.Spans visit.act.sub visit.walk.offset) (fun hstep hn => ⟨hstep.hasSub hn.1, hstep.spans hn.1 hn.2⟩)
      hstep.behind hlast hlt ⟨hsub, hstep.spans_visited hvisit⟩).2
  have hknown := stage_persists (P := fun n => n.tree.HasSub visit.act.sub ∧
    (n.tree.sub visit.act.sub).start = visit.act.entry) (fun hstep hn => ⟨hstep.hasSub hn.1,
      ((Machine.move_of_tick hstep.tick).start_eq hn.1).trans hn.2⟩) h hlast (Nat.le_of_lt hlt)
        (((stage_entered h).known _ _).1 ((stage_entered h).active _ hact))
  have hclimbs := (stage_climbs hlength h _ hact).entry _
    (Activation.mem_fronts_of_walk (Machine.walk_of_visit? hvisit))
  have hstop := hspans.complete (by simp [Machine.inProgress, hrest])
  simp only [Subroutine.contains, hknown.2, Bool.and_eq_true, decide_eq_true_eq]
  exact ⟨hclimbs, hstop⟩

/-- A node that a subroutine reaches through an engine call of its own which keeps a block that was
made for another subroutine. -/
inductive Borrowed (program : Program) (routines : Routines) (settings : LiftSettings) (tree : Tree)
    (sub : SubId) (id : NodeId) : Prop
  | kept {call block} : Relation.ReflTransGen tree.Holds (tree.sub sub).root call →
    tree.kind call = .action → MadeBy program routines settings sub call →
    block ∈ tree.below true call → tree.IsBlock block →
    ¬MadeBy program routines settings sub block → Relation.ReflTransGen tree.Holds block id →
    Borrowed program routines settings tree sub id

/-- What a subroutine reaches was made for it, or for one that began before, and it is borrowed. -/
theorem made_of_reached (h : stage program routines settings count = some m)
    (hsub : m.tree.HasSub sub) {id : NodeId}
    (hreach : Relation.ReflTransGen (complete m.tree).Holds ((complete m.tree).sub sub).root id) :
    m.tree.kind id = .label ∨ m.tree.kind id = .slot ∨
      ∃ maker, MadeBy program routines settings maker id ∧ (maker = sub ∨
        maker.index < sub.index ∧
          Borrowed program routines settings (complete m.tree) sub id) := by
  have hroot : ((complete m.tree).sub sub).root = (m.tree.sub sub).root :=
    field_complete (·.root) (fun _ _ => rfl) m.tree sub
  induction hreach with
  | refl =>
    rw [hroot]
    exact .inr (.inr ⟨sub, stage_root h hsub, .inl rfl⟩)
  | @tail id n hpath hholds ih =>
    have hn := mem_below_of_complete hholds
    obtain ⟨hlabel, hslot⟩ := Tree.kind_of_below hn
    obtain ⟨maker, hmaker, hfrom⟩ := (ih.resolve_left hlabel).resolve_left hslot
    have hfurther : Borrowed program routines settings (complete m.tree) sub id →
        Borrowed program routines settings (complete m.tree) sub n := by
      rintro ⟨hcall, hkind, hown, hkept, hblock, hother, hinner⟩
      exact .kept hcall hkind hown hkept hblock hother (hinner.tail hholds)
    rcases made_below h hmaker hn with hlabel | hslot | hsame | ⟨haction, hblock, other, hother, hle⟩
    · exact .inl hlabel
    · exact .inr (.inl hslot)
    · exact .inr (.inr ⟨maker, hsame, hfrom.imp_right (And.imp_right hfurther)⟩)
    · refine .inr (.inr ⟨other, hother, ?_⟩)
      rcases hfrom with rfl | ⟨hlt, hborrowed⟩
      · by_cases heq : other = maker
        · exact .inl heq
        · refine .inr ⟨Nat.lt_of_le_of_ne hle fun hidx => heq (Facts.sub_index_eq_iff.1 hidx),
            .kept hpath ?_ hmaker hholds ?_ (fun hown => heq (hother.unique hown)) .refl⟩
          · rw [(node_complete m.tree id).2.1, haction]
          · exact ⟨by rw [size_complete]; exact hblock.lt,
              by rw [(node_complete m.tree n).2.1, hblock.kind]⟩
      · exact .inr ⟨Nat.lt_of_le_of_lt hle hlt, hfurther hborrowed⟩

end Lift

section Lifted

variable {program : Program} {routines : Routines} {settings : LiftSettings} {tree : Tree}
  {sub : SubId} {block : NodeId}

/-- The statements of a block stand in order, none before the block, and the subroutine that the
block was made for contains them all. That is the subroutine which reaches the block, or one that
began before it and whose saved state an engine call keeps. -/
theorem statements_ordered_and_contained (hlength : program.length ≤ 2 ^ 31)
    (h : lift program routines settings = some (.ok tree)) (hsub : sub ∈ tree.order)
    (hreach : Relation.ReflTransGen tree.Holds (tree.sub sub).root block)
    (hblock : tree.kind block = .block) :
    ((tree.statements block).Pairwise fun before behind =>
      tree.offset before ≤ tree.offset behind) ∧
    (∀ s ∈ tree.statements block, tree.offset block ≤ tree.offset s) ∧
    ∃ maker ∈ tree.order, Lift.MadeBy program routines settings maker block ∧
      (∀ s ∈ tree.statements block, (tree.sub maker).contains (tree.offset s)) ∧
      (maker = sub ∨ maker.index < sub.index ∧
        Lift.Borrowed program routines settings tree sub block) := by
  obtain ⟨lifted, hrun, htree⟩ := lift_eq_ok h
  obtain ⟨count, last, hstage, hrest, rfl⟩ := Lift.exists_stage hrun
  obtain rfl : Lift.complete last.tree = tree := htree
  have hentered := Lift.stage_entered hstage
  have hoffset : ∀ id, (Lift.complete last.tree).offset id = last.tree.offset id :=
    fun id => (Lift.node_complete last.tree id).1
  have hkind := (Lift.node_complete last.tree block).2.1
  have hhas : last.tree.HasSub sub :=
    (hentered.order sub).1 (Lift.order_complete last.tree ▸ hsub)
  obtain ⟨maker, hmaker, hfrom⟩ := ((Lift.made_of_reached hstage hhas hreach).resolve_left
    (by simp [← hkind, hblock])).resolve_left (by simp [← hkind, hblock])
  obtain ⟨p, -, hstatements⟩ := Lift.statements_complete last.tree block
  have hadded : ∀ s ∈ (Lift.complete last.tree).statements block,
      Lift.AddedBefore program routines settings count last.tree block s := by
    intro s hs
    rw [hstatements] at hs
    exact Lift.stage_added hlength hstage (List.mem_of_mem_filter hs)
  refine ⟨?_, ?_, maker, ?_, hmaker, ?_, hfrom⟩
  · simp only [hstatements, hoffset]
    exact (Lift.stage_block_climbs hlength hstage block).sublist List.filter_sublist
  · intro s hs
    obtain ⟨-, -, -, heq, hle, -⟩ := hadded s hs
    rw [hoffset, hoffset, heq]
    exact hle
  · rw [Lift.order_complete, hentered.order]
    have hle : maker.index ≤ sub.index :=
      hfrom.elim (fun heq => Nat.le_of_eq (by rw [heq])) fun hearlier => Nat.le_of_lt hearlier.1
    exact Nat.lt_of_le_of_lt hle hhas
  · intro s hs
    obtain ⟨hearlier, -, hvisit, heq, -, howner⟩ := hadded s hs
    have hcontains : ((Lift.complete last.tree).sub maker).contains (last.tree.offset s) =
        (last.tree.sub maker).contains (last.tree.offset s) :=
      Lift.field_complete (·.contains (last.tree.offset s)) (fun _ _ => rfl) last.tree maker
    rw [hoffset]
    refine hcontains.trans ?_
    rw [heq, hmaker.unique howner]
    exact Lift.visit_contained hlength hearlier hvisit hstage hrest

end Lifted

/-- A state is saved, and the engine call that keeps it is left to a subroutine that stands before. -/
def borrowingScript : Program := .ofList "" [
  { opcode := .jsr, jump := 15 },
  { opcode := .retn },
  { opcode := .action, routine := 1, arity := 1 },
  { opcode := .retn },
  { opcode := .storeState },
  { opcode := .jmp, jump := 8 },
  { opcode := .retn },
  { opcode := .jsr, jump := -25 },
  { opcode := .retn }
]

theorem borrowingScript_borrows : ∃ tree sub block s, borrowingScript.length ≤ 2 ^ 31 ∧
    lift borrowingScript delayRoutines .strictly = some (.ok tree) ∧ sub ∈ tree.order ∧
    Relation.ReflTransGen tree.Holds (tree.sub sub).root block ∧ tree.kind block = .block ∧
    s ∈ tree.statements block ∧ ¬(tree.sub sub).contains (tree.offset s) := by
  have hlength : borrowingScript.length ≤ 2 ^ 31 := by decide +kernel
  obtain ⟨tree, hlift, hcond⟩ := exists_of_lift borrowingScript delayRoutines .strictly
    (fun tree => decide (∃ sub ∈ tree.order, ∃ block ∈ tree.body sub, tree.kind block = .block ∧
      ∃ s ∈ tree.statements block, ¬(tree.sub sub).contains (tree.offset s))) (by decide +kernel)
  obtain ⟨sub, hsub, block, hbody, hblock, s, hs, hout⟩ := of_decide_eq_true hcond
  exact ⟨tree, sub, block, s, hlength, hlift, hsub, Tree.holds_of_mem_subtree hbody, hblock, hs,
    hout⟩

/-- The saved code is contained in the subroutine that saved it. -/
theorem statements_contained_borrowingScript : ∃ tree sub block, borrowingScript.length ≤ 2 ^ 31 ∧
    lift borrowingScript delayRoutines .strictly = some (.ok tree) ∧ sub ∈ tree.order ∧
    Relation.ReflTransGen tree.Holds (tree.sub sub).root block ∧ tree.kind block = .block ∧
    ∃ maker ∈ tree.order, maker.index < sub.index ∧
      ∀ s ∈ tree.statements block, (tree.sub maker).contains (tree.offset s) := by
  obtain ⟨tree, sub, block, s, hlength, hlift, hsub, hreach, hblock, hs, hout⟩ :=
    borrowingScript_borrows
  obtain ⟨-, -, maker, hmaker, -, hcontains, hfrom⟩ :=
    statements_ordered_and_contained hlength hlift hsub hreach hblock
  rcases hfrom with rfl | ⟨hlt, -⟩
  · exact absurd (hcontains s hs) hout
  · exact ⟨tree, sub, block, hlength, hlift, hsub, hreach, hblock, maker, hmaker, hlt, hcontains⟩

/-- A subroutine does not contain all that it reaches. -/
theorem not_forall_statements_contained : ¬∀ (program : Program) (routines : Routines)
    (settings : LiftSettings) (tree : Tree), program.length ≤ 2 ^ 31 →
    lift program routines settings = some (.ok tree) → ∀ sub ∈ tree.order, ∀ block,
    Relation.ReflTransGen tree.Holds (tree.sub sub).root block → tree.kind block = .block →
    ((tree.statements block).Pairwise fun before behind =>
      tree.offset before ≤ tree.offset behind) ∧
    ∀ s ∈ tree.statements block, tree.offset block ≤ tree.offset s ∧
      (tree.sub sub).contains (tree.offset s) := by
  intro h
  obtain ⟨tree, sub, block, s, hlength, hlift, hsub, hreach, hblock, hs, hout⟩ :=
    borrowingScript_borrows
  exact hout ((h _ _ _ tree hlength hlift sub hsub block hreach hblock).2 s hs).2

end ScriptLift
