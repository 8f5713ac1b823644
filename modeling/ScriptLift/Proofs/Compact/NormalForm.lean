import ScriptLift.Proofs.Lift.Deferral
import ScriptLift.Proofs.Source.Failures

/-! The normal form that compaction ends in.

The rounds stop where no rule applies to a live block. The last pass, which strips returns, brings no
rule back, and every block of the output is live. So the rules can be read off the output: what each of
them would take away is not there. -/
namespace ScriptLift

namespace Tree

variable {tree old new : Tree} {extra : NodeId → NodeId → Prop} {routines : Routines}
  {settings : CompactSettings} {n : NodeId}

/-- Nothing is left over in the output. Labels are jumped to, what is assigned is read, what is
declared is used, and a deferred action is more than one call. No assignment can take over a
declaration, no temporary move into its use and no vector replace its recomposition; and no subroutine
without a result writes an argument that nothing reads. -/
structure Tidy (settings : CompactSettings) (routines : Routines) (tree : Tree) : Prop where
  label : ∀ block, tree.InOutput block → ∀ s ∈ tree.statements block, tree.kind s = .label →
    ∃ n, tree.InOutput n ∧ tree.node n = .goto s
  assignment : ∀ block, tree.InOutput block → ∀ s ∈ tree.statements block,
    ∀ slot value declares, tree.node s = .binary .assign slot value declares →
      tree.storage? slot = some .own → ∃ n, tree.InOutput n ∧ tree.reads n slot
  declaration : ∀ block, tree.InOutput block → ∀ s ∈ tree.statements block,
    tree.storage? s = some .own →
      ∃ n, tree.InOutput n ∧ (tree.reads n s ∨ tree.writes routines n s)
  action : ∀ n, tree.InOutput n → ∀ routine arguments, tree.node n = .action routine arguments →
    ∀ block ∈ arguments, ¬∃ call ret, tree.statements block = [call, ret] ∧
      (tree.kind call).isCall ∧ tree.isBareReturn ret
  merger : ∀ block, tree.InOutput block → ∀ s index, (tree.statements block)[index]? = some s →
    tree.storage? s = some .own ∨ tree.storage? s = some .result →
      ({ tree : Draft }.refresh routines).initializer? block s index = none
  temporary : settings.inlineTemporaries → ∀ block, tree.InOutput block →
    ∀ s index, (tree.statements block)[index]? = some s →
      ({ tree : Draft }.refresh routines).inliningAt? block s index = none
  vector : settings.inlineTemporaries → ∀ n, tree.InOutput n →
    ∀ operand ∈ (tree.node n).operands, tree.recomposed? operand.2 = none
  result : settings.recoverResults → ∀ sub ∈ tree.order, (tree.sub sub).result = .void →
    ∀ formal ∈ (tree.sub sub).formals,
      (∃ n, tree.InOutput n ∧ tree.writes routines n formal.slot) →
        ∃ n, tree.InOutput n ∧ tree.reads n formal.slot

theorem within_subset_subtreeTo (depth : Nat) (id : NodeId) :
    tree.within depth id ⊆ tree.subtreeTo false depth id := by
  induction depth generalizing id with
  | zero => exact List.Subset.refl _
  | succ depth ih =>
    intro n hn
    rcases List.mem_cons.1 hn with rfl | hn
    · exact List.mem_cons_self
    · obtain ⟨child, hchild, hn⟩ := List.mem_flatMap.1 hn
      refine List.mem_cons_of_mem _ (List.mem_flatMap.2 ⟨child, ?_, ih child hn⟩)
      obtain ⟨⟨role, operand⟩, hoperand, rfl⟩ := List.mem_map.1 (List.mem_filter.1 hchild).1
      rw [below_of_kind_ne_block (kind_ne_of_operand hoperand).2]
      exact List.mem_map.2 ⟨_, hoperand, rfl⟩

theorem WellFormed.walkable (h : tree.WellFormed)
    (hroot : ∀ sub ∈ tree.order, tree.IsBlock (tree.sub sub).root) : tree.Walkable where
  closed := ⟨fun _ _ hn => h.lt_of_below hn, fun sub hsub => (hroot sub hsub).lt⟩
  unnested _ _ hs := (h.statement hs).kind
  rooted sub hsub := (hroot sub hsub).kind

theorem Rewires.root_isBlock (h : Rewires old new extra)
    (hroot : ∀ sub ∈ old.order, old.IsBlock (old.sub sub).root) :
    ∀ sub ∈ new.order, new.IsBlock (new.sub sub).root := by
  intro sub hsub
  rw [h.order] at hsub
  have hblock := hroot sub hsub
  rw [h.root sub hsub]
  exact ⟨Nat.lt_of_lt_of_le hblock.lt h.kinds.size, by rw [h.kinds.kind _ hblock.lt, hblock.kind]⟩

theorem Trims.root_isBlock (h : Trims old new)
    (hroot : ∀ sub ∈ old.order, old.IsBlock (old.sub sub).root) :
    ∀ sub ∈ new.order, new.IsBlock (new.sub sub).root := by
  intro sub hsub
  have hblock := hroot sub (h.order ▸ hsub)
  rw [h.sub_eq]
  exact ⟨by rw [h.size]; exact hblock.lt, by rw [h.kind_eq]; exact hblock.kind⟩

end Tree

namespace Draft

variable {settings : CompactSettings} {routines : Routines} {draft next : Draft} {tree : Tree}
  {block n s : NodeId} {index : Nat}

theorem Change.root_isBlock (h : Change settings routines draft next) (hclosed : draft.tree.Closed)
    (hroot : ∀ sub ∈ draft.tree.order, draft.tree.IsBlock (draft.tree.sub sub).root) :
    ∀ sub ∈ next.tree.order, next.tree.IsBlock (next.tree.sub sub).root := by
  cases h with
  | queue => exact hroot
  | step h =>
    cases h with
    | @recover sub index formal =>
      exact (recovery_makeResult draft sub index formal).rewires.root_isBlock hroot
    | @rewrite block rewrite => exact (rewrite.rewires_apply block hclosed).root_isBlock hroot

theorem Changes.root_isBlock (h : Changes settings routines draft next)
    (hcurrent : draft.Current routines) (hproper : draft.Proper)
    (hroot : ∀ sub ∈ draft.tree.order, draft.tree.IsBlock (draft.tree.sub sub).root) :
    next.tree.WellFormed ∧ ∀ sub ∈ next.tree.order, next.tree.IsBlock (next.tree.sub sub).root := by
  obtain ⟨-, hnext, hroots⟩ := h.invariant (fun d => d.Proper ∧
    ∀ sub ∈ d.tree.order, d.tree.IsBlock (d.tree.sub sub).root) hcurrent ⟨hproper, hroot⟩
    fun a b ha hinv hchange => ⟨hchange.proper ha hinv.1,
      hchange.root_isBlock (hinv.1.tree.walkable hinv.2).closed hinv.2⟩
  exact ⟨hnext.tree, hroots⟩

/-- No rule applies, so none of them does. -/
structure Quiet (settings : CompactSettings) (draft : Draft) (block : NodeId) : Prop where
  declaration : ∀ s index, (draft.tree.statements block)[index]? = some s →
    draft.declarationAt? block s index = none
  action : ∀ s ∈ draft.tree.statements block, ∀ n ∈ draft.tree.subtree false s,
    draft.deferredCallAt? n = none
  temporary : settings.inlineTemporaries → ∀ s index,
    (draft.tree.statements block)[index]? = some s → draft.inliningAt? block s index = none
  vector : settings.inlineTemporaries → ∀ s ∈ draft.tree.statements block,
    ∀ n ∈ draft.tree.subtree false s, draft.vectorAt? n = none
  assignment : ∀ s ∈ draft.tree.statements block, ∀ slot value declares,
    draft.tree.node s = .binary .assign slot value declares →
      draft.tree.storage? slot = some .own → draft.facts.readsOf slot ≠ []
  label : ∀ s ∈ draft.tree.statements block, draft.tree.kind s = .label →
    draft.facts.gotosTo s ≠ []

theorem none_of_findSome?_zipIdx {statements : List NodeId} {f : NodeId × Nat → Option Rewrite}
    (h : statements.zipIdx.findSome? f = none) (hs : statements[index]? = some s) :
    f (s, index) = none :=
  List.findSome?_eq_none_iff.1 h _ (List.mk_mem_zipIdx_iff_getElem?.2 hs)

theorem quiet_of_rewrite? (h : draft.rewrite? block settings = none) :
    draft.Quiet settings block := by
  simp only [rewrite?, Option.orElse_eq_none] at h
  obtain ⟨hdeclaration, haction, -, hinline, hassignment, hlabel⟩ := h
  constructor
  case declaration => exact fun s index hs => none_of_findSome?_zipIdx hdeclaration hs
  case action =>
    intro s hs n hn
    exact List.findSome?_eq_none_iff.1 (List.findSome?_eq_none_iff.1 haction s hs) n hn
  case temporary =>
    intro hon s index hs
    rw [if_pos hon, Option.orElse_eq_none] at hinline
    exact Option.map_eq_none_iff.1 (none_of_findSome?_zipIdx hinline.1 hs)
  case vector =>
    intro hon s hs n hn
    rw [if_pos hon, Option.orElse_eq_none] at hinline
    exact List.findSome?_eq_none_iff.1 (List.findSome?_eq_none_iff.1 hinline.2 s hs) n hn
  case assignment =>
    intro s hs slot value declares hnode hstorage hunread
    obtain ⟨index, hindex⟩ := List.mem_iff_getElem?.1 hs
    have hrule := none_of_findSome?_zipIdx hassignment hindex
    simp [hnode, hstorage, hunread] at hrule
  case label =>
    intro s hs hkind hunused
    obtain ⟨index, hindex⟩ := List.mem_iff_getElem?.1 hs
    have hrule := none_of_findSome?_zipIdx hlabel hindex
    simp [hkind, hunused] at hrule

theorem onlyCall?_of_deferredCallAt? {routine : UInt16} {arguments : List NodeId}
    (h : draft.deferredCallAt? n = none) (hnode : draft.tree.node n = .action routine arguments)
    (hblock : block ∈ arguments) : draft.tree.onlyCall? block = none := by
  obtain ⟨index, hindex⟩ := List.mem_iff_getElem?.1 hblock
  rw [deferredCallAt?, hnode] at h
  exact Option.map_eq_none_iff.1 (none_of_findSome?_zipIdx h hindex)

theorem recomposed?_of_vectorAt? (h : draft.vectorAt? n = none) {operand : Role × NodeId}
    (hoperand : operand ∈ (draft.tree.node n).operands) :
    draft.tree.recomposed? operand.2 = none :=
  Option.map_eq_none_iff.1 (List.findSome?_eq_none_iff.1 h operand hoperand)

/-- Where nothing is to be rewritten, nothing is left over. -/
theorem Normal.tidy (h : ({ tree : Draft }.refresh routines).Normal settings)
    (htree : tree.Walkable) : tree.Tidy settings routines := by
  let fresh := { tree : Draft }.refresh routines
  have hquiet : ∀ block, tree.InOutput block → tree.kind block = .block →
      fresh.Quiet settings block := fun block hblock hkind =>
    quiet_of_rewrite? (h.blocks block (htree.isLive hblock hkind))
  have hstatement : ∀ {block s}, tree.InOutput block → s ∈ tree.statements block →
      fresh.Quiet settings block := fun hblock hs =>
    hquiet _ hblock (Tree.kind_of_statement hs)
  -- Every node with operands lies where the rules look for it.
  have hsearched : ∀ {n} {operand : Role × NodeId}, tree.InOutput n →
      operand ∈ (tree.node n).operands →
        ∃ block s, fresh.Quiet settings block ∧ s ∈ tree.statements block ∧
          n ∈ tree.subtree false s := by
    intro n operand hn hoperand
    obtain ⟨hslot, hblock⟩ := @Tree.kind_ne_of_operand _ _ operand.2 operand.1 hoperand
    obtain ⟨block, hvisited, hmem⟩ := (htree.met routines hn).mem_nodesOf hslot hblock
    obtain ⟨s, hs, hwithin⟩ := List.mem_flatMap.1 hmem
    exact ⟨block, s, hstatement (Tree.inOutput_of_visited hvisited) hs, hs,
      Tree.within_subset_subtreeTo _ _ hwithin⟩
  constructor
  case label =>
    intro block hblock s hs hkind
    have hused := (hstatement hblock hs).label s hs hkind
    exact not_not.1 fun hnone => hused (htree.gotosTo_eq_nil.2 hnone)
  case assignment =>
    intro block hblock s hs slot value declares hnode hstorage
    have hread := (hstatement hblock hs).assignment s hs slot value declares hnode hstorage
    exact not_not.1 fun hnone => hread (htree.readsOf_eq_nil.2 hnone)
  case declaration =>
    intro block hblock s hs hstorage
    obtain ⟨index, hindex⟩ := List.mem_iff_getElem?.1 hs
    have hrule := (hstatement hblock hs).declaration s index hindex
    have hown : fresh.tree.storage? s = some .own := hstorage
    by_contra hnone
    have hreads : fresh.facts.readsOf s = [] :=
      htree.readsOf_eq_nil.2 fun ⟨n, hn, hreads⟩ => hnone ⟨n, hn, .inl hreads⟩
    have hwrites : fresh.facts.writesOf s = [] :=
      htree.writesOf_eq_nil.2 fun ⟨n, hn, hwrites⟩ => hnone ⟨n, hn, .inr hwrites⟩
    simp [declarationAt?, hown, hreads, hwrites] at hrule
  case action =>
    rintro n hn routine arguments hnode block hblock ⟨call, ret, hstatements, hcall, hret⟩
    obtain ⟨index, hindex⟩ := List.mem_iff_getElem?.1 hblock
    obtain ⟨outer, s, houter, hs, hfound⟩ := hsearched hn (mem_operands_of_argument hnode hindex)
    have hnone := onlyCall?_of_deferredCallAt? (houter.action s hs n hfound) hnode hblock
    have hsome : tree.onlyCall? block = some call := by simp [Tree.onlyCall?, hstatements, hcall, hret]
    cases hsome.symm.trans hnone
  case merger =>
    intro block hblock s index hs hstorage
    have hrule := (hstatement hblock (List.mem_of_getElem? hs)).declaration s index hs
    unfold declarationAt? at hrule
    rcases hstorage with hown | hresult
    · have hown : fresh.tree.storage? s = some .own := hown
      rw [hown] at hrule
      dsimp only at hrule
      split at hrule
      · cases hrule
      · exact Option.map_eq_none_iff.1 hrule
    · have hresult : fresh.tree.storage? s = some .result := hresult
      rw [hresult] at hrule
      exact Option.map_eq_none_iff.1 hrule
  case temporary =>
    intro hon block hblock s index hs
    exact (hstatement hblock (List.mem_of_getElem? hs)).temporary hon s index hs
  case vector =>
    intro hon n hn operand hoperand
    obtain ⟨outer, s, houter, hs, hfound⟩ := hsearched hn hoperand
    exact recomposed?_of_vectorAt? (houter.vector hon s hs n hfound) hoperand
  case result =>
    rintro hon sub hsub hvoid formal hformal ⟨n, hn, hwrites⟩
    have hindex := h.results hon sub hsub
    unfold resultIndex? at hindex
    have hvoid' : (fresh.tree.sub sub).result = .void := hvoid
    rw [if_pos hvoid', List.findIdx?_eq_none_iff] at hindex
    have hkeeps := hindex formal hformal
    by_contra hnone
    have hreads : fresh.facts.readsOf formal.slot = [] := htree.readsOf_eq_nil.2 hnone
    have hwritten : fresh.facts.writesOf formal.slot ≠ [] :=
      fun hnil => htree.writesOf_eq_nil.1 hnil ⟨n, hn, hwrites⟩
    simp [fresh, hreads, hwritten] at hkeeps

end Draft

/-- Compaction ends in the normal form: no rule applies to a block of the output, so nothing that a rule
would take away is left in it. -/
theorem compacted_tidy {program : Program} {routines : Routines} {lifting : LiftSettings}
    {settings : CompactSettings} {tree : Tree} (hlift : lift program routines lifting = some (.ok tree))
    (henabled : settings.enabled) :
    let once := ((Optimizer.dataFlow routines settings).run tree).1
    (∀ block, once.InOutput block → once.kind block = .block →
      ({ tree := once : Draft }.refresh routines).rewrite? block settings = none) ∧
    once.Tidy settings routines := by
  intro once
  have hformed := lift_wellFormed hlift
  have hroots : ∀ sub ∈ tree.order, tree.IsBlock (tree.sub sub).root :=
    fun sub hsub => lift_root_isBlock hlift hsub
  obtain ⟨hcurrent, hproper, hnormal⟩ := Draft.settled_normal settings routines hformed
  obtain ⟨htrims, -⟩ := Tree.stripReturns_spec hproper.tree
  have honce : once = (Draft.settled settings routines tree).tree.stripReturns.1 := by
    simp only [once, Optimizer.dataFlow, henabled, if_true]
    exact Draft.compact_tree tree
  rw [← honce] at htrims
  -- The facts of the output are taken afresh; the last pass brings no rule back.
  have hnext : Draft.Trims routines (Draft.settled settings routines tree)
      ({ tree := once : Draft }.refresh routines) :=
    ⟨htrims, hcurrent, Draft.current_refresh _ _, Facts.destinations_analyze⟩
  have hafresh := hnext.normal hproper.tree hnormal
  have hwalkable : once.Walkable := by
    obtain ⟨hstart, hprepared⟩ := Draft.prepare_proper settings routines hformed
    obtain ⟨hexprs, hsubs, horder⟩ := Draft.prepare_tree settings routines tree
    obtain ⟨hsettled, hblocks⟩ := (Draft.changes_settled settings routines tree).root_isBlock hstart
      hprepared fun sub hsub => by
        have hblock := hroots sub (horder hsub)
        rw [Tree.sub, hsubs, Tree.size, hexprs]
        exact hblock.mono (.of_exprs_eq hexprs)
    exact (htrims.wellFormed hsettled).walkable (htrims.root_isBlock hblocks)
  exact ⟨fun block hblock hkind => hafresh.blocks block (hwalkable.isLive hblock hkind),
    hafresh.tidy hwalkable⟩

/-- A script with a global, a temporary and two returns, all of which compaction takes up. -/
theorem compacted_tidy_copyScript : ∃ tree,
    lift (copyScript { opcode := .action, routine := 1, arity := 1 }) showRoutines .strictly =
      some (.ok tree) ∧ tree.Acyclic ∧ ({} : CompactSettings).enabled ∧
    ((Optimizer.dataFlow showRoutines {}).run tree).2 = true ∧
    (∀ block, ((Optimizer.dataFlow showRoutines {}).run tree).1.InOutput block →
      ((Optimizer.dataFlow showRoutines {}).run tree).1.kind block = .block →
      ({ tree := ((Optimizer.dataFlow showRoutines {}).run tree).1 : Draft }.refresh
        showRoutines).rewrite? block {} = none) ∧
    ((Optimizer.dataFlow showRoutines {}).run tree).1.Tidy {} showRoutines := by
  obtain ⟨tree, hlift, hcond⟩ := exists_of_lift
    (copyScript { opcode := .action, routine := 1, arity := 1 }) showRoutines .strictly
    (fun tree => tree.isLayered ∧ ((Optimizer.dataFlow showRoutines {}).run tree).2)
    (by decide +kernel)
  rw [decide_eq_true_eq] at hcond
  exact ⟨tree, hlift, Tree.acyclic_of_isLayered hcond.1, rfl, hcond.2, compacted_tidy hlift rfl⟩

end ScriptLift
