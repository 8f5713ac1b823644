import ScriptLift.Proofs.Compact.NormalForm

namespace ScriptLift

namespace Tree

/-- The node is part of the subroutine that initializes the globals. -/
def Initializing (tree : Tree) (n : NodeId) : Prop :=
  ∃ sub ∈ tree.order, tree.nameOf sub = globalsName ∧ n ∈ tree.body sub

instance (tree : Tree) (n : NodeId) : Decidable (tree.Initializing n) :=
  inferInstanceAs (Decidable (∃ sub ∈ tree.order, _))

theorem Initializing.inOutput {tree : Tree} {n : NodeId} (h : tree.Initializing n) :
    tree.InOutput n := by
  obtain ⟨sub, hsub, -, hn⟩ := h
  exact ⟨sub, hsub, holds_of_mem_subtree hn⟩

end Tree

theorem lift_global_value {program : Program} {routines : Routines} {settings : LiftSettings}
    {tree : Tree} (h : lift program routines settings = some (.ok tree)) :
    ∀ global ∈ tree.globals, global.value = none := by
  obtain ⟨lifted, -, rfl⟩ := lift_eq_ok h
  intro global hglobal
  have hcollected : global ∈ (Lift.collectGlobals lifted).globals :=
    Lift.globals_complete lifted ▸ hglobal
  obtain ⟨slot, -, rfl⟩ := List.mem_map.1 hcollected
  rfl

namespace Draft

variable {settings : CompactSettings} {routines : Routines} {draft next : Draft}

/-- The draft in which globals are folded: without the start, with the facts of all else. -/
def started (routines : Routines) (tree : Tree) : Draft :=
  ({ tree : Draft }.dropSub startName).1.refresh routines

theorem globals_dropSub (draft : Draft) (name : String) :
    (draft.dropSub name).1.tree.globals = draft.tree.globals := by
  unfold dropSub
  split <;> rfl

theorem globals_takeArgument (index : Nat) (draft : Draft) (call : NodeId) :
    (takeArgument index draft call).tree.globals = draft.tree.globals := by
  unfold takeArgument
  split
  · split <;> rfl
  · rfl

theorem Recovery.globals {sub : SubId} {index count : Nat} {formal : Formal}
    (h : Recovery sub index formal count draft next) : next.tree.globals = draft.tree.globals := by
  induction h with
  | refl | subroutine | slot | declare | answer => rfl
  | trans _ _ ihh ihg => exact ihg.trans ihh
  | take draft call => exact globals_takeArgument index draft call

theorem Change.globals (h : Change settings routines draft next) :
    next.tree.globals = draft.tree.globals := by
  cases h with
  | queue => rfl
  | step h =>
    cases h with
    | @recover sub index formal => exact (recovery_makeResult draft sub index formal).globals
    | @rewrite block rewrite => cases rewrite <;> rfl

theorem Changes.globals (h : Changes settings routines draft next) :
    next.tree.globals = draft.tree.globals := by
  induction h with
  | refl => rfl
  | tail _ hchange ih => exact hchange.globals.trans ih

theorem globals_prepare (settings : CompactSettings) (routines : Routines) (tree : Tree) :
    (prepare settings routines tree).tree.globals =
      if settings.foldGlobals then
        (tree.globals.map (started routines tree).foldGlobal).filter (started routines tree).isRead
      else tree.globals := by
  have hglobals : (started routines tree).tree.globals = tree.globals := globals_dropSub _ _
  unfold prepare
  dsimp only
  split
  · rw [← hglobals]
    simp only [foldGlobals]
    split <;> exact globals_dropSub _ _
  · exact hglobals

theorem exists_write_of_foldGlobal {global : Global} {value : Literal}
    (hnone : global.value = none) (hvalue : (draft.foldGlobal global).value = some value) :
    (draft.foldGlobal global).slot = global.slot ∧
      draft.facts.evaluate draft.tree global.slot = .ok value ∧
      ∃ write, draft.facts.writesOf global.slot = [write] := by
  unfold foldGlobal at hvalue ⊢
  split at hvalue
  case isFalse => simp [hnone] at hvalue
  case isTrue hcond =>
  rw [if_pos hcond]
  cases hevaluate : draft.facts.evaluate draft.tree global.slot with
  | error cause => simp [hevaluate, hnone] at hvalue
  | ok literal =>
    rw [hevaluate] at hvalue
    cases hvalue
    exact ⟨rfl, rfl, List.length_eq_one_iff.1 hcond.2⟩

theorem started_walkable {tree : Tree} (routines : Routines) (h : tree.Walkable) :
    (started routines tree).tree.Walkable := by
  have hexprs : (started routines tree).tree.exprs = tree.exprs := exprs_dropSub _ _
  have hsubs : (started routines tree).tree.subroutines = tree.subroutines := subroutines_dropSub _ _
  have horder : (started routines tree).tree.order ⊆ tree.order := order_dropSub_subset _ _
  refine ⟨h.closed.shrink hexprs hsubs horder, h.unnested.of_exprs_eq hexprs, fun sub hsub => ?_⟩
  rw [Tree.kind, Tree.node_of_exprs_eq hexprs, Tree.sub, hsubs, Tree.size, hexprs]
  exact h.rooted sub (horder hsub)

theorem initializing_iff {tree : Tree} (htree : tree.Walkable) (facts : Facts) {slot : NodeId}
    {write : Write} (hwrite : (facts.analyze tree routines).writesOf slot = [write]) :
    tree.Initializing write.node ↔ ∃ n, tree.Initializing n ∧ tree.writes routines n slot := by
  constructor
  · intro hinit
    have hmem : write ∈ (facts.analyze tree routines).writesOf slot := by simp [hwrite]
    exact ⟨write.node, hinit, (Tree.inOutput_of_write hmem).2⟩
  · rintro ⟨n, hinit, hwrites⟩
    obtain ⟨w, hw, rfl⟩ := Facts.exists_mem_writesOf_analyze facts
      (htree.met routines hinit.inOutput) hwrites
    rw [hwrite, List.mem_singleton] at hw
    exact hw ▸ hinit

end Draft

/-- A global that comes out of compaction with a value is assigned once in all the subroutines behind
the start, the value is that of the assignment, and the assignment is part of the initializer exactly
if the initializer assigns the global. -/
theorem folded_global_initializing_iff {program : Program} {routines : Routines}
    {lifting : LiftSettings} {settings : CompactSettings} {tree : Tree}
    (hlift : lift program routines lifting = some (.ok tree)) :
    let once := ((Optimizer.dataFlow routines settings).run tree).1
    let started := Draft.started routines tree
    ∀ global ∈ once.globals, ∀ value, global.value = some value →
      ∃ write, started.facts.writesOf global.slot = [write] ∧
        started.facts.evaluate started.tree global.slot = .ok value ∧
        (started.tree.Initializing write.node ↔
          ∃ n, started.tree.Initializing n ∧ started.tree.writes routines n global.slot) := by
  intro once started global hglobal value hvalue
  have hnone := lift_global_value hlift
  -- Without folding the globals stay as they are, and none has a value.
  have hfolded : global ∈ tree.globals.map started.foldGlobal := by
    have honce : once.globals = tree.globals ∨
        once.globals = (tree.globals.map started.foldGlobal).filter started.isRead := by
      by_cases henabled : settings.enabled
      · have hproper := (Draft.settled_normal settings routines (lift_wellFormed hlift)).2.1
        have htrims := (Tree.stripReturns_spec hproper.tree).1
        have hrun : once = (Draft.settled settings routines tree).tree.stripReturns.1 := by
          simp only [once, Optimizer.dataFlow, henabled, if_true]
          exact Draft.compact_tree tree
        rw [hrun, htrims.globals, (Draft.changes_settled settings routines tree).globals,
          Draft.globals_prepare]
        split
        · exact .inr rfl
        · exact .inl rfl
      · exact .inl (by simp [once, Optimizer.dataFlow, henabled])
    rcases honce with heq | heq
    · rw [heq] at hglobal
      cases (hnone global hglobal).symm.trans hvalue
    · rw [heq] at hglobal
      exact (List.mem_filter.1 hglobal).1
  obtain ⟨raw, hraw, rfl⟩ := List.mem_map.1 hfolded
  obtain ⟨hslot, hevaluate, write, hwrite⟩ :=
    Draft.exists_write_of_foldGlobal (hnone raw hraw) hvalue
  rw [hslot]
  exact ⟨write, hwrite, hevaluate,
    Draft.initializing_iff (Draft.started_walkable routines (lift_walkable hlift)) _ hwrite⟩

/-- The initializer gives the global its value before the script prints it. -/
theorem folded_global_copyScript : ∃ tree global write,
    lift (copyScript { opcode := .action, routine := 1, arity := 1 }) showRoutines .strictly =
      some (.ok tree) ∧
    global ∈ ((Optimizer.dataFlow showRoutines {}).run tree).1.globals ∧
    global.value = some (.int 5) ∧
    (Draft.started showRoutines tree).facts.writesOf global.slot = [write] ∧
    (Draft.started showRoutines tree).tree.Initializing write.node := by
  obtain ⟨tree, hlift, hcond⟩ := exists_of_lift
    (copyScript { opcode := .action, routine := 1, arity := 1 }) showRoutines .strictly
    (fun tree => decide (∃ global ∈ ((Optimizer.dataFlow showRoutines {}).run tree).1.globals,
      global.value = some (.int 5) ∧ ∃ i < tree.size,
        (Draft.started showRoutines tree).tree.Initializing ⟨i⟩ ∧
          (Draft.started showRoutines tree).tree.writes showRoutines ⟨i⟩ global.slot))
    (by decide +kernel)
  obtain ⟨global, hglobal, hvalue, i, -, hinit⟩ := of_decide_eq_true hcond
  obtain ⟨write, hwrite, -, hiff⟩ := folded_global_initializing_iff hlift global hglobal _ hvalue
  exact ⟨tree, global, write, hlift, hglobal, hvalue, hwrite, hiff.2 ⟨_, hinit⟩⟩

/-- A script whose main subroutine prints a global and only then assigns it. -/
def lateScript : Program := .ofList "" [
  { opcode := .jsr, jump := 8 },
  { opcode := .retn },
  { opcode := .rsaddi },
  { opcode := .savebp },
  { opcode := .jsr, jump := 16 },
  { opcode := .restorebp },
  { opcode := .movsp, stack := -4 },
  { opcode := .retn },
  { opcode := .cptopbp, stack := -4, size := 4 },
  { opcode := .action, routine := 1, arity := 1 },
  { opcode := .consti, value := some (.int 7) },
  { opcode := .cpdownbp, stack := -4, size := 4 },
  { opcode := .movsp, stack := -4 },
  { opcode := .retn }
]

/-- It comes out as if the global had the value from the start. -/
theorem not_forall_folded_global_initializing : ¬∀ (program : Program) (routines : Routines)
    (lifting : LiftSettings) (settings : CompactSettings) (tree : Tree),
    lift program routines lifting = some (.ok tree) →
      ∀ global ∈ ((Optimizer.dataFlow routines settings).run tree).1.globals,
        global.value ≠ none → ∀ write ∈ (Draft.started routines tree).facts.writesOf global.slot,
          (Draft.started routines tree).tree.Initializing write.node := by
  intro h
  obtain ⟨tree, hlift, hcond⟩ := exists_of_lift lateScript showRoutines .strictly
    (fun tree => decide (∃ global ∈ ((Optimizer.dataFlow showRoutines {}).run tree).1.globals,
      global.value ≠ none ∧ ∃ write ∈ (Draft.started showRoutines tree).facts.writesOf global.slot,
        ¬(Draft.started showRoutines tree).tree.Initializing write.node))
    (by decide +kernel)
  obtain ⟨global, hglobal, hvalue, write, hwrite, hinit⟩ := of_decide_eq_true hcond
  exact hinit (h _ _ _ _ tree hlift global hglobal hvalue write hwrite)

end ScriptLift
