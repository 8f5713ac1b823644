import ScriptLift.Proofs.Compact.Returns
import ScriptLift.Proofs.Lift.Names

namespace ScriptLift

namespace Tree

variable {tree new : Tree} {name : String}

def Lacks (tree : Tree) (name : String) : Prop := ∀ sub ∈ tree.order, tree.nameOf sub ≠ name

theorem subNamed?_eq_none_iff : tree.subNamed? name = none ↔ tree.Lacks name := by
  simp [subNamed?, Lacks, nameOf]

theorem Lacks.of_subset (h : tree.Lacks name) (horder : new.order ⊆ tree.order)
    (hname : ∀ sub, new.nameOf sub = name → tree.nameOf sub = name) : new.Lacks name :=
  fun sub hsub heq => h sub (horder hsub) (hname sub heq)

end Tree

namespace Draft

variable {settings : CompactSettings} {routines : Routines} {draft next : Draft} {name : String}

theorem subroutines_dropSub (draft : Draft) (name : String) :
    (draft.dropSub name).1.tree.subroutines = draft.tree.subroutines := by
  unfold dropSub
  split <;> rfl

theorem order_dropSub_subset (draft : Draft) (name : String) :
    (draft.dropSub name).1.tree.order ⊆ draft.tree.order := by
  unfold dropSub
  split
  · exact List.filter_subset_self _
  · exact List.Subset.refl _

theorem lacks_dropSub (h : draft.tree.Unique name) : (draft.dropSub name).1.tree.Lacks name := by
  cases hfound : draft.tree.subNamed? name with
  | none =>
    rw [dropSub_eq_self hfound]
    exact Tree.subNamed?_eq_none_iff.1 hfound
  | some sub =>
    obtain ⟨only, honly⟩ := h
    have hsub : draft.tree.nameOf sub = name := by
      simpa [Tree.nameOf] using List.find?_some hfound
    intro other hother heq
    rw [dropSub, hfound] at hother heq
    have hne := (List.mem_filter.1 hother).2
    rw [decide_eq_true_eq] at hne
    have heq' : draft.tree.nameOf other = name := (Tree.nameOf_of_subroutines_eq rfl).symm.trans heq
    exact hne ((honly other heq').trans (honly sub hsub).symm)

theorem lacks_dropSub_of_lacks (h : draft.tree.Lacks name) (other : String) :
    (draft.dropSub other).1.tree.Lacks name :=
  h.of_subset (order_dropSub_subset draft other) fun _ hsub =>
    (Tree.nameOf_of_subroutines_eq (subroutines_dropSub draft other)).symm.trans hsub

theorem foldGlobals_tree (routines : Routines) (draft : Draft) :
    ∃ globals, (draft.foldGlobals routines).1.tree =
      ({ draft with tree := { draft.tree with globals } }.dropSub globalsName).1.tree := by
  refine ⟨(draft.tree.globals.map draft.foldGlobal).filter draft.isRead, ?_⟩
  simp only [foldGlobals]
  split <;> rfl

theorem foldGlobals_lacks (routines : Routines) {draft : Draft}
    (hstart : draft.tree.Lacks startName) (hglobals : draft.tree.Unique globalsName) :
    (draft.foldGlobals routines).1.tree.Lacks startName ∧
      (draft.foldGlobals routines).1.tree.Lacks globalsName := by
  obtain ⟨globals, htree⟩ := foldGlobals_tree routines draft
  let folded : Draft := { draft with tree := { draft.tree with globals } }
  have hfolded : folded.tree.Lacks startName := hstart.of_subset (List.Subset.refl _) fun _ h => h
  rw [htree]
  exact ⟨lacks_dropSub_of_lacks hfolded globalsName, lacks_dropSub (hglobals.of_subroutines_eq rfl)⟩

theorem prepare_lacks (settings : CompactSettings) (routines : Routines) {tree : Tree}
    (hstart : tree.Unique startName) (hglobals : tree.Unique globalsName) :
    (prepare settings routines tree).tree.Lacks startName ∧
      (settings.foldGlobals → (prepare settings routines tree).tree.Lacks globalsName) := by
  have hlacks : ({ tree : Draft }.dropSub startName).1.tree.Lacks startName := lacks_dropSub hstart
  have hunique := hglobals.of_subroutines_eq (subroutines_dropSub { tree } startName)
  unfold prepare
  dsimp only
  split
  · have hstarted : (({ tree : Draft }.dropSub startName).1.refresh routines).tree.Lacks startName :=
      hlacks
    obtain ⟨hfirst, hsecond⟩ := foldGlobals_lacks routines hstarted hunique
    exact ⟨hfirst, fun _ => hsecond⟩
  · next hoff => exact ⟨hlacks, fun hon => absurd hon hoff⟩

/-- Only the name of the main subroutine changes in the rounds. -/
theorem Change.lacks (h : Change settings routines draft next) (hname : Lift.Placed name)
    (hlacks : draft.tree.Lacks name) : next.tree.Lacks name := by
  cases h with
  | queue => exact hlacks
  | step hstep =>
    cases hstep with
    | @recover sub index formal =>
      have hedits := edits_makeResult draft sub index formal
      refine hlacks.of_subset (fun s hs => hedits.order ▸ hs) fun other heq => ?_
      have hother := (Tree.nameOf_of_subroutines_eq hedits.subroutines).symm.trans heq
      rcases Tree.nameOf_modifySub draft.tree sub (answering index formal) other
        with hsame | ⟨rfl, hnamed⟩
      · exact hsame ▸ hother
      · rw [hnamed, answering] at hother
        dsimp only at hother
        split at hother
        · exact absurd hother.symm hname.ne.2.2
        · exact hother
    | @rewrite block rewrite =>
      refine hlacks.of_subset (fun s hs => ?_) fun other heq => ?_
      · have horder : (rewrite.apply block draft).tree.order = draft.tree.order := by
          cases rewrite <;> rfl
        exact horder ▸ hs
      · exact (Tree.nameOf_of_subroutines_eq (subroutines_apply rewrite)).symm.trans heq

theorem Changes.lacks (h : Changes settings routines draft next) (hname : Lift.Placed name)
    (hlacks : draft.tree.Lacks name) : next.tree.Lacks name := by
  induction h with
  | refl => exact hlacks
  | tail _ hchange ih => exact hchange.lacks hname ih

def settled (settings : CompactSettings) (routines : Routines) (tree : Tree) : Draft :=
  ((prepare settings routines tree).settle settings routines).1

theorem changes_settled (settings : CompactSettings) (routines : Routines) (tree : Tree) :
    Changes settings routines (prepare settings routines tree) (settled settings routines tree) :=
  (runs_settle _ _).changes

theorem compact_tree (tree : Tree) : (Draft.compact settings routines { tree }).1.tree =
    (settled settings routines tree).tree.stripReturns.1 := by
  unfold Draft.compact settled prepare
  dsimp only
  cases settings.foldGlobals <;> rfl

theorem destinations_prepare (tree : Tree) :
    (prepare settings routines tree).facts.destinations = [] := by
  have hstarted : (({ tree : Draft }.dropSub startName).1.refresh routines).facts.destinations = [] := by
    rw [refresh, Facts.destinations_analyze, facts_dropSub]
  unfold prepare
  dsimp only
  split
  · rw [destinations_foldGlobals, hstarted]
  · exact hstarted

theorem settled_normal (settings : CompactSettings) (routines : Routines) {tree : Tree}
    (h : tree.WellFormed) :
    (settled settings routines tree).Current routines ∧ (settled settings routines tree).Proper ∧
      (settled settings routines tree).Normal settings := by
  obtain ⟨hcurrent, hproper⟩ := prepare_proper settings routines h
  obtain ⟨hcurrent', hproper'⟩ := (changes_settled settings routines tree).proper hcurrent hproper
  exact ⟨hcurrent', hproper',
    settleWithin_normal (measure_lt_bound (destinations_prepare tree)) hcurrent hproper⟩

theorem prepare_endsInTime_of_wellFormed (settings : CompactSettings) (routines : Routines) {tree : Tree}
    (h : tree.WellFormed) : (prepare settings routines tree).EndsInTime settings routines := by
  obtain ⟨hcurrent, hproper⟩ := prepare_proper settings routines h
  obtain ⟨count, hcount, hends⟩ := (lowers_measure settings routines).exists_ends hcurrent hproper
  exact ⟨count, Nat.lt_of_le_of_lt hcount (measure_lt_bound (destinations_prepare tree)), hends⟩

theorem settled_lacks (settings : CompactSettings) (routines : Routines) {tree : Tree}
    (hstart : tree.Unique startName) (hglobals : tree.Unique globalsName) :
    (settled settings routines tree).tree.Lacks startName ∧
      (settings.foldGlobals → (settled settings routines tree).tree.Lacks globalsName) := by
  obtain ⟨hfirst, hsecond⟩ := prepare_lacks settings routines hstart hglobals
  have hchanges := changes_settled settings routines tree
  exact ⟨hchanges.lacks (.inl rfl) hfirst, fun hon => hchanges.lacks (.inr rfl) (hsecond hon)⟩

/-- Once the names by place are gone, the rounds have nothing to do and no return is left, compaction
comes down to folding the globals. -/
theorem compact_eq_self_iff {tree : Tree} (hstart : tree.Lacks startName)
    (hglobals : settings.foldGlobals → tree.Lacks globalsName)
    (hnormal : ({ tree : Draft }.refresh routines).Normal settings)
    (hstripped : tree.stripReturns = (tree, false)) :
    ((Draft.compact settings routines { tree }).1.tree,
        (Draft.compact settings routines { tree }).2) = (tree, false) ↔
      (settings.foldGlobals → ({ tree : Draft }.refresh routines).GlobalsFolded) := by
  have hdrop : ({ tree : Draft }).dropSub startName = ({ tree }, false) :=
    dropSub_eq_self (Tree.subNamed?_eq_none_iff.2 hstart)
  obtain ⟨worklist, hsettle⟩ := hnormal.settle (current_refresh routines { tree })
  have hresult : (({ tree : Draft }.refresh routines).queue worklist).tree.stripReturns =
    (tree, false) := hstripped
  unfold Draft.compact
  rw [hdrop]
  dsimp only
  split
  case isTrue hon =>
    have hnamed := Tree.subNamed?_eq_none_iff.2 (hglobals hon)
    constructor
    · intro heq _
      have hquiet := congrArg Prod.snd heq
      simp only [Bool.false_or, Bool.or_eq_false_iff] at hquiet
      exact (globalsFolded_of_foldGlobals hquiet.1.1).1
    · intro hfolded
      rw [foldGlobals_eq_self (hfolded hon) hnamed]
      dsimp only
      rw [hsettle]
      dsimp only
      rw [hresult]
      rfl
  case isFalse hoff =>
    rw [hsettle]
    dsimp only
    rw [hresult]
    simp [hoff]

theorem foldGlobal_eq_self_iff (draft : Draft) (global : Global) :
    draft.foldGlobal global = global ↔ (global.value = none →
      (draft.facts.writesOf global.slot).length = 1 →
        ¬(draft.facts.evaluate draft.tree global.slot).isOk) := by
  unfold foldGlobal
  split
  · next hcond =>
    cases hevaluate : draft.facts.evaluate draft.tree global.slot with
    | ok value =>
      refine iff_of_false (fun heq => ?_) fun h => h hcond.1 hcond.2 rfl
      rw [← heq] at hcond
      cases hcond.1
    | error cause => exact iff_of_true rfl fun _ _ => Bool.false_ne_true
  · next hcond => exact iff_of_true rfl fun hnone hone => absurd ⟨hnone, hone⟩ hcond

end Draft

/-- The output reads every global, and knows what each starts with that it assigns once, if that comes
to a literal. -/
def Tree.GlobalsSettled (routines : Routines) (tree : Tree) : Prop :=
  ∀ global ∈ tree.globals,
    (({} : Facts).analyze tree routines).readsOf global.slot ≠ [] ∧
      (global.value = none → ((({} : Facts).analyze tree routines).writesOf global.slot).length = 1 →
        ¬((({} : Facts).analyze tree routines).evaluate tree global.slot).isOk)

instance (routines : Routines) (tree : Tree) : Decidable (tree.GlobalsSettled routines) :=
  inferInstanceAs (Decidable (∀ global ∈ tree.globals, _ ∧ (_ → _ → ¬_)))

theorem Tree.globalsSettled_iff {routines : Routines} {tree : Tree} :
    ({ tree : Draft }.refresh routines).GlobalsFolded ↔ tree.GlobalsSettled routines := by
  refine forall₂_congr fun global _ => and_congr ?_ (Draft.foldGlobal_eq_self_iff _ _)
  exact decide_eq_true_iff

/-- Compacting the output once more leaves it as it is and reports no change, exactly if folding is off
or the globals of the output are settled. -/
theorem compact_twice_eq_iff {program : Program} {routines : Routines} {lifting : LiftSettings}
    {settings : CompactSettings} {tree : Tree} (hlift : lift program routines lifting = some (.ok tree))
    (henabled : settings.enabled) :
    let once := ((Optimizer.dataFlow routines settings).run tree).1
    (Optimizer.dataFlow routines settings).run once = (once, false) ↔
      (settings.foldGlobals → once.GlobalsSettled routines) := by
  intro once
  obtain ⟨hcurrent, hproper, hnormal⟩ := Draft.settled_normal settings routines
    (lift_wellFormed hlift)
  obtain ⟨hstart, hglobals⟩ := Draft.settled_lacks settings routines
    (lift_unique hlift (.inl rfl)) (lift_unique hlift (.inr rfl))
  obtain ⟨htrims, hstripped⟩ := Tree.stripReturns_spec hproper.tree
  have honce : once = (Draft.settled settings routines tree).tree.stripReturns.1 := by
    simp only [once, Optimizer.dataFlow, henabled, if_true]
    exact Draft.compact_tree tree
  rw [← honce] at htrims hstripped
  have hkeeps : ∀ {name}, (Draft.settled settings routines tree).tree.Lacks name → once.Lacks name :=
    fun hlacks => hlacks.of_subset (fun sub hsub => htrims.order ▸ hsub) fun sub hsub =>
      (Tree.nameOf_of_subroutines_eq htrims.subroutines).symm.trans hsub
  have hnext : Draft.Trims routines (Draft.settled settings routines tree)
      ({ tree := once : Draft }.refresh routines) :=
    ⟨htrims, hcurrent, Draft.current_refresh _ _, Facts.destinations_analyze⟩
  have hagain := Draft.compact_eq_self_iff (hkeeps hstart)
    (fun hon => hkeeps (hglobals hon)) (hnext.normal hproper.tree hnormal)
    (Tree.stripReturns_eq_self fun sub hsub => hstripped sub (htrims.order ▸ hsub))
  rw [← Tree.globalsSettled_iff, ← hagain]
  simp only [Optimizer.dataFlow, henabled, if_true]

/-- A script that gives a global its value and copies it for some use. -/
def copyScript (use : Instruction) : Program := .ofList "" [
  { opcode := .jsr, jump := 8 },
  { opcode := .retn },
  { opcode := .rsaddi },
  { opcode := .consti, value := some (.int 5) },
  { opcode := .cpdownsp, stack := -8, size := 4 },
  { opcode := .movsp, stack := -4 },
  { opcode := .savebp },
  { opcode := .jsr, jump := 16 },
  { opcode := .restorebp },
  { opcode := .movsp, stack := -4 },
  { opcode := .retn },
  { opcode := .cptopbp, stack := -4, size := 4 },
  use,
  { opcode := .retn }
]

def showRoutines : Routines := { table := [(1, ⟨"PrintInteger", .void, [⟨.int, false⟩]⟩)] }

/-- Where the copy is printed, the global stays in the output with its value. -/
theorem compact_twice_eq_copyScript : ∃ tree,
    lift (copyScript { opcode := .action, routine := 1, arity := 1 }) showRoutines .strictly =
      some (.ok tree) ∧
    ((Optimizer.dataFlow showRoutines {}).run tree).2 = true ∧
    ((Optimizer.dataFlow showRoutines {}).run tree).1.globals ≠ [] ∧
    (Optimizer.dataFlow showRoutines {}).run ((Optimizer.dataFlow showRoutines {}).run tree).1 =
      (((Optimizer.dataFlow showRoutines {}).run tree).1, false) := by
  obtain ⟨tree, hlift, hcond⟩ := exists_of_lift
    (copyScript { opcode := .action, routine := 1, arity := 1 }) showRoutines .strictly
    (fun tree => ((Optimizer.dataFlow showRoutines {}).run tree).2 ∧
      ((Optimizer.dataFlow showRoutines {}).run tree).1.globals ≠ [] ∧
      ((Optimizer.dataFlow showRoutines {}).run tree).1.GlobalsSettled showRoutines)
    (by decide +kernel)
  rw [decide_eq_true_eq] at hcond
  exact ⟨tree, hlift, hcond.1, hcond.2.1,
    (compact_twice_eq_iff hlift rfl).2 fun _ => hcond.2.2⟩

namespace Tree

/-- Nodes can be ranked so that each stands above all that it holds. -/
def Acyclic (tree : Tree) : Prop :=
  ∃ rank : NodeId → Nat, ∀ id, ∀ child ∈ tree.below true id, rank child < rank id

/-- How many levels lie below a node, counted down to `depth`. -/
def height (tree : Tree) : Nat → NodeId → Nat
  | 0, _ => 0
  | depth + 1, id => ((tree.below true id).map fun child => tree.height depth child + 1).foldl max 0

def isLayered (tree : Tree) : Bool :=
  (List.range tree.size).all fun i => (tree.below true ⟨i⟩).all fun child =>
    tree.height tree.size child < tree.height tree.size ⟨i⟩

theorem acyclic_of_isLayered {tree : Tree} (h : tree.isLayered) : tree.Acyclic := by
  refine ⟨tree.height tree.size, fun id child hchild => ?_⟩
  have hlt : id.index < tree.size := by
    apply lt_size_of_node_ne
    intro hnode
    simp [below, hnode] at hchild
  simp only [isLayered, List.all_eq_true, List.mem_range, decide_eq_true_eq] at h
  exact h id.index hlt child hchild

end Tree

/-- Where the copy is dropped, nothing reads the global any more, and the second time drops it. -/
theorem not_forall_compact_twice_eq : ¬∀ (program : Program) (routines : Routines)
    (lifting : LiftSettings) (settings : CompactSettings) (tree : Tree),
    lift program routines lifting = some (.ok tree) → tree.Acyclic → settings.enabled →
      (Optimizer.dataFlow routines settings).run ((Optimizer.dataFlow routines settings).run tree).1 =
        (((Optimizer.dataFlow routines settings).run tree).1, false) := by
  intro h
  obtain ⟨tree, hlift, hcond⟩ := exists_of_lift
    (copyScript { opcode := .movsp, stack := -4 }) {} .strictly
    (fun tree => tree.isLayered ∧
      (Optimizer.dataFlow {} {}).run ((Optimizer.dataFlow {} {}).run tree).1 ≠
        (((Optimizer.dataFlow {} {}).run tree).1, false)) (by decide +kernel)
  rw [decide_eq_true_eq] at hcond
  exact hcond.2 (h _ _ _ _ tree hlift (Tree.acyclic_of_isLayered hcond.1) rfl)

end ScriptLift
