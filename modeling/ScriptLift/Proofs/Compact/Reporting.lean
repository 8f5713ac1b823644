import ScriptLift.Proofs.Compact.Counts
import ScriptLift.Proofs.Compact.Initializers
import ScriptLift.Proofs.Compact.Termination

/-! What compaction says about itself: whether it changed anything.

A phase that reports nothing has done nothing. For the other way round it is not enough that each
rewrite changes something, as one might undo what another did. So all phases lower one measure: the
subroutines of the output, the globals, where one without a literal weighs more, and the load of the
draft. What is smaller than at first is not what was there at first. -/
namespace ScriptLift

theorem total_lt_total {α : Type} {f g : α → Nat} {xs : List α} {x : α} (hx : x ∈ xs)
    (h : ∀ y, g y ≤ f y) (hlt : g x < f x) : total g xs < total f xs := by
  induction xs with
  | nil => cases hx
  | cons y xs ih =>
    rw [total_cons, total_cons]
    rcases List.mem_cons.1 hx with rfl | hmem
    · exact Nat.add_lt_add_of_lt_of_le hlt (total_le_total xs h)
    · exact Nat.add_lt_add_of_le_of_lt (h y) (ih hmem)

/-- A global with a literal has less to lose. -/
def Global.weight (global : Global) : Nat := if global.value = none then 2 else 1

theorem Global.weight_pos (global : Global) : 0 < global.weight := by
  unfold weight
  split <;> omega

namespace Draft

variable {settings : CompactSettings} {routines : Routines} {draft old mid new next : Draft}
  {changed : Bool}

/-- What every phase lowers. -/
def bulk (draft : Draft) : Nat :=
  draft.tree.order.length + total Global.weight draft.tree.globals + draft.load

theorem load_congr (hexprs : new.tree.exprs = old.tree.exprs)
    (hsubs : new.tree.subroutines = old.tree.subroutines)
    (hdestinations : new.facts.destinations = old.facts.destinations) : new.load = old.load := by
  obtain ⟨⟨_, _, _, _, _⟩, facts⟩ := new
  obtain ⟨⟨_, _, _, _, _⟩, _⟩ := old
  obtain rfl := hexprs
  obtain rfl := hsubs
  unfold load remaining room pending
  rw [hdestinations]
  rfl

/-- Where nothing is reported nothing has changed, and where something is there is less than
before. -/
structure Reports (old new : Draft) (changed : Bool) : Prop where
  quiet : changed = false → new.tree = old.tree ∧ new.facts.destinations = old.facts.destinations
  busy : changed = true → new.bulk < old.bulk

namespace Reports

theorem refl (draft : Draft) : Reports draft draft false := ⟨fun _ => ⟨rfl, rfl⟩, nofun⟩

theorem refresh (routines : Routines) (draft : Draft) :
    Reports draft (draft.refresh routines) false :=
  ⟨fun _ => ⟨rfl, Facts.destinations_analyze⟩, nofun⟩

theorem le (h : Reports old new changed) : new.bulk ≤ old.bulk := by
  cases changed with
  | true => exact Nat.le_of_lt (h.busy rfl)
  | false =>
    obtain ⟨htree, hdestinations⟩ := h.quiet rfl
    rw [bulk, bulk, load_congr (by rw [htree]) (by rw [htree]) hdestinations, htree]

theorem trans {later : Bool} (h : Reports old mid changed) (g : Reports mid new later) :
    Reports old new (changed || later) where
  quiet hquiet := by
    rw [Bool.or_eq_false_iff] at hquiet
    obtain ⟨htree, hdestinations⟩ := h.quiet hquiet.1
    obtain ⟨htree', hdestinations'⟩ := g.quiet hquiet.2
    exact ⟨htree'.trans htree, hdestinations'.trans hdestinations⟩
  busy hbusy := by
    rw [Bool.or_eq_true] at hbusy
    rcases hbusy with hfirst | hsecond
    · exact Nat.lt_of_le_of_lt g.le (h.busy hfirst)
    · exact Nat.lt_of_lt_of_le (g.busy hsecond) h.le

end Reports

theorem load_dropSub (draft : Draft) (name : String) : (draft.dropSub name).1.load = draft.load :=
  load_congr (exprs_dropSub _ _) (subroutines_dropSub _ _) (by rw [facts_dropSub])

theorem length_order_dropSub_le (draft : Draft) (name : String) :
    (draft.dropSub name).1.tree.order.length ≤ draft.tree.order.length := by
  unfold dropSub
  split
  · exact List.length_filter_le _ _
  · exact Nat.le_refl _

theorem length_order_dropSub_lt {name : String} (h : (draft.dropSub name).2 = true) :
    (draft.dropSub name).1.tree.order.length < draft.tree.order.length := by
  unfold dropSub at h ⊢
  cases hfound : draft.tree.subNamed? name with
  | none => simp [hfound] at h
  | some sub =>
    have hmem : sub ∈ draft.tree.order := List.mem_of_find?_eq_some hfound
    exact List.length_filter_lt_length_iff_exists.2 ⟨sub, hmem, by simp⟩

theorem reports_dropSub (draft : Draft) (name : String) :
    Reports draft (draft.dropSub name).1 (draft.dropSub name).2 where
  quiet hquiet := by
    rw [dropSub_eq_self (subNamed?_of_dropSub hquiet)]
    exact ⟨rfl, rfl⟩
  busy hbusy := by
    have hless := length_order_dropSub_lt hbusy
    rw [bulk, bulk, load_dropSub, globals_dropSub]
    omega

theorem slot_foldGlobal (draft : Draft) (global : Global) :
    (draft.foldGlobal global).slot = global.slot := by
  unfold foldGlobal
  split
  · split <;> rfl
  · rfl

theorem weight_foldGlobal (draft : Draft) (global : Global) :
    draft.foldGlobal global = global ∨ (draft.foldGlobal global).weight < global.weight := by
  unfold foldGlobal
  split
  case isFalse => exact .inl rfl
  case isTrue hcond =>
  split
  · exact .inr (by simp [Global.weight, hcond.1])
  · exact .inl rfl

def foldedWeight (draft : Draft) (global : Global) : Nat :=
  if draft.isRead global then (draft.foldGlobal global).weight else 0

theorem foldedWeight_le (draft : Draft) (global : Global) :
    draft.foldedWeight global ≤ global.weight := by
  unfold foldedWeight
  split
  · rcases weight_foldGlobal draft global with heq | hlt
    · rw [heq]
    · exact Nat.le_of_lt hlt
  · exact Nat.zero_le _

theorem foldedWeight_lt {global : Global}
    (h : ¬(draft.isRead global ∧ draft.foldGlobal global = global)) :
    draft.foldedWeight global < global.weight := by
  unfold foldedWeight
  split
  case isTrue hread =>
    exact (weight_foldGlobal draft global).resolve_left fun heq => h ⟨hread, heq⟩
  case isFalse => exact global.weight_pos

theorem weight_foldGlobals (routines : Routines) (draft : Draft) :
    total Global.weight (draft.foldGlobals routines).1.tree.globals =
      total draft.foldedWeight draft.tree.globals := by
  have hglobals : (draft.foldGlobals routines).1.tree.globals =
      (draft.tree.globals.map draft.foldGlobal).filter draft.isRead := by
    simp only [foldGlobals]
    split <;> exact globals_dropSub _ _
  rw [hglobals, total_filter, total_map]
  refine total_congr fun global _ => ?_
  rw [foldedWeight, isRead, isRead, slot_foldGlobal]

theorem reports_foldGlobals (routines : Routines) (draft : Draft) :
    Reports draft (draft.foldGlobals routines).1 (draft.foldGlobals routines).2 where
  quiet hquiet := by
    obtain ⟨hglobals, hnamed⟩ := globalsFolded_of_foldGlobals hquiet
    rw [foldGlobals_eq_self hglobals hnamed]
    exact ⟨rfl, rfl⟩
  busy hbusy := by
    obtain ⟨globals, htree⟩ := foldGlobals_tree routines draft
    let folded : Draft := { draft with tree := { draft.tree with globals } }
    have hfolded : (draft.foldGlobals routines).1.tree = (folded.dropSub globalsName).1.tree := htree
    have hlength : folded.tree.order.length = draft.tree.order.length := rfl
    have hload : (draft.foldGlobals routines).1.load = draft.load := by
      refine load_congr (exprs_foldGlobals draft) ?_ (destinations_foldGlobals draft)
      rw [htree]
      exact subroutines_dropSub folded globalsName
    have horder := length_order_dropSub_le folded globalsName
    have hweight := total_le_total draft.tree.globals draft.foldedWeight_le
    rw [bulk, bulk, hload, weight_foldGlobals, hfolded]
    by_cases hglobals : draft.GlobalsFolded
    · -- The globals stay, so the initializer goes.
      have hdropped : (folded.dropSub globalsName).2 = true := by
        by_contra hkept
        have hnamed : draft.tree.subNamed? globalsName = none :=
          @subNamed?_of_dropSub folded _ (Bool.eq_false_iff.2 hkept)
        rw [foldGlobals_eq_self hglobals hnamed] at hbusy
        cases hbusy
      have hless := length_order_dropSub_lt hdropped
      omega
    · obtain ⟨global, hglobal, hfolds⟩ : ∃ global ∈ draft.tree.globals,
          ¬(draft.isRead global ∧ draft.foldGlobal global = global) := by
        simpa only [GlobalsFolded, not_forall, exists_prop] using hglobals
      have hless := total_lt_total hglobal draft.foldedWeight_le (foldedWeight_lt hfolds)
      omega

theorem Change.order (h : Change settings routines draft next) :
    next.tree.order = draft.tree.order := by
  cases h with
  | queue => rfl
  | step h =>
    cases h with
    | @recover sub index formal => exact (edits_makeResult draft sub index formal).order
    | @rewrite block rewrite => cases rewrite <;> rfl

theorem Changes.order (h : Changes settings routines draft next) :
    next.tree.order = draft.tree.order := by
  induction h with
  | refl => rfl
  | tail _ hchange ih => exact hchange.order.trans ih

theorem reports_settle (h : draft.Sturdy) (hcurrent : draft.Current routines) :
    Reports draft (draft.settle settings routines).1 (draft.settle settings routines).2 := by
  have hruns : Runs settings routines draft (draft.settle settings routines) := runs_settle _ _
  constructor
  · intro hquiet
    obtain ⟨worklist, hqueue⟩ := hruns.eq_queue hquiet
    rw [hqueue]
    exact ⟨rfl, rfl⟩
  · intro hbusy
    have hload := (lowers_load settings routines).runs hruns hbusy hcurrent h
    rw [bulk, bulk, hruns.changes.order, hruns.changes.globals]
    omega

def dropLast (draft : Draft) (block : NodeId) : Draft :=
  { draft with tree := draft.tree.modifyStatements block (·.dropLast) }

section DropLast

variable {block : NodeId}

theorem rewires_dropLast (draft : Draft) (block : NodeId) :
    draft.tree.Rewires (draft.dropLast block).tree fun _ _ => False :=
  .modifyStatements fun _ _ hs => .inl (List.mem_of_mem_dropLast hs)

theorem closed_dropLast (hclosed : draft.tree.Closed) (block : NodeId) :
    (draft.dropLast block).tree.Closed :=
  (rewires_dropLast draft block).closed hclosed fun _ _ h => h.elim

theorem load_dropLast_lt (hclosed : draft.tree.Closed) (hlast : draft.tree.statements block ≠ []) :
    (draft.dropLast block).load < draft.load := by
  have hkinds := (rewires_dropLast draft block).kinds
  have hsize : (draft.dropLast block).tree.size = draft.tree.size := Tree.size_modify ..
  have hlength := List.length_pos_iff.2 hlast
  have hat : (draft.tree.statements block)[0]? = some _ := List.getElem?_eq_getElem hlength
  obtain ⟨hnode, hlt⟩ := Tree.node_of_statement hat
  have hcount : (draft.dropLast block).tree.statementCount + 1 = draft.tree.statementCount := by
    have hsum : (draft.dropLast block).tree.statementCount + _ = draft.tree.statementCount + _ :=
      Tree.sum_modify hlt
    rw [hnode] at hsum
    simp only [Node.statementCount, List.length_dropLast] at hsum
    omega
  have hlinks : (draft.dropLast block).tree.links ≤ draft.tree.links := by
    have htally : (draft.dropLast block).tree.tally draft.tree.linkCost + _ =
        draft.tree.links + _ := Tree.tally_modifyStatements hat (·.dropLast) draft.tree.linkCost
    have hparts := congrArg (total draft.tree.linkCost) (List.dropLast_append_getLast hlast)
    rw [total_append] at hparts
    rw [Tree.links, Tree.linkCost_eq_of_size hkinds hsize]
    omega
  have hcalls : (draft.dropLast block).tree.callCount = draft.tree.callCount :=
    Tree.callCount_eq hkinds hsize
  have hpending : (draft.dropLast block).pending = draft.pending := by
    rw [pending, hcalls]
    rfl
  have hremaining : (draft.dropLast block).remaining + 1 = draft.remaining := by
    rw [remaining, hcalls, remaining, ← hcount]
    exact (Nat.add_right_comm _ _ _).trans (congrArg (· + _) (Nat.add_right_comm _ _ _))
  refine load_lt_of_fewer (closed_dropLast hclosed block) (by omega) (room_mono ?_ ?_)
  · rw [hsize, hpending]
  · omega

end DropLast

/-- Returns go from the end of one subroutine after the other. -/
theorem reports_stripReturns (hclosed : draft.tree.Closed) :
    Reports draft { draft with tree := draft.tree.stripReturns.1 } draft.tree.stripReturns.2 := by
  have hfold : ∀ (subs : List SubId) (mid : Draft) (changed : Bool), mid.tree.Closed →
      Reports draft mid changed →
        Reports draft { mid with tree := (subs.foldl Tree.stripReturn (mid.tree, changed)).1 }
          (subs.foldl Tree.stripReturn (mid.tree, changed)).2 := by
    intro subs
    induction subs with
    | nil => exact fun _ _ _ h => h
    | cons sub subs ih =>
      intro mid changed hmid h
      by_cases hstripped : mid.tree.Stripped sub
      · rw [List.foldl_cons, Tree.stripReturn_eq_self hstripped]
        exact ih mid changed hmid h
      · simp only [Tree.Stripped, not_forall, not_not] at hstripped
        obtain ⟨hvoid, last, hlast, hret⟩ := hstripped
        have hstep : Tree.stripReturn (mid.tree, changed) sub =
            ((mid.dropLast (mid.tree.sub sub).root).tree, true) := by
          simp only [Tree.stripReturn, hlast]
          exact if_pos ⟨hvoid, hret⟩
        have hsome : mid.tree.statements (mid.tree.sub sub).root ≠ [] := by
          intro hnil
          simp [hnil] at hlast
        rw [List.foldl_cons, hstep]
        have hload := load_dropLast_lt hmid hsome
        refine ih (mid.dropLast (mid.tree.sub sub).root) true (closed_dropLast hmid _)
          ⟨fun hquiet => Bool.noConfusion hquiet, fun _ => ?_⟩
        have hle := h.le
        have hbulk : (mid.dropLast (mid.tree.sub sub).root).bulk < mid.bulk :=
          Nat.add_lt_add_left hload _
        omega
  exact hfold draft.tree.order draft false hclosed (.refl draft)

/-- What comes before the rounds, and what is left then. -/
theorem reports_prepare (settings : CompactSettings) (routines : Routines) (tree : Tree) :
    let settled := (prepare settings routines tree).settle settings routines
    ∃ changed, Reports { tree } (prepare settings routines tree) changed ∧
      Draft.compact settings routines { tree } =
        ({ settled.1 with tree := settled.1.tree.stripReturns.1 },
          changed || settled.2 || settled.1.tree.stripReturns.2) := by
  have hstarted := (reports_dropSub { tree } startName).trans (.refresh routines _)
  rw [Bool.or_false] at hstarted
  generalize hrefreshed : ({ tree : Draft }.dropSub startName).1.refresh routines = refreshed at *
  have hfolded : Reports refreshed
      (if settings.foldGlobals then refreshed.foldGlobals routines else (refreshed, false)).1
      (if settings.foldGlobals then refreshed.foldGlobals routines else (refreshed, false)).2 := by
    split
    · exact reports_foldGlobals routines refreshed
    · exact .refl refreshed
  have hprepare : prepare settings routines tree =
      (if settings.foldGlobals then refreshed.foldGlobals routines else (refreshed, false)).1 := by
    rw [prepare, hrefreshed]
    split <;> rfl
  rw [hprepare]
  refine ⟨_, hstarted.trans hfolded, ?_⟩
  rw [Draft.compact, hrefreshed]

theorem reports_compact (settings : CompactSettings) (routines : Routines) {tree : Tree}
    (hclosed : tree.Closed) (hfree : tree.CycleFree) :
    Reports { tree } (Draft.compact settings routines { tree }).1
      (Draft.compact settings routines { tree }).2 := by
  obtain ⟨changed, hprepared, hcompact⟩ := reports_prepare settings routines tree
  have hcurrent := prepare_current settings routines tree
  have hsturdy := prepare_sturdy settings routines hclosed hfree
  have hchanges : Changes settings routines (prepare settings routines tree)
      ((prepare settings routines tree).settle settings routines).1 := (runs_settle _ _).changes
  have hlast := (hchanges.sturdy hcurrent hsturdy).2.closed
  rw [hcompact]
  exact (hprepared.trans (reports_settle hsturdy hcurrent)).trans (reports_stripReturns hlast)

theorem bulk_le (draft : Draft) : ({ tree := draft.tree } : Draft).bulk ≤ draft.bulk := by
  have hpending : ({ tree := draft.tree } : Draft).pending ≤ draft.pending :=
    Nat.add_le_add_left (Nat.zero_le _) _
  have hremaining : ({ tree := draft.tree } : Draft).remaining ≤ draft.remaining :=
    Nat.add_le_add_left (Nat.zero_le _) _
  have hroom : ({ tree := draft.tree } : Draft).room ≤ draft.room :=
    room_mono (Nat.add_le_add_left hpending _) (Nat.add_le_add_left hpending _)
  refine Nat.add_le_add_left (Nat.add_le_add_right ?_ _) _
  exact Nat.mul_le_mul hremaining (Nat.succ_le_succ hroom)

theorem Reports.eq_false_iff {tree : Tree} (h : Reports { tree } new changed) :
    changed = false ↔ new.tree.exprs = tree.exprs ∧ new.tree.subroutines = tree.subroutines ∧
      new.tree.order = tree.order ∧ new.tree.globals = tree.globals := by
  constructor
  · intro hquiet
    obtain ⟨htree, -⟩ := h.quiet hquiet
    rw [htree]
    exact ⟨rfl, rfl, rfl, rfl⟩
  · rintro ⟨hexprs, hsubs, horder, hglobals⟩
    by_contra hbusy
    have hless := h.busy (Bool.eq_true_of_not_eq_false hbusy)
    have hle := new.bulk_le
    have hload : ({ tree := new.tree } : Draft).load = ({ tree } : Draft).load :=
      load_congr hexprs hsubs rfl
    have hsame : ({ tree := new.tree } : Draft).bulk = ({ tree } : Draft).bulk := by
      simp only [bulk, hload, horder, hglobals]
    omega

end Draft

/-- Compaction reports that nothing changed exactly if nodes, subroutines, their order and the
globals come out as they were, whatever the settings. -/
theorem compaction_reports_changes (settings : CompactSettings) (routines : Routines) {tree : Tree}
    (hclosed : tree.Closed) (hfree : tree.CycleFree) :
    let result := (Optimizer.dataFlow routines settings).run tree
    result.2 = false ↔ result.1.exprs = tree.exprs ∧ result.1.subroutines = tree.subroutines ∧
      result.1.order = tree.order ∧ result.1.globals = tree.globals := by
  intro result
  by_cases henabled : settings.enabled
  · have hreports := Draft.reports_compact settings routines hclosed hfree
    simp only [result, Optimizer.dataFlow, henabled, if_true]
    exact hreports.eq_false_iff
  · simp [result, Optimizer.dataFlow, henabled]

/-- A main that only returns is changed, once: its return goes, and then nothing else does. -/
def returnTree : Tree where
  exprs := #[⟨13, .block [⟨1⟩]⟩, ⟨13, .ret none⟩]
  subroutines := #[{ name := "main", start := 13, stop := 13, root := ⟨0⟩ }]
  order := [⟨0⟩]

theorem compaction_reports_returnTree :
    let once := (Optimizer.dataFlow {} {}).run returnTree
    let twice := (Optimizer.dataFlow {} {}).run once.1
    once.2 = true ∧ once.1.exprs ≠ returnTree.exprs ∧ twice.2 = false ∧
      twice.1.exprs = once.1.exprs := by
  intro once twice
  have hlayered : returnTree.isLayered := by decide +kernel
  have honce := compaction_reports_changes {} {} (by decide +kernel : returnTree.Closed)
    (Tree.acyclic_of_isLayered hlayered).cycleFree
  have hlayered' : once.1.isLayered := by decide +kernel
  have htwice := compaction_reports_changes {} {} (by decide +kernel : once.1.Closed)
    (Tree.acyclic_of_isLayered hlayered').cycleFree
  have hbusy : once.2 = true := by decide +kernel
  have hquiet : twice.2 = false := by decide +kernel
  refine ⟨hbusy, fun hsame => ?_, hquiet, (htwice.1 hquiet).1⟩
  have hrest : once.1.subroutines = returnTree.subroutines ∧ once.1.order = returnTree.order ∧
      once.1.globals = returnTree.globals := by decide +kernel
  exact Bool.noConfusion (hbusy.symm.trans (honce.2 ⟨hsame, hrest⟩))

end ScriptLift
