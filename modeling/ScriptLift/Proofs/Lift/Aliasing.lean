import ScriptLift.Proofs.Lift.Frames
import ScriptLift.Proofs.Lift.Ownership
import ScriptLift.Proofs.Lift.Pushes

/-! No slot stands for two words.

Every word that is pushed has a slot made for it, and words that stay keep their order. So the slots
of a stack become newer towards the top. Globals are listed from the oldest slot to the newest, which
is the order in which they lay on the stack when they became globals. -/
namespace ScriptLift

theorem Opcode.operation_eq_saveBase {opcode : Opcode} :
    opcode.operation = .saveBase ↔ opcode = .savebp := by
  cases opcode <;> simp [operation]

namespace Tree

variable {tree : Tree} {id : NodeId}

theorem storage?_globalize (slot : NodeId) (h : tree.isSlot id)
    (hglobal : id = slot ∨ tree.storage? id = some .global) :
    (tree.modifySlot slot fun s => { s with storage := .global }).storage? id = some .global := by
  by_cases hid : id = slot
  · subst hid
    obtain ⟨s, hs⟩ := Option.isSome_iff_exists.1 h
    rw [storage?, slot?_modifySlot_self, hs]
    rfl
  · rw [storage?, slot?_modifySlot_of_ne hid]
    exact hglobal.resolve_left hid

theorem storage?_foldl_globalize (words : List Word) (h : tree.isSlot id)
    (hglobal : (∃ word ∈ words, word.slot = id) ∨ tree.storage? id = some .global) :
    (words.foldl (fun tree word => tree.modifySlot word.slot fun s => { s with storage := .global })
      tree).storage? id = some .global := by
  induction words generalizing tree with
  | nil => simpa using hglobal
  | cons word words ih =>
    have hslot : (tree.modifySlot word.slot fun s => { s with storage := .global }).isSlot id := by
      rwa [isSlot_iff_kind, kind_modifySlot, ← isSlot_iff_kind]
    refine ih hslot ?_
    rcases hglobal with ⟨other, hother, rfl⟩ | hglobal
    · rcases List.mem_cons.1 hother with rfl | hother
      · exact .inr (storage?_globalize other.slot h (.inl rfl))
      · exact .inl ⟨other, hother, rfl⟩
    · exact .inr (storage?_globalize word.slot h (.inr hglobal))

end Tree

namespace Site

open Lift

variable {site : Site} {ws : Workspace} {script : Script}

theorem visit_globalizes (site : Site) (script : Script) (ws : Workspace)
    (callees : List (Nat × SubId)) (hop : site.ins.opcode.operation = .saveBase) {word : Word}
    (hword : word ∈ ws.context.stack) (hslot : ws.tree.isSlot word.slot) :
    (left (site.visit script callees ws)).tree.storage? word.slot = some .global := by
  rw [visit_of_saveBase callees hop]
  have hplaced : (left (site.placeLabel script.labels ws)).context = ws.context ∧
      (left (site.placeLabel script.labels ws)).tree.isSlot word.slot := by
    unfold placeLabel
    cases script.labels.lookup site.ins.offset with
    | some label => exact ⟨rfl, (Tree.Grows.pushStatement ws.tree site.block label).isSlot hslot⟩
    | none => exact ⟨rfl, hslot⟩
  exact Tree.storage?_foldl_globalize _ hplaced.2 (.inl ⟨word, by rwa [hplaced.1], rfl⟩)

theorem visit_eq_of_saveBase (site : Site) (script : Script) (ws : Workspace)
    (callees : List (Nat × SubId)) (hop : site.ins.opcode.operation = .saveBase) :
    ∃ ws', site.visit script callees ws = .ok (.next site.ins.next) ws' := by
  simp only [visit, bind, EStateM.bind]
  rw [placeLabel_eq_ok]
  simp only [execute, hop]
  exact ⟨_, rfl⟩

theorem visit_keepsNames (callees : List (Nat × SubId))
    (hop : site.ins.opcode.operation ≠ .saveBase) :
    ws.tree.KeepsNames (left (site.visit script callees ws)).tree := by
  have hvisit : Pushes (site.ins.suffixes script.routines) (site.visit script callees) :=
    .behind (quiet_placeLabel _) fun _ => pushes_execute callees hop
  exact (hvisit ws).tree

end Site

namespace Lift

variable (program : Program) (routines : Routines) (settings : LiftSettings)

/-- The context in which the move behind `count` others saves the base, if it does. -/
def savedBase? (count : Nat) : Option Context :=
  (stage program routines settings count).bind fun m =>
    ((m.visit? program).filter (·.ins.opcode = .savebp)).map (·.walk.context)

variable {program routines settings} {count : Nat} {m m' : Machine} {ctx : Context} {id : NodeId}
  {tree : Tree}

theorem savedBase?_eq_some (h : savedBase? program routines settings count = some ctx) :
    ∃ m visit, stage program routines settings count = some m ∧ m.visit? program = some visit ∧
      visit.ins.opcode = .savebp ∧ visit.walk.context = ctx := by
  obtain ⟨m, hm, h⟩ := Option.bind_eq_some_iff.1 h
  obtain ⟨visit, hvisit, rfl⟩ := Option.map_eq_some_iff.1 h
  obtain ⟨hvisit, hop⟩ := Option.filter_eq_some_iff.1 hvisit
  exact ⟨m, visit, hm, hvisit, of_decide_eq_true hop, rfl⟩

theorem savedBase?_of_visit {visit : Visit} (h : stage program routines settings count = some m)
    (hvisit : m.visit? program = some visit) (hop : visit.ins.opcode = .savebp) :
    savedBase? program routines settings count = some visit.walk.context := by
  simp [savedBase?, h, hvisit, Option.filter, hop]

theorem Reached.ordered (h : Reached program routines settings ctx) : ∃ size, ctx.Ordered size := by
  cases h with
  | pending hstage hact hp => exact ⟨_, (stage_recorded hstage _ hact).ordered _ hp⟩
  | behind hstage hvisit =>
    exact ⟨_, (visit_trail hstage hvisit).context.ordered (visit_ordered hstage hvisit)⟩

/-- A slot becomes a global in a move that saves the base with the slot on the stack. -/
theorem stage_global_saved (h : stage program routines settings count = some m)
    (hid : m.tree.storage? id = some .global) :
    ∃ earlier ctx, savedBase? program routines settings earlier = some ctx ∧ id ∈ ctx.slots := by
  refine stage_induction (P := fun _ m => ∀ id, m.tree.storage? id = some .global →
    ∃ earlier ctx, savedBase? program routines settings earlier = some ctx ∧ id ∈ ctx.slots)
    ?_ ?_ h id hid
  · intro id hid
    rcases start_node program id with hnode | hnode <;>
      simp [Tree.storage?, Tree.slot?, hnode] at hid
  · intro count m m' hstep hm id hid
    have hkept : m.tree.KeepsNames m'.tree → ∃ earlier ctx,
        savedBase? program routines settings earlier = some ctx ∧ id ∈ ctx.slots := by
      intro hkeeps
      by_cases hlt : id.index < m.tree.size
      · exact hm id (by rw [← hkeeps.storage id hlt, hid])
      · exact absurd hid (hkeeps.made id (Nat.le_of_not_lt hlt))
    rcases hstep.visited_or_keepsNames with ⟨visit, _, hvisit, -, htree⟩ | ⟨hkeeps, -⟩
    · by_cases hop : visit.ins.opcode.operation = .saveBase
      · rw [Tree.storage?, Tree.slot?_of_exprs_eq htree] at hid
        rcases (visit_brings hstep.before hvisit).global id hid with hold | ⟨word, hword, rfl⟩
        · exact hm id hold
        · refine ⟨count, _, savedBase?_of_visit hstep.before hvisit ?_, ?_⟩
          · exact Opcode.operation_eq_saveBase.1 hop
          · exact List.mem_map_of_mem (List.mem_reverse.2 hword)
      · refine hkept (.trans ?_ (.of_exprs_eq htree))
        have hkeeps : (visit.start m).tree.KeepsNames
            (visit.outcome (script program routines) m).tree :=
          visit.site.visit_keepsNames m.callees hop
        exact hkeeps
    · exact hkept hkeeps

/-- A word that is on the stack when the base is saved is a global from then on. -/
theorem stage_saved_global {later : Nat} (h : stage program routines settings later = some m)
    (hsaved : savedBase? program routines settings count = some ctx) (hlt : count < later)
    (hid : id ∈ ctx.slots) : m.tree.storage? id = some .global := by
  obtain ⟨n, n', hstep⟩ := exists_step h hlt
  refine stage_persists (P := fun m => m.tree.storage? id = some .global)
    (fun hstep hglobal => hstep.global hglobal) hstep.behind h hlt ?_
  obtain ⟨_, visit, hn, hvisit, hop, rfl⟩ := savedBase?_eq_some hsaved
  cases hn.symm.trans hstep.before
  obtain ⟨word, hword, rfl⟩ := List.mem_map.1 hid
  have hword : word ∈ visit.walk.context.stack := List.mem_reverse.1 hword
  have hslot : n.tree.isSlot word.slot :=
    ((stage_sound hstep.before).active _ (Machine.act_mem_of_visit? hvisit)
      |>.walk _ (Machine.walk_of_visit? hvisit)).words word hword
  have hop' : visit.ins.opcode.operation = .saveBase := Opcode.operation_eq_saveBase.2 hop
  have hglobal : (visit.outcome (script program routines) n).tree.storage? word.slot =
      some .global :=
    visit.site.visit_globalizes _ (visit.start n) n.callees hop' hword hslot
  cases hstep.turn with
  | ended hnone | shifted hnone => cases hnone.symm.trans hvisit
  | visited hvisit' _ _ _ htree =>
    cases hvisit'.symm.trans hvisit
    rw [Tree.storage?, Tree.slot?_of_exprs_eq htree]
    exact hglobal
  | entered hvisit' hrun =>
    cases hvisit'.symm.trans hvisit
    obtain ⟨ws', hnext⟩ := visit.site.visit_eq_of_saveBase (script program routines)
      (visit.start n) n.callees hop'
    cases hrun.symm.trans hnext

theorem globals_complete_eq (tree : Tree) {slots : List NodeId}
    (hslots : slots.Pairwise fun older newer => older.index < newer.index)
    (hglobal : ∀ id, id ∈ slots ↔ tree.storage? id = some .global) :
    (complete tree).globals = slots.map fun slot => { slot } := by
  have hrange : ((List.range tree.size).map NodeId.mk).Pairwise
      fun older newer => older.index < newer.index :=
    List.pairwise_map.2 List.pairwise_lt_range
  have hirrefl : Std.Irrefl fun older newer : NodeId => older.index < newer.index :=
    ⟨fun id => Nat.lt_irrefl id.index⟩
  rw [globals_complete, collectGlobals]
  refine congrArg (List.map fun slot => ({ slot } : Global)) ?_
  refine List.Pairwise.eq_of_mem_iff (hrange.sublist (List.filter_sublist)) hslots fun id => ?_
  rw [globalSlots, List.mem_filter, hglobal id, decide_eq_true_eq]
  refine ⟨And.right, fun hid => ⟨?_, hid⟩⟩
  exact List.mem_map.2 ⟨id.index, List.mem_range.2 (Tree.lt_size_of_storage? hid), rfl⟩

theorem globals_of_savedBase {tree : Tree} (hlift : lift program routines settings = some (.ok tree))
    (hsaved : savedBase? program routines settings count = some ctx)
    (honly : ∀ other, (savedBase? program routines settings other).isSome → other = count) :
    tree.globals = ctx.slots.map fun slot => { slot } := by
  obtain ⟨lifted, hrun, rfl⟩ := lift_eq_ok hlift
  obtain ⟨final, last, hlast, hrest, rfl⟩ := exists_stage hrun
  obtain ⟨m, visit, hm, hvisit, -, hctx⟩ := savedBase?_eq_some hsaved
  have hlt : count < final :=
    stage_lt_rest hlast hrest hm (Machine.active_ne_nil_of_visit? hvisit)
  have hordered : ctx.Ordered m.tree.size := hctx ▸ visit_ordered hm hvisit
  refine globals_complete_eq last.tree hordered.slots_increasing fun id => ⟨?_, ?_⟩
  · exact stage_saved_global hlast hsaved hlt
  · intro hid
    obtain ⟨other, ctx', hother, hmem⟩ := stage_global_saved hlast hid
    obtain rfl := honly other (by rw [hother]; rfl)
    cases hother.symm.trans hsaved
    exact hmem

end Lift

/-- No slot stands for two words: in every context of a run the slots on the stack become newer from
the bottom to the top. So if a run saves the base once, the globals of the tree are the slots of the
words that were on the stack then, in the order of the stack. -/
theorem stack_words_never_alias (program : Program) (routines : Routines)
    (settings : LiftSettings) :
    (∀ ctx, Lift.Reached program routines settings ctx →
      ctx.slots.Pairwise (fun lower upper => lower.index < upper.index) ∧ ctx.slots.Nodup) ∧
    ∀ tree count ctx, lift program routines settings = some (.ok tree) →
      Lift.savedBase? program routines settings count = some ctx →
      (∀ other, (Lift.savedBase? program routines settings other).isSome → other = count) →
      tree.globals = ctx.slots.map fun slot => { slot } := by
  refine ⟨fun ctx hreached => ?_, fun _ _ _ hlift hsaved honly =>
    Lift.globals_of_savedBase hlift hsaved honly⟩
  obtain ⟨size, hordered⟩ := hreached.ordered
  refine ⟨hordered.slots_increasing, hordered.slots_increasing.imp fun hlt heq => ?_⟩
  rw [heq] at hlt
  exact Nat.lt_irrefl _ hlt

/-- The initializer declares two words before it saves the base. -/
def savingScript : Program := .ofList "" [
  { opcode := .jsr, jump := 8 },
  { opcode := .retn },
  { opcode := .consti, value := some (.int 1) },
  { opcode := .rsaddf },
  { opcode := .savebp },
  { opcode := .restorebp },
  { opcode := .movsp, stack := -8 },
  { opcode := .retn }
]

/-- Both words are globals, the deeper one first. -/
theorem savingScript_globals : ∃ tree count ctx, lift savingScript {} .strictly = some (.ok tree) ∧
    Lift.savedBase? savingScript {} .strictly count = some ctx ∧
    (∀ other, (Lift.savedBase? savingScript {} .strictly other).isSome → other = count) ∧
    ctx.depth = 2 ∧ tree.globals = ctx.slots.map fun slot => { slot } := by
  obtain ⟨tree, hlift, -⟩ := exists_of_lift savingScript {} .strictly (fun _ => true)
    (by decide +kernel)
  let ctx : Context :=
    { stack := [⟨⟨5⟩, ⟨1⟩⟩, ⟨⟨3⟩, ⟨1⟩⟩], calls := [⟨⟨1⟩, 0⟩, ⟨⟨0⟩, 0⟩] }
  have hsaved : Lift.savedBase? savingScript {} .strictly 5 = some ctx := by decide +kernel
  have honly : ∀ other, (Lift.savedBase? savingScript {} .strictly other).isSome → other = 5 := by
    intro other hother
    have hend : Lift.stage savingScript {} .strictly 14 = none := by decide +kernel
    have hall : ∀ other < 14, (Lift.savedBase? savingScript {} .strictly other).isSome →
        other = 5 := by decide +kernel
    obtain ⟨saved, hsome⟩ := Option.isSome_iff_exists.1 hother
    obtain ⟨m, _, hstage, -⟩ := Lift.savedBase?_eq_some hsome
    exact hall other (Lift.stage_lt_end hstage hend) hother
  exact ⟨tree, 5, ctx, hlift, hsaved, honly, rfl,
    (stack_words_never_alias savingScript {} .strictly).2 tree 5 ctx hlift hsaved honly⟩

end ScriptLift
