import ScriptLift.Proofs.Lift.Accesses
import ScriptLift.Proofs.Lift.Descents

/-! The arguments of the call that a subroutine is lifted for.

A subroutine counts its arguments from the stack that it was entered on. That is the stack of the
call: while the subroutine is lifted, its contexts stand on that stack, and each argument that it
finds is a word of it. So the call finds every argument on its own stack again, as its own word, as a
global, or through an argument of its own. -/
namespace ScriptLift

/-- Where words lie, seen from the top of a stack of so many words that holds them. -/
def IsBelow (entered : Nat) (position : Int) : Prop :=
  ∃ index < entered, position = ((index : Int) - entered) * 4

theorem Context.relativeIndex_of_isBelow {entered : Nat} {position : Int}
    (h : IsBelow entered position) (hshallow : entered < 2 ^ 29) :
    ∃ index < entered, (index : Int) = entered + position.tdiv 4 ∧
      relativeIndex entered position = .ok index := by
  obtain ⟨index, hlt, rfl⟩ := h
  have hwords : (((index : Int) - entered) * 4).tdiv 4 = index - entered :=
    Int.mul_tdiv_cancel _ (by decide)
  have hsum : (index : Int) = entered + (((index : Int) - entered) * 4).tdiv 4 := by omega
  refine ⟨index, hlt, hsum, ?_⟩
  rw [relativeIndex_of_lt (by omega) (by omega), ← hsum, if_pos (Int.natCast_nonneg _)]
  rfl

/-- A subroutine that was entered on so many words: its contexts know that, and its arguments are
among them. -/
structure Activation.StandsOn (act : Activation) (entered : Nat) : Prop where
  pending : ∀ p ∈ act.pending, p.2.top.entered = entered
  outer : ∀ entry ∈ act.outer, IsBelow entered entry.1

/-- An instruction of such a subroutine. -/
structure Workspace.StandsOn (ws : Workspace) (entered : Nat) : Prop where
  context : ws.context.top.entered = entered
  spawned : ∀ job, ws.spawned = some job → job.context.top.entered = entered
  outer : ∀ entry ∈ ws.outer, IsBelow entered entry.1

section StandsOn

variable {script : Script} {entered : Nat} {ws ws' : Workspace} {m : Machine}

theorem Site.Change.standsOn {site : Site} (h : site.Change script ws ws')
    (hws : ws.StandsOn entered) : ws'.StandsOn entered := by
  cases h with
  | context _ hcalls =>
    refine ⟨?_, hws.spawned, hws.outer⟩
    rw [Context.top, hcalls]
    exact hws.context
  | schedule =>
    refine ⟨hws.context, ?_, hws.outer⟩
    rintro job ⟨⟩
    exact hws.context
  | argument _ _ hneg hindex =>
    obtain ⟨index, hposition⟩ := hindex
    refine ⟨hws.context, hws.spawned, fun entry hentry => ?_⟩
    rcases Outer.mem_insert_iff.1 hentry with rfl | hold
    · rw [hws.context] at hposition
      exact ⟨index, by omega, hposition⟩
    · exact hws.outer entry hold
  | _ => exact ⟨hws.context, hws.spawned, hws.outer⟩

theorem Site.visit_standsOn (site : Site) (script : Script) (callees : List (Nat × SubId))
    (hws : ws.StandsOn entered) : (Lift.left (site.visit script callees ws)).StandsOn entered :=
  Site.visit_induction (P := fun ws => ws.StandsOn entered)
    (fun hchange hmid => hchange.standsOn hmid)
    (fun _ hmid => ⟨hmid.context, hmid.spawned, hmid.outer⟩) hws

namespace Activation

variable {act act' : Activation}

theorem GoesOn.standsOn (h : act.GoesOn act' act.outer act.blocks []) (hact : act.StandsOn entered) :
    act'.StandsOn entered :=
  ⟨fun p hp => hact.pending p (h.pending hp), fun entry hentry => hact.outer entry (h.outer ▸ hentry)⟩

theorem standsOn_start (sub : SubId) (entry : Nat) (root : NodeId) (ctx : Context) :
    (start sub entry root (ctx.enter sub)).StandsOn ctx.depth where
  pending p hp := by
    obtain rfl := List.mem_singleton.1 hp
    rfl
  outer _ hentry := absurd hentry List.not_mem_nil

end Activation

theorem Visit.Leads.standsOn {visit : Visit} {act' : Activation} (h : visit.Leads script m act')
    (hwalk : visit.act.walk = some visit.walk) (hact : visit.act.StandsOn entered) :
    act'.StandsOn entered := by
  have hstart : (visit.start m).StandsOn entered :=
    ⟨hact.pending _ (Visit.mem_pending hwalk),
      fun _ hnone => absurd hnone (by simp [Visit.start, Machine.workspace]), hact.outer⟩
  have hlast : (visit.outcome script m).StandsOn entered :=
    visit.site.visit_standsOn script m.callees hstart
  refine ⟨fun p hp => ?_, fun entry hentry => hlast.outer entry (h.outer ▸ hentry)⟩
  rcases h.pending_cases hp with rfl | ⟨job, hjob, rfl⟩ | hp
  · exact hlast.context
  · exact hlast.spawned job hjob
  · exact hact.pending p hp

end StandsOn

namespace Machine

variable {script : Script} {settings : LiftSettings} {m m' later : Machine}
  {callers : List Activation} {callee : SubId} {target entered : Nat}

theorem Move.eq_finish {act : Activation} (h : Move script settings m m')
    (hactive : m.active = act :: m'.active) : m' = m.finish act m'.active := by
  cases h with
  | finish hfirst =>
    obtain ⟨rfl, -⟩ := List.cons.inj (hfirst.symm.trans hactive)
    rfl
  | skip hfirst | start hfirst | leave hfirst | lost hfirst
  | next hfirst | stop hfirst | enter hfirst | fault hfirst =>
    exact absurd (congrArg List.length (hfirst.symm.trans hactive)) (by simp [begin])

theorem entered_of_above {depth : Nat} (h : Above script settings depth m later) (hm : m.Entered) :
    later.Entered := by
  induction h with
  | refl => exact hm
  | tail _ hstep ih => exact (move_of_tick hstep.2).entered ih

/-- The subroutine that was begun in front of `callers` on so many words: it is in progress and
stands on them, or it is complete and its arguments are among them. -/
structure Lifting (target : Nat) (callee : SubId) (entered : Nat) (callers : List Activation)
    (m : Machine) : Prop where
  hasSub : m.tree.HasSub callee
  start : (m.tree.sub callee).start = target
  state : (∃ inner act, m.active = inner ++ act :: callers ∧ act.sub = callee ∧
      act.StandsOn entered) ∨
    m.active = callers ∧ ∀ formal ∈ (m.tree.sub callee).formals, IsBelow entered formal.position

namespace Lifting

theorem exists_inner (h : m.Lifting target callee entered callers)
    (hlt : callers.length < m.active.length) : ∃ inner act, m.active = inner ++ act :: callers ∧
      act.sub = callee ∧ act.StandsOn entered := by
  refine h.state.resolve_right ?_
  rintro ⟨hactive, -⟩
  rw [hactive] at hlt
  exact Nat.lt_irrefl _ hlt

theorem tick (h : m.Lifting target callee entered callers) (hlt : callers.length < m.active.length)
    (htick : m.tick script settings = .ok (some m')) :
    m'.Lifting target callee entered callers := by
  have hmove := move_of_tick htick
  obtain ⟨inner, act, hactive, hsub, hstands⟩ := h.exists_inner hlt
  refine ⟨hmove.hasSub h.hasSub, (hmove.start_eq h.hasSub).trans h.start, ?_⟩
  -- The innermost subroutine moves: it is the one in question, or one in front of it.
  have hgoes : ∀ (front : List Activation) {first first' : Activation} {rest : List Activation},
      m.active = first :: rest → m'.active = front ++ first' :: rest → first'.sub = first.sub →
      (first.StandsOn entered → first'.StandsOn entered) → ∃ inner act,
        m'.active = inner ++ act :: callers ∧ act.sub = callee ∧ act.StandsOn entered := by
    intro front first first' rest hfirst hnext hsame hkeep
    rw [hfirst] at hactive
    cases inner with
    | nil =>
      obtain ⟨rfl, rfl⟩ := List.cons.inj hactive
      exact ⟨front, first', hnext, hsame.trans hsub, hkeep hstands⟩
    | cons other inner =>
      obtain ⟨rfl, rfl⟩ := List.cons.inj hactive
      exact ⟨front ++ first' :: inner, act, by rw [hnext, List.append_assoc]; rfl, hsub, hstands⟩
  cases turn_of_tick htick with
  | @ended first _ hfirst _ =>
    cases inner with
    | nil =>
      obtain ⟨rfl, hcallers⟩ := List.cons.inj (hfirst.symm.trans hactive)
      refine .inr ⟨hcallers, fun formal hformal => ?_⟩
      rw [hmove.eq_finish hfirst, finish, ← hsub, Tree.sub_modifySub_self (hsub ▸ h.hasSub)]
        at hformal
      obtain ⟨entry, hentry, rfl⟩ := List.mem_map.1 hformal
      exact hstands.outer entry hentry
    | cons other inner =>
      obtain ⟨-, hrest⟩ := List.cons.inj (hfirst.symm.trans hactive)
      exact .inl ⟨inner, act, hrest, hsub, hstands⟩
  | shifted _ hfirst hnext hgoesOn =>
    exact .inl (hgoes [] hfirst hnext hgoesOn.sub hgoesOn.standsOn)
  | visited hvisit _ hnext hleads =>
    obtain ⟨hfirst, hwalk, -⟩ := visit?_eq_some.1 hvisit
    exact .inl (hgoes [] hfirst hnext hleads.sub (hleads.standsOn hwalk))
  | entered hvisit _ hnext hgoesOn =>
    obtain ⟨hfirst, -⟩ := visit?_eq_some.1 hvisit
    exact .inl (hgoes [_] hfirst hnext hgoesOn.sub hgoesOn.standsOn)

theorem above (h : m.Lifting target callee entered callers)
    (habove : Above script settings callers.length m later) :
    later.Lifting target callee entered callers := by
  induction habove with
  | refl => exact h
  | tail _ hstep ih => exact ih.tick hstep.1 hstep.2

end Lifting

end Machine

/-- What the caller gives for an argument: the slot through which it uses that word of its stack. -/
def Workspace.Supplies (ws : Workspace) (formal : Formal) (slot : NodeId) : Prop :=
  ∃ index : Nat, (index : Int) = ws.context.depth + formal.position.tdiv 4 ∧ ws.Uses index slot

theorem Workspace.Supplies.mono {a b : Workspace} {formal : Formal} {slot : NodeId}
    (h : a.Supplies formal slot) (hkeep : a.Retains b) (hcontext : b.context = a.context) :
    b.Supplies formal slot := by
  obtain ⟨index, hindex, huses⟩ := h
  exact ⟨index, hcontext ▸ hindex, huses.mono hkeep⟩

namespace Site

open Lift Workspace

variable {site : Site} {ws : Workspace}

theorem actual_of_isBelow (site : Site) {formal : Formal} (hctx : ws.context.Positioned)
    (hshallow : ws.context.depth < 2 ^ 29) (hbelow : IsBelow ws.context.depth formal.position) :
    ∃ slot ws', site.actual formal ws = .ok slot ws' ∧ ws'.Supplies formal slot ∧
      ws.Retains ws' ∧ ws'.context = ws.context := by
  obtain ⟨index, hlt, hindex, hrelative⟩ := Context.relativeIndex_of_isBelow hbelow hshallow
  obtain ⟨slot, ws', haccess, huses, hretains, hcontext⟩ := access_of_usable
    (usable_of_positioned hctx hlt) site (if formal.pointer then .modify else .read)
  refine ⟨slot, ws', ?_, ⟨index, hcontext ▸ hindex, huses⟩, hretains, hcontext⟩
  rw [actual, get_bind, hrelative, check, pure_bind, haccess]

theorem actuals_of_isBelow (site : Site) (formals : List Formal) :
    ∀ {ws : Workspace}, ws.context.Positioned → ws.context.depth < 2 ^ 29 →
    (∀ formal ∈ formals, IsBelow ws.context.depth formal.position) →
    ∃ arguments ws', formals.mapM site.actual ws = .ok arguments ws' ∧
      List.Forall₂ ws'.Supplies formals arguments ∧ ws.Retains ws' ∧ ws'.context = ws.context := by
  induction formals with
  | nil => exact fun {ws} _ _ _ => ⟨[], ws, rfl, .nil, .refl ws, rfl⟩
  | cons formal formals ih =>
    intro ws hctx hshallow hall
    obtain ⟨slot, mid, hfirst, hsupplies, hretains, hcontext⟩ :=
      actual_of_isBelow site hctx hshallow (hall formal List.mem_cons_self)
    obtain ⟨arguments, ws', hrest, hothers, hretains', hcontext'⟩ :=
      ih (hcontext ▸ hctx) (hcontext ▸ hshallow)
        fun other hother => hcontext ▸ hall other (List.mem_cons_of_mem _ hother)
    refine ⟨slot :: arguments, ws', ?_, .cons (hsupplies.mono hretains' hcontext') hothers,
      hretains.trans hretains', hcontext'.trans hcontext⟩
    rw [List.mapM_cons, bind_of_ok hfirst, bind_of_ok hrest]
    rfl

/-- A call is recorded if its arguments are on the stack. -/
theorem call_of_isBelow (callee : SubId) (hblock : ws.tree.IsBlock site.block)
    (hctx : ws.context.Positioned) (hshallow : ws.context.depth < 2 ^ 29)
    (hall : ∀ formal ∈ (ws.tree.sub callee).formals, IsBelow ws.context.depth formal.position) :
    ∃ call arguments ws', site.call callee ws = .ok () ws' ∧ ws'.context = ws.context ∧
      ws'.tree.statements site.block = ws.tree.statements site.block ++ [call] ∧
      ws'.tree.node call = .call callee arguments ∧
      List.Forall₂ ws'.Supplies (ws.tree.sub callee).formals arguments := by
  obtain ⟨arguments, mid, hrun, hsupplies, -, hcontext⟩ :=
    actuals_of_isBelow site _ hctx hshallow hall
  have hgrow : ws.tree.Grows mid.tree :=
    ((site.closed_grows { program := {}, routines := {} }).keeps_actuals _).ok hrun
  have hconfined : Confined (site.block.index + 1) ws mid :=
    ((site.aside _).keeps_actuals _).ok hrun
  have hsame := (hconfined hblock.lt).2.1 _ (Nat.lt_succ_self _)
  let made := mid.tree.alloc site.ins.offset (.call callee arguments)
  let last : Workspace := { mid with tree := made.pushStatement site.block mid.tree.nextId }
  have hmade : mid.tree.Grows made := .alloc _ _ _
  have hlater : made.IsBlock site.block := (hblock.mono hgrow).mono hmade
  have hpush : made.Grows last.tree := .pushStatement _ _ _
  have hretains : mid.Retains last :=
    (Retains.alloc mid site.ins.offset (by simp)).trans (.pushStatement _ _ _)
  refine ⟨mid.tree.nextId, arguments, last, ?_, hcontext, ?_, ?_,
    hsupplies.imp fun _ _ h => h.mono hretains rfl⟩
  · rw [call, get_bind, bind_of_ok hrun]
    rfl
  · have hold : made.statements site.block = ws.tree.statements site.block :=
      (Tree.statements_alloc (by simp)).trans hsame
    rw [← hold]
    exact Tree.statements_modifyStatements_self _ hlater.kind hlater.lt
  · exact hpush.node_of_eq Tree.node_alloc_nextId (by simp [Node.kind]) (by simp [Node.kind])

end Site

namespace Visit

variable {script : Script} {m : Machine} {visit : Visit} {target : Nat}

theorem lifting_begun (visit : Visit) (m : Machine) (target : Nat) :
    (visit.begun m target).Lifting target m.tree.nextSubId visit.walk.context.depth
      ({ visit.act with last := max visit.act.last visit.walk.offset } :: visit.callers) where
  hasSub := Machine.hasSub_begin.2 (.inr rfl)
  start := congrArg Subroutine.start Machine.sub_begin_nextSubId
  state := .inl ⟨[], _, rfl, rfl, Activation.standsOn_start _ _ _ _⟩

theorem entered_begun (h : m.Entered) (hactive : m.active = visit.act :: visit.callers)
    (hnone : m.callees.lookup target = none) : (visit.begun m target).Entered :=
  Machine.Entered.begin (m := { m with active :=
      { visit.act with last := max visit.act.last visit.walk.offset } :: visit.callers })
    (h.goesOn hactive rfl rfl rfl rfl ⟨rfl, rfl⟩ (.refl _ _)) "" _ hnone

theorem formals_found (sub : SubId) :
    ((visit.found script m).tree.sub sub).formals = (m.tree.sub sub).formals :=
  Tree.formals_of_subroutines_eq
    ((visit.site.closed_subroutines script).keeps_placeLabel (visit.start m)).2

end Visit

/-- Where the stack stays below 2^29 words, a call of an unknown subroutine succeeds as soon as the
subroutine is lifted, in every context of a run. The caller stands where it stood. The call leaves the
stack as it was and records itself, with one argument for each formal one: the word at that position
below the top of the stack, through the slot that the caller uses it through. That is the word's own
slot if the word is the caller's or a global, and else an argument of the caller for the same word. -/
theorem call_of_lifted_subroutine (program : Program) (routines : Routines)
    (settings : LiftSettings)
    (hshallow : ∀ ctx, Lift.Reached program routines settings ctx → ctx.depth < 2 ^ 29)
    {count : Nat} {m later : Machine} {visit : Visit}
    (hstage : Lift.stage program routines settings count = some m)
    (hactive : m.active = visit.act :: visit.callers) (hwalk : visit.act.walk = some visit.walk)
    (hop : visit.ins.opcode.operation = .call)
    (hnone : m.callees.lookup visit.ins.target = none)
    (habove : Machine.Above (Lift.script program routines) settings
      (visit.act :: visit.callers).length (visit.begun m visit.ins.target) later)
    (hlength : later.active.length = (visit.act :: visit.callers).length) :
    later.active =
      { visit.act with last := max visit.act.last visit.walk.offset } :: visit.callers ∧
    ∃ callee call arguments ws', later.callees.lookup visit.ins.target = some callee ∧
      visit.site.execute (Lift.script program routines) later.callees
        (visit.found (Lift.script program routines) later) = .ok (.next visit.ins.next) ws' ∧
      ws'.context = visit.walk.context ∧
      ws'.tree.statements visit.walk.block =
        (visit.found (Lift.script program routines) later).tree.statements visit.walk.block ++
          [call] ∧
      ws'.tree.node call = .call callee arguments ∧
      List.Forall₂ ws'.Supplies (later.tree.sub callee).formals arguments := by
  have hact : visit.act ∈ m.active := Machine.first_mem hactive
  have hpending := Visit.mem_pending hwalk
  have hreached : Lift.Reached program routines settings visit.walk.context :=
    .pending hstage hact hpending
  have hlifted := (Visit.lifting_begun visit m visit.ins.target).above habove
  have hentered := Machine.entered_of_above habove
    (Visit.entered_begun (Lift.stage_entered hstage) hactive hnone)
  have hlookup : later.callees.lookup visit.ins.target = some m.tree.nextSubId :=
    (hentered.known _ _).2 ⟨hlifted.hasSub, hlifted.start⟩
  -- No more subroutines are in progress than in front of the call, so this one is complete.
  have hformals : ∀ formal ∈ (later.tree.sub m.tree.nextSubId).formals,
      IsBelow visit.walk.context.depth formal.position := by
    rcases hlifted.state with ⟨inner, act, hfront, -⟩ | ⟨-, hformals⟩
    · rw [hfront, List.length_append, List.length_cons, List.length_cons, List.length_cons]
        at hlength
      omega
    · exact hformals
  have hcontext : (visit.found (Lift.script program routines) later).context =
      visit.walk.context := Site.context_placeLabel _
  have hgrow : m.tree.Grows later.tree := ((Visit.apart_begun _).above habove).grows
  have hblock : (visit.found (Lift.script program routines) later).tree.IsBlock visit.site.block :=
    (((Lift.stage_fills hstage _ hact).pending _ hpending).mono hgrow).mono Visit.found_grows
  obtain ⟨call, arguments, ws', hrun, hsame, hstatements, hnode, harguments⟩ :=
    Site.call_of_isBelow m.tree.nextSubId hblock
      (hcontext ▸ hreached.positioned hshallow) (hcontext ▸ hshallow _ hreached)
      (by rwa [hcontext, Visit.formals_found])
  rw [Visit.formals_found] at harguments
  refine ⟨Visit.active_of_above habove (Nat.le_of_eq hlength), m.tree.nextSubId, call, arguments,
    ws', hlookup, ?_, hsame.trans hcontext, hstatements, hnode, harguments⟩
  have hcall : visit.site.ins.opcode.operation = .call := hop
  have hknown : later.callees.lookup visit.site.ins.target = some m.tree.nextSubId := hlookup
  simp only [Site.execute, hcall, hknown]
  exact Lift.bind_of_ok hrun

/-- A subroutine copies the word of its caller's caller. -/
def relayScript : Program := .ofList "" [
  { opcode := .jsr, jump := 8 },
  { opcode := .retn },
  { opcode := .consti, value := some (.int 1) },
  { opcode := .jsr, jump := 14 },
  { opcode := .movsp, stack := -4 },
  { opcode := .retn },
  { opcode := .jsr, jump := 8 },
  { opcode := .retn },
  { opcode := .cptopsp, stack := -4, size := 4 },
  { opcode := .movsp, stack := -4 },
  { opcode := .retn }
]

/-- The call in between has one argument, for the word at the bottom of the stack. -/
theorem relayScript_call_of_lifted :
    (∀ ctx, Lift.Reached relayScript {} .strictly ctx → ctx.depth < 2 ^ 29) ∧
    ∃ m visit later callee call argument ws',
      Lift.descentAt relayScript {} .strictly 6 30 = some (m, visit, later) ∧
      visit.site.execute (Lift.script relayScript {}) later.callees
        (visit.found (Lift.script relayScript {}) later) = .ok (.next visit.ins.next) ws' ∧
      ws'.tree.node call = .call callee [argument] ∧ ws'.Uses 0 argument := by
  have hshallow : ∀ ctx, Lift.Reached relayScript {} .strictly ctx → ctx.depth < 2 ^ 29 := by
    intro ctx hreached
    have hend : Lift.stage relayScript {} .strictly 23 = none := by decide +kernel
    have hall : ∀ count < 23, ∀ ctx ∈ Lift.contextsAt relayScript {} .strictly count,
        ctx.depth < 3 := by decide +kernel
    obtain ⟨count, hlt, hmem⟩ := hreached.exists_lt hend
    have hdepth := hall count hlt ctx hmem
    omega
  have hdescent : (Lift.descentAt relayScript {} .strictly 6 30).any fun p =>
      decide (p.2.1.walk.context.depth = 1) &&
        (p.2.2.callees.lookup p.2.1.ins.target).all fun callee =>
          decide ((p.2.2.tree.sub callee).formals.map (·.position) = [-4]) := by decide +kernel
  obtain ⟨⟨m, visit, later⟩, hdescent, hvalues⟩ := (Option.any_eq_true _ _).1 hdescent
  obtain ⟨hstage, hvisit, hop, hnone, habove, hlength⟩ := Lift.descentAt_eq_some hdescent
  obtain ⟨hactive, hwalk, -⟩ := Machine.visit?_eq_some.1 hvisit
  obtain ⟨-, callee, call, arguments, ws', hlookup, hrun, hcontext, -, hnode, harguments⟩ :=
    call_of_lifted_subroutine relayScript {} .strictly hshallow hstage hactive hwalk hop hnone habove
      hlength
  simp only [hlookup, Option.all_some, Bool.and_eq_true, decide_eq_true_eq] at hvalues
  obtain ⟨hdepth, hpositions⟩ := hvalues
  obtain ⟨formal, hformals, hposition⟩ := List.map_eq_singleton_iff.1 hpositions
  rw [hformals] at harguments
  cases harguments with
  | @cons _ argument _ _ hsupplies hrest =>
    cases hrest
    obtain ⟨index, hindex, huses⟩ := hsupplies
    rw [hcontext, hdepth, hposition] at hindex
    obtain rfl : index = 0 := by
      have hwords : (-4 : Int).tdiv 4 = -1 := by decide
      omega
    exact ⟨hshallow, m, visit, later, callee, call, argument, ws', hdescent, hrun, hnode, huses⟩

end ScriptLift
