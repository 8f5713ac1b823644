import ScriptLift.Proofs.Compact.Calls
import ScriptLift.Proofs.Lift.Entries
import ScriptLift.Proofs.Lift.Flow
import ScriptLift.Proofs.Lift.History

/-! Arguments of calls and formal arguments of callees.

The arguments of a subroutine are known once it is complete. A call that is lifted later has one
argument for each of them. A call that is lifted while its callee is in progress has none at all,
and such a call is reached from the entry of its own callee. -/
namespace ScriptLift

namespace Tree

variable {old mid new tree : Tree} {p q : SubId → List NodeId → Nat → Prop}

/-- The calls of the new tree are those of the old one, at their offsets, and calls within `p`. -/
def CallsFrom (p : SubId → List NodeId → Nat → Prop) (old new : Tree) : Prop :=
  ∀ n callee arguments, new.node n = .call callee arguments →
    old.node n = .call callee arguments ∧ new.offset n = old.offset n ∨
      p callee arguments (new.offset n)

namespace CallsFrom

theorem of_exprs_eq (h : new.exprs = old.exprs) : CallsFrom p old new := by
  intro n callee arguments hnode
  have hget : new.get n = old.get n := by simp only [Tree.get, Tree.get?, h]
  rw [Tree.node, hget] at hnode
  exact .inl ⟨hnode, by rw [Tree.offset, hget, Tree.offset]⟩

theorem refl (tree : Tree) : CallsFrom p tree tree := of_exprs_eq rfl

theorem trans (h : CallsFrom p old mid) (g : CallsFrom p mid new) : CallsFrom p old new := by
  intro n callee arguments hnode
  rcases g n callee arguments hnode with ⟨hmid, hoffset⟩ | hp
  · rw [hoffset]
    exact h n callee arguments hmid
  · exact .inr hp

theorem mono (h : CallsFrom p old new)
    (hpq : ∀ {callee arguments offset}, p callee arguments offset → q callee arguments offset) :
    CallsFrom q old new :=
  fun n callee arguments hnode => (h n callee arguments hnode).imp_right hpq

theorem alloc (tree : Tree) {offset : Nat} {node : Node}
    (h : ∀ callee arguments, node = .call callee arguments → p callee arguments offset) :
    CallsFrom p tree (tree.alloc offset node) := by
  intro n callee arguments hnode
  rcases Nat.lt_trichotomy n.index tree.size with hlt | heq | hgt
  · rw [node_alloc_of_lt hlt] at hnode
    exact .inl ⟨hnode, offset_alloc_of_lt hlt⟩
  · obtain rfl := eq_nextId_of_index heq
    rw [node_alloc_nextId] at hnode
    rw [Tree.offset, get_alloc_nextId]
    exact .inr (h callee arguments hnode)
  · rw [node_of_size_le (by rw [size_alloc]; omega)] at hnode
    cases hnode

theorem alloc_of_kind (tree : Tree) {offset : Nat} {node : Node} (h : node.kind ≠ .call) :
    CallsFrom p tree (tree.alloc offset node) := by
  refine alloc tree fun callee arguments heq => ?_
  rw [heq] at h
  exact absurd rfl h

theorem modify (tree : Tree) (id : NodeId) {f : Node → Node}
    (h : ∀ node callee arguments, f node = .call callee arguments → f node = node) :
    CallsFrom p tree (tree.modify id f) := by
  intro n callee arguments hnode
  rcases node_modify_cases tree id n f with heq | ⟨-, -, heq⟩
  · rw [heq] at hnode
    exact .inl ⟨hnode, offset_modify⟩
  · rw [heq] at hnode
    rw [h _ callee arguments hnode] at hnode
    exact .inl ⟨hnode, offset_modify⟩

theorem modifySlot (tree : Tree) (id : NodeId) (f : Slot → Slot) :
    CallsFrom p tree (tree.modifySlot id f) := by
  refine modify tree id fun node callee arguments heq => ?_
  cases node <;> first | rfl | cases heq

theorem modifyStatements (tree : Tree) (id : NodeId) (f : List NodeId → List NodeId) :
    CallsFrom p tree (tree.modifyStatements id f) := by
  refine modify tree id fun node callee arguments heq => ?_
  cases node <;> first | rfl | cases heq

theorem record (tree : Tree) {offset : Nat} {node : Node} (block : NodeId)
    (h : ∀ callee arguments, node = .call callee arguments → p callee arguments offset) :
    CallsFrom p tree ((tree.alloc offset node).pushStatement block tree.nextId) :=
  (alloc tree h).trans (modifyStatements _ block _)

end CallsFrom

theorem formals_of_subroutines_eq {sub : SubId} (h : new.subroutines = old.subroutines) :
    (new.sub sub).formals = (old.sub sub).formals := by
  simp only [Tree.sub, h]
  cases old.subroutines[sub.index]? <;> rfl

end Tree

theorem Kind.ne_call_of_isOrdinary {kind : Kind} (h : kind.isOrdinary) : kind ≠ .call := by
  rintro rfl
  cases h

theorem Lift.length_mapM {α β : Type} {f : α → Lift β} {xs : List α} {ys : List β}
    {ws ws' : Workspace} (h : xs.mapM f ws = .ok ys ws') : ys.length = xs.length := by
  induction xs generalizing ys ws with
  | nil =>
    cases h
    rfl
  | cons x xs ih =>
    rw [List.mapM_cons] at h
    obtain ⟨y, mid, -, h⟩ := Lift.bind_eq_ok h
    obtain ⟨rest, last, hrest, h⟩ := Lift.bind_eq_ok h
    cases h
    rw [List.length_cons, List.length_cons, ih hrest]

namespace Site

/-- The call that an instruction may add: of the subroutine at its target, with an argument for each
that this subroutine is known to have. -/
def Calls (site : Site) (callees : List (Nat × SubId)) (tree : Tree) (callee : SubId)
    (arguments : List NodeId) (offset : Nat) : Prop :=
  callees.lookup site.ins.target = some callee ∧
    arguments.length = (tree.sub callee).formals.length ∧ offset = site.ins.offset

/-- Subroutines stay as they are while calls may be added. -/
def AddsCalls (site : Site) (callees : List (Nat × SubId)) (a b : Workspace) : Prop :=
  b.tree.subroutines = a.tree.subroutines ∧
    a.tree.CallsFrom (site.Calls callees a.tree) b.tree

variable (site : Site) (callees : List (Nat × SubId))

theorem closed_addsCalls (script : Script) : site.Closed script (site.AddsCalls callees) where
  refl ws := ⟨rfl, .refl ws.tree⟩
  trans := by
    intro a b c h g
    refine ⟨g.1.trans h.1, h.2.trans (g.2.mono ?_)⟩
    rintro callee arguments offset ⟨hlookup, hlength, hoffset⟩
    exact ⟨hlookup, by rw [hlength, Tree.formals_of_subroutines_eq h.1], hoffset⟩
  alloc ws _ hn := ⟨rfl, .alloc_of_kind ws.tree (Kind.ne_call_of_isOrdinary hn)⟩
  record ws _ hn := ⟨rfl, (Tree.CallsFrom.alloc_of_kind ws.tree
    (Kind.ne_call_of_isOrdinary hn)).trans (.modifyStatements _ _ _)⟩
  label ws _ _ _ := ⟨rfl, .modifyStatements ws.tree _ _⟩
  jump ws _ := ⟨rfl, ((Tree.CallsFrom.alloc_of_kind ws.tree (by decide)).trans
    (.alloc_of_kind _ (by simp [Node.kind]))).trans (.modifyStatements _ _ _)⟩
  schedule ws _ _ := ⟨rfl, .alloc_of_kind ws.tree (by decide)⟩
  slot ws id f := ⟨rfl, .modifySlot ws.tree id f⟩
  outer ws _ := ⟨rfl, .refl ws.tree⟩
  context ws _ _ := ⟨rfl, .refl ws.tree⟩
  warn _ _ := ⟨rfl, .of_exprs_eq rfl⟩

theorem keeps_call_addsCalls (script : Script) {callee : SubId}
    (hlookup : callees.lookup site.ins.target = some callee) :
    Lift.Keeps (site.AddsCalls callees) (site.call callee) := by
  intro ws
  have hclosed := site.closed_addsCalls callees script
  have hactuals := hclosed.keeps_actuals (ws.tree.sub callee).formals ws
  change site.AddsCalls callees ws
    (Lift.left (EStateM.bind ((ws.tree.sub callee).formals.mapM site.actual) _ ws))
  unfold EStateM.bind
  cases hrun : (ws.tree.sub callee).formals.mapM site.actual ws with
  | error cause ws₁ =>
    rw [hrun] at hactuals
    exact hactuals
  | ok arguments ws₁ =>
    rw [hrun] at hactuals
    refine hclosed.trans hactuals ⟨rfl, Tree.CallsFrom.record ws₁.tree site.block ?_⟩
    intro other others heq
    cases heq
    refine ⟨hlookup, ?_, rfl⟩
    rw [Lift.length_mapM hrun, Tree.formals_of_subroutines_eq hactuals.1]

theorem visit_addsCalls (script : Script) :
    Lift.Keeps (site.AddsCalls callees) (site.visit script callees) :=
  (site.closed_addsCalls callees script).keeps_visit callees
    (fun _ _ hlookup => site.keeps_call_addsCalls callees script hlookup)
    fun _ ws => ⟨rfl, .record ws.tree _ (by simp)⟩

end Site

namespace Machine

variable {script : Script} {settings : LiftSettings} {m m' : Machine} {act act' : Activation}
  {callers : List Activation}

def inProgress (m : Machine) : List SubId := m.active.map (·.sub)

/-- A call of a complete subroutine has all arguments. One of a subroutine in progress has none, and
is reached from where that subroutine starts. -/
def Suits (script : Script) (m : Machine) (callee : SubId) (arguments : List NodeId)
    (offset : Nat) : Prop :=
  m.tree.HasSub callee ∧
    (callee ∉ m.inProgress ∧ arguments.length = (m.tree.sub callee).formals.length ∨
      arguments = [] ∧ script.program.Reaches (m.tree.sub callee).start offset)

/-- Nothing is known of the arguments of a subroutine in progress, and all calls suit their
callees. -/
structure Matched (script : Script) (m : Machine) : Prop where
  fresh : ∀ sub ∈ m.inProgress, (m.tree.sub sub).formals = []
  distinct : m.inProgress.Nodup
  calls : ∀ n callee arguments, m.tree.node n = .call callee arguments →
    m.Suits script callee arguments (m.tree.offset n)

namespace Matched

/-- The innermost subroutine goes on, and new calls suit their callees. -/
theorem goesOn (h : m.Matched script) (hactive : m.active = act :: callers)
    (hactive' : m'.active = act' :: callers) (hsub : act'.sub = act.sub)
    (hsubs : m'.tree.subroutines = m.tree.subroutines)
    (hcalls : m.tree.CallsFrom (m.Suits script) m'.tree) : m'.Matched script := by
  have hprogress : m'.inProgress = m.inProgress := by
    simp only [inProgress, hactive, hactive', List.map_cons, hsub]
  have hsuits : ∀ {callee arguments offset}, m.Suits script callee arguments offset →
      m'.Suits script callee arguments offset := by
    rintro callee arguments offset ⟨hcallee, hor⟩
    have hsame := Tree.sub_of_subroutines_eq hsubs hcallee
    refine ⟨by rw [Tree.HasSub, hsubs]; exact hcallee, ?_⟩
    rw [hprogress, hsame]
    exact hor
  refine ⟨fun sub hmem => ?_, by rw [hprogress]; exact h.distinct,
    fun n callee arguments hnode => ?_⟩
  · rw [hprogress] at hmem
    rw [Tree.formals_of_subroutines_eq hsubs]
    exact h.fresh sub hmem
  · rcases hcalls n callee arguments hnode with ⟨hold, hoffset⟩ | hnew
    · rw [hoffset]
      exact hsuits (h.calls n callee arguments hold)
    · exact hsuits hnew

/-- The callee of a call that is added is complete, or it is in progress and has no arguments
yet. -/
theorem suits (h : m.Matched script) (hentered : m.Entered) (hflows : m.Flows script)
    (hactive : m.active = act :: callers) {walk : Walk} (hwalk : act.walk = some walk)
    {site : Site} (hat : script.program.at? walk.offset = some site.ins) {callee : SubId}
    {arguments : List NodeId} {offset : Nat}
    (hcalls : site.Calls m.callees m.tree callee arguments offset) :
    m.Suits script callee arguments offset := by
  obtain ⟨hlookup, hlength, rfl⟩ := hcalls
  obtain ⟨hcallee, hstart⟩ := (hentered.known _ _).1 hlookup
  refine ⟨hcallee, ?_⟩
  by_cases hprogress : callee ∈ m.inProgress
  · rw [h.fresh callee hprogress] at hlength
    obtain ⟨other, hother, rfl⟩ := List.mem_map.1 hprogress
    have hentry := ((hentered.known _ _).1 (hentered.active other hother)).2
    rw [hentry, Program.offset_of_at? hat]
    exact .inr ⟨List.length_eq_zero_iff.1 hlength,
      (hflows.reaches_head hactive hother).trans ((hflows.head hactive).walk walk hwalk)⟩
  · exact .inl ⟨hprogress, hlength⟩

theorem finish (h : m.Matched script) (hactive : m.active = act :: callers) :
    (m.finish act callers).Matched script := by
  obtain ⟨hfresh, hdistinct, hcalls⟩ := h
  have hprogress : m.inProgress = act.sub :: callers.map (·.sub) := by
    rw [inProgress, hactive, List.map_cons]
  rw [hprogress] at hfresh hdistinct
  obtain ⟨hnew, hrest⟩ := List.nodup_cons.1 hdistinct
  have hsame : ∀ sub, sub ≠ act.sub → (m.finish act callers).tree.sub sub = m.tree.sub sub :=
    fun sub hne => Tree.sub_modifySub_of_ne hne
  refine ⟨fun sub hmem => ?_, hrest, fun n callee arguments hnode => ?_⟩
  · rw [hsame sub fun heq => hnew (heq ▸ hmem)]
    exact hfresh sub (List.mem_cons_of_mem _ hmem)
  · obtain ⟨hcallee, hor⟩ := hcalls n callee arguments hnode
    refine ⟨Tree.hasSub_modifySub.2 hcallee, ?_⟩
    rcases hor with ⟨hdone, hlength⟩ | ⟨hnone, hreaches⟩
    · rw [hprogress, List.mem_cons, not_or] at hdone
      exact .inl ⟨hdone.2, by rw [hsame callee hdone.1, hlength]⟩
    · refine .inr ⟨hnone, ?_⟩
      have hstart : ((m.finish act callers).tree.sub callee).start = (m.tree.sub callee).start :=
        Tree.field_modifySub (·.start) fun _ => rfl
      rw [hstart]
      exact hreaches

theorem begin (h : m.Matched script) (hentered : m.Entered) (name : String) (entry : Nat)
    (context : SubId → Context) : (m.begin name entry context).Matched script := by
  have hknown : ∀ sub ∈ m.inProgress, m.tree.HasSub sub := by
    intro sub hsub
    obtain ⟨act, hact, rfl⟩ := List.mem_map.1 hsub
    exact ((hentered.known _ _).1 (hentered.active act hact)).1
  have hnodes : m.tree.CallsFrom (fun _ _ _ => False) (m.begin name entry context).tree :=
    (Tree.CallsFrom.alloc_of_kind m.tree (by simp [Node.kind])).trans (.of_exprs_eq rfl)
  refine ⟨fun sub hmem => ?_, List.nodup_cons.2 ⟨fun hmem => ?_, h.distinct⟩,
    fun n callee arguments hnode => ?_⟩
  · rcases List.mem_cons.1 hmem with rfl | hmem
    · exact congrArg Subroutine.formals sub_begin_nextSubId
    · rw [sub_begin_of_hasSub (hknown sub hmem)]
      exact h.fresh sub hmem
  · exact (hknown _ hmem).ne_nextSubId rfl
  · obtain ⟨hold, hoffset⟩ := (hnodes n callee arguments hnode).resolve_right id
    obtain ⟨hcallee, hor⟩ := h.calls n callee arguments hold
    refine ⟨hasSub_begin.2 (.inl hcallee), ?_⟩
    rw [sub_begin_of_hasSub hcallee, hoffset]
    refine hor.imp_left fun hdone => ⟨fun hmem => ?_, hdone.2⟩
    rcases List.mem_cons.1 hmem with rfl | hmem
    · exact hcallee.ne_nextSubId rfl
    · exact hdone.1 hmem

end Matched

theorem Move.matched (h : Move script settings m m') (hentered : m.Entered)
    (hflows : m.Flows script) (hm : m.Matched script) : m'.Matched script := by
  cases h with
  | finish hact => exact hm.finish hact
  | skip hact | start hact | leave hact => exact hm.goesOn hact rfl rfl rfl (.refl _)
  | lost hact => exact hm.goesOn hact rfl rfl rfl (.of_exprs_eq rfl)
  | next hact hwalk hat hrun | stop hact hwalk hat hrun =>
    obtain ⟨hsubs, hcalls⟩ := (Site.visit_addsCalls _ _ _).ok hrun
    exact hm.goesOn hact rfl rfl hsubs (hcalls.mono (hm.suits hentered hflows hact hwalk hat))
  | @enter act callers walk ins target ws hact _ _ hrun =>
    have hlast : Matched script
        { m with active := { act with last := max act.last walk.offset } :: callers } :=
      hm.goesOn hact rfl rfl rfl (.refl _)
    exact hlast.begin (hentered.goesOn hact rfl rfl rfl rfl ⟨rfl, rfl⟩ (.refl _ _)) "" target _
  | fault hact hwalk hat hrun =>
    obtain ⟨hsubs, hcalls⟩ := (Site.visit_addsCalls _ _ _).error hrun
    exact hm.goesOn hact rfl rfl hsubs
      ((hcalls.mono (hm.suits hentered hflows hact hwalk hat)).trans (.of_exprs_eq rfl))

end Machine

namespace Lift

theorem start_matched (program : Program) (routines : Routines) :
    (start (labels program).1).Matched (script program routines) := by
  have hnone : ∀ n callee arguments, (labels program).1.node n ≠ .call callee arguments := by
    refine labels_induction (P := fun state => ∀ n callee arguments,
      state.1.node n ≠ .call callee arguments) (fun n callee arguments h => ?_) ?_ program
    · rw [Tree.node_of_size_le (Nat.zero_le _)] at h
      cases h
    · intro tree known target h n callee arguments hnode
      have hcalls : tree.CallsFrom (fun _ _ _ => False) (tree.alloc target .label) :=
        .alloc_of_kind tree (by decide)
      exact h n callee arguments ((hcalls n callee arguments hnode).resolve_right id).1
  have hempty : Machine.Matched (script program routines) ⟨(labels program).1, [], []⟩ :=
    ⟨by simp [Machine.inProgress], by simp [Machine.inProgress],
      fun n callee arguments hnode => absurd hnode (hnone n callee arguments)⟩
  exact hempty.begin (labels_entered program) startName Program.entry Context.entering

theorem stage_matched {program : Program} {routines : Routines} {settings : LiftSettings}
    {count : Nat} {m : Machine} (h : stage program routines settings count = some m) :
    m.Matched (script program routines) := by
  have hboth : m.Flows (script program routines) ∧ m.Matched (script program routines) := by
    refine stage_induction (P := fun _ m => m.Flows (script program routines) ∧
      m.Matched (script program routines)) ?_ ?_ h
    · exact ⟨start_flows program routines, start_matched program routines⟩
    · intro count m m' hstep hm
      have hmove := Machine.move_of_tick hstep.tick
      exact ⟨hmove.flows hm.1, hmove.matched (stage_entered hstep.before) hm.1 hm.2⟩
  exact hboth.2

theorem callsFrom_complete {p : SubId → List NodeId → Nat → Prop} (tree : Tree) :
    tree.CallsFrom p (complete tree) := by
  have hcollect : tree.CallsFrom p (collectGlobals tree) := .of_exprs_eq rfl
  have hglobals : ∀ (t : Tree) globals, t.CallsFrom p (nameGlobals t globals) := by
    intro t globals
    have hnamed : t.CallsFrom p (t.modifySub globals fun s => { s with name := globalsName }) :=
      .of_exprs_eq rfl
    exact hnamed.trans (.modifyStatements _ _ _)
  unfold complete nameSubroutines
  split
  · exact hcollect.trans (.of_exprs_eq rfl)
  · exact (hcollect.trans (hglobals _ _)).trans (.of_exprs_eq rfl)
  · exact hcollect.trans (hglobals _ _)
  · exact hcollect

end Lift

section Lifted

variable {program : Program} {routines : Routines} {settings : LiftSettings} {tree : Tree}
  {n : NodeId} {callee : SubId} {arguments : List NodeId}

theorem lift_suits (h : lift program routines settings = some (.ok tree))
    (hnode : tree.node n = .call callee arguments) :
    arguments.length = (tree.sub callee).formals.length ∨
      arguments = [] ∧ program.Reaches (tree.sub callee).start (tree.offset n) := by
  obtain ⟨lifted, hrun, rfl⟩ := lift_eq_ok h
  obtain ⟨last, ⟨-, -, hlast⟩, -, rfl⟩ := Machine.run_induction
    (P := fun m => m.Entered ∧ m.Flows _ ∧ m.Matched _)
    (fun hm hmove => ⟨hmove.entered hm.1, hmove.flows hm.2.1, hmove.matched hm.1 hm.2.1 hm.2.2⟩)
    ⟨Lift.start_entered program, Lift.start_flows program routines,
      Lift.start_matched program routines⟩ hrun
  have hcalls : last.tree.CallsFrom (fun _ _ _ => False) (Lift.complete last.tree) :=
    Lift.callsFrom_complete last.tree
  have hstart := Lift.field_complete (·.start) (fun _ _ => rfl) last.tree callee
  have hformals := Lift.field_complete (·.formals) (fun _ _ => rfl) last.tree callee
  obtain ⟨hold, hoffset⟩ := (hcalls n callee arguments hnode).resolve_right id
  obtain ⟨-, hdone | hnone⟩ := hlast.calls n callee arguments hold
  · exact .inl (hdone.2.trans (congrArg List.length hformals).symm)
  · refine .inr ⟨hnone.1, ?_⟩
    have hreaches := hnone.2
    rw [← hstart, ← hoffset] at hreaches
    exact hreaches

/-- Every call has an argument for each formal argument of its callee, or no argument at all. It
lacks those that there are only if control comes from the start of the callee to this very call. -/
theorem lift_call_arguments_iff (h : lift program routines settings = some (.ok tree))
    (hnode : tree.node n = .call callee arguments) :
    (arguments.length = (tree.sub callee).formals.length ↔
      (arguments = [] → (tree.sub callee).formals = [])) ∧
    (arguments.length ≠ (tree.sub callee).formals.length →
      program.Reaches (tree.sub callee).start (tree.offset n)) := by
  rcases lift_suits h hnode with hlength | ⟨rfl, hreaches⟩
  · refine ⟨⟨fun _ hnil => ?_, fun _ => hlength⟩, fun hne => absurd hlength hne⟩
    rw [hnil] at hlength
    exact List.length_eq_zero_iff.1 hlength.symm
  · refine ⟨⟨fun hlength _ => List.length_eq_zero_iff.1 hlength.symm, fun hnil => ?_⟩,
      fun _ => hreaches⟩
    rw [hnil rfl]
    rfl

end Lifted

/-- A subroutine that copies its argument and calls itself. -/
def recursiveScript : Program := .ofList "" [
  { opcode := .jsr, jump := 8 },
  { opcode := .retn },
  { opcode := .consti, value := some (.int 1) },
  { opcode := .jsr, jump := 14 },
  { opcode := .movsp, stack := -4 },
  { opcode := .retn },
  { opcode := .cptopsp, stack := -4, size := 4 },
  { opcode := .jsr, jump := -8 },
  { opcode := .movsp, stack := -4 },
  { opcode := .retn }
]

/-- Whether some call of the output has a property. -/
def Tree.someCall (tree : Tree) (p : NodeId → SubId → List NodeId → Bool) : Bool :=
  tree.order.any fun sub => (tree.body sub).any fun n =>
    match tree.node n with
    | .call callee arguments => p n callee arguments
    | _ => false

theorem Tree.exists_of_someCall {tree : Tree} {p : NodeId → SubId → List NodeId → Bool}
    (h : tree.someCall p) : ∃ sub ∈ tree.order, ∃ n ∈ tree.body sub, ∃ callee arguments,
      tree.node n = .call callee arguments ∧ p n callee arguments := by
  obtain ⟨sub, hsub, h⟩ := List.any_eq_true.1 h
  obtain ⟨n, hn, h⟩ := List.any_eq_true.1 h
  split at h
  · next callee arguments hnode => exact ⟨sub, hsub, n, hn, callee, arguments, hnode, h⟩
  · cases h

/-- The recursive call lacks its argument. -/
theorem lift_call_arguments_recursiveScript : ∃ tree n callee arguments,
    lift recursiveScript {} .strictly = some (.ok tree) ∧ tree.node n = .call callee arguments ∧
    arguments.length ≠ (tree.sub callee).formals.length ∧
    (arguments.length = (tree.sub callee).formals.length ↔
      (arguments = [] → (tree.sub callee).formals = [])) ∧
    recursiveScript.Reaches (tree.sub callee).start (tree.offset n) := by
  obtain ⟨tree, hlift, hcall⟩ := exists_of_lift recursiveScript {} .strictly
    (fun tree => tree.someCall fun _ callee arguments =>
      arguments.length ≠ (tree.sub callee).formals.length) (by decide +kernel)
  obtain ⟨-, -, n, -, callee, arguments, hnode, hne⟩ := Tree.exists_of_someCall hcall
  rw [decide_eq_true_eq] at hne
  obtain ⟨hiff, hreaches⟩ := lift_call_arguments_iff hlift hnode
  exact ⟨tree, n, callee, arguments, hlift, hnode, hne, hiff, hreaches hne⟩

/-- Calls of a subroutine by itself do lack arguments. -/
theorem not_forall_lift_call_arguments : ¬∀ (program : Program) (routines : Routines)
    (settings : LiftSettings) (tree : Tree), lift program routines settings = some (.ok tree) →
    ∀ sub ∈ tree.order, ∀ n ∈ tree.body sub, ∀ callee arguments,
      tree.node n = .call callee arguments →
        arguments.length = (tree.sub callee).formals.length := by
  intro h
  obtain ⟨tree, hlift, hcall⟩ := exists_of_lift recursiveScript {} .strictly
    (fun tree => tree.someCall fun _ callee arguments =>
      arguments.length ≠ (tree.sub callee).formals.length) (by decide +kernel)
  obtain ⟨sub, hsub, n, hn, callee, arguments, hnode, hne⟩ := Tree.exists_of_someCall hcall
  rw [decide_eq_true_eq] at hne
  exact hne (h _ _ _ tree hlift sub hsub n hn callee arguments hnode)

end ScriptLift
