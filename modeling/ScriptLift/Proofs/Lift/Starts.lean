import ScriptLift.Proofs.Lift.Promotion
import ScriptLift.Proofs.Program.Layout

/-! The order of the output.

Subroutines are listed by where they start. One is added for every target of a call that is executed,
the entry of the script apart. The targets of calls are arbitrary; but a subroutine that starts in
front of the entry finds no instruction there, and a strict run does not get past it. So the entry
comes first, and the names that go by place are given to the subroutines behind it. -/
namespace ScriptLift

theorem Opcode.eq_jsr_of_call {opcode : Opcode} (h : opcode.operation = .call) : opcode = .jsr := by
  cases opcode <;> first | rfl | cases h

namespace Tree

/-- The subroutines of the output stand in the order of their starts. -/
def Ascends (tree : Tree) : Prop :=
  tree.order.Pairwise fun a b => (tree.sub a).start < (tree.sub b).start

variable {tree new : Tree}

theorem Ascends.of_start_eq (h : tree.Ascends) (horder : new.order = tree.order)
    (hstart : ∀ sub ∈ tree.order, (new.sub sub).start = (tree.sub sub).start) : new.Ascends := by
  unfold Ascends
  rw [horder]
  refine h.imp_of_mem fun {a b} ha hb hlt => ?_
  rw [hstart a ha, hstart b hb]
  exact hlt

theorem Ascends.addSub (h : tree.Ascends) (hall : ∀ sub ∈ tree.order, tree.HasSub sub)
    {s : Subroutine} (hnew : ∀ sub ∈ tree.order, (tree.sub sub).start ≠ s.start) :
    (tree.addSub s).Ascends := by
  have hstart : ∀ sub ∈ tree.order, ((tree.addSub s).sub sub).start = (tree.sub sub).start :=
    fun sub hsub => congrArg Subroutine.start (sub_addSub (hall sub hsub))
  have hlast : ((tree.addSub s).sub tree.nextSubId).start = s.start :=
    congrArg Subroutine.start sub_addSub_nextSubId
  have hfirst : HoldsFirst (fun sub => decide ((tree.sub sub).start < s.start)) tree.order :=
    h.imp fun hlt hb => decide_eq_true (Nat.lt_trans hlt (of_decide_eq_true hb))
  refine hfirst.pairwise_insert ?_ ?_ (h.imp_of_mem fun {a b} ha hb hlt => ?_)
  · intro sub hsub hlt
    rw [hstart sub hsub, hlast]
    exact of_decide_eq_true hlt
  · intro sub hsub hge
    rw [hstart sub hsub, hlast]
    exact Nat.lt_of_le_of_ne (Nat.le_of_not_lt fun hlt => hge (decide_eq_true hlt))
      (hnew sub hsub).symm
  · rw [hstart a ha, hstart b hb]
    exact hlt

end Tree

namespace Machine

variable {script : Script} {settings : LiftSettings} {m m' : Machine}

/-- No two subroutines start at one offset, so a new one has its place. -/
theorem Entered.ascends_begin (hm : m.Entered) (h : m.tree.Ascends) (name : String) {entry : Nat}
    (context : SubId → Context) (hnone : m.callees.lookup entry = none) :
    (m.begin name entry context).tree.Ascends := by
  have hsame : ∀ sub, ((m.tree.alloc entry (.block [])).sub sub).start = (m.tree.sub sub).start :=
    fun sub => Tree.start_of_subroutines_eq rfl
  have hplaced : (m.tree.alloc entry (.block [])).Ascends :=
    h.of_start_eq rfl fun sub _ => hsame sub
  refine hplaced.addSub (fun sub hsub => (hm.order sub).1 hsub) fun sub hsub heq => ?_
  have hknown := (hm.known entry sub).2 ⟨(hm.order sub).1 hsub, (hsame sub).symm.trans heq⟩
  cases hnone.symm.trans hknown

theorem Move.ascends (h : Move script settings m m') (hm : m.Entered) (hascends : m.tree.Ascends) :
    m'.tree.Ascends := by
  have hkept : m'.tree.order = m.tree.order → m'.tree.Ascends := fun horder =>
    hascends.of_start_eq horder fun sub hsub => h.start_eq ((hm.order sub).1 hsub)
  cases h with
  | finish | skip | start | leave | lost => exact hkept rfl
  | next _ _ _ hrun | stop _ _ _ hrun => exact hkept ((Site.visit_subroutines _ _ _).ok hrun).1
  | @enter act callers walk ins target ws hactive _ _ hrun =>
    obtain ⟨-, htarget, hnone⟩ := Site.visit_enter hrun
    exact hm.ascends_begin hascends "" walk.context.enter (htarget ▸ hnone)
  | fault _ _ _ hrun => exact hkept ((Site.visit_subroutines _ _ _).error hrun).1

end Machine

namespace Lift

variable (program : Program) (routines : Routines) (settings : LiftSettings)

/-- A call that is executed within the first `count` moves has begun the subroutine. -/
inductive Called (count : Nat) (sub : SubId) (target : Nat) : Prop
  | enter {earlier m m' visit} : earlier < count → Step program routines settings earlier m m' →
    m.visit? program = some visit → visit.ins.opcode.operation = .call →
    visit.ins.target = target → m'.active.head? = some (Activation.start sub target m.tree.nextId
      (visit.walk.context.enter sub)) → Called count sub target

variable {program routines settings} {count : Nat} {m m' : Machine} {sub : SubId}

theorem Called.mono {target later : Nat} (h : Called program routines settings count sub target)
    (hle : count ≤ later) : Called program routines settings later sub target := by
  obtain ⟨hlt, hstep, hvisit, hop, htarget, hactive⟩ := h
  exact .enter (Nat.lt_of_lt_of_le hlt hle) hstep hvisit hop htarget hactive

theorem Step.called (h : Step program routines settings count m m') (hsub : m'.tree.HasSub sub) :
    m.tree.HasSub sub ∨ ∃ target, (m'.tree.sub sub).start = target ∧
      Called program routines settings (count + 1) sub target := by
  cases h.accounts hsub with
  | kept hold | completed _ _ hold => exact .inl hold
  | begun _ hvisit hrun hhead _ heq =>
    obtain ⟨hop, htarget, -⟩ := Site.visit_enter hrun
    exact .inr ⟨_, congrArg Subroutine.start heq,
      .enter (Nat.lt_succ_self _) h hvisit hop htarget hhead⟩

theorem stage_called (h : stage program routines settings count = some m)
    (hsub : m.tree.HasSub sub) : (m.tree.sub sub).start = Program.entry ∨
      Called program routines settings count sub (m.tree.sub sub).start := by
  refine stage_induction (P := fun count m => ∀ sub, m.tree.HasSub sub →
    (m.tree.sub sub).start = Program.entry ∨
      Called program routines settings count sub (m.tree.sub sub).start) ?_ ?_ h sub hsub
  · exact fun sub hsub => .inl (congrArg Subroutine.start (start_sub hsub).2)
  · intro count m m' hstep hm sub hsub
    rcases hstep.called hsub with hold | ⟨target, rfl, hcalled⟩
    · rw [(Machine.move_of_tick hstep.tick).start_eq hold]
      exact (hm sub hold).imp_right (·.mono (Nat.le_succ _))
    · exact .inr hcalled

/-- A strict run does not get past a subroutine that starts where there is no instruction. -/
theorem begun_at_instruction {final target : Nat} {last : Machine}
    (hstrict : settings.strict = true) (hlast : stage program routines settings final = some last)
    (hrest : last.active = []) (h : stage program routines settings count = some m)
    {root : NodeId} {ctx : Context}
    (hactive : m.active.head? = some (Activation.start sub target root ctx))
    (hlt : target < program.length) : program.at? target ≠ none := by
  intro hnone
  obtain ⟨callers, hactive⟩ := List.head?_eq_some_iff.1 hactive
  -- The next move begins the root, and the move behind it fails.
  obtain ⟨_, m₁, hfirst⟩ := exists_step hlast
    (stage_lt_rest hlast hrest h (by simp [hactive]))
  obtain rfl := Option.some.inj (h.symm.trans hfirst.before)
  obtain ⟨act, walk, hactive₁, hwalk, hoffset⟩ : ∃ act walk, m₁.active = act :: callers ∧
      act.walk = some walk ∧ walk.offset = target := by
    have htick := hfirst.tick
    simp only [Machine.tick, hactive, Activation.start, List.not_mem_nil, if_false, Except.ok.injEq,
      Option.some.injEq] at htick
    subst htick
    exact ⟨_, _, rfl, rfl, rfl⟩
  obtain ⟨_, m₂, hsecond⟩ := exists_step hlast
    (stage_lt_rest hlast hrest hfirst.behind (by simp [hactive₁]))
  obtain rfl := Option.some.inj (hfirst.behind.symm.trans hsecond.before)
  have htick := hsecond.tick
  simp only [Machine.tick, hactive₁, hwalk, hoffset, script, hlt, if_true, hnone] at htick
  obtain ⟨hlenient, -⟩ := Machine.abandon_eq_ok (Machine.eq_ok_of_map htick) hwalk
  cases hstrict.symm.trans hlenient

/-- Behind a call there is a subroutine at its target. -/
theorem Step.callee (h : Step program routines settings count m m') {visit : Visit}
    (hvisit : m.visit? program = some visit) (hop : visit.ins.opcode.operation = .call) :
    ∃ callee, m'.callees.lookup visit.ins.target = some callee := by
  cases hknown : m.callees.lookup visit.ins.target with
  | some callee => exact ⟨callee, (Machine.move_of_tick h.tick).callee hknown⟩
  | none =>
    have htick : m.tick (script program routines) settings = _ := Machine.tick_of_visit? hvisit
    have hadvance := Machine.eq_ok_of_map (htick.symm.trans h.tick)
    unfold Machine.advance at hadvance
    have hrun : Site.visit ⟨visit.ins, visit.act.entry, visit.walk.block, visit.walk.start⟩
        (script program routines) m.callees
        ⟨m.tree, visit.walk.context, visit.act.outer, visit.act.blocks, none⟩ = _ :=
      Site.visit_eq_of_unknown hop hknown _ _
    dsimp only at hadvance
    rw [hrun] at hadvance
    dsimp only at hadvance
    split at hadvance
    · rw [Machine.abandon_of_isFinal rfl] at hadvance
      cases hadvance
    · cases hadvance
      exact ⟨m.tree.nextSubId, by simp [Machine.begin]⟩

theorem exists_called {final : Nat} {last : Machine}
    (hlast : stage program routines settings final = some last) (hrest : last.active = [])
    (h : stage program routines settings count = some m) {visit : Visit}
    (hvisit : m.visit? program = some visit) (hop : visit.ins.opcode.operation = .call) :
    ∃ callee, last.tree.HasSub callee ∧ (last.tree.sub callee).start = visit.ins.target := by
  obtain ⟨_, m', hstep⟩ := exists_step hlast
    (stage_lt_rest hlast hrest h (Machine.active_ne_nil_of_visit? hvisit))
  obtain rfl := Option.some.inj (h.symm.trans hstep.before)
  obtain ⟨callee, hcallee⟩ := hstep.callee hvisit hop
  have hlater : count + 1 ≤ final :=
    stage_lt_rest hlast hrest h (Machine.active_ne_nil_of_visit? hvisit)
  have hkept : last.callees.lookup visit.ins.target = some callee :=
    stage_persists (P := fun m => m.callees.lookup visit.ins.target = some callee)
      (fun hmove => (Machine.move_of_tick hmove.tick).callee) hstep.behind hlast hlater hcallee
  exact ⟨callee, ((stage_entered hlast).known _ _).1 hkept⟩

theorem start_ascends (program : Program) : (start (labels program).1).tree.Ascends := by
  have horder : (labels program).1.order = [] :=
    labels_induction (P := fun state => state.1.order = []) rfl (fun _ _ _ h => h) program
  refine (labels_entered program).ascends_begin ?_ startName Context.entering rfl
  rw [Tree.Ascends, horder]
  exact List.Pairwise.nil

theorem stage_ascends (h : stage program routines settings count = some m) : m.tree.Ascends :=
  stage_induction (P := fun _ m => m.tree.Ascends) (start_ascends program)
    (fun hstep hm => (Machine.move_of_tick hstep.tick).ascends (stage_entered hstep.before) hm) h

theorem stage_first (h : stage program routines settings count = some m) :
    m.callees.lookup Program.entry = some ⟨0⟩ := by
  refine stage_induction (P := fun _ m => m.callees.lookup Program.entry = some ⟨0⟩) ?_
    (fun hstep hm => (Machine.move_of_tick hstep.tick).callee hm) h
  simp [start, Machine.begin, Tree.nextSubId, subroutines_labels]

end Lift

section Laid

variable {name : String} {code : List Instruction} {routines : Routines} {settings : LiftSettings}
  {tree : Tree}

theorem Lift.entry_le_start {count : Nat} {last : Machine} {sub : SubId}
    (hstrict : settings.strict = true)
    (h : Lift.stage (.ofList name code) routines settings count = some last)
    (hrest : last.active = []) (hsub : last.tree.HasSub sub) :
    Program.entry ≤ (last.tree.sub sub).start := by
  rcases Lift.stage_called h hsub with heq | ⟨-, hstep, -, -, -, hactive⟩
  · exact Nat.le_of_eq heq.symm
  · refine Nat.le_of_not_lt fun hlt => ?_
    refine Lift.begun_at_instruction hstrict h hrest hstep.behind hactive ?_
      (Program.at?_ofList_of_lt hlt)
    exact Nat.lt_of_lt_of_le hlt Program.entry_le_length_ofList

/-- The subroutine at the entry is the first of the output of a strict run. -/
theorem Lift.exists_order {count : Nat} {last : Machine} (hstrict : settings.strict = true)
    (h : Lift.stage (.ofList name code) routines settings count = some last)
    (hrest : last.active = []) : ∃ rest, last.tree.order = ⟨0⟩ :: rest ∧
      (last.tree.sub ⟨0⟩).start = Program.entry ∧
      ∀ sub ∈ rest, Program.entry < (last.tree.sub sub).start := by
  have hentered := Lift.stage_entered h
  obtain ⟨hsub, hentry⟩ := (hentered.known _ _).1 (Lift.stage_first h)
  have hmem := (hentered.order _).2 hsub
  have hascends := Lift.stage_ascends h
  rw [Tree.Ascends] at hascends
  cases horder : last.tree.order with
  | nil =>
    rw [horder] at hmem
    cases hmem
  | cons first rest =>
    rw [horder] at hmem hascends
    obtain ⟨hbehind, -⟩ := List.pairwise_cons.1 hascends
    rcases List.mem_cons.1 hmem with rfl | hlater
    · exact ⟨rest, rfl, hentry, fun sub hsub => hentry ▸ hbehind sub hsub⟩
    · -- The first would start in front of the entry.
      have hfirst : last.tree.HasSub first :=
        (hentered.order _).1 (by rw [horder]; exact List.mem_cons_self)
      have hle := Lift.entry_le_start hstrict h hrest hfirst
      have hlt := hbehind _ hlater
      rw [hentry] at hlt
      exact absurd hlt (Nat.not_lt.2 hle)

/-- The subroutines of a strict run stand in the order of their starts. The first is the start of the
script, at its entry; all others are at targets of calls that were executed, behind the entry, and
there is one at each such target. The names that go by place are given to one subroutine each. -/
theorem subroutines_by_start (hstrict : settings.strict = true)
    (hlift : lift (.ofList name code) routines settings = some (.ok tree)) :
    (tree.order.Pairwise fun a b => (tree.sub a).start < (tree.sub b).start) ∧
    (∃ first rest, tree.order = first :: rest ∧ (tree.sub first).start = Program.entry ∧
      (tree.sub first).name = startName ∧
      ∀ sub ∈ rest, Program.entry < (tree.sub sub).start ∧
        ∃ count m visit, Lift.stage (.ofList name code) routines settings count = some m ∧
          m.visit? (.ofList name code) = some visit ∧ visit.ins.opcode = .jsr ∧
          visit.ins.target = (tree.sub sub).start) ∧
    (∀ count m visit, Lift.stage (.ofList name code) routines settings count = some m →
      m.visit? (.ofList name code) = some visit → visit.ins.opcode = .jsr →
      ∃! sub, sub ∈ tree.order ∧ (tree.sub sub).start = visit.ins.target) ∧
    ∀ fixed ∈ [startName, globalsName, mainName, conditionalName], tree.Unique fixed := by
  have hdistinct := (lift_entered hlift).distinct
  have hnames : ∀ fixed ∈ [startName, globalsName, mainName, conditionalName], tree.Unique fixed :=
    fun _ => lift_unique_fixed hlift
  obtain ⟨lifted, hrun, htree⟩ := lift_eq_ok hlift
  obtain ⟨final, last, hstage, hrest, rfl⟩ := Lift.exists_stage hrun
  obtain rfl : Lift.complete last.tree = tree := htree
  have hentered := Lift.stage_entered hstage
  have hstarts := Lift.field_complete (·.start) (fun _ _ => rfl) last.tree
  have hsubs := Lift.order_complete last.tree
  obtain ⟨rest, horder, hentry, hbehind⟩ := Lift.exists_order hstrict hstage hrest
  refine ⟨?_, ⟨⟨0⟩, rest, hsubs.trans horder, (hstarts _).trans hentry, ?_, fun sub hsub => ?_⟩,
    fun count m visit h hvisit hop => ?_, hnames⟩
  · simp only [hstarts, hsubs]
    exact Lift.stage_ascends hstage
  · obtain ⟨named, hnamed, hsame, hname⟩ := exists_named hlift
    have hfirst : ⟨0⟩ ∉ rest := fun hmem => Nat.lt_irrefl _ (hentry ▸ hbehind _ hmem)
    change (Lift.complete last.tree).nameOf ⟨0⟩ = startName
    rw [hnamed, Lift.nameOf_nameSubroutines (hsame.trans (hsubs.trans horder)) hfirst, hname]
    rfl
  · rw [hstarts]
    have hlt := hbehind sub hsub
    refine ⟨hlt, ?_⟩
    have hin : last.tree.HasSub sub :=
      (hentered.order sub).1 (by rw [horder]; exact List.mem_cons_of_mem _ hsub)
    obtain ⟨-, hstep, hvisit, hop, htarget, -⟩ :=
      (Lift.stage_called hstage hin).resolve_left (Nat.ne_of_gt hlt)
    exact ⟨_, _, _, hstep.before, hvisit, Opcode.eq_jsr_of_call hop, htarget⟩
  · obtain ⟨callee, hin, htarget⟩ := Lift.exists_called hstage hrest h hvisit (by rw [hop]; rfl)
    have hmem : callee ∈ (Lift.complete last.tree).order := by rwa [hsubs, hentered.order]
    refine ⟨callee, ⟨hmem, (hstarts _).trans htarget⟩, fun other hother => ?_⟩
    exact hdistinct _ hother.1 _ hmem
      (hother.2.trans ((hstarts _).trans htarget).symm)

end Laid

/-- Two calls; the one that is executed first is of the subroutine behind the other. -/
def outwardScript : Program := .ofList "" [
  { opcode := .jsr, jump := 16 },
  { opcode := .jsr, jump := 8 },
  { opcode := .retn },
  { opcode := .retn },
  { opcode := .retn }
]

/-- The last of the subroutines is begun as the second. -/
theorem subroutines_by_start_outwardScript : ∃ tree,
    LiftSettings.strictly.strict = true ∧ lift outwardScript {} .strictly = some (.ok tree) ∧
    tree.order = [⟨0⟩, ⟨2⟩, ⟨1⟩] ∧
    (tree.order.Pairwise fun a b => (tree.sub a).start < (tree.sub b).start) ∧
    (∃ first rest, tree.order = first :: rest ∧ (tree.sub first).start = Program.entry ∧
      (tree.sub first).name = startName ∧
      ∀ sub ∈ rest, Program.entry < (tree.sub sub).start ∧
        ∃ count m visit, Lift.stage outwardScript {} .strictly count = some m ∧
          m.visit? outwardScript = some visit ∧ visit.ins.opcode = .jsr ∧
          visit.ins.target = (tree.sub sub).start) ∧
    ∀ fixed ∈ [startName, globalsName, mainName, conditionalName], tree.Unique fixed := by
  obtain ⟨tree, hlift, hcond⟩ := exists_of_lift outwardScript {} .strictly
    (fun tree => decide (tree.order = [⟨0⟩, ⟨2⟩, ⟨1⟩])) (by decide +kernel)
  obtain ⟨hascends, hfirst, -, hnames⟩ := subroutines_by_start rfl hlift
  exact ⟨tree, rfl, hlift, of_decide_eq_true hcond, hascends, hfirst, hnames⟩

end ScriptLift
