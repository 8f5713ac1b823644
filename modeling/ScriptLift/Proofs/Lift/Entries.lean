import ScriptLift.Proofs.Lift.Names
import ScriptLift.Proofs.Tree.Order

namespace ScriptLift

/-- Starts tell the subroutines of the output apart, and every report is about one of them. -/
structure Tree.Entered (tree : Tree) : Prop where
  distinct : ∀ a ∈ tree.order, ∀ b ∈ tree.order, (tree.sub a).start = (tree.sub b).start → a = b
  reports : ∀ d ∈ tree.diagnostics, ∃ sub ∈ tree.order, (tree.sub sub).start = d.subroutine

namespace Diagnostics

variable {entry : Nat} {old new : Diagnostics}

/-- What was added is about the subroutine that starts at `entry`. -/
def Concerns (entry : Nat) (old new : Diagnostics) : Prop :=
  ∃ more, new = old ++ more ∧ ∀ d ∈ more, d.subroutine = entry

theorem Concerns.refl (entry : Nat) (ds : Diagnostics) : Concerns entry ds ds :=
  ⟨[], by simp, by simp⟩

theorem Concerns.error (h : Concerns entry old new) (block : Nat) (message : String) :
    Concerns entry old (new.error entry block message) := by
  obtain ⟨more, rfl, hmore⟩ := h
  refine ⟨more ++ [⟨.error, entry, block, message⟩], List.append_assoc .., fun d hd => ?_⟩
  rcases List.mem_append.1 hd with hd | hd
  · exact hmore d hd
  · rw [List.mem_singleton.1 hd]

theorem Warns.concerns (h : Warns entry old new) : Concerns entry old new := by
  obtain ⟨more, heq, hmore⟩ := h
  exact ⟨more, heq, fun d hd => (hmore d hd).2⟩

end Diagnostics

namespace Machine

variable {script : Script} {settings : LiftSettings} {m m' : Machine}

section Begin

variable {name : String} {entry : Nat} {context : SubId → Context} {sub : SubId}

theorem hasSub_begin : (m.begin name entry context).tree.HasSub sub ↔
    m.tree.HasSub sub ∨ sub = m.tree.nextSubId :=
  Tree.hasSub_addSub

theorem sub_begin_of_hasSub (h : m.tree.HasSub sub) :
    (m.begin name entry context).tree.sub sub = m.tree.sub sub := by
  have hadd : (m.begin name entry context).tree.sub sub =
      (m.tree.alloc entry (.block [])).sub sub := Tree.sub_addSub h
  rw [hadd]
  exact Tree.sub_of_subroutines_eq rfl h

theorem sub_begin_nextSubId : (m.begin name entry context).tree.sub m.tree.nextSubId =
    { name, start := entry, stop := entry, root := m.tree.nextId } :=
  Tree.sub_addSub_nextSubId

end Begin

/-- The subroutines that were begun are known by their start. -/
structure Entered (m : Machine) : Prop where
  order : ∀ sub, sub ∈ m.tree.order ↔ m.tree.HasSub sub
  known : ∀ target sub, m.callees.lookup target = some sub ↔
    m.tree.HasSub sub ∧ (m.tree.sub sub).start = target
  active : ∀ act ∈ m.active, m.callees.lookup act.entry = some act.sub
  reports : ∀ d ∈ m.tree.diagnostics, (m.callees.lookup d.subroutine).isSome

namespace Entered

/-- The innermost subroutine goes on: nodes change, and there may be new reports about it. -/
theorem goesOn (h : m.Entered) {act act' : Activation} {callers : List Activation}
    (hactive : m.active = act :: callers) (hactive' : m'.active = act' :: callers)
    (hentry : act'.entry = act.entry) (hsub : act'.sub = act.sub)
    (hcallees : m'.callees = m.callees)
    (hsubs : m'.tree.order = m.tree.order ∧ m'.tree.subroutines = m.tree.subroutines)
    (hreports : m.tree.diagnostics.Concerns act.entry m'.tree.diagnostics) : m'.Entered where
  order sub := by
    rw [hsubs.1, h.order, Tree.HasSub, Tree.HasSub, hsubs.2]
  known target sub := by
    rw [hcallees, h.known, Tree.HasSub, Tree.HasSub, hsubs.2]
    exact and_congr_right fun hlt => by rw [Tree.sub_of_subroutines_eq hsubs.2 hlt]
  active other hother := by
    rw [hcallees]
    rw [hactive'] at hother
    have hold : ∀ old ∈ act :: callers, m.callees.lookup old.entry = some old.sub :=
      hactive ▸ h.active
    rcases List.mem_cons.1 hother with rfl | hother
    · rw [hentry, hsub]
      exact hold act List.mem_cons_self
    · exact hold other (List.mem_cons_of_mem _ hother)
  reports d hd := by
    obtain ⟨more, heq, hmore⟩ := hreports
    rw [hcallees]
    rw [heq] at hd
    rcases List.mem_append.1 hd with hd | hd
    · exact h.reports d hd
    · rw [hmore d hd, h.active act (first_mem hactive)]
      rfl

/-- A subroutine that is not known yet may begin. -/
theorem begin (h : m.Entered) (name : String) {entry : Nat} (context : SubId → Context)
    (hnone : m.callees.lookup entry = none) : (m.begin name entry context).Entered := by
  have hold : ∀ sub, m.tree.HasSub sub →
      ((m.begin name entry context).tree.sub sub).start = (m.tree.sub sub).start :=
    fun _ hsub => congrArg Subroutine.start (sub_begin_of_hasSub hsub)
  have hnew : ((m.begin name entry context).tree.sub m.tree.nextSubId).start = entry := by
    rw [sub_begin_nextSubId]
  have hlookup : ∀ target, (m.begin name entry context).callees.lookup target =
      if target = entry then some m.tree.nextSubId else m.callees.lookup target := by
    intro target
    simp only [Machine.begin, List.lookup_cons]
    split
    · next heq => rw [if_pos (by simpa using heq)]
    · next hne => rw [if_neg (by simpa using hne)]
  have hkept : ∀ {target sub}, m.callees.lookup target = some sub →
      (m.begin name entry context).callees.lookup target = some sub := by
    intro target sub hsome
    rw [hlookup, if_neg, hsome]
    rintro rfl
    rw [hnone] at hsome
    cases hsome
  refine ⟨fun sub => ?_, fun target sub => ?_, fun act hact => ?_, fun d hd => ?_⟩
  · rw [hasSub_begin, ← h.order]
    exact Tree.mem_order_addSub
  · rw [hasSub_begin, hlookup]
    constructor
    · intro hsome
      split at hsome
      · next heq =>
        cases hsome
        exact ⟨.inr rfl, hnew.trans heq.symm⟩
      · obtain ⟨hsub, hstart⟩ := (h.known target sub).1 hsome
        exact ⟨.inl hsub, (hold sub hsub).trans hstart⟩
    · rintro ⟨hsub | rfl, rfl⟩
      · have hsome := (h.known _ sub).2 ⟨hsub, rfl⟩
        rw [hold sub hsub, if_neg, hsome]
        intro heq
        rw [heq, hnone] at hsome
        cases hsome
      · rw [hnew, if_pos rfl]
  · rcases List.mem_cons.1 hact with rfl | hact
    · exact (hlookup entry).trans (if_pos rfl)
    · exact hkept (h.active act hact)
  · obtain ⟨sub, hsub⟩ := Option.isSome_iff_exists.1 (h.reports d hd)
    rw [hkept hsub]
    rfl

end Entered

theorem Move.entered (h : Move script settings m m') (hm : m.Entered) : m'.Entered := by
  cases h with
  | @finish act callers hact =>
    have hstart : ∀ sub, ((m.finish act callers).tree.sub sub).start = (m.tree.sub sub).start :=
      fun sub => Tree.field_modifySub (·.start) fun _ => rfl
    refine ⟨fun sub => ?_, fun target sub => ?_, fun other hother => ?_, hm.reports⟩
    · exact (hm.order sub).trans Tree.hasSub_modifySub.symm
    · rw [hstart]
      exact (hm.known target sub).trans (and_congr Tree.hasSub_modifySub.symm Iff.rfl)
    · exact hm.active other (caller_mem hact hother)
  | skip hact | start hact | leave hact =>
    exact hm.goesOn hact rfl rfl rfl rfl ⟨rfl, rfl⟩ (.refl _ _)
  | lost hact =>
    exact hm.goesOn hact rfl rfl rfl rfl ⟨rfl, rfl⟩ ((Diagnostics.Concerns.refl _ _).error _ _)
  | next hact _ _ hrun | stop hact _ _ hrun =>
    exact hm.goesOn hact rfl rfl rfl rfl ((Site.visit_subroutines _ _ _).ok hrun)
      ((Site.visit_warns _ _ _).ok hrun).concerns
  | @enter act callers walk ins target ws hact _ _ hrun =>
    obtain ⟨-, htarget, hnone⟩ := Site.visit_enter hrun
    have hlast :
        Entered { m with active := { act with last := max act.last walk.offset } :: callers } :=
      hm.goesOn hact rfl rfl rfl rfl ⟨rfl, rfl⟩ (.refl _ _)
    exact hlast.begin "" walk.context.enter (htarget ▸ hnone)
  | fault hact _ _ hrun =>
    exact hm.goesOn hact rfl rfl rfl rfl ((Site.visit_subroutines _ _ _).error hrun)
      (((Site.visit_warns _ _ _).error hrun).concerns.error _ _)

theorem Move.hasSub (h : Move script settings m m') {sub : SubId} (hsub : m.tree.HasSub sub) :
    m'.tree.HasSub sub := by
  have hsame : m'.tree.subroutines = m.tree.subroutines → m'.tree.HasSub sub := by
    intro heq
    rw [Tree.HasSub, heq]
    exact hsub
  cases h with
  | finish => exact Tree.hasSub_modifySub.2 hsub
  | skip | start | leave | lost => exact hsub
  | next _ _ _ hrun | stop _ _ _ hrun => exact hsame ((Site.visit_subroutines _ _ _).ok hrun).2
  | fault _ _ _ hrun => exact hsame ((Site.visit_subroutines _ _ _).error hrun).2
  | enter => exact Tree.hasSub_addSub.2 (.inl hsub)

theorem Move.start_eq (h : Move script settings m m') {sub : SubId} (hsub : m.tree.HasSub sub) :
    (m'.tree.sub sub).start = (m.tree.sub sub).start := by
  cases h with
  | finish => exact Tree.field_modifySub (·.start) fun _ => rfl
  | skip | start | leave | lost => exact Tree.start_of_subroutines_eq rfl
  | next _ _ _ hrun | stop _ _ _ hrun =>
    exact Tree.start_of_subroutines_eq ((Site.visit_subroutines _ _ _).ok hrun).2
  | @enter act callers walk ins target =>
    have hsame : (m.begin "" target walk.context.enter).tree.sub sub = m.tree.sub sub :=
      sub_begin_of_hasSub hsub
    exact congrArg Subroutine.start hsame
  | fault _ _ _ hrun =>
    exact Tree.start_of_subroutines_eq ((Site.visit_subroutines _ _ _).error hrun).2

end Machine

namespace Lift

theorem labels_entered (program : Program) : Machine.Entered ⟨(labels program).1, [], []⟩ := by
  have hsubs := subroutines_labels program
  have horder : (labels program).1.order = [] :=
    labels_induction (P := fun state => state.1.order = []) rfl (fun _ _ _ h => h) program
  have hnone : ∀ sub, ¬(labels program).1.HasSub sub := by
    intro sub
    simp [Tree.HasSub, hsubs]
  refine ⟨fun sub => ?_, fun target sub => ?_, by simp, ?_⟩
  · simp [horder, hnone]
  · simp [hnone]
  · simp [diagnostics_labels]

theorem start_entered (program : Program) : (start (labels program).1).Entered :=
  (labels_entered program).begin startName Context.entering rfl

/-- Globals are collected and subroutines named; nothing else becomes of a subroutine. -/
theorem field_complete {α : Type} (g : Subroutine → α)
    (hg : ∀ (s : Subroutine) (name : String), g { s with name } = g s) (tree : Tree) (sub : SubId) :
    g ((complete tree).sub sub) = g (tree.sub sub) := by
  have hmain : ∀ (t : Tree) main, g ((nameMain t main).sub sub) = g (t.sub sub) :=
    fun t main => Tree.field_modifySub g fun s => hg s _
  have hglobals : ∀ (t : Tree) globals, g ((nameGlobals t globals).sub sub) = g (t.sub sub) := by
    intro t globals
    have hnamed : (nameGlobals t globals).sub sub =
        (t.modifySub globals fun s => { s with name := globalsName }).sub sub := by
      simp only [nameGlobals, Tree.sub, Tree.size_modifyStatements]
      rfl
    rw [hnamed]
    exact Tree.field_modifySub g fun s => hg s _
  unfold complete nameSubroutines
  split
  · exact hmain _ _
  · exact (hmain _ _).trans (hglobals _ _)
  · exact hglobals _ _
  · rfl

end Lift

theorem lift_entered {program : Program} {routines : Routines} {settings : LiftSettings}
    {tree : Tree} (h : lift program routines settings = some (.ok tree)) : tree.Entered := by
  obtain ⟨lifted, hrun, rfl⟩ := lift_eq_ok h
  obtain ⟨last, hlast, -, rfl⟩ := Machine.run_induction (P := Machine.Entered)
    (fun hm hmove => hmove.entered hm) (Lift.start_entered program) hrun
  have hstart := Lift.field_complete (·.start) (fun _ _ => rfl) last.tree
  change (Lift.complete last.tree).Entered
  constructor
  · intro a ha b hb heq
    rw [Lift.order_complete, hlast.order] at ha hb
    rw [hstart, hstart] at heq
    have hsame := ((hlast.known _ a).2 ⟨ha, heq⟩).symm.trans ((hlast.known _ b).2 ⟨hb, rfl⟩)
    exact Option.some.inj hsame
  · intro d hd
    rw [Lift.diagnostics_complete] at hd
    obtain ⟨sub, hsub⟩ := Option.isSome_iff_exists.1 (hlast.reports d hd)
    obtain ⟨hin, heq⟩ := (hlast.known _ sub).1 hsub
    refine ⟨sub, ?_, (hstart sub).trans heq⟩
    rw [Lift.order_complete, hlast.order]
    exact hin

end ScriptLift
