import ScriptLift.Proofs.Lift.Moves

namespace ScriptLift

namespace Tree

variable {tree new : Tree} {sub other : SubId} {name : String}

/-- The name of a subroutine; one that is not there has none. -/
def nameOf (tree : Tree) (sub : SubId) : String := (tree.sub sub).name

theorem nameOf_eq (tree : Tree) (sub : SubId) :
    tree.nameOf sub = ((tree.subroutines[sub.index]?).map (·.name)).getD "" := by
  unfold nameOf Tree.sub
  cases tree.subroutines[sub.index]? <;> rfl

theorem nameOf_of_subroutines_eq (h : new.subroutines = tree.subroutines) :
    new.nameOf sub = tree.nameOf sub := by
  rw [nameOf_eq, nameOf_eq, h]

theorem nameOf_addSub (tree : Tree) (s : Subroutine) (sub : SubId) :
    (tree.addSub s).nameOf sub = if sub = tree.nextSubId then s.name else tree.nameOf sub := by
  rw [nameOf_eq, nameOf_eq, addSub, Array.getElem?_push]
  cases sub
  simp only [nextSubId, SubId.mk.injEq]
  split <;> rfl

theorem nameOf_modifySub (tree : Tree) (sub : SubId) (f : Subroutine → Subroutine) (other : SubId) :
    (tree.modifySub sub f).nameOf other = tree.nameOf other ∨
      other = sub ∧ (tree.modifySub sub f).nameOf other = (f (tree.sub sub)).name := by
  rw [nameOf_eq, nameOf_eq, modifySub, Array.getElem?_modify]
  split
  · next heq =>
    have hsub : other = sub := by
      cases sub
      cases other
      exact congrArg SubId.mk heq.symm
    subst hsub
    cases hget : tree.subroutines[other.index]? with
    | none => exact .inl rfl
    | some s => exact .inr ⟨rfl, by simp [Tree.sub, hget]⟩
  · exact .inl rfl

def Unique (tree : Tree) (name : String) : Prop := ∃ sub, ∀ other, tree.nameOf other = name → other = sub

theorem Unique.modifySub (h : tree.Unique name) {f : Subroutine → Subroutine}
    (hf : (f (tree.sub sub)).name = name → tree.nameOf sub = name) :
    (tree.modifySub sub f).Unique name := by
  obtain ⟨only, honly⟩ := h
  refine ⟨only, fun other hother => honly other ?_⟩
  rcases nameOf_modifySub tree sub f other with heq | ⟨rfl, heq⟩
  · exact heq ▸ hother
  · exact hf (heq ▸ hother)

theorem Unique.of_subroutines_eq (h : tree.Unique name) (heq : new.subroutines = tree.subroutines) :
    new.Unique name := by
  obtain ⟨only, honly⟩ := h
  exact ⟨only, fun other hother => honly other (nameOf_of_subroutines_eq heq ▸ hother)⟩

theorem unique_modifySub (h : ∀ other, tree.nameOf other ≠ name) (sub : SubId)
    (f : Subroutine → Subroutine) : (tree.modifySub sub f).Unique name := by
  refine ⟨sub, fun other hother => ?_⟩
  rcases nameOf_modifySub tree sub f other with heq | ⟨rfl, -⟩
  · exact absurd (heq ▸ hother) (h other)
  · rfl

end Tree

namespace Machine

variable {script : Script} {settings : LiftSettings} {m m' : Machine}

/-- The subroutine lifted first is the start; no other has a name yet. -/
structure Named (m : Machine) : Prop where
  pos : 0 < m.tree.subroutines.size
  name : ∀ sub : SubId, m.tree.nameOf sub = if sub.index = 0 then startName else ""

theorem Named.of_subroutines_eq (h : m.Named) (heq : m'.tree.subroutines = m.tree.subroutines) :
    m'.Named :=
  ⟨by rw [heq]; exact h.pos, fun sub => by rw [Tree.nameOf_of_subroutines_eq heq, h.name]⟩

theorem Move.named (h : Move script settings m m') (hm : m.Named) : m'.Named := by
  cases h with
  | @finish act callers =>
    refine ⟨by simpa [Machine.finish, Tree.modifySub] using hm.pos, fun sub => ?_⟩
    rw [← hm.name]
    rcases Tree.nameOf_modifySub m.tree act.sub (fun s => { s with
      stop := act.last, formals := Activation.formals m.tree act.outer }) sub with heq | ⟨rfl, heq⟩
    · exact heq
    · exact heq
  | skip | start | leave | lost => exact hm.of_subroutines_eq rfl
  | next _ _ _ hrun | stop _ _ _ hrun =>
    exact hm.of_subroutines_eq ((Site.visit_subroutines _ _ _).ok hrun).2
  | @enter act callers walk ins target =>
    refine ⟨by simp [Machine.begin, Tree.addSub], fun sub => ?_⟩
    refine (Tree.nameOf_addSub _ _ sub).trans ?_
    have hpos := hm.pos
    split
    · next heq =>
      subst heq
      rw [if_neg]
      exact Nat.ne_of_gt hpos
    · have hsame : (m.tree.alloc target (.block [])).nameOf sub = m.tree.nameOf sub :=
        Tree.nameOf_of_subroutines_eq rfl
      exact hsame.trans (hm.name sub)
  | fault _ _ _ hrun => exact hm.of_subroutines_eq ((Site.visit_subroutines _ _ _).error hrun).2

end Machine

namespace Lift

theorem subroutines_labels (program : Program) : (labels program).1.subroutines = #[] :=
  labels_induction (P := fun state => state.1.subroutines = #[]) rfl (fun _ _ _ h => h) program

theorem start_named (program : Program) : (start (labels program).1).Named := by
  have hnone := subroutines_labels program
  refine ⟨by simp [start, Machine.begin, Tree.addSub], fun sub => ?_⟩
  refine (Tree.nameOf_addSub _ _ sub).trans ?_
  have hnext : ∀ offset node, ((labels program).1.alloc offset node).nextSubId = ⟨0⟩ := by
    intro offset node
    simp [Tree.nextSubId, Tree.alloc, hnone]
  rw [hnext, Tree.nameOf_eq]
  cases sub
  simp [Tree.alloc, hnone]

/-- The names that go with a place in the output and are dropped from it. -/
def Placed (name : String) : Prop := name = startName ∨ name = globalsName

theorem Placed.ne {name : String} (h : Placed name) :
    name ≠ "" ∧ name ≠ mainName ∧ name ≠ conditionalName := by
  rcases h with rfl | rfl <;> decide

theorem unique_nameMain {tree : Tree} {name : String} (hname : Placed name) (h : tree.Unique name)
    (sub : SubId) : (nameMain tree sub).Unique name := by
  refine h.modifySub fun heq => ?_
  obtain ⟨-, hmain, hconditional⟩ := hname.ne
  dsimp only at heq
  split at heq
  · exact absurd heq.symm hmain
  · exact absurd heq.symm hconditional

theorem unique_nameGlobals {tree : Tree} (hstart : tree.Unique startName)
    (hglobals : ∀ sub, tree.nameOf sub ≠ globalsName) {name : String} (hname : Placed name)
    (sub : SubId) : (nameGlobals tree sub).Unique name := by
  have hnamed : (tree.modifySub sub fun s => { s with name := globalsName }).Unique name := by
    rcases hname with rfl | rfl
    · exact hstart.modifySub fun heq => absurd heq (show globalsName ≠ startName by decide)
    · exact Tree.unique_modifySub hglobals sub _
  exact hnamed.of_subroutines_eq rfl

theorem unique_nameSubroutines {tree : Tree} (hstart : tree.Unique startName)
    (hglobals : ∀ sub, tree.nameOf sub ≠ globalsName) {name : String} (hname : Placed name) :
    (nameSubroutines tree).Unique name := by
  have hfirst : tree.Unique name := by
    rcases hname with rfl | rfl
    · exact hstart
    · exact ⟨⟨0⟩, fun other hother => absurd hother (hglobals other)⟩
  unfold nameSubroutines
  split
  · exact unique_nameMain hname hfirst _
  · exact unique_nameMain hname (unique_nameGlobals hstart hglobals hname _) _
  · exact unique_nameGlobals hstart hglobals hname _
  · exact hfirst

theorem unique_nameSubroutines_main {tree : Tree} {name : String}
    (hname : name = mainName ∨ name = conditionalName) (hnone : ∀ sub, tree.nameOf sub ≠ name) :
    (nameSubroutines tree).Unique name := by
  have hglobals : ∀ sub other, (nameGlobals tree sub).nameOf other ≠ name := by
    intro sub other heq
    have hsame : (nameGlobals tree sub).nameOf other =
        (tree.modifySub sub fun s => { s with name := globalsName }).nameOf other :=
      Tree.nameOf_of_subroutines_eq rfl
    rcases Tree.nameOf_modifySub tree sub (fun s => { s with name := globalsName }) other with
      hold | ⟨-, hnew⟩
    · exact hnone other (hold.symm.trans (hsame.symm.trans heq))
    · have hplaced : name = globalsName := heq.symm.trans (hsame.trans hnew)
      rcases hname with rfl | rfl <;> exact absurd hplaced (by decide)
  unfold nameSubroutines
  split
  · exact Tree.unique_modifySub hnone _ _
  · exact Tree.unique_modifySub (hglobals _) _ _
  · exact ⟨⟨0⟩, fun other hother => absurd hother (hglobals _ other)⟩
  · exact ⟨⟨0⟩, fun other hother => absurd hother (hnone other)⟩

/-- The first of the output keeps its name. -/
theorem nameOf_nameSubroutines {tree : Tree} {first : SubId} {rest : List SubId}
    (horder : tree.order = first :: rest) (hfirst : first ∉ rest) :
    (nameSubroutines tree).nameOf first = tree.nameOf first := by
  have hkept : ∀ {t : Tree} {sub : SubId} {f : Subroutine → Subroutine}, sub ∈ rest →
      (t.modifySub sub f).nameOf first = t.nameOf first := by
    intro t sub f hsub
    rcases Tree.nameOf_modifySub t sub f first with heq | ⟨rfl, -⟩
    · exact heq
    · exact absurd hsub hfirst
  have hglobals : ∀ {sub}, sub ∈ rest →
      (nameGlobals tree sub).nameOf first = tree.nameOf first := by
    intro sub hsub
    have hsame : (nameGlobals tree sub).nameOf first =
        (tree.modifySub sub fun s => { s with name := globalsName }).nameOf first :=
      Tree.nameOf_of_subroutines_eq rfl
    exact hsame.trans (hkept hsub)
  unfold nameSubroutines
  split
  · next hplace =>
    obtain ⟨-, rfl⟩ := List.cons.inj (horder.symm.trans hplace)
    exact hkept List.mem_cons_self
  · next hplace =>
    obtain ⟨-, rfl⟩ := List.cons.inj (horder.symm.trans hplace)
    exact (hkept (List.mem_cons_of_mem _ List.mem_cons_self)).trans (hglobals List.mem_cons_self)
  · next hplace =>
    obtain ⟨-, rfl⟩ := List.cons.inj (horder.symm.trans hplace)
    exact hglobals List.mem_cons_self
  · rfl

end Lift

theorem exists_named {program : Program} {routines : Routines} {settings : LiftSettings}
    {tree : Tree} (h : lift program routines settings = some (.ok tree)) :
    ∃ lifted : Tree, tree = Lift.nameSubroutines lifted ∧ lifted.order = tree.order ∧
      ∀ sub, lifted.nameOf sub = if sub.index = 0 then startName else "" := by
  obtain ⟨lifted, hrun, rfl⟩ := lift_eq_ok h
  obtain ⟨last, hlast, -, rfl⟩ := Machine.run_induction (P := Machine.Named)
    (fun hm hmove => hmove.named hm) (Lift.start_named program) hrun
  refine ⟨_, rfl, (Lift.order_complete last.tree).symm, fun sub => ?_⟩
  have hsame : (Lift.collectGlobals last.tree).nameOf sub = last.tree.nameOf sub :=
    Tree.nameOf_of_subroutines_eq rfl
  exact hsame.trans (hlast.name sub)

theorem lift_unique {program : Program} {routines : Routines} {settings : LiftSettings} {tree : Tree}
    (h : lift program routines settings = some (.ok tree)) {name : String} (hname : Lift.Placed name) :
    tree.Unique name := by
  obtain ⟨lifted, rfl, -, hnames⟩ := exists_named h
  refine Lift.unique_nameSubroutines ⟨⟨0⟩, fun other hother => ?_⟩ (fun other hother => ?_) hname
  · rw [hnames] at hother
    split at hother
    · next hzero => exact congrArg SubId.mk hzero
    · exact absurd hother (by decide)
  · rw [hnames] at hother
    split at hother
    · exact absurd hother (by decide)
    · exact absurd hother (by decide)

theorem lift_unique_main {program : Program} {routines : Routines} {settings : LiftSettings}
    {tree : Tree} (h : lift program routines settings = some (.ok tree)) {name : String}
    (hname : name = mainName ∨ name = conditionalName) : tree.Unique name := by
  obtain ⟨lifted, rfl, -, hnames⟩ := exists_named h
  refine Lift.unique_nameSubroutines_main hname fun sub hsub => ?_
  rw [hnames] at hsub
  rcases hname with rfl | rfl <;> split at hsub <;> exact absurd hsub (by decide)

theorem lift_unique_fixed {program : Program} {routines : Routines} {settings : LiftSettings}
    {tree : Tree} (h : lift program routines settings = some (.ok tree)) {name : String}
    (hname : name ∈ [startName, globalsName, mainName, conditionalName]) : tree.Unique name := by
  simp only [List.mem_cons, List.not_mem_nil, or_false] at hname
  rcases hname with hstart | hglobals | hmain
  · exact lift_unique h (.inl hstart)
  · exact lift_unique h (.inr hglobals)
  · exact lift_unique_main h hmain

end ScriptLift
