import ScriptLift.Proofs.Compact.Idempotence
import ScriptLift.Proofs.Lift.Entries

namespace ScriptLift

namespace Tree

variable {old mid new : Tree} {p q : SubId → Prop}

/-- The output loses the subroutines outside `p`; starts and reports stay. -/
structure Retains (p : SubId → Prop) (old new : Tree) : Prop where
  order : ∀ sub, sub ∈ new.order ↔ sub ∈ old.order ∧ p sub
  start : ∀ sub, (new.sub sub).start = (old.sub sub).start
  diagnostics : new.diagnostics = old.diagnostics

namespace Retains

theorem trans (h : Retains p old mid) (g : Retains q mid new) :
    Retains (fun sub => p sub ∧ q sub) old new where
  order sub := by rw [g.order, h.order, and_assoc]
  start sub := (g.start sub).trans (h.start sub)
  diagnostics := g.diagnostics.trans h.diagnostics

theorem congr (h : Retains p old new) (hpq : ∀ sub, p sub ↔ q sub) : Retains q old new where
  order sub := by rw [h.order, hpq]
  start := h.start
  diagnostics := h.diagnostics

theorem of_order_eq (horder : new.order = old.order)
    (hstart : ∀ sub, (new.sub sub).start = (old.sub sub).start)
    (hdiagnostics : new.diagnostics = old.diagnostics) : Retains (fun _ => True) old new :=
  ⟨fun sub => by rw [horder, and_true], hstart, hdiagnostics⟩

theorem refl (tree : Tree) : Retains (fun _ => True) tree tree :=
  of_order_eq rfl (fun _ => rfl) rfl

theorem trans_all (h : Retains p old mid) (g : Retains (fun _ => True) mid new) :
    Retains p old new :=
  (h.trans g).congr fun _ => by rw [and_true]

end Retains

theorem Edits.retains (h : Edits old new) : Retains (fun _ => True) old new :=
  .of_order_eq h.order (fun _ => start_of_subroutines_eq h.subroutines) h.diagnostics

/-- The subroutine goes with its place: the start always, the initializer of the globals if these
are folded. -/
def Drops (tree : Tree) (settings : CompactSettings) (sub : SubId) : Prop :=
  tree.nameOf sub = startName ∨ settings.foldGlobals ∧ tree.nameOf sub = globalsName

instance (tree : Tree) (settings : CompactSettings) (sub : SubId) :
    Decidable (tree.Drops settings sub) :=
  inferInstanceAs (Decidable (_ ∨ _ ∧ _))

theorem edits_stripReturns (tree : Tree) : tree.Edits tree.stripReturns.1 := by
  have hfold : ∀ (subs : List SubId) (state : Tree × Bool),
      state.1.Edits (subs.foldl stripReturn state).1 := by
    intro subs
    induction subs with
    | nil => exact fun state => Edits.refl state.1
    | cons sub subs ih =>
      intro state
      refine Edits.trans ?_ (ih (stripReturn state sub))
      unfold stripReturn
      dsimp only
      split
      · split
        · dsimp only [modifyStatements]
          exact Edits.modify state.1 _ _
        · exact Edits.refl state.1
      · exact Edits.refl state.1
  exact hfold tree.order (tree, false)

end Tree

namespace Draft

variable {settings : CompactSettings} {routines : Routines} {draft next : Draft} {name : String}

theorem retains_dropSub (draft : Draft) (h : draft.tree.Unique name) :
    draft.tree.Retains (fun sub => draft.tree.nameOf sub ≠ name) (draft.dropSub name).1.tree := by
  have hsubs := subroutines_dropSub draft name
  refine ⟨fun sub => ⟨fun hsub => ⟨order_dropSub_subset draft name hsub, fun hname => ?_⟩, ?_⟩,
    fun sub => Tree.start_of_subroutines_eq hsubs, ?_⟩
  · exact lacks_dropSub h sub hsub ((Tree.nameOf_of_subroutines_eq hsubs).trans hname)
  · rintro ⟨hsub, hname⟩
    unfold dropSub
    split
    · next found hfound =>
      refine List.mem_filter.2 ⟨hsub, ?_⟩
      rw [decide_eq_true_eq]
      rintro rfl
      exact hname (by simpa [Tree.nameOf] using List.find?_some hfound)
    · exact hsub
  · unfold dropSub
    split <;> rfl

theorem retains_foldGlobals (routines : Routines) (draft : Draft)
    (h : draft.tree.Unique globalsName) :
    draft.tree.Retains (fun sub => draft.tree.nameOf sub ≠ globalsName)
      (draft.foldGlobals routines).1.tree := by
  obtain ⟨globals, htree⟩ := foldGlobals_tree routines draft
  let folded : Draft := { draft with tree := { draft.tree with globals } }
  have hfolded : draft.tree.Retains (fun _ => True) folded.tree :=
    .of_order_eq rfl (fun _ => Tree.start_of_subroutines_eq rfl) rfl
  have hdropped := retains_dropSub folded (h.of_subroutines_eq rfl)
  rw [htree]
  refine (hfolded.trans hdropped).congr fun sub => ?_
  have hname : folded.tree.nameOf sub = draft.tree.nameOf sub := Tree.nameOf_of_subroutines_eq rfl
  rw [true_and, hname]

theorem retains_prepare (settings : CompactSettings) (routines : Routines) {tree : Tree}
    (hstart : tree.Unique startName) (hglobals : tree.Unique globalsName) :
    tree.Retains (fun sub => ¬tree.Drops settings sub) (prepare settings routines tree).tree := by
  let started := ({ tree : Draft }.dropSub startName).1.refresh routines
  have hsubs : started.tree.subroutines = tree.subroutines := subroutines_dropSub { tree } startName
  have hstarted : tree.Retains (fun sub => tree.nameOf sub ≠ startName) started.tree :=
    retains_dropSub { tree } hstart
  unfold prepare
  dsimp only
  split
  · next hon =>
    have hfolded : started.tree.Retains (fun sub => started.tree.nameOf sub ≠ globalsName) _ :=
      retains_foldGlobals routines started (hglobals.of_subroutines_eq hsubs)
    refine (hstarted.trans hfolded).congr fun sub => ?_
    rw [Tree.nameOf_of_subroutines_eq hsubs]
    simp [Tree.Drops, hon]
  · next hoff =>
    refine hstarted.congr fun sub => ?_
    simp [Tree.Drops, hoff]

theorem Change.retains (h : Change settings routines draft next) :
    draft.tree.Retains (fun _ => True) next.tree := by
  cases h with
  | queue => exact .refl _
  | step hstep =>
    cases hstep with
    | @recover sub index formal =>
      have hmarked : draft.tree.Retains (fun _ => True)
          (draft.tree.modifySub sub (answering index formal)) :=
        .of_order_eq rfl (fun _ => Tree.field_modifySub (·.start) fun _ => rfl) rfl
      exact hmarked.trans_all (edits_makeResult draft sub index formal).retains
    | @rewrite block rewrite =>
      exact .of_order_eq (by cases rewrite <;> rfl)
        (fun _ => Tree.start_of_subroutines_eq (subroutines_apply rewrite))
        (by cases rewrite <;> rfl)

theorem Changes.retains (h : Changes settings routines draft next) :
    draft.tree.Retains (fun _ => True) next.tree := by
  induction h with
  | refl => exact .refl _
  | tail _ hchange ih => exact ih.trans_all hchange.retains

end Draft

theorem retains_compacted {program : Program} {routines : Routines} {lifting : LiftSettings}
    {settings : CompactSettings} {tree : Tree} (hlift : lift program routines lifting = some (.ok tree))
    (henabled : settings.enabled) :
    tree.Retains (fun sub => ¬tree.Drops settings sub)
      ((Optimizer.dataFlow routines settings).run tree).1 := by
  have hprepared := Draft.retains_prepare settings routines (lift_unique hlift (.inl rfl))
    (lift_unique hlift (.inr rfl))
  have hsettled := hprepared.trans_all (Draft.changes_settled settings routines tree).retains
  have hstripped := hsettled.trans_all (Tree.edits_stripReturns _).retains
  rw [← Draft.compact_tree] at hstripped
  simpa only [Optimizer.dataFlow, henabled, if_true] using hstripped

end ScriptLift
