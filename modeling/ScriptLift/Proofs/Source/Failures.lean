import ScriptLift.Proofs.Lift.Faults
import ScriptLift.Proofs.Source.Reports

/-! Where a script has no text.

Only lifting can fail. Every action that it makes is one of a routine of the table, compaction brings
no action of its own, and an unknown routine is all that the text of a tree can fail by. -/
namespace ScriptLift

theorem Node.routine?_setOperand (node : Node) (role : Role) (value : NodeId) :
    ((node.setOperand? role value).getD node).routine? = node.routine? := by
  cases hset : node.setOperand? role value with
  | none => rfl
  | some next =>
    obtain ⟨-, rfl⟩ := Node.setOperand?_eq_some_iff.1 hset
    cases node <;> rfl

namespace Tree

variable {routines : Routines} {old new tree : Tree} {id : NodeId}

theorem Known.setOperand (h : tree.Known routines) (role : Role) (value : NodeId) :
    (tree.setOperand id role value).Known routines :=
  h.modify (Node.routine?_setOperand _ role value)

theorem Known.setDeclares (h : tree.Known routines) (declares : Bool) :
    (tree.setDeclares id declares).Known routines :=
  h.modify (by cases tree.node id <;> rfl)

theorem Trims.known (h : Trims old new) (hold : old.Known routines) : new.Known routines := by
  intro id routine hroutine
  rcases h.node id with heq | ⟨statements, ret, -, -, hnew⟩
  · rw [heq] at hroutine
    exact hold id routine hroutine
  · rw [hnew] at hroutine
    cases hroutine

theorem Trims.cycleFree (h : Trims old new) (hold : old.CycleFree) : new.CycleFree := by
  have hholds : ∀ a b, new.Holds a b → old.Holds a b := by
    intro a b hab
    by_cases hkind : new.kind a = .block
    · rw [Holds, below_of_kind_block hkind] at hab
      rw [Holds, below_of_kind_block (h.kind_eq a ▸ hkind)]
      exact (h.initial a).subset hab
    · rw [Holds, below_of_kind_ne_block hkind, h.operands_eq] at hab
      rwa [Holds, below_of_kind_ne_block (h.kind_eq a ▸ hkind)]
  rintro id ⟨sub, hsub, hid⟩ hcycle
  rw [h.order] at hsub
  rw [h.sub_eq] at hid
  exact hold id ⟨sub, hsub, Relation.ReflTransGen.mono hholds _ _ hid⟩
    (Relation.TransGen.mono hholds _ _ hcycle)

end Tree

namespace Draft

variable {settings : CompactSettings} {routines : Routines} {draft next : Draft}

theorem known_apply (h : draft.tree.Known routines) (block : NodeId) (rewrite : Rewrite) :
    (rewrite.apply block draft).tree.Known routines := by
  cases rewrite with
  | dropDeclaration | dropAssignment | dropLabel | keepValue => exact h.modifyStatements _
  | mergeDeclaration => exact (h.setDeclares _).modifyStatements _
  | collapseAction | collapseVector => exact h.setOperand _ _
  | assignCall => exact (h.alloc (by simp [Node.routine?])).modifyStatements _
  | inlineValue => exact (h.setOperand _ _).modifyStatements _

theorem Recovery.known {sub : SubId} {index count : Nat} {formal : Formal}
    (h : Recovery sub index formal count draft next) (hdraft : draft.tree.Known routines) :
    next.tree.Known routines := by
  induction h with
  | refl => exact hdraft
  | trans _ _ ihh ihg => exact ihg (ihh hdraft)
  | subroutine => exact hdraft.of_exprs_eq rfl
  | slot => exact hdraft.modifySlot _
  | declare => exact hdraft.modifyStatements _
  | answer draft ret => exact hdraft.modify (by cases draft.tree.node ret <;> rfl)
  | take draft call =>
    unfold takeArgument
    split
    · next callee arguments hnode =>
      split
      · exact hdraft.modify (f := fun _ => .call callee _) (by rw [hnode]; rfl)
      · exact hdraft
    · exact hdraft

theorem Changes.known (h : Changes settings routines draft next)
    (hdraft : draft.tree.Known routines) : next.tree.Known routines := by
  induction h with
  | refl => exact hdraft
  | tail _ hchange ih =>
    cases hchange with
    | queue => exact ih
    | step hstep =>
      cases hstep with
      | recover => exact (recovery_makeResult _ _ _ _).known ih
      | rewrite => exact known_apply ih _ _

end Draft

section Compacted

variable {program : Program} {routines : Routines} {lifting : LiftSettings}
  {settings : CompactSettings} {tree : Tree}

/-- What is said of a lifted tree, of all trees on the way and of what is left without returns, is
said of the compacted tree. -/
theorem compacted_induction {P : Tree → Prop} (hlift : lift program routines lifting = some (.ok tree))
    (htree : P tree)
    (hchanges : ∀ draft, Draft.Changes settings routines (.prepare settings routines tree) draft →
      P draft.tree)
    (htrims : ∀ {old new}, Tree.Trims old new → P old → P new) :
    P ((Optimizer.dataFlow routines settings).run tree).1 := by
  by_cases henabled : settings.enabled
  · obtain ⟨-, hproper, -⟩ := Draft.settled_normal settings routines (lift_wellFormed hlift)
    have hsettled := hchanges (.settled settings routines tree) (Draft.changes_settled _ _ _)
    have hstripped := htrims (Tree.stripReturns_spec hproper.tree).1 hsettled
    rw [← Draft.compact_tree] at hstripped
    simpa only [Optimizer.dataFlow, henabled, if_true] using hstripped
  · simpa [Optimizer.dataFlow, henabled] using htree

theorem compacted_known (hlift : lift program routines lifting = some (.ok tree)) :
    ((Optimizer.dataFlow routines settings).run tree).1.Known routines := by
  have hknown := lift_known hlift
  refine compacted_induction (P := fun tree => tree.Known routines) hlift hknown ?_ Tree.Trims.known
  exact fun draft hchanges => hchanges.known
    (hknown.of_exprs_eq (Draft.prepare_tree settings routines tree).1)

theorem compacted_cycleFree (hlift : lift program routines lifting = some (.ok tree))
    (hfree : tree.CycleFree) :
    ((Optimizer.dataFlow routines settings).run tree).1.CycleFree := by
  refine compacted_induction hlift hfree (fun draft hchanges => ?_) Tree.Trims.cycleFree
  have hexprs := (Draft.prepare_tree settings routines tree).1
  exact (hchanges.cycleFree (Draft.prepare_current settings routines tree)
    (Draft.prepare_sturdy settings routines (lift_closed hlift) hfree)
    ((lift_unnested hlift).of_exprs_eq hexprs)).2

end Compacted

namespace Source

variable {α β : Type}

def Answers (x : Except Error α) : Prop := ∃ a, x = .ok a

namespace Answers

theorem pure (a : α) : Answers (Pure.pure a : Except Error α) := ⟨a, rfl⟩

theorem bind {x : Except Error α} {f : α → Except Error β} (hx : Answers x)
    (hf : ∀ a, Answers (f a)) : Answers (x >>= f) := by
  obtain ⟨a, rfl⟩ := hx
  exact hf a

theorem map {x : Except Error α} (hx : Answers x) (f : α → β) : Answers (f <$> x) := by
  obtain ⟨a, rfl⟩ := hx
  exact ⟨f a, rfl⟩

theorem mapM {f : α → Except Error β} (hf : ∀ a, Answers (f a)) (xs : List α) :
    Answers (xs.mapM f) := by
  induction xs with
  | nil => exact pure []
  | cons a xs ih =>
    rw [List.mapM_cons]
    exact (hf a).bind fun b => ih.bind fun bs => pure (b :: bs)

end Answers

variable {tree : Tree} {routines : Routines} {settings : SourceSettings}

theorem answers_joined {part : NodeId → Except Error String} (h : ∀ id, Answers (part id))
    (separator : String) (parts : List NodeId) : Answers (joined separator part parts) :=
  (Answers.mapM h parts).bind fun _ => .pure _

theorem answers_operandText {text : NodeId → Except Error String} (h : ∀ id, Answers (text id))
    (id : NodeId) : Answers (operandText tree text id) :=
  (h id).bind fun _ => .pure _

theorem answers_statementText {text : NodeId → Except Error String} (h : ∀ id, Answers (text id))
    (id : NodeId) : Answers (statementText tree text id) := by
  unfold statementText
  split
  · exact .pure _
  · exact h id

/-- A tree has texts at every depth. -/
theorem answers_textTo (h : tree.Known routines) (depth : Nat) (id : NodeId) :
    Answers (textTo tree routines depth id) := by
  induction depth generalizing id with
  | zero => exact .pure _
  | succ depth ih =>
    unfold textTo
    split
    case h_1 =>
      refine (answers_joined (fun s => ?_) _ _).bind fun _ => .pure _
      exact (answers_statementText ih s).map _
    case h_7 => exact (ih _).bind fun _ => .pure _
    case h_8 => exact (ih _).bind fun _ => (ih _).bind fun _ => .pure _
    case h_9 routine arguments hnode =>
      have hknown := h id routine (by rw [hnode]; rfl)
      split
      · next hnone =>
        rw [hnone] at hknown
        cases hknown
      · exact (answers_joined ih _ _).bind fun _ => .pure _
    case h_10 | h_11 => exact (answers_joined ih _ _).bind fun _ => .pure _
    case h_12 | h_13 => exact (answers_operandText ih _).bind fun _ => .pure _
    case h_14 =>
      refine (ih _).bind fun _ => ?_
      split
      · exact .pure _
      · exact (ih _).bind fun _ => .pure _
    case h_15 =>
      exact (answers_operandText ih _).bind fun _ => (answers_operandText ih _).bind fun _ => .pure _
    all_goals exact .pure _

namespace Render

def Answers (x : Render α) : Prop := ∀ cache, Source.Answers (x cache)

theorem answers_pure (a : α) : Answers (pure a : Render α) := fun cache => ⟨(a, cache), rfl⟩

theorem answers_lift {x : Except Error α} (h : Source.Answers x) : Answers (liftM x : Render α) := by
  intro cache
  obtain ⟨a, rfl⟩ := h
  exact ⟨(a, cache), rfl⟩

theorem answers_bind {x : Render α} {f : α → Render β} (hx : Answers x) (hf : ∀ a, Answers (f a)) :
    Answers (x >>= f) := by
  intro cache
  obtain ⟨⟨a, mid⟩, hfirst⟩ := hx cache
  obtain ⟨last, hlast⟩ := hf a mid
  refine ⟨last, ?_⟩
  change (x cache >>= fun p => f p.1 p.2) = _
  rw [hfirst]
  exact hlast

theorem answers_mapM {f : α → Render β} (hf : ∀ a, Answers (f a)) (xs : List α) :
    Answers (xs.mapM f) := by
  induction xs with
  | nil => exact answers_pure []
  | cons a xs ih =>
    rw [List.mapM_cons]
    exact answers_bind (hf a) fun b => answers_bind ih fun bs => answers_pure (b :: bs)

end Render

theorem answers_lines (h : tree.Known routines) {nested : NodeId → Render String}
    (hnested : ∀ id, Render.Answers (nested id)) (level : Nat) (statement : NodeId) :
    Render.Answers (lines tree routines settings nested level statement) := by
  have htext := answers_textTo h (tree.size + 1)
  unfold lines
  split
  · exact Render.answers_pure _
  · exact Render.answers_bind (Render.answers_lift (htext _)) fun _ => Render.answers_bind (hnested _) fun _ =>
      Render.answers_pure _
  · exact Render.answers_bind (Render.answers_lift (answers_statementText htext statement)) fun _ =>
      Render.answers_pure _

theorem answers_blockTo (h : tree.Known routines) (depth level : Nat) (block : NodeId) :
    Render.Answers (blockTo tree routines settings depth level block) := by
  induction depth generalizing level block with
  | zero => exact Render.answers_pure _
  | succ depth ih =>
    unfold blockTo
    refine Render.answers_bind (fun cache => ⟨(cache, cache), rfl⟩) fun known => ?_
    split
    · exact Render.answers_pure _
    · exact Render.answers_bind (Render.answers_mapM (answers_lines h (ih (level + 1)) level) _) fun _ =>
        Render.answers_bind (fun cache => ⟨((), _ :: cache), rfl⟩) fun _ => Render.answers_pure _

theorem failure_subroutines (h : tree.Known routines) (first : Bool) (cache : Cache)
    (subs : List Subroutine) : (subroutines tree routines settings first cache subs).failure = none := by
  induction subs generalizing first cache with
  | nil => rfl
  | cons sub subs ih =>
    obtain ⟨⟨text, cache'⟩, hbody⟩ : Answers (body tree routines settings sub.root cache) :=
      answers_blockTo h _ _ _ cache
    simp only [subroutines, hbody]
    exact ih false cache'

theorem answers_render (h : tree.Known routines) : Answers (render tree routines settings) := by
  have hnone : (output tree routines settings).failure = none := failure_subroutines h _ _ _
  unfold render
  dsimp only
  rw [hnone]
  exact .pure _

end Source

/-- If the lifted tree has no cycle, where there is one: a script has no text because calls nest too
deeply, or, if lifting is strict, because a block of it is given up; leniently only because of the
depth. No instruction is refused as unsupported, for the tables know each one that is looked up in
them. What is lifted can be compacted, has no cycle then either, and always has a text. -/
theorem decompile_stops (program : Program) (routines : Routines) (settings : Settings)
    (hfree : ∀ tree, lift program routines settings.lift = some (.ok tree) → tree.CycleFree) :
    (∀ e, decompile program routines settings = some (.error e) →
      settings.lift.Stops program routines e ∧
        (settings.lift.strict = false → e = .recursionLimit settings.lift.maxDepth) ∧
        ∀ entry start source, e = .block entry start source → source.isFinal = false) ∧
    (∀ (ins : Instruction), ins.Tabled) ∧
    (∀ (site : Site) (script : Script) callees ws cause ws',
      site.visit script callees ws = .error cause ws' →
        ∀ offset opcode, cause ≠ .unsupportedInstruction offset opcode) ∧
    ∀ tree, lift program routines settings.lift = some (.ok tree) →
      ∃ compacted, optimize routines settings.compact tree = some compacted ∧
        compacted.1.CycleFree ∧
        ∃ text, Source.render compacted.1 routines settings.source = .ok text := by
  have htext : ∀ tree, lift program routines settings.lift = some (.ok tree) →
      Source.Answers (Source.render ((Optimizer.dataFlow routines settings.compact).run tree).1
        routines settings.source) :=
    fun tree hlift => Source.answers_render (compacted_known hlift)
  refine ⟨fun e h => ?_, Instruction.tabled, fun site script callees ws cause ws' h => ?_,
    fun tree hlift => ⟨_, optimize_of_cycleFree hlift (hfree tree hlift),
      compacted_cycleFree hlift (hfree tree hlift), htext tree hlift⟩⟩
  · have hstops : settings.lift.Stops program routines e := by
      obtain ⟨lifted, hlift, hrest⟩ := Option.bind_eq_some_iff.1 h
      cases lifted with
      | error cause =>
        cases hrest
        exact lift_stops hlift
      | ok tree =>
        obtain ⟨compacted, hcompacted, hrest⟩ := Option.bind_eq_some_iff.1 hrest
        obtain rfl := eq_of_optimize hlift hcompacted
        obtain ⟨text, hrender⟩ := htext tree hlift
        cases hrender.symm.trans (Option.some.inj hrest)
    refine ⟨hstops, hstops.eq_of_lenient, ?_⟩
    rintro entry start source rfl
    exact hstops.not_isFinal
  · exact ((site.visit_abides script callees).fault h).refused.ne_unsupported

/-- A script that prints a global has a text. A script that adds what is not there has none if lifting
is strict, and has no tree then. -/
theorem decompile_stops_copyScript :
    let shown := copyScript { opcode := .action, routine := 1, arity := 1 }
    let settings : Settings := {}
    (∃ tree compacted text, lift shown showRoutines settings.lift = some (.ok tree) ∧
      tree.CycleFree ∧ optimize showRoutines settings.compact tree = some compacted ∧
      Source.render compacted.1 showRoutines settings.source = .ok text) ∧
    ∃ e, decompile brokenScript {} { lift := .strictly } = some (.error e) ∧
      LiftSettings.strictly.Stops brokenScript {} e := by
  intro shown settings
  constructor
  · obtain ⟨tree, hlift, hlayered⟩ :=
      exists_of_lift shown showRoutines settings.lift Tree.isLayered (by decide +kernel)
    have hfree : ∀ tree, lift shown showRoutines settings.lift = some (.ok tree) → tree.CycleFree := by
      intro other hother
      cases hlift.symm.trans hother
      exact (Tree.acyclic_of_isLayered hlayered).cycleFree
    obtain ⟨-, -, -, htext⟩ := decompile_stops shown showRoutines settings hfree
    obtain ⟨compacted, hcompacted, -, text, hrender⟩ := htext tree hlift
    exact ⟨tree, compacted, text, hlift, hfree tree hlift, hcompacted, hrender⟩
  · have hresult : (liftWithin 256 brokenScript {} .strictly).any (·.toOption.isNone) := by
      decide +kernel
    obtain ⟨result, hwithin, hnone⟩ := (Option.any_eq_true _ _).1 hresult
    have hlift := lift_of_liftWithin hwithin
    cases result with
    | ok tree => cases hnone
    | error e =>
      have hrun : decompile brokenScript {} { lift := .strictly } = some (.error e) := by
        rw [decompile, hlift]
        rfl
      refine ⟨e, hrun, ((decompile_stops brokenScript {} { lift := .strictly } ?_).1 e hrun).1⟩
      intro tree hother
      cases hlift.symm.trans hother

end ScriptLift
