import ScriptLift.Proofs.Lift.Moves
import ScriptLift.Proofs.Tree.Shape

namespace ScriptLift

def Node.routine? : Node → Option UInt16
  | .action routine _ => some routine
  | _ => none

/-- All actions call routines of the table. -/
def Tree.Known (routines : Routines) (tree : Tree) : Prop :=
  ∀ id routine, (tree.node id).routine? = some routine → (routines.get? routine).isSome

namespace Tree.Known

variable {routines : Routines} {tree new : Tree} {id : NodeId}

theorem empty (routines : Routines) : ({} : Tree).Known routines := by
  intro id routine h
  rw [node_of_size_le (by simp [size])] at h
  cases h

theorem of_exprs_eq (h : tree.Known routines) (heq : new.exprs = tree.exprs) :
    new.Known routines := by
  intro id routine hroutine
  rw [node, get, get?, heq] at hroutine
  exact h id routine hroutine

theorem alloc (h : tree.Known routines) {offset : Nat} {node : Node}
    (hnode : ∀ routine, node.routine? = some routine → (routines.get? routine).isSome) :
    (tree.alloc offset node).Known routines := by
  intro id routine hroutine
  rcases Nat.lt_trichotomy id.index tree.size with hlt | heq | hgt
  · rw [node_alloc_of_lt hlt] at hroutine
    exact h id routine hroutine
  · rw [eq_nextId_of_index heq, node_alloc_nextId] at hroutine
    exact hnode routine hroutine
  · rw [node_of_size_le (by rw [size_alloc]; exact hgt)] at hroutine
    cases hroutine

theorem modify (h : tree.Known routines) {f : Node → Node}
    (hf : (f (tree.node id)).routine? = (tree.node id).routine?) :
    (tree.modify id f).Known routines := by
  intro other routine hroutine
  rcases node_modify_cases tree id other f with heq | ⟨rfl, -, heq⟩
  · rw [heq] at hroutine
    exact h other routine hroutine
  · rw [heq, hf] at hroutine
    exact h other routine hroutine

theorem modifySlot (h : tree.Known routines) (f : Slot → Slot) :
    (tree.modifySlot id f).Known routines :=
  h.modify (by cases tree.node id <;> rfl)

theorem modifyStatements (h : tree.Known routines) (f : List NodeId → List NodeId) :
    (tree.modifyStatements id f).Known routines :=
  h.modify (by cases tree.node id <;> rfl)

end Tree.Known

/-- Why an instruction may be refused. -/
inductive Instruction.Refused (routines : Routines) (ins : Instruction) : Error → Prop
  | inconsistent (cause : Inconsistency) :
    Refused routines ins (.inconsistent ins.offset ins.opcode cause)
  | stackOffset : Refused routines ins (.unsupportedStackOffset ins.offset ins.opcode ins.stack)
  | unknownRoutine : routines.get? ins.routine = none →
    Refused routines ins (.unknownRoutine ins.routine)

theorem Instruction.Refused.not_isFinal {routines : Routines} {ins : Instruction} {cause : Error}
    (h : ins.Refused routines cause) : cause.isFinal = false := by
  cases h <;> rfl

theorem Instruction.Refused.ne_unsupported {routines : Routines} {ins : Instruction} {cause : Error}
    (h : ins.Refused routines cause) (offset : Nat) (opcode : Opcode) :
    cause ≠ .unsupportedInstruction offset opcode := by
  cases h <;> intro heq <;> cases heq

namespace Context

variable {ctx : Context} {cause : Inconsistency} {base count index : Nat} {position : Int}

theorem pop_ne_noLabel (h : ctx.pop = .error cause) (target : Nat) : cause ≠ .noLabel target := by
  unfold pop at h
  split at h <;> cases h
  simp

theorem popMany_ne_noLabel (h : ctx.popMany count = .error cause) (target : Nat) :
    cause ≠ .noLabel target := by
  unfold popMany at h
  split at h <;> cases h
  simp

theorem word_ne_noLabel {target : Nat} : ctx.word index ≠ .error (.noLabel target) := by
  unfold word
  split <;> simp

theorem relativeIndex_ne_noLabel {target : Nat} :
    relativeIndex base position ≠ .error (.noLabel target) := by
  unfold relativeIndex
  dsimp only
  split <;> simp

end Context

namespace Site

/-- Why the instruction may be refused in a script. A label is missing only where the instruction
leads back to a place that has none. -/
inductive Blames (site : Site) (script : Script) : Error → Prop
  | inconsistent {cause : Inconsistency} : (∀ target, cause ≠ .noLabel target) →
    Blames site script (.inconsistent site.ins.offset site.ins.opcode cause)
  | noLabel : Lift.needsLabel site.ins → script.labels.lookup site.ins.target = none →
    Blames site script (.inconsistent site.ins.offset site.ins.opcode (.noLabel site.ins.target))
  | stackOffset :
    Blames site script (.unsupportedStackOffset site.ins.offset site.ins.opcode site.ins.stack)
  | unknownRoutine : script.routines.get? site.ins.routine = none →
    Blames site script (.unknownRoutine site.ins.routine)

theorem Blames.refused {site : Site} {script : Script} {cause : Error}
    (h : site.Blames script cause) : site.ins.Refused script.routines cause := by
  cases h with
  | inconsistent | noLabel => exact .inconsistent _
  | stackOffset => exact .stackOffset
  | unknownRoutine hnone => exact .unknownRoutine hnone

/-- `x` fails with faults of the instruction only, and makes actions of known routines only. -/
structure Abides {α : Type} (site : Site) (script : Script) (x : Lift α) : Prop where
  fault : ∀ {ws cause ws'}, x ws = .error cause ws' → site.Blames script cause
  known : ∀ ws, ws.tree.Known script.routines → (Lift.left (x ws)).tree.Known script.routines

namespace Abides

variable {site : Site} {script : Script} {α β : Type}

theorem known_ok {x : Lift α} {ws ws' : Workspace} {a : α} (h : site.Abides script x)
    (hrun : x ws = .ok a ws') (hws : ws.tree.Known script.routines) : ws'.tree.Known script.routines := by
  have hleft := h.known ws hws
  rw [hrun] at hleft
  exact hleft

theorem known_error {x : Lift α} {ws ws' : Workspace} {cause : Error} (h : site.Abides script x)
    (hrun : x ws = .error cause ws') (hws : ws.tree.Known script.routines) : ws'.tree.Known script.routines := by
  have hleft := h.known ws hws
  rw [hrun] at hleft
  exact hleft

theorem of_ok {x : Lift α} (h : ∀ ws, ∃ a ws', x ws = .ok a ws' ∧
    (ws.tree.Known script.routines → ws'.tree.Known script.routines)) : site.Abides script x where
  fault {ws cause ws'} hrun := by
    obtain ⟨a, last, hok, -⟩ := h ws
    cases hok.symm.trans hrun
  known ws hws := by
    obtain ⟨a, last, hok, hknown⟩ := h ws
    rw [hok]
    exact hknown hws

theorem pure (a : α) : site.Abides script (Pure.pure a : Lift α) :=
  of_ok fun ws => ⟨a, ws, rfl, id⟩

theorem get : site.Abides script (MonadState.get : Lift Workspace) :=
  of_ok fun ws => ⟨ws, ws, rfl, id⟩

theorem modify {f : Workspace → Workspace}
    (h : ∀ ws, ws.tree.Known script.routines → (f ws).tree.Known script.routines) :
    site.Abides script (modify f : Lift Unit) :=
  of_ok fun ws => ⟨(), f ws, rfl, h ws⟩

theorem throw {cause : Error} (h : site.Blames script cause) :
    site.Abides script (MonadExcept.throw cause : Lift α) where
  fault hrun := by
    cases hrun
    exact h
  known ws hws := hws

theorem bind {x : Lift α} {f : α → Lift β} (hx : site.Abides script x)
    (hf : ∀ a, site.Abides script (f a)) : site.Abides script (x >>= f) where
  fault {ws cause ws'} hrun := by
    change EStateM.bind x f ws = _ at hrun
    unfold EStateM.bind at hrun
    cases hfirst : x ws with
    | error e mid =>
      rw [hfirst] at hrun
      cases hrun
      exact hx.fault hfirst
    | ok a mid =>
      rw [hfirst] at hrun
      exact (hf a).fault hrun
  known ws hws := by
    have hmid := hx.known ws hws
    change (Lift.left (EStateM.bind x f ws)).tree.Known script.routines
    unfold EStateM.bind
    cases hfirst : x ws with
    | error e mid =>
      rw [hfirst] at hmid
      exact hmid
    | ok a mid =>
      rw [hfirst] at hmid
      exact (hf a).known mid hmid

theorem forM {f : α → Lift Unit} (hf : ∀ a, site.Abides script (f a)) (xs : List α) :
    site.Abides script (xs.forM f) := by
  induction xs with
  | nil => exact pure ()
  | cons a xs ih => exact (hf a).bind fun _ => ih

theorem mapM {f : α → Lift β} (hf : ∀ a, site.Abides script (f a)) (xs : List α) :
    site.Abides script (xs.mapM f) := by
  induction xs with
  | nil => exact pure []
  | cons a xs ih =>
    rw [List.mapM_cons]
    exact (hf a).bind fun b => ih.bind fun bs => pure (b :: bs)

theorem fail {cause : Inconsistency} (h : ∀ target, cause ≠ .noLabel target) :
    site.Abides script (site.fail cause : Lift α) :=
  throw (.inconsistent h)

theorem require (condition : Bool) {cause : Inconsistency} (h : ∀ target, cause ≠ .noLabel target) :
    site.Abides script (site.require condition cause) := by
  unfold Site.require
  split
  · exact pure ()
  · exact fail h

theorem check {result : Except Inconsistency α}
    (h : ∀ target, result ≠ .error (.noLabel target)) : site.Abides script (site.check result) := by
  cases result with
  | ok a => exact pure a
  | error cause => exact fail fun target heq => h target (congrArg Except.error heq)

theorem alloc {node : Node} (h : node.routine? = none) : site.Abides script (site.alloc node) :=
  of_ok fun ws => ⟨_, _, rfl, fun hws => hws.alloc (by simp [h])⟩

theorem pushStatement (block statement : NodeId) :
    site.Abides script (Lift.pushStatement block statement) :=
  modify fun _ hws => hws.modifyStatements _

theorem emit (statement : NodeId) : site.Abides script (site.emit statement) :=
  pushStatement _ statement

theorem record {node : Node} (h : node.routine? = none) :
    site.Abides script (site.alloc node >>= fun id => site.emit id) :=
  (alloc h).bind fun id => emit id

theorem push (slot : NodeId) : site.Abides script (Lift.push slot) :=
  modify fun _ hws => hws

theorem popMany (count : Nat) : site.Abides script (site.popMany count) where
  fault {ws cause ws'} hrun := by
    rw [popMany_eq] at hrun
    split at hrun
    · cases hrun
    · next hpop =>
      cases hrun
      exact .inconsistent (Context.popMany_ne_noLabel hpop)
  known ws hws := by
    rw [popMany_eq]
    split <;> exact hws

theorem pop : site.Abides script site.pop where
  fault {ws cause ws'} hrun := by
    rw [pop_eq] at hrun
    split at hrun
    · cases hrun
    · next hpop =>
      cases hrun
      exact .inconsistent (Context.pop_ne_noLabel hpop)
  known ws hws := by
    rw [pop_eq]
    split <;> exact hws

theorem bindSlot (slot : Slot) (value : NodeId) : site.Abides script (site.bindSlot slot value) :=
  (alloc rfl).bind fun target => (alloc rfl).bind fun assign => (emit assign).bind fun _ =>
    pure target

theorem declare (type : ValueType) (value : NodeId) :
    site.Abides script (site.declare type value) :=
  (bindSlot _ value).bind push

theorem below : site.Abides script site.below := by
  unfold Site.below
  split
  · exact pure _
  · exact throw .stackOffset

theorem addressed : site.Abides script site.addressed :=
  below.bind fun _ => get.bind fun _ => check fun _ => Context.relativeIndex_ne_noLabel

theorem argument (position : Int) (type : ValueType) (how : Access) :
    site.Abides script (site.argument position type how) := by
  refine of_ok fun ws => ?_
  unfold Site.argument
  split
  · exact ⟨_, _, rfl, fun hws => hws.modifySlot _⟩
  · exact ⟨_, _, rfl, fun hws => hws.alloc (by simp [Node.routine?])⟩

theorem access (index : Nat) (how : Access) : site.Abides script (site.access index how) := by
  refine get.bind fun ws => (check fun _ => Context.word_ne_noLabel).bind fun word => ?_
  split
  · dsimp only
    split
    · exact argument _ _ how
    · exact fail (by simp)
  · exact pure _

theorem retype (left right : NodeId) : site.Abides script (Lift.retype left right) := by
  refine modify fun ws hws => ?_
  split
  · exact hws.modifySlot _
  · exact hws

theorem copyDown : site.Abides script site.copyDown := by
  refine addressed.bind fun start => get.bind fun ws =>
    (require _ (by simp)).bind fun _ => forM (fun i => ?_) _
  exact get.bind fun ws => (check fun _ => Context.word_ne_noLabel).bind fun right => (access _ _).bind fun left =>
    (retype left _).bind fun _ => record rfl

theorem copyTop : site.Abides script site.copyTop := by
  refine addressed.bind fun start => forM (fun i => ?_) _
  exact (access _ _).bind fun source => get.bind fun ws => (bindSlot _ source).bind push

theorem release : site.Abides script site.release :=
  below.bind fun _ => (popMany _).bind fun _ => pure ()

theorem destructWords (size first last : Nat) :
    site.Abides script (site.destructWords size first last) where
  fault {ws cause ws'} hrun := by
    rw [destructWords_eq] at hrun
    split at hrun
    · split at hrun
      · cases hrun
      · next hpop =>
        cases hrun
        exact .inconsistent (Context.popMany_ne_noLabel hpop)
    · cases hrun
      exact .inconsistent (by simp)
  known ws hws := by
    rw [destructWords_eq]
    split
    · split <;> exact hws
    · exact hws

theorem destruct : site.Abides script site.destruct := by
  unfold Site.destruct
  split
  · exact throw .stackOffset
  · exact destructWords _ _ _

theorem applyStep (op : UnaryOp) : site.Abides script (site.applyStep op) :=
  addressed.bind fun _ => (access _ _).bind fun _ => record rfl

theorem popVector : site.Abides script site.popVector := by
  have hfloat : ∀ name slot, site.Abides script (site.requireFloat name slot) :=
    fun name slot => get.bind fun ws => require _ (by simp)
  refine (popMany 3).bind fun words => ?_
  split
  · exact (hfloat _ _).bind fun _ => (hfloat _ _).bind fun _ => (hfloat _ _).bind fun _ => alloc rfl
  · exact fail (by simp)

theorem pushComponent (vector : NodeId) (name : String) (index : Nat) :
    site.Abides script (site.pushComponent vector name index) :=
  (alloc rfl).bind fun component => (alloc rfl).bind fun _ => (alloc rfl).bind fun assign =>
    (emit assign).bind fun _ => push component

theorem produce (type : ValueType) (value : NodeId) :
    site.Abides script (site.produce type value) := by
  unfold Site.produce
  split
  · exact (bindSlot _ value).bind fun result => (pushComponent result _ _).bind fun _ =>
      (pushComponent result _ _).bind fun _ => pushComponent result _ _
  · exact declare type value

theorem declareBare (type : ValueType) : site.Abides script (site.declareBare type) :=
  (alloc rfl).bind fun slot => (emit slot).bind fun _ => push slot

theorem load : site.Abides script site.load := by
  unfold Site.load
  split
  · exact (alloc rfl).bind fun literal => declare _ literal
  · exact fail (by simp)

theorem applyUnary (op : UnaryOp) : site.Abides script (site.applyUnary op) :=
  pop.bind fun _ => get.bind fun _ => (alloc rfl).bind fun value => declare _ value

theorem popPair (shape : Shape) : site.Abides script (site.popPair shape) := by
  cases shape with
  | scalar => exact pop.bind fun _ => pop.bind fun _ => pure _
  | vectorVector => exact popVector.bind fun _ => popVector.bind fun _ => pure _
  | floatVector => exact popVector.bind fun _ => pop.bind fun _ => pure _
  | vectorFloat => exact pop.bind fun _ => popVector.bind fun _ => pure _

theorem applyBinary (operation : BinaryOperation) :
    site.Abides script (site.applyBinary operation) :=
  (popPair _).bind fun _ => (alloc rfl).bind fun value => produce _ value

theorem compareWord (relation join : BinaryOp) (result : NodeId) (index : Nat)
    (words : NodeId × NodeId) :
    site.Abides script (site.compareWord relation join result index words) := by
  refine (alloc rfl).bind fun word => ?_
  split
  · exact record rfl
  · exact (alloc rfl).bind fun _ => record rfl

theorem compare : site.Abides script site.compare :=
  (require _ (by simp)).bind fun _ => (popMany _).bind fun _ => (popMany _).bind fun _ =>
    (alloc rfl).bind fun result => (forM (fun _ => compareWord _ _ result _ _) _).bind fun _ =>
      push result

theorem actionArgument (routine : Routine) (index : Nat) :
    site.Abides script (site.actionArgument routine index) := by
  unfold Site.actionArgument
  split
  · exact fail (by simp)
  · exact popVector
  · refine get.bind fun ws => ?_
    split
    · exact pure _
    · exact fail (by simp)
  · exact pop

/-- The one place where actions are made: the routine has been found. -/
theorem action : site.Abides script (site.action script.routines) := by
  unfold Site.action
  split
  · next hnone => exact throw (.unknownRoutine hnone)
  · next routine hsome =>
    have hmake : ∀ arguments,
        site.Abides script (site.alloc (.action site.ins.routine arguments)) := by
      refine fun arguments => of_ok fun ws => ⟨_, _, rfl, fun hws => hws.alloc fun id hid => ?_⟩
      cases hid
      rw [hsome]
      rfl
    refine (mapM (actionArgument routine) _).bind fun arguments => (hmake arguments).bind
      fun made => ?_
    split
    · exact emit made
    · exact produce _ made

theorem targetLabel (hback : Lift.needsLabel site.ins) :
    site.Abides script (site.targetLabel script.labels) := by
  unfold Site.targetLabel
  split
  · exact pure _
  · next hnone => exact throw (.noLabel hback hnone)

theorem warnSelfJump : site.Abides script site.warnSelfJump :=
  modify fun _ hws => hws.of_exprs_eq rfl

theorem jump (hop : site.ins.opcode.operation = .jump) :
    site.Abides script (site.jump script.labels) := by
  unfold Site.jump
  split
  · exact pure _
  · next hjump =>
    have hgoto : site.Abides script (site.targetLabel script.labels >>= fun label =>
        site.alloc (.goto label) >>= fun goto => site.emit goto) :=
      (targetLabel (Lift.needsLabel_of_jump hop hjump)).bind fun label => record rfl
    refine bind ?_ fun _ => pure _
    unfold Site.jumpBack
    dsimp only
    split
    · exact warnSelfJump.bind fun _ => hgoto
    · exact hgoto

theorem schedule (offset : Nat) : site.Abides script (Lift.schedule offset) := by
  refine of_ok fun ws => ?_
  unfold Lift.schedule
  dsimp only
  split
  · exact ⟨_, _, rfl, id⟩
  · exact ⟨_, _, rfl, fun hws => hws.alloc (by simp [Node.routine?])⟩

theorem branch (hop : site.ins.opcode.operation = .branch) :
    site.Abides script (site.branch script.labels) := by
  refine pop.bind fun _ => (alloc rfl).bind fun _ => (alloc rfl).bind fun _ =>
    bind ?_ fun _ => record rfl
  unfold Site.branchBlock
  split
  · exact schedule _
  · next hjump =>
    exact (targetLabel (Lift.needsLabel_of_branch hop hjump)).bind fun label =>
      (alloc rfl).bind fun block => (alloc rfl).bind fun goto => (pushStatement block goto).bind fun _ => pure block

theorem storeState (program : Program) : site.Abides script (site.storeState program) := by
  refine bind ?_ fun jump => (schedule _).bind fun block => modify fun _ hws => hws
  unfold Site.followingJump
  split
  · exact pure _
  · exact fail (by simp)

theorem call (callee : SubId) : site.Abides script (site.call callee) :=
  get.bind fun _ => (mapM (fun _ => get.bind fun _ =>
    (check fun _ => Context.relativeIndex_ne_noLabel).bind fun _ => access _ _) _).bind
      fun _ => record rfl

theorem saveBase : site.Abides script Lift.saveBase := by
  have hfold : ∀ (words : List Word) (tree : Tree), tree.Known script.routines →
      (words.foldl (fun tree word => tree.modifySlot word.slot fun s =>
        { s with storage := .global }) tree).Known script.routines := by
    intro words
    induction words with
    | nil => exact fun _ htree => htree
    | cons word words ih => exact fun tree htree => ih _ (htree.modifySlot _)
  exact modify fun ws hws => hfold _ _ hws

theorem restoreBase : site.Abides script Lift.restoreBase := modify fun _ hws => hws

theorem onward {handler : Lift Unit} (h : site.Abides script handler) :
    site.Abides script (site.onward handler) :=
  h.bind fun _ => pure _

theorem execute (callees : List (Nat × SubId)) :
    site.Abides script (site.execute script callees) := by
  unfold Site.execute
  split
  · exact (pure ()).onward
  · exact bind (record rfl) fun _ => pure _
  · next hop => exact jump hop
  · split
    · exact (call _).onward
    · exact pure _
  · next hop => exact (branch hop).onward
  · next hop =>
    obtain ⟨type, -, hrun⟩ := reserve_eq hop
    exact (hrun ▸ declareBare type).onward
  · exact load.onward
  · exact action.onward
  · exact copyDown.onward
  · exact copyTop.onward
  · exact release.onward
  · exact destruct.onward
  · next hop =>
    obtain ⟨op, -, hrun⟩ := step_eq hop
    exact (hrun ▸ applyStep op).onward
  · next hop =>
    obtain ⟨op, -, hrun⟩ := unary_eq hop
    exact (hrun ▸ applyUnary op).onward
  · exact compare.onward
  · exact (storeState _).onward
  · exact saveBase.onward
  · exact restoreBase.onward
  · next hop =>
    obtain ⟨operation, -, hrun⟩ := binary_eq hop
    exact (hrun ▸ applyBinary operation).onward

end Abides

theorem visit_abides (site : Site) (script : Script) (callees : List (Nat × SubId)) :
    site.Abides script (site.visit script callees) := by
  refine .bind ?_ fun _ => .execute callees
  unfold placeLabel
  split
  · exact .emit _
  · exact .pure ()

end Site

/-- Why a block of a program may be given up. -/
inductive Program.GivesUp (program : Program) (routines : Routines) : Error → Prop
  | refused {ins cause} : ins ∈ program.instructions → ins.Refused routines cause →
    GivesUp program routines cause
  | lost {offset} : offset < program.length → program.at? offset = none →
    GivesUp program routines (.invalidOffset offset)

/-- How lifting may end without a tree: calls nest too deeply, or, if it is strict, a block is given
up. -/
inductive LiftSettings.Stops (settings : LiftSettings) (program : Program) (routines : Routines) :
    Error → Prop
  | tooDeep : Stops settings program routines (.recursionLimit settings.maxDepth)
  | givenUp {cause} (entry start : Nat) : settings.strict → program.GivesUp routines cause →
    Stops settings program routines (.block entry start cause)

theorem LiftSettings.Stops.eq_of_lenient {settings : LiftSettings} {program : Program}
    {routines : Routines} {e : Error} (h : settings.Stops program routines e)
    (hlenient : settings.strict = false) : e = .recursionLimit settings.maxDepth := by
  cases h with
  | tooDeep => rfl
  | givenUp _ _ hstrict => exact absurd hstrict (by simp [hlenient])

theorem Program.GivesUp.not_isFinal {program : Program} {routines : Routines} {cause : Error}
    (h : program.GivesUp routines cause) : cause.isFinal = false := by
  cases h with
  | refused _ hrefused => exact hrefused.not_isFinal
  | lost => rfl

theorem LiftSettings.Stops.not_isFinal {settings : LiftSettings} {program : Program}
    {routines : Routines} {entry start : Nat} {source : Error}
    (h : settings.Stops program routines (.block entry start source)) :
    source.isFinal = false := by
  cases h with
  | givenUp _ _ _ hcause => exact hcause.not_isFinal

/-- Why a block may be given up, in terms of the script that the machine reads. -/
inductive Script.GivesUp (script : Script) : Error → Prop
  | refused {site : Site} {cause} : site.ins ∈ script.program.instructions →
    site.Blames script cause → GivesUp script cause
  | lost {offset} : offset < script.program.length → script.program.at? offset = none →
    GivesUp script (.invalidOffset offset)

theorem Script.GivesUp.not_isFinal {script : Script} {cause : Error} (h : script.GivesUp cause) :
    cause.isFinal = false := by
  cases h with
  | refused _ hblames => exact hblames.refused.not_isFinal
  | lost => rfl

/-- How a run may end without a tree. -/
inductive Script.Stops (script : Script) (settings : LiftSettings) : Error → Prop
  | tooDeep : Stops script settings (.recursionLimit settings.maxDepth)
  | givenUp {cause} (entry start : Nat) : settings.strict → script.GivesUp cause →
    Stops script settings (.block entry start cause)

theorem Script.Stops.lifted {script : Script} {settings : LiftSettings} {e : Error}
    (h : script.Stops settings e) : settings.Stops script.program script.routines e := by
  cases h with
  | tooDeep => exact .tooDeep
  | givenUp entry start hstrict hcause =>
    refine .givenUp entry start hstrict ?_
    cases hcause with
    | refused hins hblames => exact .refused hins hblames.refused
    | lost hlt hat => exact .lost hlt hat

namespace Machine

variable {script : Script} {settings : LiftSettings} {m m' : Machine} {act : Activation}
  {callers : List Activation} {walk : Walk} {e : Error}

theorem abandon_stops {cause : Error} (hcause : script.GivesUp cause)
    (h : abandon settings m (act :: callers) cause = .error e) : script.Stops settings e := by
  rcases abandon_cases settings m act callers cause with
    ⟨hfinal, -⟩ | ⟨-, hstrict, herror⟩ | ⟨-, -, hok⟩
  · exact absurd hfinal (by simp [hcause.not_isFinal])
  · cases herror.symm.trans h
    exact .givenUp _ _ hstrict hcause
  · cases hok.symm.trans h

theorem advance_stops {ins : Instruction} (hins : ins ∈ script.program.instructions)
    (h : advance script settings m act callers walk ins = .error e) : script.Stops settings e := by
  unfold advance at h
  dsimp only at h
  split at h
  · cases h
  · cases h
  · split at h
    · rw [abandon_of_isFinal rfl] at h
      cases h
      exact .tooDeep
    · cases h
  · next hrun =>
    have hblames := (Site.visit_abides _ _ _).fault hrun
    exact abandon_stops (.refused hins hblames) h

theorem eq_error_of_map {x : Except Error Machine} (h : some <$> x = .error e) : x = .error e := by
  cases x with
  | error e =>
    cases h
    rfl
  | ok m => cases h

theorem tick_stops (h : m.tick script settings = .error e) : script.Stops settings e := by
  unfold tick at h
  split at h
  · cases h
  · next hm =>
    split at h
    · cases h
    · cases h
    · split at h
      · next hlt =>
        split at h
        · next hat =>
          rw [hm] at h
          exact abandon_stops (.lost hlt hat) (eq_error_of_map h)
        · next hat => exact advance_stops (Program.mem_of_at? hat) (eq_error_of_map h)
      · cases h

theorem run_stops (h : m.run script settings = some (.error e)) : script.Stops settings e := by
  obtain ⟨_, last, -, hends⟩ := run_eq_some_iff.1 h
  rcases hends with ⟨-, heq⟩ | ⟨cause, htick, heq⟩
  · cases heq
  · cases heq
    exact tick_stops htick

theorem Move.tree_known (h : Move script settings m m') (hm : m.tree.Known script.routines) :
    m'.tree.Known script.routines := by
  cases h with
  | finish | lost => exact hm.of_exprs_eq rfl
  | skip | start | leave => exact hm
  | next _ _ _ hrun | stop _ _ _ hrun => exact (Site.visit_abides _ _ _).known_ok hrun hm
  | enter =>
    have hblock : ∀ offset, (m.tree.alloc offset (.block [])).Known script.routines :=
      fun _ => hm.alloc (by simp [Node.routine?])
    exact (hblock _).of_exprs_eq rfl
  | fault _ _ _ hrun =>
    exact ((Site.visit_abides _ _ _).known_error hrun hm).of_exprs_eq rfl

end Machine

theorem Lift.known_labels (routines : Routines) (program : Program) :
    (Lift.labels program).1.Known routines :=
  Lift.labels_induction (P := fun state => state.1.Known routines) (.empty routines)
    (fun _ _ _ h => h.alloc (by simp [Node.routine?])) program

theorem Lift.known_complete {routines : Routines} {tree : Tree} (h : tree.Known routines) :
    (Lift.complete tree).Known routines := by
  have hcollected : (Lift.collectGlobals tree).Known routines := h.of_exprs_eq rfl
  have hnamed : ∀ sub, (Lift.nameGlobals (Lift.collectGlobals tree) sub).Known routines :=
    fun sub => Tree.Known.modifyStatements (hcollected.of_exprs_eq rfl) _
  unfold Lift.complete Lift.nameSubroutines
  split
  · exact hcollected.of_exprs_eq rfl
  · exact (hnamed _).of_exprs_eq rfl
  · exact hnamed _
  · exact hcollected

section Lifted

variable {program : Program} {routines : Routines} {settings : LiftSettings} {tree : Tree}

theorem script_stops {e : Error} (h : lift program routines settings = some (.error e)) :
    (Lift.script program routines).Stops settings e :=
  Machine.run_stops (lift_eq_error.1 h)

theorem lift_stops {e : Error} (h : lift program routines settings = some (.error e)) :
    settings.Stops program routines e :=
  (script_stops h).lifted

theorem lift_known (h : lift program routines settings = some (.ok tree)) : tree.Known routines := by
  obtain ⟨lifted, hrun, rfl⟩ := lift_eq_ok h
  have hstart : (Lift.start (Lift.labels program).1).tree.Known routines :=
    ((Lift.known_labels routines program).alloc (by simp [Node.routine?])).of_exprs_eq rfl
  obtain ⟨last, hlast, -, rfl⟩ := Machine.run_induction (P := fun m => m.tree.Known routines)
    (fun hm hmove => hmove.tree_known hm) hstart hrun
  exact Lift.known_complete hlast

end Lifted

end ScriptLift
