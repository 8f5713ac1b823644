import ScriptLift.Proofs.Lift.Descents
import ScriptLift.Proofs.Semantics.Orders

/-! How high the stack is behind an instruction.

The machine of the game takes so many words off its stack and puts so many back, for each instruction.
The type byte of an opcode says how wide its operands are, the signature of a routine how wide its
arguments and its result. Lifting has no such table: every handler pops and pushes on its own. That it
agrees with the table is shown handler by handler, each as a sequence of parts that first only pop and
then only push. -/
namespace ScriptLift

namespace Instruction

/-- The types of the arguments that an engine call passes. -/
def passedTypes (routines : Routines) (ins : Instruction) : List ValueType :=
  match routines.get? ins.routine with
  | some routine => (routine.arguments.take ins.arity.toNat).map (·.type)
  | none => []

/-- Words that the instruction takes off the stack of the machine. -/
def popped (routines : Routines) (ins : Instruction) : Nat :=
  match ins.opcode.order with
  | .branch | .unary _ => 1
  | .binary _ => total ValueType.words ins.opcode.operandTypes
  | .compare _ _ => 2 * (ins.size.toNat / 4)
  | .routine => total ValueType.words (ins.passedTypes routines)
  | .release => ins.stack.toInt.natAbs / 4
  | .destruct => ins.size.toNat / 4
  | _ => 0

/-- Words that it puts there instead; an operation on a vector gives a vector. -/
def pushed (routines : Routines) (ins : Instruction) : Nat :=
  match ins.opcode.order with
  | .reserve | .literal | .unary _ | .compare _ _ => 1
  | .binary _ => if .vector ∈ ins.opcode.operandTypes then ValueType.vector.words else 1
  | .routine => ((routines.get? ins.routine).elim .void (·.result)).words
  | .copyTop _ => ins.size.toNat / 4
  | .destruct => ins.keep.toNat / 4
  | _ => 0

end Instruction

/-- No argument is void, and no result is a deferred action. -/
def Routines.Plain (routines : Routines) : Prop :=
  ∀ number routine, routines.get? number = some routine →
    routine.result ≠ .action ∧ ∀ argument ∈ routine.arguments, argument.type ≠ .void

theorem Shape.words_ofTypes {left right : ValueType} (hleft : left.IsPassed)
    (hright : right.IsPassed) :
    (Shape.ofTypes left right).words = total ValueType.words [left, right] ∧
      (.vector ∈ [left, right] ↔ Shape.ofTypes left right ≠ .scalar) := by
  revert hleft hright
  cases left <;> cases right <;> decide

theorem total_range_getElem? {α : Type} (f : α → Nat) (xs : List α) (count : Nat) :
    total (fun i => (xs[i]?).elim 0 f) (List.range count) = total f (xs.take count) := by
  induction count with
  | zero => rfl
  | succ count ih =>
    rw [List.range_succ, total_append, ih, List.take_add_one, total_append]
    cases hget : xs[count]? <;> simp [hget]

namespace Lift

variable {α β : Type}

/-- If `x` succeeds, it takes `pops` words off the stack and puts `pushes` on what is left; nothing
else of the stack changes. -/
def Shifts (pops pushes : Nat) (x : Lift α) : Prop :=
  ∀ ws a ws', x ws = .ok a ws' → pops ≤ ws.context.depth ∧ ∃ pushed : List Word,
    pushed.length = pushes ∧ ws'.context.stack = pushed ++ ws.context.stack.drop pops

namespace Shifts

variable {x : Lift α} {f : α → Lift β} {pops pushes more : Nat}

theorem of_stack_eq (h : ∀ ws a ws', x ws = .ok a ws' → ws'.context.stack = ws.context.stack) :
    Shifts 0 0 x :=
  fun ws a ws' hrun => ⟨Nat.zero_le _, [], rfl, h ws a ws' hrun⟩

theorem pure (a : α) : Shifts 0 0 (Pure.pure a : Lift α) :=
  .of_stack_eq <| by
    rintro ws _ _ ⟨⟩
    rfl

theorem throw (fault : Error) : Shifts pops pushes (MonadExcept.throw fault : Lift α) := by
  rintro ws _ _ ⟨⟩

theorem get : Shifts 0 0 (MonadState.get : Lift Workspace) :=
  .of_stack_eq <| by
    rintro ws _ _ ⟨⟩
    rfl

theorem modify {g : Workspace → Workspace}
    (hg : ∀ ws, (g ws).context.stack = ws.context.stack) : Shifts 0 0 (modify g : Lift Unit) :=
  .of_stack_eq <| by
    rintro ws _ _ ⟨⟩
    exact hg ws

theorem pop_bind (hx : Shifts pops 0 x) (hf : ∀ a, Shifts more pushes (f a)) :
    Shifts (pops + more) pushes (x >>= f) := by
  intro ws b ws' hrun
  obtain ⟨a, mid, hfirst, hrest⟩ := bind_eq_ok hrun
  obtain ⟨hle, pushed, hnil, hmid⟩ := hx ws a mid hfirst
  obtain ⟨hmore, pushed', hlength, hlast⟩ := hf a mid b ws' hrest
  obtain rfl := List.eq_nil_of_length_eq_zero hnil
  rw [List.nil_append] at hmid
  rw [Context.depth, hmid, List.length_drop, ← Context.depth] at hmore
  refine ⟨by omega, pushed', hlength, ?_⟩
  rw [hlast, hmid, List.drop_drop]

theorem pop_push (hx : Shifts pops 0 x) (hf : ∀ a, Shifts 0 pushes (f a)) :
    Shifts pops pushes (x >>= f) :=
  hx.pop_bind hf

theorem push_bind (hx : Shifts pops pushes x) (hf : ∀ a, Shifts 0 more (f a)) :
    Shifts pops (pushes + more) (x >>= f) := by
  intro ws b ws' hrun
  obtain ⟨a, mid, hfirst, hrest⟩ := bind_eq_ok hrun
  obtain ⟨hle, pushed, hlength, hmid⟩ := hx ws a mid hfirst
  obtain ⟨-, pushed', hlength', hlast⟩ := hf a mid b ws' hrest
  refine ⟨hle, pushed' ++ pushed, ?_, ?_⟩
  · rw [List.length_append, hlength, hlength', Nat.add_comm]
  · rw [hlast, hmid, List.drop_zero, List.append_assoc]

theorem behind (hx : Shifts 0 0 x) (hf : ∀ a, Shifts pops pushes (f a)) :
    Shifts pops pushes (x >>= f) := by
  have hboth := hx.pop_bind hf
  rwa [Nat.zero_add] at hboth

theorem andThen (hx : Shifts pops pushes x) (hf : ∀ a, Shifts 0 0 (f a)) :
    Shifts pops pushes (x >>= f) :=
  hx.push_bind hf

theorem forM {f : α → Lift Unit} (hf : ∀ a, Shifts 0 pushes (f a)) (xs : List α) :
    Shifts 0 (xs.length * pushes) (xs.forM f) := by
  induction xs with
  | nil =>
    rw [List.length_nil, Nat.zero_mul]
    exact pure ()
  | cons a xs ih =>
    rw [List.length_cons, Nat.succ_mul, Nat.add_comm]
    exact (hf a).push_bind fun _ => ih

theorem mapM {f : α → Lift β} {pops : α → Nat} (hf : ∀ a, Shifts (pops a) 0 (f a))
    (xs : List α) : Shifts (total pops xs) 0 (xs.mapM f) := by
  induction xs with
  | nil => exact pure []
  | cons a xs ih =>
    rw [List.mapM_cons]
    exact (hf a).pop_bind fun b => ih.andThen fun bs => pure (b :: bs)

end Shifts

end Lift

namespace Site

open Lift

variable (site : Site)

section Parts

theorem shifts_alloc (node : Node) : Shifts 0 0 (site.alloc node) :=
  .of_stack_eq <| by
    rintro ws _ _ ⟨⟩
    rfl

theorem shifts_emit (s : NodeId) : Shifts 0 0 (site.emit s) := .modify fun _ => rfl

theorem shifts_fail {α : Type} {pops pushes : Nat} (cause : Inconsistency) :
    Shifts pops pushes (site.fail cause : Lift α) :=
  .throw _

theorem shifts_require (condition : Bool) (cause : Inconsistency) :
    Shifts 0 0 (site.require condition cause) := by
  unfold require
  split
  · exact .pure ()
  · exact site.shifts_fail cause

theorem shifts_check {α : Type} (result : Except Inconsistency α) :
    Shifts 0 0 (site.check result) := by
  cases result with
  | ok a => exact .pure a
  | error cause => exact site.shifts_fail cause

theorem shifts_record (node : Node) : Shifts 0 0 (site.alloc node >>= fun id => site.emit id) :=
  .behind (site.shifts_alloc node) fun id => site.shifts_emit id

theorem shifts_push (slot : NodeId) : Shifts 0 1 (Lift.push slot) := by
  rintro ws _ _ ⟨⟩
  exact ⟨Nat.zero_le _, [⟨slot, ws.context.current⟩], rfl, rfl⟩

theorem shifts_popMany (count : Nat) : Shifts count 0 (site.popMany count) := by
  intro ws ids ws' hrun
  rw [popMany_eq] at hrun
  cases hpop : ws.context.popMany count with
  | error cause =>
    rw [hpop] at hrun
    cases hrun
  | ok popped =>
    rw [hpop] at hrun
    cases hrun
    obtain ⟨hle, -, hcontext⟩ := Context.popMany_eq_ok hpop
    exact ⟨hle, [], rfl, by rw [hcontext, List.nil_append]⟩

theorem shifts_pop : Shifts 1 0 site.pop := by
  intro ws id ws' hrun
  rw [pop_eq] at hrun
  cases hpop : ws.context.pop with
  | error cause =>
    rw [hpop] at hrun
    cases hrun
  | ok popped =>
    rw [hpop] at hrun
    cases hrun
    obtain ⟨hstack, -⟩ := Context.pop_eq_ok hpop
    refine ⟨?_, [], rfl, ?_⟩
    · rw [Context.depth, hstack]
      exact Nat.succ_pos _
    · rw [hstack]
      rfl

theorem shifts_below : Shifts 0 0 site.below := by
  unfold below
  split
  · exact .pure _
  · exact .throw _

theorem shifts_addressed : Shifts 0 0 site.addressed :=
  .behind site.shifts_below fun _ => .behind .get fun _ => site.shifts_check _

theorem shifts_access (index : Nat) (how : Access) : Shifts 0 0 (site.access index how) := by
  have hargument : ∀ position type, Shifts 0 0 (site.argument position type how) := by
    refine fun position type => .of_stack_eq fun ws slot ws' hrun => ?_
    unfold argument at hrun
    split at hrun <;> cases hrun <;> rfl
  refine .behind .get fun ws => .behind (site.shifts_check _) fun word => ?_
  split
  · dsimp only
    split
    · exact hargument _ _
    · exact site.shifts_fail _
  · exact .pure _

theorem shifts_bindSlot (slot : Slot) (value : NodeId) : Shifts 0 0 (site.bindSlot slot value) :=
  .behind (site.shifts_alloc _) fun target => .behind (site.shifts_alloc _) fun assign =>
    .behind (site.shifts_emit assign) fun _ => .pure target

theorem shifts_declare (type : ValueType) (value : NodeId) : Shifts 0 1 (site.declare type value) :=
  .behind (site.shifts_bindSlot _ value) fun slot => shifts_push slot

theorem shifts_pushComponent (vector : NodeId) (name : String) (index : Nat) :
    Shifts 0 1 (site.pushComponent vector name index) :=
  .behind (site.shifts_alloc _) fun component => .behind (site.shifts_alloc _) fun _ =>
    .behind (site.shifts_alloc _) fun assign => .behind (site.shifts_emit assign) fun _ =>
      shifts_push component

theorem shifts_produce (type : ValueType) (value : NodeId) :
    Shifts 0 (if type = .vector then 3 else 1) (site.produce type value) := by
  unfold produce
  split
  · exact .behind (site.shifts_bindSlot _ value) fun result =>
      (site.shifts_pushComponent result _ _).push_bind fun _ =>
        (site.shifts_pushComponent result _ _).push_bind fun _ => site.shifts_pushComponent result _ _
  · exact site.shifts_declare type value

theorem shifts_popVector : Shifts 3 0 site.popVector := by
  have hfloat : ∀ name slot, Shifts 0 0 (site.requireFloat name slot) :=
    fun name slot => .behind .get fun _ => site.shifts_require _ _
  refine (site.shifts_popMany 3).andThen fun words => ?_
  split
  · exact .behind (hfloat _ _) fun _ => .behind (hfloat _ _) fun _ =>
      .behind (hfloat _ _) fun _ => site.shifts_alloc _
  · exact site.shifts_fail _

end Parts

section Handlers

theorem shifts_popPair (shape : Shape) : Shifts shape.words 0 (site.popPair shape) := by
  cases shape with
  | scalar => exact site.shifts_pop.pop_bind fun _ => site.shifts_pop.andThen fun _ => .pure _
  | vectorVector =>
    exact site.shifts_popVector.pop_bind fun _ => site.shifts_popVector.andThen fun _ => .pure _
  | floatVector =>
    exact site.shifts_popVector.pop_bind fun _ => site.shifts_pop.andThen fun _ => .pure _
  | vectorFloat =>
    exact site.shifts_pop.pop_bind fun _ => site.shifts_popVector.andThen fun _ => .pure _

theorem shifts_applyBinary (operation : BinaryOperation) :
    Shifts operation.shape.words (if operation.result = .vector then 3 else 1)
      (site.applyBinary operation) := by
  have hvalue : ∀ pair : NodeId × NodeId, Shifts 0 (if operation.result = .vector then 3 else 1)
      (site.alloc (.binary operation.op pair.1 pair.2 false) >>= fun value =>
        site.produce operation.result value) :=
    fun pair => .behind (site.shifts_alloc _) fun value => site.shifts_produce _ value
  exact (site.shifts_popPair operation.shape).pop_push hvalue

theorem shifts_compareWith (relation join : BinaryOp) :
    Shifts (2 * (site.ins.size.toNat / 4)) 1 (site.compareWith relation join) := by
  have hword : ∀ result index words,
      Shifts 0 0 (site.compareWord relation join result index words) := by
    refine fun result index words => .behind (site.shifts_alloc _) fun word => ?_
    split
    · exact site.shifts_record _
    · exact .behind (site.shifts_alloc _) fun _ => site.shifts_record _
  have hwords : ∀ (result : NodeId) (pairs : List ((NodeId × NodeId) × Nat)), Shifts 0 0
      (pairs.forM fun words => site.compareWord relation join result words.2 words.1) :=
    fun result pairs => .forM (fun words => hword result words.2 words.1) pairs
  rw [Nat.two_mul]
  refine .behind (site.shifts_require _ _) fun _ => ?_
  refine (site.shifts_popMany _).pop_bind fun right => ?_
  refine (site.shifts_popMany _).pop_push fun left => ?_
  exact .behind (site.shifts_alloc _) fun result =>
    .behind (hwords result _) fun _ => shifts_push result

theorem shifts_applyUnary (op : UnaryOp) : Shifts 1 1 (site.applyUnary op) :=
  site.shifts_pop.pop_bind fun _ => .behind .get fun _ =>
    .behind (site.shifts_alloc _) fun _ => site.shifts_declare _ _

/-- Every argument takes as many words as its type says. -/
theorem shifts_actionArgument {routine : Routine}
    (hplain : ∀ argument ∈ routine.arguments, argument.type ≠ .void) (index : Nat) :
    Shifts ((routine.arguments[index]?).elim 0 (·.type.words)) 0
      (site.actionArgument routine index) := by
  unfold actionArgument Routine.argumentType?
  cases hargument : routine.arguments[index]? with
  | none => exact site.shifts_fail _
  | some argument =>
    have hvoid := hplain argument (List.mem_of_getElem? hargument)
    obtain ⟨type, pointer⟩ := argument
    cases type
    case void => exact absurd rfl hvoid
    case vector => exact site.shifts_popVector
    case action =>
      refine .behind .get fun ws => ?_
      split
      · exact .pure _
      · exact site.shifts_fail _
    all_goals exact site.shifts_pop

theorem shifts_callRoutine {routine : Routine} (hresult : routine.result ≠ .action)
    (hplain : ∀ argument ∈ routine.arguments, argument.type ≠ .void) :
    Shifts (total (·.type.words) (routine.arguments.take site.ins.arity.toNat))
      routine.result.words (site.callRoutine routine) := by
  have harguments := Shifts.mapM (site.shifts_actionArgument hplain)
    (List.range site.ins.arity.toNat)
  rw [total_range_getElem?] at harguments
  refine harguments.pop_push fun arguments => .behind (site.shifts_alloc _) fun action => ?_
  split
  · next hvoid =>
    rw [hvoid]
    exact site.shifts_emit action
  · next hvoid =>
    have hwords : routine.result.words = if routine.result = .vector then 3 else 1 := by
      cases hresult' : routine.result <;> simp_all [ValueType.words]
    rw [hwords]
    exact site.shifts_produce _ action

theorem shifts_action {routines : Routines} (hplain : routines.Plain)
    (horder : site.ins.opcode.order = .routine) :
    Shifts (site.ins.popped routines) (site.ins.pushed routines) (site.action routines) := by
  unfold action
  split
  · exact .throw _
  · next routine hroutine =>
    obtain ⟨hresult, harguments⟩ := hplain _ _ hroutine
    have hcall := site.shifts_callRoutine hresult harguments
    have hpopped : site.ins.popped routines =
        total (·.type.words) (routine.arguments.take site.ins.arity.toNat) := by
      simp only [Instruction.popped, horder, Instruction.passedTypes, hroutine, total_map]
    have hpushed : site.ins.pushed routines = routine.result.words := by
      simp only [Instruction.pushed, horder, hroutine, Option.elim_some]
    rwa [hpopped, hpushed]

theorem shifts_copyDown : Shifts 0 0 site.copyDown := by
  have hretype : ∀ left right, Shifts 0 0 (Lift.retype left right) := by
    refine fun left right => .modify fun ws => ?_
    split <;> rfl
  have hword : ∀ start count i, Shifts 0 0 (site.copyWordDown start count i) :=
    fun start count i => .behind .get fun _ => .behind (site.shifts_check _) fun _ =>
      .behind (site.shifts_access _ _) fun _ => .behind (hretype _ _) fun _ => site.shifts_record _
  exact .behind (site.shifts_addressed) fun start => .behind .get fun _ =>
    .behind (site.shifts_require _ _) fun _ => .forM (fun i => hword start _ i) _

theorem shifts_copyTop : Shifts 0 (site.ins.size.toNat / 4) site.copyTop := by
  have hword : ∀ start count i, Shifts 0 1 (site.copyWordTop start count i) :=
    fun start count i => .behind (site.shifts_access _ _) fun _ => .behind .get fun _ =>
      .behind (site.shifts_bindSlot _ _) fun copy => shifts_push copy
  refine .behind (site.shifts_addressed) fun start => ?_
  have hwords := Shifts.forM (fun i => hword start (site.ins.size.toNat / 4) i)
    (List.range (site.ins.size.toNat / 4))
  rwa [List.length_range, Nat.mul_one] at hwords

theorem shifts_release : Shifts (site.ins.stack.toInt.natAbs / 4) 0 site.release := by
  intro ws a ws' hrun
  obtain ⟨position, _, hbelow, hpop⟩ := bind_eq_ok hrun
  obtain ⟨-, rfl, rfl⟩ := below_eq_ok hbelow
  exact (site.shifts_popMany _).andThen (fun _ => .pure ()) _ _ _ hpop

/-- Of the words that are destroyed, those in the middle are put back. -/
theorem shifts_destruct :
    Shifts (site.ins.size.toNat / 4) (site.ins.keep.toNat / 4) site.destruct := by
  unfold destruct
  split
  · exact .throw _
  · intro ws a ws' hrun
    dsimp only at hrun
    rw [destructWords_eq] at hrun
    split at hrun
    · next hlast =>
      cases hpop : ws.context.popMany (site.ins.size.toNat / 4) with
      | error cause =>
        rw [hpop] at hrun
        cases hrun
      | ok popped =>
        rw [hpop] at hrun
        cases hrun
        obtain ⟨hle, hwords, hcontext⟩ := Context.popMany_eq_ok hpop
        refine ⟨hle, _, ?_, by rw [hcontext]⟩
        have hlength : popped.1.length = site.ins.size.toNat / 4 := by
          rw [hwords, List.length_reverse, List.length_take]
          exact Nat.min_eq_left hle
        rw [List.length_reverse, List.length_drop, List.length_take, hlength]
        omega
    · cases hrun

theorem shifts_applyStep (op : UnaryOp) : Shifts 0 0 (site.applyStep op) :=
  .behind (site.shifts_addressed) fun _ => .behind (site.shifts_access _ _) fun _ =>
    site.shifts_record _

theorem shifts_declareBare (type : ValueType) : Shifts 0 1 (site.declareBare type) :=
  .behind (site.shifts_alloc _) fun slot => .behind (site.shifts_emit slot) fun _ =>
    shifts_push slot

theorem shifts_load : Shifts 0 1 site.load := by
  unfold load
  split
  · exact .behind (site.shifts_alloc _) fun _ => site.shifts_declare _ _
  · exact site.shifts_fail _

theorem shifts_targetLabel (labels : List (Nat × NodeId)) :
    Shifts 0 0 (site.targetLabel labels) := by
  unfold targetLabel
  split
  · exact .pure _
  · exact site.shifts_fail _

theorem shifts_jump (labels : List (Nat × NodeId)) : Shifts 0 0 (site.jump labels) := by
  unfold jump
  split
  · exact .pure _
  · refine .behind ?_ fun _ => .pure _
    have hgoto : Shifts 0 0 (site.targetLabel labels >>= fun label =>
        site.alloc (.goto label) >>= fun goto => site.emit goto) :=
      .behind (site.shifts_targetLabel labels) fun label => site.shifts_record _
    unfold jumpBack
    dsimp only
    split
    · exact .behind (.modify fun _ => rfl) fun _ => hgoto
    · exact hgoto

theorem shifts_schedule (offset : Nat) : Shifts 0 0 (Lift.schedule offset) := by
  refine .of_stack_eq fun ws block ws' hrun => ?_
  unfold Lift.schedule at hrun
  dsimp only at hrun
  split at hrun <;> cases hrun <;> rfl

theorem shifts_branch (labels : List (Nat × NodeId)) : Shifts 1 0 (site.branch labels) := by
  have hblock : Shifts 0 0 (site.branchBlock labels) := by
    unfold branchBlock
    split
    · exact shifts_schedule _
    · exact .behind (site.shifts_targetLabel labels) fun _ => .behind (site.shifts_alloc _) fun _ =>
        .behind (site.shifts_alloc _) fun _ => .behind (.modify fun _ => rfl) fun _ => .pure _
  exact site.shifts_pop.andThen fun _ => .behind (site.shifts_alloc _) fun _ =>
    .behind (site.shifts_alloc _) fun _ => .behind hblock fun _ => site.shifts_record _

theorem shifts_storeState (program : Program) : Shifts 0 0 (site.storeState program) := by
  have hjump : Shifts 0 0 (site.followingJump program) := by
    unfold followingJump
    split
    · exact .pure _
    · exact site.shifts_fail _
  exact .behind hjump fun _ => .behind (shifts_schedule _) fun _ => .modify fun _ => rfl

theorem shifts_call (callee : SubId) : Shifts 0 0 (site.call callee) := by
  have hactual : ∀ formal, Shifts 0 0 (site.actual formal) :=
    fun formal => .behind .get fun _ => .behind (site.shifts_check _) fun _ => site.shifts_access _ _
  refine .behind .get fun ws => ?_
  have harguments := Shifts.mapM hactual (ws.tree.sub callee).formals
  have hnone : total (fun _ : Formal => 0) (ws.tree.sub callee).formals = 0 := by
    induction (ws.tree.sub callee).formals with
    | nil => rfl
    | cons formal formals ih => rw [total_cons, ih]
  rw [hnone] at harguments
  exact .behind harguments fun _ => site.shifts_record _

theorem shifts_onward {pops pushes : Nat} {handler : Lift Unit} (h : Shifts pops pushes handler) :
    Shifts pops pushes (site.onward handler) :=
  h.andThen fun _ => .pure _

/-- Every handler agrees with the table. -/
theorem shifts_execute {script : Script} (hplain : script.routines.Plain)
    (callees : List (Nat × SubId)) :
    Shifts (site.ins.popped script.routines) (site.ins.pushed script.routines)
      (site.execute script callees) := by
  have hrenders := site.ins.renders
  have haction := fun horder => site.shifts_action hplain horder
  unfold Instruction.popped Instruction.pushed at haction ⊢
  unfold execute
  generalize hop : site.ins.opcode.operation = operation at hrenders ⊢
  generalize horder : site.ins.opcode.order = order at hrenders haction ⊢
  cases hrenders <;> dsimp only
  case nop => exact site.shifts_onward (.pure ())
  case ret => exact (site.shifts_record _).andThen fun _ => .pure _
  case jump => exact site.shifts_jump _
  case call =>
    split
    · exact site.shifts_onward (site.shifts_call _)
    · exact .pure _
  case branch => exact site.shifts_onward (site.shifts_branch _)
  case reserve =>
    obtain ⟨type, -, heq⟩ := reserve_eq hop
    rw [heq]
    exact site.shifts_onward (site.shifts_declareBare type)
  case load => exact site.shifts_onward site.shifts_load
  case action => exact site.shifts_onward (haction rfl)
  case copyDown => exact site.shifts_onward site.shifts_copyDown
  case copyTop => exact site.shifts_onward site.shifts_copyTop
  case release => exact site.shifts_onward site.shifts_release
  case destruct => exact site.shifts_onward site.shifts_destruct
  case step op hrow =>
    obtain ⟨_, -, heq⟩ := step_eq hop
    rw [heq]
    exact site.shifts_onward (site.shifts_applyStep _)
  case unary op hrow =>
    obtain ⟨_, -, heq⟩ := unary_eq hop
    rw [heq]
    exact site.shifts_onward (site.shifts_applyUnary _)
  case binary op left right result shape hrow htypes hleft hright hshape hwidth =>
    obtain ⟨_, hsame, heq⟩ := binary_eq hop
    cases hrow.symm.trans hsame
    obtain ⟨hwords, hvector⟩ := Shape.words_ofTypes hleft hright
    have hbinary := site.shifts_applyBinary ⟨op, result, shape⟩
    subst hshape
    dsimp only at hbinary
    rw [hwords, if_congr (hwidth.trans hvector.symm) rfl rfl] at hbinary
    rw [heq, htypes]
    exact site.shifts_onward hbinary
  case compare => exact site.shifts_onward (site.shifts_compareWith _ _)
  case storeState => exact site.shifts_onward (site.shifts_storeState _)
  case saveBase => exact site.shifts_onward (.modify fun _ => rfl)
  case restoreBase => exact site.shifts_onward (.modify fun _ => rfl)

end Handlers

end Site

namespace Context

theorem word_of_stack_eq {ctx ctx' : Context} {pushed : List Word} {pops index : Nat}
    (hstack : ctx'.stack = pushed ++ ctx.stack.drop pops) (hindex : index < ctx.depth - pops) :
    ∃ word, ctx.word index = .ok word ∧ ctx'.word index = .ok word := by
  obtain ⟨word, hword⟩ := ctx.exists_word (show index < ctx.depth by omega)
  refine ⟨word, hword, ?_⟩
  have hlow : index < (ctx.stack.drop pops).reverse.length := by
    rw [List.length_reverse, List.length_drop]
    exact hindex
  have hget : ctx'.stack.reverse[index]? = some word := by
    rw [hstack, List.reverse_append, List.getElem?_append_left hlow, List.reverse_drop]
    exact (List.getElem?_take_of_lt hindex).trans (getElem?_of_word hword)
  rw [Context.word, hget]

end Context

/-- Where no routine has void arguments or deferred results, an instruction that succeeds takes as
many words off the stack as the machine does and puts back as many, and all words below those that it
takes stay as they are. A call whose subroutine is lifted first finds the stack as it left it, and
leaves it so. -/
theorem stack_effect_of_instruction (script : Script) (hplain : script.routines.Plain) :
    (∀ (site : Site) (callees : List (Nat × SubId)) (ws ws' : Workspace) (flow : Flow),
      site.execute script callees ws = .ok flow ws' →
      site.ins.popped script.routines ≤ ws.context.depth ∧
      ws'.context.depth + site.ins.popped script.routines =
        ws.context.depth + site.ins.pushed script.routines ∧
      ∀ index < ws.context.depth - site.ins.popped script.routines,
        ∃ word, ws.context.word index = .ok word ∧ ws'.context.word index = .ok word) ∧
    ∀ (settings : LiftSettings) (m later : Machine) (visit : Visit) (target : Nat) (ws : Workspace),
      visit.site.execute script m.callees (visit.found script m) = .ok (.enter target) ws →
      Machine.Above script settings (visit.act :: visit.callers).length (visit.begun m target)
        later →
      later.active.length = (visit.act :: visit.callers).length →
      (∃ act, later.active = act :: visit.callers ∧ act.walk = visit.act.walk) ∧
      ∀ flow ws', visit.site.execute script later.callees (visit.found script later) = .ok flow ws' →
        ws'.context.stack = visit.walk.context.stack := by
  refine ⟨fun site callees ws ws' flow hrun => ?_, ?_⟩
  · obtain ⟨hle, pushed, hlength, hstack⟩ := site.shifts_execute hplain callees ws flow ws' hrun
    refine ⟨hle, ?_, fun index hindex => Context.word_of_stack_eq hstack hindex⟩
    rw [Context.depth, hstack, List.length_append, List.length_drop, hlength]
    rw [Context.depth] at hle ⊢
    omega
  · intro settings m later visit target ws henter habove hlength
    refine ⟨⟨_, Visit.active_of_above habove (Nat.le_of_eq hlength), rfl⟩, fun flow ws' hrun => ?_⟩
    have hcall := Instruction.order_of_call (Site.execute_enter henter).1
    obtain ⟨-, pushed, hnone, hstack⟩ :=
      visit.site.shifts_execute hplain later.callees _ flow ws' hrun
    simp only [Instruction.popped, Instruction.pushed, hcall] at hnone hstack
    obtain rfl := List.eq_nil_of_length_eq_zero hnone
    rw [hstack, List.nil_append, List.drop_zero]
    exact congrArg Context.stack (Site.context_placeLabel script.labels)

/-- An engine routine from a vector and a number to a vector. -/
def turnRoutines : Routines :=
  { table := [(7, ⟨"Turn", .vector, [⟨.vector, false⟩, ⟨.int, false⟩]⟩)] }

/-- A call of it, on a stack with one word more than it takes. -/
def turnWorkspace : Workspace where
  tree := { exprs := #[⟨0, .block []⟩, ⟨0, .slot { type := .int }⟩, ⟨0, .slot { type := .int }⟩,
    ⟨0, .slot { type := .float }⟩, ⟨0, .slot { type := .float }⟩, ⟨0, .slot { type := .float }⟩] }
  context :=
    { stack := [⟨⟨5⟩, ⟨0⟩⟩, ⟨⟨4⟩, ⟨0⟩⟩, ⟨⟨3⟩, ⟨0⟩⟩, ⟨⟨2⟩, ⟨0⟩⟩, ⟨⟨1⟩, ⟨0⟩⟩], calls := [⟨⟨0⟩, 0⟩] }

/-- The engine call takes four words and leaves three; the word below stays. The call of a subroutine
that copies a word of its caller leaves the caller's stack as it is. -/
theorem turnRoutines_stack_effect : turnRoutines.Plain ∧
    (∃ flow ws' word, Site.execute ⟨{ opcode := .action, routine := 7, arity := 2 }, 0, ⟨0⟩, 0⟩
        { program := frameScript, routines := turnRoutines } [] turnWorkspace = .ok flow ws' ∧
      ws'.context.depth = 4 ∧ turnWorkspace.context.word 0 = .ok word ∧
      ws'.context.word 0 = .ok word) ∧
    ∃ m visit later flow ws', Lift.descentAt frameScript turnRoutines .strictly 4 30 =
        some (m, visit, later) ∧
      visit.site.execute (Lift.script frameScript turnRoutines) later.callees
        (visit.found (Lift.script frameScript turnRoutines) later) = .ok flow ws' ∧
      ws'.context.stack = visit.walk.context.stack := by
  have hplain : turnRoutines.Plain := by
    intro number routine hroutine
    obtain ⟨-, rfl⟩ := Prod.mk.inj (List.mem_singleton.1 (Site.mem_of_lookup hroutine))
    decide
  refine ⟨hplain, ?_, ?_⟩
  · obtain ⟨heffect, -⟩ :=
      stack_effect_of_instruction { program := frameScript, routines := turnRoutines } hplain
    obtain ⟨flow, ws', hrun⟩ := Lift.exists_of_accepts
      (Site.execute ⟨{ opcode := .action, routine := 7, arity := 2 }, 0, ⟨0⟩, 0⟩
        { program := frameScript, routines := turnRoutines } []) turnWorkspace (by decide +kernel)
    obtain ⟨-, hdepth, hsame⟩ := heffect _ _ _ _ _ hrun
    obtain ⟨word, hbefore, hafter⟩ := hsame 0 (by decide)
    exact ⟨flow, ws', word, hrun, Nat.add_right_cancel hdepth, hbefore, hafter⟩
  · obtain ⟨-, hcalls⟩ :=
      stack_effect_of_instruction (Lift.script frameScript turnRoutines) hplain
    have hdescent : (Lift.descentAt frameScript turnRoutines .strictly 4 30).any fun p =>
        Lift.accepts (p.2.1.site.execute (Lift.script frameScript turnRoutines) p.2.2.callees)
          (p.2.1.found (Lift.script frameScript turnRoutines) p.2.2) := by decide +kernel
    obtain ⟨⟨m, visit, later⟩, hdescent, haccepts⟩ := (Option.any_eq_true _ _).1 hdescent
    obtain ⟨-, -, hop, hnone, habove, hlength⟩ := Lift.descentAt_eq_some hdescent
    obtain ⟨flow, ws', hrun⟩ := Lift.exists_of_accepts _ _ haccepts
    obtain ⟨-, hstack⟩ := hcalls _ m later visit _ _ (Site.execute_unknown hop hnone) habove hlength
    exact ⟨m, visit, later, flow, ws', hdescent, hrun, hstack flow ws' hrun⟩

end ScriptLift
