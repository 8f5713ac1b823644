import ScriptLift.Lift.Run
import ScriptLift.Proofs.Lift.Tables

namespace ScriptLift

namespace Lift

theorem bind_eq_ok {α β : Type} {x : Lift α} {f : α → Lift β} {ws ws' : Workspace} {b : β}
    (h : (x >>= f) ws = .ok b ws') : ∃ a mid, x ws = .ok a mid ∧ f a mid = .ok b ws' := by
  change EStateM.bind x f ws = _ at h
  unfold EStateM.bind at h
  split at h
  · next a mid hx => exact ⟨a, mid, hx, h⟩
  · simp at h

def left {α : Type} : EStateM.Result Error Workspace α → Workspace
  | .ok _ ws => ws
  | .error _ ws => ws

/-- Whatever `x` does, failing or not, stays within `R`. -/
def Keeps {α : Type} (R : Workspace → Workspace → Prop) (x : Lift α) : Prop :=
  ∀ ws, R ws (left (x ws))

theorem Keeps.ok {α : Type} {R : Workspace → Workspace → Prop} {x : Lift α} {ws ws' : Workspace}
    {a : α} (h : Keeps R x) (hrun : x ws = .ok a ws') : R ws ws' := by
  have hws := h ws
  rw [hrun] at hws
  exact hws

theorem Keeps.error {α : Type} {R : Workspace → Workspace → Prop} {x : Lift α}
    {ws ws' : Workspace} {cause : Error} (h : Keeps R x) (hrun : x ws = .error cause ws') :
    R ws ws' := by
  have hws := h ws
  rw [hrun] at hws
  exact hws

end Lift

/-- Nodes that more than one operation makes: not a block, a return or a call. -/
def Kind.isOrdinary : Kind → Bool
  | .block | .ret | .call => false
  | _ => true

/-- Where the blocks start that an instruction asks for: at the target of a branch, or where a saved
state resumes. -/
def Site.Asks (site : Site) (program : Program) (offset : Nat) : Prop :=
  (site.ins.opcode.operation = .branch ∧ offset = site.ins.target) ∨
    site.ins.opcode.operation = .storeState ∧
      ∃ jump, program.at? site.ins.next = some jump ∧ offset = jump.next

/-- A relation that contains the updates of the instruction at `site`. A node that is recorded
becomes a statement of the block at once; returns and calls are recorded by one operation each and
are left to those who ask for them. -/
structure Site.Closed (site : Site) (script : Script)
    (R : Workspace → Workspace → Prop) : Prop where
  refl : ∀ ws, R ws ws
  trans : ∀ {a b c}, R a b → R b c → R a c
  alloc : ∀ ws node, node.kind.isOrdinary →
    R ws { ws with tree := ws.tree.alloc site.ins.offset node }
  record : ∀ ws node, node.kind.isOrdinary →
    R ws { ws with
      tree := (ws.tree.alloc site.ins.offset node).pushStatement site.block ws.tree.nextId }
  label : ∀ ws target label, script.labels.lookup target = some label →
    R ws { ws with tree := ws.tree.pushStatement site.block label }
  /-- A block of its own for a conditional goto. -/
  jump : ∀ ws label, R ws { ws with
    tree := ((ws.tree.alloc site.ins.offset (.block [])).alloc site.ins.offset
      (.goto label)).pushStatement ws.tree.nextId
        (ws.tree.alloc site.ins.offset (.block [])).nextId }
  schedule : ∀ ws offset, site.Asks script.program offset → R ws { ws with
    tree := ws.tree.alloc offset (.block [])
    blocks := ((offset, ws.context.depth), ws.tree.nextId) :: ws.blocks
    spawned := some ⟨ws.tree.nextId, offset, ws.context⟩ }
  slot : ∀ ws id f, R ws { ws with tree := ws.tree.modifySlot id f }
  outer : ∀ ws outer, R ws { ws with outer := outer }
  context : ∀ ws context, context.calls = ws.context.calls → R ws { ws with context := context }
  warn : ∀ ws text, R ws { ws with tree := { ws.tree with
    diagnostics := ws.tree.diagnostics.warning site.entry site.start text } }

namespace Site

section Inversion

variable {site : Site} {ws ws' : Workspace} {α : Type} {a : α}

theorem require_eq_ok {condition : Bool} {cause : Inconsistency}
    (h : site.require condition cause ws = .ok () ws') : condition = true ∧ ws' = ws := by
  unfold require at h
  split at h
  · next hc =>
    cases h
    exact ⟨hc, rfl⟩
  · cases h

theorem check_eq_ok {result : Except Inconsistency α} (h : site.check result ws = .ok a ws') :
    result = .ok a ∧ ws' = ws := by
  cases result with
  | ok b =>
    cases h
    exact ⟨rfl, rfl⟩
  | error cause => cases h

theorem below_eq_ok {position : Int} (h : site.below ws = .ok position ws') :
    site.ins.stack < 0 ∧ position = site.ins.stack.toInt ∧ ws' = ws := by
  unfold below at h
  split at h
  · next hneg =>
    cases h
    exact ⟨hneg, rfl, rfl⟩
  · cases h

end Inversion

variable (site : Site) (ws : Workspace)

theorem get_bind {α : Type} (f : Workspace → Lift α) : ((get : Lift Workspace) >>= f) ws = f ws ws :=
  rfl

theorem popMany_eq (count : Nat) : site.popMany count ws =
    match ws.context.popMany count with
    | .ok (words, context) => .ok (words.map (·.slot)) { ws with context }
    | .error cause => .error (.inconsistent site.ins.offset site.ins.opcode cause) ws := by
  cases h : ws.context.popMany count <;>
    simp only [popMany, get_bind, check, h] <;>
    rfl

theorem pop_eq : site.pop ws =
    match ws.context.pop with
    | .ok (word, context) => .ok word.slot { ws with context }
    | .error cause => .error (.inconsistent site.ins.offset site.ins.opcode cause) ws := by
  cases h : ws.context.pop <;>
    simp only [pop, get_bind, check, h] <;>
    rfl

theorem destructWords_eq (size first last : Nat) : site.destructWords size first last ws =
    if last ≤ size then
      match ws.context.popMany size with
      | .ok (words, context) => .ok () { ws with
          context := { context with
            stack := ((words.take last).drop first).reverse ++ context.stack } }
      | .error cause => .error (.inconsistent site.ins.offset site.ins.opcode cause) ws
    else .error (.inconsistent site.ins.offset site.ins.opcode (.keepsTooMany first last size))
      ws := by
  by_cases hlast : last ≤ size
  · cases h : ws.context.popMany size <;>
      simp only [destructWords, require, hlast, decide_true, if_true, pure_bind, get_bind, check,
        h] <;>
      rfl
  · simp only [destructWords, require, hlast, decide_false, if_false, bind, EStateM.bind]
    rfl

end Site

namespace Context

variable {ctx ctx' : Context}

theorem popMany_eq_ok {count : Nat} {words : List Word}
    (h : ctx.popMany count = .ok (words, ctx')) :
    count ≤ ctx.depth ∧ words = (ctx.stack.take count).reverse ∧
      ctx' = { ctx with stack := ctx.stack.drop count } := by
  unfold popMany at h
  split at h
  · cases h
  · next hle =>
    cases h
    exact ⟨Nat.le_of_not_lt hle, rfl, rfl⟩

theorem pop_eq_ok {word : Word} (h : ctx.pop = .ok (word, ctx')) :
    ctx.stack = word :: ctx'.stack ∧ ctx' = { ctx with stack := ctx'.stack } := by
  unfold pop at h
  split at h
  · cases h
  · next hstack =>
    cases h
    exact ⟨hstack, rfl⟩

end Context

namespace Site.Closed

open Lift

variable {site : Site} {script : Script} {R : Workspace → Workspace → Prop} {α β : Type}

theorem keeps_pure (h : site.Closed script R) (a : α) : Keeps R (pure a : Lift α) :=
  fun ws => h.refl ws

theorem keeps_throw (h : site.Closed script R) (fault : Error) :
    Keeps R (throw fault : Lift α) :=
  fun ws => h.refl ws

theorem keeps_consult (h : site.Closed script R) (row : Except Error α) :
    Keeps R (Lift.consult row) := by
  cases row with
  | ok row => exact h.keeps_pure row
  | error e => exact h.keeps_throw e

theorem keeps_get (h : site.Closed script R) : Keeps R (get : Lift Workspace) :=
  fun ws => h.refl ws

theorem keeps_bind (h : site.Closed script R) {x : Lift α} {f : α → Lift β} (hx : Keeps R x)
    (hf : ∀ a, Keeps R (f a)) : Keeps R (x >>= f) := by
  intro ws
  have hws := hx ws
  change R ws (left (EStateM.bind x f ws))
  unfold EStateM.bind
  cases hrun : x ws with
  | error e ws₁ =>
    rw [hrun] at hws
    exact hws
  | ok a ws₁ =>
    rw [hrun] at hws
    exact h.trans hws (hf a ws₁)

theorem keeps_modify {f : Workspace → Workspace} (hf : ∀ ws, R ws (f ws)) :
    Keeps R (modify f : Lift Unit) :=
  fun ws => hf ws

theorem keeps_forM (h : site.Closed script R) {f : α → Lift Unit} (hf : ∀ a, Keeps R (f a))
    (xs : List α) : Keeps R (xs.forM f) := by
  induction xs with
  | nil => exact h.keeps_pure ()
  | cons a xs ih =>
    exact h.keeps_bind (hf a) fun _ => ih

theorem keeps_mapM (h : site.Closed script R) {f : α → Lift β} (hf : ∀ a, Keeps R (f a))
    (xs : List α) : Keeps R (xs.mapM f) := by
  induction xs with
  | nil => exact h.keeps_pure []
  | cons a xs ih =>
    rw [List.mapM_cons]
    exact h.keeps_bind (hf a) fun b => h.keeps_bind ih fun bs => h.keeps_pure (b :: bs)

theorem keeps_fail (h : site.Closed script R) (cause : Inconsistency) :
    Keeps R (site.fail cause : Lift α) :=
  h.keeps_throw _

theorem keeps_require (h : site.Closed script R) (condition : Bool) (cause : Inconsistency) :
    Keeps R (site.require condition cause) := by
  unfold Site.require
  split
  · exact h.keeps_pure ()
  · exact h.keeps_fail cause

theorem keeps_check (h : site.Closed script R) (result : Except Inconsistency α) :
    Keeps R (site.check result) := by
  cases result with
  | ok a => exact h.keeps_pure a
  | error cause => exact h.keeps_fail cause

theorem keeps_alloc (h : site.Closed script R) {node : Node} (hn : node.kind.isOrdinary) :
    Keeps R (site.alloc node) :=
  fun ws => h.alloc ws node hn

theorem keeps_record (h : site.Closed script R) {node : Node} {f : NodeId → Lift β}
    (hn : node.kind.isOrdinary) (hf : ∀ id, Keeps R (f id)) :
    Keeps R (site.alloc node >>= fun id => site.emit id >>= fun _ => f id) := by
  intro ws
  exact h.trans (h.record ws node hn) (hf ws.tree.nextId { ws with
    tree := (ws.tree.alloc site.ins.offset node).pushStatement site.block ws.tree.nextId })

theorem keeps_record_last (h : site.Closed script R) {node : Node} (hn : node.kind.isOrdinary) :
    Keeps R (site.alloc node >>= fun id => site.emit id) :=
  fun ws => h.record ws node hn

theorem keeps_push (h : site.Closed script R) (slot : NodeId) : Keeps R (Lift.push slot) :=
  keeps_modify fun ws => h.context ws (ws.context.push slot) rfl

theorem keeps_popMany (h : site.Closed script R) (count : Nat) : Keeps R (site.popMany count) := by
  intro ws
  rw [popMany_eq]
  cases hpop : ws.context.popMany count with
  | error cause => exact h.refl ws
  | ok popped => exact h.context ws _ (by rw [(Context.popMany_eq_ok hpop).2.2])

theorem keeps_pop (h : site.Closed script R) : Keeps R site.pop := by
  intro ws
  rw [pop_eq]
  cases hpop : ws.context.pop with
  | error cause => exact h.refl ws
  | ok popped => exact h.context ws _ (by rw [(Context.pop_eq_ok hpop).2])

theorem keeps_bindSlot (h : site.Closed script R) (slot : Slot) (value : NodeId) :
    Keeps R (site.bindSlot slot value) :=
  h.keeps_bind (h.keeps_alloc rfl) fun target =>
    h.keeps_record rfl fun _ => h.keeps_pure target

theorem keeps_declare (h : site.Closed script R) (type : ValueType) (value : NodeId) :
    Keeps R (site.declare type value) :=
  h.keeps_bind (h.keeps_bindSlot _ value) fun slot => h.keeps_push slot

theorem keeps_addressed (h : site.Closed script R) : Keeps R site.addressed := by
  refine h.keeps_bind ?_ fun position => h.keeps_bind h.keeps_get fun ws => h.keeps_check _
  unfold Site.below
  split
  · exact h.keeps_pure _
  · exact h.keeps_throw _

theorem keeps_argument (h : site.Closed script R) (position : Int) (type : ValueType)
    (how : Access) : Keeps R (site.argument position type how) := by
  intro ws
  unfold Site.argument
  cases hlookup : ws.outer.lookup position with
  | some slot => exact h.slot ws slot _
  | none => exact h.trans (h.alloc ws _ rfl) (h.outer _ _)

theorem keeps_access (h : site.Closed script R) (index : Nat) (how : Access) :
    Keeps R (site.access index how) := by
  refine h.keeps_bind h.keeps_get fun ws => h.keeps_bind (h.keeps_check _) fun word => ?_
  split
  · dsimp only
    split
    · exact h.keeps_argument _ _ how
    · exact h.keeps_fail _
  · exact h.keeps_pure _

theorem keeps_retype (h : site.Closed script R) (left right : NodeId) :
    Keeps R (Lift.retype left right) := by
  refine keeps_modify fun ws => ?_
  split
  · exact h.slot ws left _
  · exact h.refl ws

theorem keeps_copyDown (h : site.Closed script R) : Keeps R site.copyDown := by
  refine h.keeps_bind h.keeps_addressed fun start => h.keeps_bind h.keeps_get fun ws =>
    h.keeps_bind (h.keeps_require _ _) fun _ => h.keeps_forM (fun i => ?_) _
  exact h.keeps_bind h.keeps_get fun ws => h.keeps_bind (h.keeps_check _) fun right =>
    h.keeps_bind (h.keeps_access _ _) fun left => h.keeps_bind (h.keeps_retype _ _) fun _ =>
      h.keeps_record_last rfl

theorem keeps_copyTop (h : site.Closed script R) : Keeps R site.copyTop := by
  refine h.keeps_bind h.keeps_addressed fun start => h.keeps_forM (fun i => ?_) _
  exact h.keeps_bind (h.keeps_access _ _) fun source => h.keeps_bind h.keeps_get fun ws =>
    h.keeps_bind (h.keeps_bindSlot _ _) fun copy => h.keeps_push copy

theorem keeps_release (h : site.Closed script R) : Keeps R site.release := by
  refine h.keeps_bind ?_ fun position => ?_
  · unfold Site.below
    split
    · exact h.keeps_pure _
    · exact h.keeps_throw _
  · exact h.keeps_bind (h.keeps_popMany _) fun _ => h.keeps_pure ()

theorem keeps_destruct (h : site.Closed script R) : Keeps R site.destruct := by
  unfold Site.destruct
  split
  · exact h.keeps_throw _
  · intro ws
    dsimp only
    rw [destructWords_eq]
    split
    · cases hpop : ws.context.popMany (site.ins.size.toNat / 4) with
      | error cause => exact h.refl ws
      | ok popped => exact h.context ws _ (by rw [(Context.popMany_eq_ok hpop).2.2])
    · exact h.refl ws

theorem keeps_step (h : site.Closed script R) : Keeps R site.step :=
  h.keeps_bind (h.keeps_consult _) fun _ => h.keeps_bind h.keeps_addressed fun _ =>
    h.keeps_bind (h.keeps_access _ _) fun _ => h.keeps_record_last rfl

theorem keeps_popVector (h : site.Closed script R) : Keeps R site.popVector := by
  refine h.keeps_bind (h.keeps_popMany 3) fun words => ?_
  have hfloat : ∀ name slot, Keeps R (site.requireFloat name slot) := fun name slot =>
    h.keeps_bind h.keeps_get fun ws => h.keeps_require _ _
  split
  · exact h.keeps_bind (hfloat _ _) fun _ => h.keeps_bind (hfloat _ _) fun _ =>
      h.keeps_bind (hfloat _ _) fun _ => h.keeps_alloc rfl
  · exact h.keeps_fail _

theorem keeps_pushComponent (h : site.Closed script R) (vector : NodeId) (name : String)
    (index : Nat) : Keeps R (site.pushComponent vector name index) :=
  h.keeps_bind (h.keeps_alloc rfl) fun component =>
    h.keeps_bind (h.keeps_alloc rfl) fun _ =>
      h.keeps_record rfl fun _ => h.keeps_push component

theorem keeps_produce (h : site.Closed script R) (type : ValueType) (value : NodeId) :
    Keeps R (site.produce type value) := by
  unfold Site.produce
  split
  · exact h.keeps_bind (h.keeps_bindSlot _ _) fun result =>
      h.keeps_bind (h.keeps_pushComponent _ _ _) fun _ =>
        h.keeps_bind (h.keeps_pushComponent _ _ _) fun _ => h.keeps_pushComponent _ _ _
  · exact h.keeps_declare type value

theorem keeps_reserve (h : site.Closed script R) : Keeps R site.reserve :=
  h.keeps_bind (h.keeps_consult _) fun _ => h.keeps_record rfl fun slot => h.keeps_push slot

theorem keeps_load (h : site.Closed script R) : Keeps R site.load := by
  unfold Site.load
  split
  · exact h.keeps_bind (h.keeps_alloc rfl) fun _ => h.keeps_declare _ _
  · exact h.keeps_fail _

theorem keeps_unary (h : site.Closed script R) : Keeps R site.unary :=
  h.keeps_bind (h.keeps_consult _) fun _ => h.keeps_bind h.keeps_pop fun _ =>
    h.keeps_bind h.keeps_get fun _ => h.keeps_bind (h.keeps_alloc rfl) fun _ =>
      h.keeps_declare _ _

theorem keeps_popPair (h : site.Closed script R) (shape : Shape) :
    Keeps R (site.popPair shape) := by
  cases shape with
  | scalar =>
    exact h.keeps_bind h.keeps_pop fun _ => h.keeps_bind h.keeps_pop fun _ => h.keeps_pure _
  | vectorVector =>
    exact h.keeps_bind h.keeps_popVector fun _ => h.keeps_bind h.keeps_popVector fun _ =>
      h.keeps_pure _
  | floatVector =>
    exact h.keeps_bind h.keeps_popVector fun _ => h.keeps_bind h.keeps_pop fun _ => h.keeps_pure _
  | vectorFloat =>
    exact h.keeps_bind h.keeps_pop fun _ => h.keeps_bind h.keeps_popVector fun _ => h.keeps_pure _

theorem keeps_binary (h : site.Closed script R) : Keeps R site.binary :=
  h.keeps_bind (h.keeps_consult _) fun _ => h.keeps_bind (h.keeps_popPair _) fun _ =>
    h.keeps_bind (h.keeps_alloc rfl) fun _ => h.keeps_produce _ _

theorem keeps_compareWord (h : site.Closed script R) (relation join : BinaryOp) (result : NodeId)
    (index : Nat) (words : NodeId × NodeId) :
    Keeps R (site.compareWord relation join result index words) := by
  refine h.keeps_bind (h.keeps_alloc rfl) fun word => ?_
  split
  · exact h.keeps_record_last rfl
  · exact h.keeps_bind (h.keeps_alloc rfl) fun _ =>
      h.keeps_record_last rfl

theorem keeps_compare (h : site.Closed script R) : Keeps R site.compare :=
  h.keeps_bind (h.keeps_require _ _) fun _ => h.keeps_bind (h.keeps_popMany _) fun _ =>
    h.keeps_bind (h.keeps_popMany _) fun _ =>
      h.keeps_bind (h.keeps_alloc rfl) fun result =>
        h.keeps_bind (h.keeps_forM (fun _ => h.keeps_compareWord _ _ _ _ _) _) fun _ =>
          h.keeps_push result

theorem keeps_actionArgument (h : site.Closed script R) (routine : Routine) (index : Nat) :
    Keeps R (site.actionArgument routine index) := by
  unfold Site.actionArgument
  split
  · exact h.keeps_fail _
  · exact h.keeps_popVector
  · refine h.keeps_bind h.keeps_get fun ws => ?_
    split
    · exact h.keeps_pure _
    · exact h.keeps_fail _
  · exact h.keeps_pop

theorem keeps_action (h : site.Closed script R) (routines : Routines) :
    Keeps R (site.action routines) := by
  unfold Site.action
  split
  · exact h.keeps_throw _
  · next routine _ =>
    refine h.keeps_bind (h.keeps_mapM (fun i => h.keeps_actionArgument routine i) _)
      fun arguments => ?_
    by_cases hvoid : routine.result = .void
    · simp only [hvoid, if_true]
      exact h.keeps_record_last rfl
    · simp only [hvoid, if_false]
      exact h.keeps_bind (h.keeps_alloc rfl) fun _ => h.keeps_produce _ _

theorem keeps_targetLabel (h : site.Closed script R) (known : List (Nat × NodeId)) :
    Keeps R (site.targetLabel known) := by
  unfold Site.targetLabel
  split
  · exact h.keeps_pure _
  · exact h.keeps_fail _

theorem keeps_jump (h : site.Closed script R) (known : List (Nat × NodeId)) :
    Keeps R (site.jump known) := by
  unfold Site.jump
  split
  · exact h.keeps_pure _
  · refine h.keeps_bind ?_ fun _ => h.keeps_pure _
    have hgoto : Keeps R (site.targetLabel known >>= fun label =>
        site.alloc (.goto label) >>= fun goto => site.emit goto) :=
      h.keeps_bind (h.keeps_targetLabel known) fun label =>
        h.keeps_record_last rfl
    unfold Site.jumpBack
    dsimp only
    split
    · exact h.keeps_bind (keeps_modify fun ws => h.warn ws _) fun _ => hgoto
    · exact hgoto

theorem keeps_schedule (h : site.Closed script R) {offset : Nat}
    (hasks : site.Asks script.program offset) : Keeps R (Lift.schedule offset) := by
  intro ws
  unfold Lift.schedule
  dsimp only
  split
  · exact h.refl ws
  · exact h.schedule ws offset hasks

theorem keeps_branchBlock (h : site.Closed script R) (known : List (Nat × NodeId))
    (hop : site.ins.opcode.operation = .branch) : Keeps R (site.branchBlock known) := by
  unfold Site.branchBlock
  split
  · exact h.keeps_schedule (.inl ⟨hop, rfl⟩)
  · exact h.keeps_bind (h.keeps_targetLabel known) fun label ws => h.jump ws label

theorem keeps_branch (h : site.Closed script R) (known : List (Nat × NodeId))
    (hop : site.ins.opcode.operation = .branch) : Keeps R (site.branch known) :=
  h.keeps_bind h.keeps_pop fun _ =>
    h.keeps_bind (h.keeps_alloc rfl) fun _ =>
      h.keeps_bind (h.keeps_alloc rfl) fun _ =>
        h.keeps_bind (h.keeps_branchBlock known hop) fun _ =>
          h.keeps_record_last rfl

theorem keeps_storeState (h : site.Closed script R)
    (hop : site.ins.opcode.operation = .storeState) :
    Keeps R (site.storeState script.program) := by
  intro ws
  change R ws (left (EStateM.bind (site.followingJump script.program) _ ws))
  unfold EStateM.bind Site.followingJump
  cases hjump : (script.program.at? site.ins.next).filter (·.opcode = .jmp) with
  | none => exact h.refl ws
  | some jump =>
    have hat : script.program.at? site.ins.next = some jump := (Option.filter_eq_some_iff.1 hjump).1
    have hschedule : Keeps R (Lift.schedule jump.next) :=
      h.keeps_schedule (.inr ⟨hop, jump, hat, rfl⟩)
    exact h.keeps_bind hschedule (fun block => keeps_modify fun ws =>
      h.context ws { ws.context with savedAction := some block } rfl) ws

theorem keeps_actuals (h : site.Closed script R) (formals : List Formal) :
    Keeps R (formals.mapM site.actual) :=
  h.keeps_mapM (fun _ => h.keeps_bind h.keeps_get fun _ =>
    h.keeps_bind (h.keeps_check _) fun _ => h.keeps_access _ _) formals

theorem keeps_call (h : site.Closed script R) (callee : SubId)
    (hcall : ∀ ws arguments, R ws { ws with
      tree := (ws.tree.alloc site.ins.offset (.call callee arguments)).pushStatement site.block
        ws.tree.nextId }) : Keeps R (site.call callee) :=
  h.keeps_bind h.keeps_get fun _ => h.keeps_bind (h.keeps_actuals _) fun arguments ws =>
    hcall ws arguments

theorem keeps_saveBase (h : site.Closed script R) : Keeps R Lift.saveBase := by
  have hfold : ∀ (words : List Word) (ws : Workspace), R ws { ws with
      tree := words.foldl
        (fun tree word => tree.modifySlot word.slot fun s => { s with storage := .global })
        ws.tree } := by
    intro words
    induction words with
    | nil => exact fun ws => h.refl ws
    | cons word words ih =>
      intro ws
      exact h.trans (h.slot ws word.slot fun s => { s with storage := .global })
        (ih { ws with
          tree := ws.tree.modifySlot word.slot fun s => { s with storage := .global } })
  exact keeps_modify fun ws => h.trans (hfold ws.context.stack ws) (h.context _ _ rfl)

theorem keeps_restoreBase (h : site.Closed script R) : Keeps R Lift.restoreBase :=
  keeps_modify fun ws => h.context ws _ rfl

theorem keeps_onward (h : site.Closed script R) {handler : Lift Unit} (hh : Keeps R handler) :
    Keeps R (site.onward handler) :=
  h.keeps_bind hh fun _ => h.keeps_pure _

/-- Every operation but a return stays within the relation, if calls do. -/
theorem keeps_execute (h : site.Closed script R) (callees : List (Nat × SubId))
    (hcall : site.ins.opcode.operation = .call →
      ∀ callee, callees.lookup site.ins.target = some callee → Keeps R (site.call callee))
    (hret : site.ins.opcode.operation ≠ .ret) : Keeps R (site.execute script callees) := by
  unfold Site.execute
  split
  · exact h.keeps_onward (h.keeps_pure ())
  · next hop => exact absurd hop hret
  · exact h.keeps_jump _
  · next hop =>
    split
    · next callee hcallee => exact h.keeps_onward (hcall hop callee hcallee)
    · exact h.keeps_pure _
  · next hop => exact h.keeps_onward (h.keeps_branch _ hop)
  · exact h.keeps_onward h.keeps_reserve
  · exact h.keeps_onward h.keeps_load
  · exact h.keeps_onward (h.keeps_action _)
  · exact h.keeps_onward h.keeps_copyDown
  · exact h.keeps_onward h.keeps_copyTop
  · exact h.keeps_onward h.keeps_release
  · exact h.keeps_onward h.keeps_destruct
  · exact h.keeps_onward h.keeps_step
  · exact h.keeps_onward h.keeps_unary
  · exact h.keeps_onward h.keeps_compare
  · next hop => exact h.keeps_onward (h.keeps_storeState hop)
  · exact h.keeps_onward h.keeps_saveBase
  · exact h.keeps_onward h.keeps_restoreBase
  · exact h.keeps_onward h.keeps_binary

theorem keeps_placeLabel (h : site.Closed script R) : Keeps R (site.placeLabel script.labels) := by
  unfold Site.placeLabel
  split
  · next label hl => exact keeps_modify fun ws => h.label ws _ label hl
  · exact h.keeps_pure ()

theorem keeps_visit (h : site.Closed script R) (callees : List (Nat × SubId))
    (hcall : site.ins.opcode.operation = .call →
      ∀ callee, callees.lookup site.ins.target = some callee → Keeps R (site.call callee))
    (hret : site.ins.opcode.operation = .ret → ∀ ws, R ws { ws with
      tree := (ws.tree.alloc site.ins.offset (.ret none)).pushStatement site.block
        ws.tree.nextId }) : Keeps R (site.visit script callees) := by
  refine h.keeps_bind h.keeps_placeLabel fun _ => ?_
  by_cases hop : site.ins.opcode.operation = .ret
  · intro ws
    simp only [Site.execute, hop]
    exact hret hop ws
  · exact h.keeps_execute callees hcall hop

end Site.Closed

namespace Site

variable {site : Site} {ws ws' : Workspace} {target : Nat}

theorem onward_ne_enter (handler : Lift Unit) :
    site.onward handler ws ≠ .ok (.enter target) ws' := by
  intro h
  obtain ⟨_, _, _, h⟩ := Lift.bind_eq_ok h
  cases h

theorem jump_ne_enter (labels : List (Nat × NodeId)) :
    site.jump labels ws ≠ .ok (.enter target) ws' := by
  intro h
  unfold jump at h
  split at h
  · cases h
  · obtain ⟨_, _, _, h⟩ := Lift.bind_eq_ok h
    cases h

theorem execute_enter {script : Script} {callees : List (Nat × SubId)}
    (h : site.execute script callees ws = .ok (.enter target) ws') :
    site.ins.opcode.operation = .call ∧ site.ins.target = target ∧
      callees.lookup site.ins.target = none := by
  cases hop : site.ins.opcode.operation <;> simp only [execute, hop] at h
  case call =>
    cases hc : callees.lookup site.ins.target with
    | some callee => exact absurd (by simpa only [hc] using h) (onward_ne_enter _)
    | none =>
      simp only [hc] at h
      cases h
      exact ⟨rfl, rfl, rfl⟩
  case jump => exact absurd h (jump_ne_enter _)
  case ret =>
    obtain ⟨_, _, _, h⟩ := Lift.bind_eq_ok h
    cases h
  all_goals exact absurd h (onward_ne_enter _)

theorem visit_enter {script : Script} {callees : List (Nat × SubId)}
    (h : site.visit script callees ws = .ok (.enter target) ws') :
    site.ins.opcode.operation = .call ∧ site.ins.target = target ∧
      callees.lookup site.ins.target = none := by
  unfold visit at h
  obtain ⟨_, _, _, h⟩ := Lift.bind_eq_ok h
  exact execute_enter h

end Site

end ScriptLift
