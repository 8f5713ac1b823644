import Mathlib.Data.List.Forall2
import ScriptLift.Proofs.Semantics.Words
import ScriptLift.Proofs.Tree.Growth

/-! Statements as assignments to named places.

A slot is a place of its own. Expressions are evaluated from left to right; a statement that jumps,
branches or calls a subroutine has no meaning here. -/
namespace ScriptLift

/-- What the slots hold and which engine calls were made. -/
structure Store (W : Type) where
  content : NodeId → Option (Content W) := fun _ => none
  calls : List (EngineCall W) := []

namespace Store

variable {W : Type}

def assign (s : Store W) (slot : NodeId) (content : Content W) : Store W :=
  { s with content := fun id => if id = slot then some content else s.content id }

@[simp] theorem content_assign_self (s : Store W) (slot : NodeId) (c : Content W) :
    (s.assign slot c).content slot = some c := by
  simp [assign]

theorem content_assign_of_ne (s : Store W) {slot id : NodeId} (c : Content W) (h : id ≠ slot) :
    (s.assign slot c).content id = s.content id := by
  simp [assign, h]

@[simp] theorem calls_assign (s : Store W) (slot : NodeId) (c : Content W) :
    (s.assign slot c).calls = s.calls := rfl

end Store

namespace Content

variable {W : Type}

def word? : Content W → Option W
  | .word w => some w
  | .vector _ => none

def component? : Content W → Nat → Option W
  | .vector v, 0 => some v.1
  | .vector v, 1 => some v.2.1
  | .vector v, 2 => some v.2.2
  | _, _ => none

end Content

namespace Meaning

variable {W : Type} (M : Meaning W)

/-- The answer of a routine, as wide as its result. -/
def reply (routines : Routines) (past : List (EngineCall W)) (call : EngineCall W) : Content W :=
  match routines.get? call.routine with
  | some routine =>
    if routine.result = .vector then .vector (M.vectorAnswer past call)
    else .word (M.answer past call)
  | none => .word (M.answer past call)

variable (routines : Routines) (tree : Tree)

/-- The value of a node and the store afterwards, over at most `depth` levels of nodes. -/
@[simp] def evaluate : Nat → NodeId → StateT (Store W) Option (Content W)
  | 0, _ => failure
  | depth + 1, id =>
    match tree.node id with
    | .literal value => pure (.word (M.literal value))
    | .slot _ => do (← get).content id
    | .vector x y z => do
      let x ← (← evaluate depth x).word?
      let y ← (← evaluate depth y).word?
      let z ← (← evaluate depth z).word?
      return .vector (x, y, z)
    | .component whole index => do
      let w ← (← evaluate depth whole).component? index
      return .word w
    | .unary op operand => do
      let w ← (← evaluate depth operand).word?
      let result := .word (M.unary op w)
      if op.isStep then modify (·.assign operand result)
      return result
    | .binary .assign slot value _ => do
      let result ← evaluate depth value
      modify (·.assign slot result)
      return result
    | .binary op left right _ => do
      let a ← evaluate depth left
      let b ← evaluate depth right
      return M.apply op a b
    | .action routine arguments => do
      let contents ← arguments.mapM (evaluate depth)
      let s ← get
      let call : EngineCall W := ⟨routine, contents⟩
      set { s with calls := s.calls ++ [call] }
      return M.reply routines s.calls call
    | _ => failure

/-- A declaration gives its slot whatever a reserved word holds; labels and bare returns do
nothing. -/
def execute (statement : NodeId) (s : Store W) : Option (Store W) :=
  match tree.node statement with
  | .slot _ => some (s.assign statement (.word (M.reserved (tree.offset statement))))
  | .label | .ret none => some s
  | _ => (M.evaluate routines tree tree.size statement s).map (·.2)

def executeAll (statements : List NodeId) (s : Store W) : Option (Store W) :=
  statements.foldlM (fun s statement => M.execute routines tree statement s) s

/-- Evaluating the node gives this content and leaves this store, however deep one looks. -/
def Gives (id : NodeId) (s : Store W) (c : Content W) (s' : Store W) : Prop :=
  ∀ depth, id.index < depth → M.evaluate routines tree depth id s = some (c, s')

section Apply

variable {α β : Type} (s : Store W)

@[simp] theorem pure_apply (a : α) : (pure a : StateT (Store W) Option α) s = some (a, s) := rfl

@[simp] theorem bind_apply (x : StateT (Store W) Option α) (f : α → StateT (Store W) Option β) :
    (x >>= f) s = (x s).bind fun p => f p.1 p.2 := rfl

@[simp] theorem map_apply (f : α → β) (x : StateT (Store W) Option α) :
    (f <$> x) s = (x s).map fun p => (f p.1, p.2) := by
  rw [map_eq_pure_bind, bind_apply, Option.map_eq_bind]
  rfl

@[simp] theorem lift_apply (x : Option α) :
    (liftM x : StateT (Store W) Option α) s = x.bind fun a => some (a, s) := rfl

@[simp] theorem get_apply : (get : StateT (Store W) Option (Store W)) s = some (s, s) := rfl

@[simp] theorem set_apply (s' : Store W) :
    (set s' : StateT (Store W) Option PUnit) s = some (⟨⟩, s') := rfl

@[simp] theorem modify_apply (f : Store W → Store W) :
    (modify f : StateT (Store W) Option PUnit) s = some (⟨⟩, f s) := rfl

end Apply

variable {M routines tree} {id x y z : NodeId} {s s' s₁ s₂ s₃ : Store W} {a b c : Content W}

theorem gives_of_succ
    (h : ∀ depth, id.index ≤ depth → M.evaluate routines tree (depth + 1) id s = some (c, s')) :
    M.Gives routines tree id s c s' := by
  rintro (_ | depth) hd
  · exact absurd hd (Nat.not_lt_zero _)
  · exact h depth (Nat.le_of_lt_succ hd)

theorem gives_slot (hs : tree.isSlot id) (hc : s.content id = some c) :
    M.Gives routines tree id s c s := by
  obtain ⟨slot, hn⟩ := Tree.node_of_isSlot hs
  exact gives_of_succ fun depth _ => by simp [hn, hc]

theorem gives_literal {value : Literal} (hn : tree.node id = .literal value) :
    M.Gives routines tree id s (.word (M.literal value)) s := by
  exact gives_of_succ fun depth _ => by simp [hn]

theorem gives_vector {u v w : W} (hn : tree.node id = .vector x y z) (hx : x.index < id.index)
    (hy : y.index < id.index) (hz : z.index < id.index)
    (gx : M.Gives routines tree x s (.word u) s₁) (gy : M.Gives routines tree y s₁ (.word v) s₂)
    (gz : M.Gives routines tree z s₂ (.word w) s₃) :
    M.Gives routines tree id s (.vector (u, v, w)) s₃ := by
  refine gives_of_succ fun depth hd => ?_
  simp [hn, Content.word?, gx depth (by omega), gy depth (by omega), gz depth (by omega)]

theorem gives_component {index : Nat} {w : W} (hn : tree.node id = .component x index)
    (hx : x.index < id.index) (gx : M.Gives routines tree x s a s₁)
    (hw : a.component? index = some w) : M.Gives routines tree id s (.word w) s₁ := by
  refine gives_of_succ fun depth hd => ?_
  simp [hn, gx depth (by omega), hw]

theorem gives_unary {op : UnaryOp} {w : W} (hn : tree.node id = .unary op x)
    (hx : x.index < id.index) (hop : op.isStep = false)
    (gx : M.Gives routines tree x s (.word w) s₁) :
    M.Gives routines tree id s (.word (M.unary op w)) s₁ := by
  refine gives_of_succ fun depth hd => ?_
  simp [hn, Content.word?, hop, gx depth (by omega)]

theorem gives_step {op : UnaryOp} {w : W} (hn : tree.node id = .unary op x)
    (hx : x.index < id.index) (hop : op.isStep = true)
    (gx : M.Gives routines tree x s (.word w) s₁) :
    M.Gives routines tree id s (.word (M.unary op w))
      (s₁.assign x (.word (M.unary op w))) := by
  refine gives_of_succ fun depth hd => ?_
  simp [hn, Content.word?, hop, gx depth (by omega)]

theorem gives_assign {declares : Bool} (hn : tree.node id = .binary .assign x y declares)
    (hy : y.index < id.index) (gy : M.Gives routines tree y s c s₁) :
    M.Gives routines tree id s c (s₁.assign x c) := by
  refine gives_of_succ fun depth hd => ?_
  simp [hn, gy depth (by omega)]

theorem gives_binary {op : BinaryOp} {declares : Bool} (hn : tree.node id = .binary op x y declares)
    (hop : op ≠ .assign) (hx : x.index < id.index) (hy : y.index < id.index)
    (gx : M.Gives routines tree x s a s₁) (gy : M.Gives routines tree y s₁ b s₂) :
    M.Gives routines tree id s (M.apply op a b) s₂ := by
  refine gives_of_succ fun depth hd => ?_
  have hx' := gx depth (by omega)
  have hy' := gy depth (by omega)
  cases op <;> first
    | exact absurd rfl hop
    | simp [hn, hx', hy']

theorem evaluate_mapM {depth : Nat} {arguments : List NodeId} {contents : List (Content W)}
    (h : List.Forall₂ (fun id c => M.evaluate routines tree depth id s = some (c, s)) arguments
      contents) :
    arguments.mapM (M.evaluate routines tree depth) s = some (contents, s) := by
  induction h with
  | nil => rfl
  | cons hid _ ih =>
    rw [List.mapM_cons]
    simp [hid, ih]

theorem gives_action {routine : UInt16} {arguments : List NodeId} {contents : List (Content W)}
    (hn : tree.node id = .action routine arguments) (hlt : ∀ a ∈ arguments, a.index < id.index)
    (h : List.Forall₂ (fun id c => M.Gives routines tree id s c s) arguments contents) :
    M.Gives routines tree id s (M.reply routines s.calls ⟨routine, contents⟩)
      { s with calls := s.calls ++ [⟨routine, contents⟩] } := by
  refine gives_of_succ fun depth hd => ?_
  have hall : List.Forall₂ (fun id c => M.evaluate routines tree depth id s = some (c, s))
      arguments contents := by
    refine (List.forall₂_iff_get.2 ⟨h.length_eq, fun i hi hi' => ?_⟩)
    have harg := hlt (arguments.get ⟨i, hi⟩) (List.get_mem _ _)
    exact h.get hi hi' depth (by omega)
  simp [hn, evaluate_mapM hall]

theorem execute_of_gives (hs : id.index < tree.size) (hslot : tree.kind id ≠ .slot)
    (h : M.Gives routines tree id s c s') (hl : tree.node id ≠ .label)
    (hr : tree.node id ≠ .ret none) : M.execute routines tree id s = some s' := by
  unfold execute
  split
  · next hn => simp [Tree.kind, hn, Node.kind] at hslot
  · next hn => exact absurd hn hl
  · next hn => exact absurd hn hr
  · rw [h tree.size hs]
    rfl

theorem executeAll_append (first second : List NodeId) (s : Store W) :
    M.executeAll routines tree (first ++ second) s =
      (M.executeAll routines tree first s).bind fun s => M.executeAll routines tree second s :=
  List.foldlM_append

end Meaning

end ScriptLift
