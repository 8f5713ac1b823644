import Mathlib.Algebra.Group.Nat.Defs
import ScriptLift.Proofs.Semantics.Orders
import ScriptLift.Routine

/-! The stack machine that scripts run on, over any domain of words.

The machine reads opcodes by their bytes. It knows those that neither jump nor use globals, and stops
when an instruction reaches outside its stack. -/
namespace ScriptLift

/-- The words of a vector. -/
abbrev Triple (W : Type) := W × W × W

def Triple.words {W : Type} (v : Triple W) : List W := [v.1, v.2.1, v.2.2]

/-- What a named place holds: a word, or a vector as a whole. -/
inductive Content (W : Type) where
  | word (w : W)
  | vector (v : Triple W)
  deriving DecidableEq, Repr

def Content.words {W : Type} : Content W → List W
  | .word a => [a]
  | .vector v => v.words

/-- A call of an engine routine. -/
structure EngineCall (W : Type) where
  routine : UInt16
  arguments : List (Content W)
  deriving DecidableEq, Repr

/-- What operators, literals and engine routines mean. The answer of a routine may depend on all
calls before. -/
structure Meaning (W : Type) where
  /-- What a reserved word holds at first, by the offset of the instruction that reserves it. -/
  reserved : Nat → W
  literal : Literal → W
  unary : UnaryOp → W → W
  binary : BinaryOp → W → W → W
  vectors : BinaryOp → Triple W → Triple W → Triple W
  floatVector : BinaryOp → W → Triple W → Triple W
  vectorFloat : BinaryOp → Triple W → W → Triple W
  answer : List (EngineCall W) → EngineCall W → W
  vectorAnswer : List (EngineCall W) → EngineCall W → Triple W

/-- An operator works on words, on vectors or on one of each. -/
def Meaning.apply {W : Type} (M : Meaning W) (op : BinaryOp) : Content W → Content W → Content W
  | .word a, .word b => .word (M.binary op a b)
  | .vector a, .vector b => .vector (M.vectors op a b)
  | .word a, .vector b => .vector (M.floatVector op a b)
  | .vector a, .word b => .vector (M.vectorFloat op a b)

namespace Instruction

/-- Words that a copy moves, a comparison compares on each side or a destruction takes. -/
def words (ins : Instruction) : Nat := ins.size.toNat / 4

/-- How many words below the top of the stack the instruction addresses. -/
def distance (ins : Instruction) : Nat := ins.stack.toInt.natAbs / 4

end Instruction

/-- The stack, deepest word first, and the engine calls made so far. -/
structure Words (W : Type) where
  stack : List W := []
  calls : List (EngineCall W) := []
  deriving DecidableEq, Repr

namespace Words

variable {W : Type}

/-- Takes the topmost words off, deepest first; the rest comes first. -/
def pop (count : Nat) (stack : List W) : Option (List W × List W) :=
  if count ≤ stack.length then some (stack.splitAt (stack.length - count)) else none

theorem pop_eq_some {count : Nat} {stack rest top : List W}
    (h : pop count stack = some (rest, top)) : stack = rest ++ top ∧ top.length = count := by
  unfold pop at h
  split at h
  · next hle =>
    simp only [Option.some.injEq, List.splitAt_eq, Prod.mk.injEq] at h
    obtain ⟨rfl, rfl⟩ := h
    refine ⟨(List.take_append_drop _ _).symm, ?_⟩
    rw [List.length_drop]
    omega
  · cases h

def address (ins : Instruction) (stack : List W) : Option Nat :=
  if ins.stack < 0 ∧ ins.distance ≤ stack.length then some (stack.length - ins.distance) else none

theorem address_eq_some {ins : Instruction} {stack : List W} {index : Nat}
    (h : address ins stack = some index) : index + ins.distance = stack.length := by
  unfold address at h
  split at h
  · cases h
    omega
  · cases h

/-- Structures are compared word by word from the deepest one, the answers joined in this order. -/
def compared (M : Meaning W) (relation join : BinaryOp) (left right : List W) : Option W :=
  match List.zipWith (M.binary relation) left right with
  | [] => none
  | first :: rest => some (rest.foldl (M.binary join) first)

/-- One word stands for itself, three for a vector. -/
def content? : List W → Option (Content W)
  | [a] => some (.word a)
  | [x, y, z] => some (.vector (x, y, z))
  | _ => none

/-- Arguments lie on the stack with the first one on top. -/
def popArguments : List ValueType → List W → Option (List (Content W) × List W)
  | [], stack => some ([], stack)
  | type :: types, stack => do
    let (rest, top) ← pop type.words stack
    let content ← content? top
    let (contents, rest) ← popArguments types rest
    some (content :: contents, rest)

/-- The right operand lies on top of the left one. -/
def operate (M : Meaning W) (op : BinaryOp) (types : List ValueType) (stack : List W) :
    Option (List W) := do
  let (contents, rest) ← popArguments types.reverse stack
  match contents with
  | [b, a] => some (rest ++ (M.apply op a b).words)
  | _ => none

/-- The words that the answer of a routine takes. -/
def answerWords (M : Meaning W) (result : ValueType) (past : List (EngineCall W))
    (call : EngineCall W) : List W :=
  match result with
  | .void => []
  | .vector => (M.vectorAnswer past call).words
  | _ => [M.answer past call]

def callRoutine (M : Meaning W) (routine : Routine) (ins : Instruction) (s : Words W) :
    Option (Words W) := do
  if ins.arity.toNat ≤ routine.arguments.length then
    let types := (routine.arguments.take ins.arity.toNat).map (·.type)
    let (arguments, rest) ← popArguments types s.stack
    let call : EngineCall W := ⟨ins.routine, arguments⟩
    some ⟨rest ++ answerWords M routine.result s.calls call, s.calls ++ [call]⟩
  else none

/-- The stack after an instruction that calls no routine. -/
def stackAfter (M : Meaning W) (ins : Instruction) (stack : List W) : Option (List W) :=
  match ins.opcode.order with
  | .idle => some stack
  | .reserve => some (stack ++ [M.reserved ins.offset])
  | .literal => ins.value.map fun value => stack ++ [M.literal value]
  | .copyTop .stack => do
    let start ← address ins stack
    if start + ins.words ≤ stack.length then
      some (stack ++ (stack.drop start).take ins.words)
    else none
  | .copyDown .stack => do
    let start ← address ins stack
    if start + ins.words ≤ stack.length then
      some (stack.take start ++ stack.drop (stack.length - ins.words) ++
        stack.drop (start + ins.words))
    else none
  | .release => do
    if ins.stack < 0 then
      let (rest, _) ← pop ins.distance stack
      some rest
    else none
  | .destruct => do
    if 0 ≤ ins.stack ∧ ins.distance + ins.keep.toNat / 4 ≤ ins.words then
      let (rest, top) ← pop ins.words stack
      some (rest ++ (top.drop ins.distance).take (ins.keep.toNat / 4))
    else none
  | .step op .stack => do
    let index ← address ins stack
    if index < stack.length then some (stack.modify index (M.unary op)) else none
  | .unary op => do
    let (rest, top) ← pop 1 stack
    match top with
    | [a] => some (rest ++ [M.unary op a])
    | _ => none
  | .binary op => operate M op ins.opcode.operandTypes stack
  | .compare relation join => do
    let (rest, right) ← pop ins.words stack
    let (rest, left) ← pop ins.words rest
    let answer ← compared M relation join left right
    some (rest ++ [answer])
  | _ => none

def step (M : Meaning W) (routines : Routines) (ins : Instruction) (s : Words W) :
    Option (Words W) :=
  match ins.opcode.order with
  | .routine => do
    let routine ← routines.get? ins.routine
    callRoutine M routine ins s
  | _ => (stackAfter M ins s.stack).map fun stack => { s with stack }

theorem length_popArguments {types : List ValueType} {stack rest : List W}
    {contents : List (Content W)} (h : popArguments types stack = some (contents, rest)) :
    rest.length ≤ stack.length := by
  induction types generalizing stack contents with
  | nil =>
    cases h
    exact Nat.le_refl _
  | cons type types ih =>
    obtain ⟨⟨mid, top⟩, hpop, hcontent⟩ := Option.bind_eq_some_iff.1 h
    obtain ⟨c, -, hrest⟩ := Option.bind_eq_some_iff.1 hcontent
    obtain ⟨⟨cs, last⟩, hcs, hdone⟩ := Option.bind_eq_some_iff.1 hrest
    cases hdone
    obtain ⟨rfl, -⟩ := pop_eq_some hpop
    have hmid := ih hcs
    rw [List.length_append]
    exact Nat.le_trans hmid (Nat.le_add_right _ _)

theorem length_operate {M : Meaning W} {op : BinaryOp} {types : List ValueType}
    {stack stack' : List W} (h : operate M op types stack = some stack') :
    stack'.length ≤ stack.length + 3 := by
  obtain ⟨⟨contents, rest⟩, hpop, hdone⟩ := Option.bind_eq_some_iff.1 h
  have hrest := length_popArguments hpop
  dsimp only at hdone
  split at hdone
  · next b a =>
    cases hdone
    have hwords : (M.apply op a b).words.length ≤ 3 := by
      cases M.apply op a b <;> simp [Content.words, Triple.words]
    rw [List.length_append]
    omega
  · cases hdone

theorem length_stackAfter {M : Meaning W} {ins : Instruction} {stack stack' : List W}
    (h : stackAfter M ins stack = some stack') : stack'.length ≤ stack.length + 2 ^ 14 := by
  have hwords : ins.words ≤ 2 ^ 14 := by
    have := ins.size.toNat_lt
    rw [Instruction.words]
    omega
  cases horder : ins.opcode.order <;> simp only [stackAfter, horder, reduceCtorEq] at h
  case idle =>
    cases h
    omega
  case reserve =>
    cases h
    simp
  case literal =>
    obtain ⟨value, -, rfl⟩ := Option.map_eq_some_iff.1 h
    simp
  case copyTop base =>
    cases base with
    | globals => cases h
    | stack =>
      obtain ⟨start, -, hcopy⟩ := Option.bind_eq_some_iff.1 h
      split at hcopy
      · cases hcopy
        simp only [List.length_append, List.length_take, List.length_drop]
        omega
      · cases hcopy
  case copyDown base =>
    cases base with
    | globals => cases h
    | stack =>
      obtain ⟨start, -, hcopy⟩ := Option.bind_eq_some_iff.1 h
      split at hcopy
      · cases hcopy
        simp only [List.length_append, List.length_take, List.length_drop]
        omega
      · cases hcopy
  case release =>
    split at h
    · obtain ⟨⟨rest, top⟩, hpop, hrest⟩ := Option.bind_eq_some_iff.1 h
      cases hrest
      obtain ⟨rfl, -⟩ := pop_eq_some hpop
      simp
      omega
    · cases h
  case destruct =>
    split at h
    · obtain ⟨⟨rest, top⟩, hpop, hrest⟩ := Option.bind_eq_some_iff.1 h
      cases hrest
      obtain ⟨rfl, -⟩ := pop_eq_some hpop
      simp only [List.length_append, List.length_take, List.length_drop]
      omega
    · cases h
  case step op base =>
    cases base with
    | globals => cases h
    | stack =>
      obtain ⟨index, -, hmodify⟩ := Option.bind_eq_some_iff.1 h
      split at hmodify
      · cases hmodify
        simp
      · cases hmodify
  case unary op =>
    obtain ⟨⟨rest, top⟩, hpop, htop⟩ := Option.bind_eq_some_iff.1 h
    obtain ⟨hstack, hlen⟩ := pop_eq_some hpop
    obtain ⟨a, rfl⟩ := List.length_eq_one_iff.1 hlen
    cases htop
    simp [hstack]
  case binary op =>
    have hstack := length_operate h
    omega
  case compare relation join =>
    obtain ⟨⟨mid, right⟩, hright, hafter⟩ := Option.bind_eq_some_iff.1 h
    obtain ⟨⟨rest, left⟩, hleft, hanswer⟩ := Option.bind_eq_some_iff.1 hafter
    obtain ⟨a, -, hdone⟩ := Option.bind_eq_some_iff.1 hanswer
    cases hdone
    obtain ⟨rfl, -⟩ := pop_eq_some hright
    obtain ⟨rfl, -⟩ := pop_eq_some hleft
    simp
    omega

theorem length_callRoutine {M : Meaning W} {routine : Routine} {ins : Instruction} {s s' : Words W}
    (h : callRoutine M routine ins s = some s') : s'.stack.length ≤ s.stack.length + 2 ^ 14 := by
  unfold callRoutine at h
  split at h
  · obtain ⟨⟨arguments, rest⟩, hpop, hdone⟩ := Option.bind_eq_some_iff.1 h
    cases hdone
    have hrest := length_popArguments hpop
    have hanswer : (answerWords M routine.result s.calls ⟨ins.routine, arguments⟩).length ≤ 3 := by
      unfold answerWords
      split <;> simp [Triple.words]
    rw [List.length_append]
    omega
  · cases h

theorem length_step {M : Meaning W} {routines : Routines} {ins : Instruction} {s s' : Words W}
    (h : step M routines ins s = some s') : s'.stack.length ≤ s.stack.length + 2 ^ 14 := by
  unfold step at h
  split at h
  · obtain ⟨routine, -, hcall⟩ := Option.bind_eq_some_iff.1 h
    exact length_callRoutine hcall
  · obtain ⟨stack, hstack, rfl⟩ := Option.map_eq_some_iff.1 h
    exact length_stackAfter hstack

def run (M : Meaning W) (routines : Routines) (instructions : List Instruction) (s : Words W) :
    Option (Words W) :=
  instructions.foldlM (fun s ins => step M routines ins s) s

theorem run_append (M : Meaning W) (routines : Routines) (first second : List Instruction)
    (s : Words W) : run M routines (first ++ second) s =
      (run M routines first s).bind fun s => run M routines second s :=
  List.foldlM_append

theorem length_run {M : Meaning W} {routines : Routines} {instructions : List Instruction}
    {s s' : Words W} (h : run M routines instructions s = some s') :
    s'.stack.length ≤ s.stack.length + 2 ^ 14 * instructions.length := by
  induction instructions generalizing s with
  | nil =>
    cases h
    exact Nat.le_refl _
  | cons ins instructions ih =>
    obtain ⟨mid, hstep, hrun⟩ := Option.bind_eq_some_iff.1 h
    have hfirst := length_step hstep
    have hrest := ih hrun
    rw [List.length_cons]
    omega

end Words

end ScriptLift
