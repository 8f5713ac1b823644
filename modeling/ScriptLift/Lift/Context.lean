import ScriptLift.Error

namespace ScriptLift

/-- A stack word. -/
structure Word where
  slot : NodeId
  owner : SubId
  deriving DecidableEq, Repr

/-- A subroutine being executed and the stack size at its entry. -/
structure CallFrame where
  sub : SubId
  entered : Nat
  deriving DecidableEq, Repr

structure Context where
  /-- The top first. -/
  stack : List Word := []
  /-- The innermost call first. -/
  calls : List CallFrame := []
  /-- Words below this size are globals. -/
  globals : Nat := 0
  previousGlobals : Nat := 0
  /-- The block that the last saved state resumes at. -/
  savedAction : Option NodeId := none
  deriving DecidableEq, Repr

namespace Context

def depth (ctx : Context) : Nat := ctx.stack.length

def entering (sub : SubId) : Context := { calls := [⟨sub, 0⟩] }

def enter (ctx : Context) (sub : SubId) : Context :=
  { ctx with calls := ⟨sub, ctx.depth⟩ :: ctx.calls }

def top (ctx : Context) : CallFrame := ctx.calls.headD ⟨⟨0⟩, 0⟩

def current (ctx : Context) : SubId := ctx.top.sub

def push (ctx : Context) (slot : NodeId) : Context :=
  { ctx with stack := ⟨slot, ctx.current⟩ :: ctx.stack }

def pop (ctx : Context) : Except Inconsistency (Word × Context) :=
  match ctx.stack with
  | [] => .error .underflow
  | word :: rest => .ok (word, { ctx with stack := rest })

/-- Takes `count` words at once and lists the deepest first. -/
def popMany (ctx : Context) (count : Nat) : Except Inconsistency (List Word × Context) :=
  if ctx.depth < count then .error (.popTooMany count ctx.depth)
  else .ok ((ctx.stack.take count).reverse, { ctx with stack := ctx.stack.drop count })

def word (ctx : Context) (index : Nat) : Except Inconsistency Word :=
  match ctx.stack.reverse[index]? with
  | some word => .ok word
  | none => .error (.indexAbove index ctx.depth)

/-- The index that lies `position` bytes from `base`; part words are dropped towards zero. Indices
are signed 64-bit words and wrap. -/
def relativeIndex (base : Nat) (position : Int) : Except Inconsistency Nat :=
  let index := ((base : Int) + position.tdiv 4).bmod UInt64.size
  if 0 ≤ index then .ok index.toNat else .error (.indexBelow index)

theorem relativeIndex_of_lt {base : Nat} {position : Int}
    (low : -0x8000000000000000 ≤ (base : Int) + position.tdiv 4)
    (high : (base : Int) + position.tdiv 4 < 0x8000000000000000) :
    relativeIndex base position =
      if 0 ≤ (base : Int) + position.tdiv 4 then .ok ((base : Int) + position.tdiv 4).toNat
      else .error (.indexBelow ((base : Int) + position.tdiv 4)) := by
  simp only [relativeIndex, UInt64.size]
  rw [Int.bmod_eq_of_le (by omega) (by omega)]

/-- A word that another subroutine pushed is reached through an argument, a global directly. -/
def isOuter (ctx : Context) (word : Word) (isGlobal : Bool) : Bool :=
  word.owner ≠ ctx.current && !isGlobal

end Context

end ScriptLift
