import ScriptLift.Opcode
import ScriptLift.Value

namespace ScriptLift

/-- An instruction at its offset. Operands that its opcode does not use have no effect. -/
structure Instruction where
  opcode : Opcode
  offset : Nat := 0
  /-- Distance of a jump from the instruction itself. -/
  jump : Int32 := 0
  /-- Stack position in bytes, relative to a base. -/
  stack : Int32 := 0
  /-- Bytes copied, compared or destroyed. -/
  size : UInt16 := 0
  /-- Bytes that survive a destruction. -/
  keep : UInt16 := 0
  /-- Bytes of locals a saved state captures. -/
  locals : Int32 := 0
  value : Option Literal := none
  routine : UInt16 := 0
  /-- Arguments of an engine call. -/
  arity : UInt8 := 0
  deriving DecidableEq, Repr

namespace Instruction

/-- Bytes of code the instruction takes; a string literal counts its UTF-8 bytes. -/
def length (ins : Instruction) : Nat :=
  match ins.opcode with
  | .cpdownsp | .cptopsp | .cpdownbp | .cptopbp | .destruct => 8
  | .consti | .constf | .consto | .movsp | .jmp | .jsr | .jz | .jnz
  | .decisp | .incisp | .decibp | .incibp => 6
  | .consts =>
    match ins.value with
    | some (.string text) => 4 + text.utf8ByteSize
    | _ => 4
  | .action => 5
  | .storeState => 10
  | .equaltt | .nequaltt => 4
  | _ => 2

theorem length_pos (ins : Instruction) : 0 < ins.length := by
  unfold length
  split <;> (try split) <;> omega

def next (ins : Instruction) : Nat := ins.offset + ins.length

theorem offset_lt_next (ins : Instruction) : ins.offset < ins.next :=
  Nat.lt_add_of_pos_right ins.length_pos

/-- Where the instruction jumps to; offsets are 32-bit words and wrap. -/
def target (ins : Instruction) : Nat := (((ins.offset : Int) + ins.jump.toInt) % UInt32.size).toNat

/-- A jump to itself counts as backward. -/
def isBackward (ins : Instruction) : Bool := ins.opcode.isJump && decide (ins.jump ≤ 0)

/-- Same operands throughout, literals compared by the value they mean. -/
def agrees (a b : Instruction) : Bool :=
  let values :=
    match a.value, b.value with
    | some x, some y => x.agrees y
    | none, none => true
    | _, _ => false
  values && { a with value := none } == { b with value := none }

end Instruction

end ScriptLift
