import ScriptLift.Instruction

/-! Compiled scripts: instructions laid end to end behind a fixed header, with an index by offset. -/
namespace ScriptLift

structure Program where
  name : String := ""
  instructions : Array Instruction := #[]
  /-- The offset of an instruction with its place among all; the newest entry of an offset counts. -/
  index : List (Nat × Nat) := []
  /-- Offset behind the last instruction. -/
  length : Nat := 13
  /-- The index tells places of instructions with the offset asked for. -/
  located : ∀ entry ∈ index, (instructions[entry.2]?).map (·.offset) = some entry.1 := by
    exact fun _ hentry => absurd hentry List.not_mem_nil
  deriving DecidableEq

namespace Program

/-- The header takes 13 bytes, and execution starts behind it. -/
def entry : Nat := 13

theorem located_push (program : Program) {placed : Instruction}
    (hplaced : placed.offset = program.length) :
    ∀ entry ∈ (program.length, program.instructions.size) :: program.index,
      ((program.instructions.push placed)[entry.2]?).map (·.offset) = some entry.1 := by
  intro entry hentry
  rcases List.mem_cons.1 hentry with rfl | hold
  · simp [hplaced]
  · obtain ⟨ins, hins, hoffset⟩ := Option.map_eq_some_iff.1 (program.located entry hold)
    obtain ⟨hlt, rfl⟩ := Array.getElem?_eq_some_iff.1 hins
    rw [Array.getElem?_push_lt hlt, Option.map_some, hoffset]

/-- Places an instruction at the end. -/
def add (program : Program) (ins : Instruction) : Program :=
  let placed := { ins with offset := program.length }
  { program with
    instructions := program.instructions.push placed
    index := (program.length, program.instructions.size) :: program.index
    length := placed.next
    located := program.located_push rfl }

def ofList (name : String) (instructions : List Instruction) : Program :=
  instructions.foldl add { name }

def at? (program : Program) (offset : Nat) : Option Instruction :=
  (program.index.lookup offset).bind (program.instructions[·]?)

theorem mem_of_at? {program : Program} {offset : Nat} {ins : Instruction}
    (h : program.at? offset = some ins) : ins ∈ program.instructions := by
  obtain ⟨place, -, hins⟩ := Option.bind_eq_some_iff.1 h
  exact Array.mem_of_getElem? hins

theorem offset_of_at? {program : Program} {offset : Nat} {ins : Instruction}
    (h : program.at? offset = some ins) : ins.offset = offset := by
  obtain ⟨place, hplace, hins⟩ := Option.bind_eq_some_iff.1 h
  obtain ⟨before, behind, hindex, -⟩ := List.lookup_eq_some_iff.1 hplace
  have hlocated := program.located (offset, place) (by simp [hindex])
  simpa [hins] using hlocated

end Program

end ScriptLift
