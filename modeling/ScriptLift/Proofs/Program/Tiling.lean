import Mathlib.Logic.ExistsUnique
import ScriptLift.Proofs.Program.Layout

namespace ScriptLift

/-- The instructions lie end to end: the first one starts at `start`, each next one where the one
before ends, and the last one ends at `stop`. -/
inductive Tiles (stop : Nat) : Nat → List Instruction → Prop
  | nil : Tiles stop stop []
  | cons {ins : Instruction} {rest : List Instruction} :
    Tiles stop ins.next rest → Tiles stop ins.offset (ins :: rest)

namespace Tiles

variable {start stop offset : Nat} {code : List Instruction} {ins : Instruction}

theorem le (h : Tiles stop start code) : start ≤ stop := by
  induction h with
  | nil => exact Nat.le_refl _
  | @cons first _ _ ih => exact Nat.le_trans (Nat.le_of_lt first.offset_lt_next) ih

theorem within (h : Tiles stop start code) (hins : ins ∈ code) :
    start ≤ ins.offset ∧ ins.next ≤ stop := by
  induction h with
  | nil => cases hins
  | @cons first rest hrest ih =>
    rcases List.mem_cons.1 hins with rfl | hmem
    · exact ⟨Nat.le_refl _, hrest.le⟩
    · have hfirst := first.offset_lt_next
      have hlater := ih hmem
      omega

theorem covers (h : Tiles stop start code) (hstart : start ≤ offset) (hstop : offset < stop) :
    ∃ ins ∈ code, ins.offset ≤ offset ∧ offset < ins.next := by
  induction h with
  | nil => omega
  | @cons first rest _ ih =>
    rcases Nat.lt_or_ge offset first.next with hlt | hge
    · exact ⟨first, List.mem_cons_self, hstart, hlt⟩
    · obtain ⟨ins, hins, hin⟩ := ih hge
      exact ⟨ins, List.mem_cons_of_mem _ hins, hin⟩

theorem eq_of_inside (h : Tiles stop start code) {other : Instruction} (hins : ins ∈ code)
    (hother : other ∈ code) (hin : ins.offset ≤ offset ∧ offset < ins.next)
    (hinside : other.offset ≤ offset ∧ offset < other.next) : ins = other := by
  induction h with
  | nil => cases hins
  | @cons first rest hrest ih =>
    rcases List.mem_cons.1 hins with rfl | hrear <;> rcases List.mem_cons.1 hother with rfl | hback
    · rfl
    · have hlater := (hrest.within hback).1
      omega
    · have hlater := (hrest.within hrear).1
      omega
    · exact ih hrear hback

end Tiles

namespace Program

variable {name : String} {start offset : Nat} {ins : Instruction} {code : List Instruction}
  {program : Program}

theorem tiles_place (start : Nat) (code : List Instruction) :
    Tiles (start + codeLength code) start (place start code) := by
  induction code generalizing start with
  | nil => exact .nil
  | cons ins code ih =>
    rw [codeLength_cons, ← Nat.add_assoc]
    exact @Tiles.cons _ { ins with offset := start } _ (ih (start + ins.length))

theorem tiles_ofList (name : String) (code : List Instruction) :
    Tiles (ofList name code).length entry (ofList name code).instructions.toList := by
  rw [toList_ofList, length_ofList]
  exact tiles_place entry code

/-- The index finds exactly the instruction that starts there. -/
theorem at?_ofList_eq_some_iff : (ofList name code).at? offset = some ins ↔
    ins ∈ (ofList name code).instructions ∧ ins.offset = offset := by
  constructor
  · exact fun h => ⟨mem_of_at? h, offset_of_at? h⟩
  · rintro ⟨hins, rfl⟩
    cases hfound : (ofList name code).at? ins.offset with
    | none =>
      rw [(indexed_ofList name code).at?_eq, Array.find?_eq_none] at hfound
      exact absurd (decide_eq_true rfl) (hfound ins hins)
    | some found =>
      have hoffset := offset_of_at? hfound
      have hnext := found.offset_lt_next
      exact congrArg some <| (tiles_ofList name code).eq_of_inside
        (mem_of_at? hfound).val hins.val ⟨Nat.le_of_eq hoffset, hoffset ▸ hnext⟩
        ⟨Nat.le_refl _, ins.offset_lt_next⟩

theorem at?_foldl_add_of_lt (more : List Instruction) (h : offset < program.length) :
    (more.foldl add program).at? offset = program.at? offset := by
  induction more generalizing program with
  | nil => rfl
  | cons ins more ih =>
    have hlength : (program.add ins).length = program.length + ins.length := rfl
    rw [List.foldl_cons, ih (by omega), at?_add_of_ne program ins (Nat.ne_of_lt h)]

/-- The instructions of a program are those added, in order, and lie end to end from behind the header
to the length, which a word holds. The index finds an instruction where one starts, that one and no
other, and none inside an instruction, in the header or from the length on. What is added later
changes no answer about the offsets before it. -/
theorem instructions_tile (name : String) (code : List Instruction)
    (hfits : entry + codeLength code < UInt32.size) :
    let program := ofList name code
    program.instructions.toList = place entry code ∧
    Tiles program.length entry program.instructions.toList ∧ program.length < UInt32.size ∧
    (∀ offset, entry ≤ offset → offset < program.length →
      ∃! ins, ins ∈ program.instructions ∧ ins.offset ≤ offset ∧ offset < ins.next) ∧
    (∀ offset ins, program.at? offset = some ins ↔
      ins ∈ program.instructions ∧ ins.offset = offset) ∧
    (∀ offset, (offset < entry ∨ program.length ≤ offset ∨
      ∃ ins ∈ program.instructions, ins.offset < offset ∧ offset < ins.next) →
      program.at? offset = none) ∧
    ∀ (more : List Instruction), ∀ offset < program.length,
      (more.foldl add program).at? offset = program.at? offset := by
  intro program
  have htiles : Tiles program.length entry program.instructions.toList := tiles_ofList name code
  have hlength : program.length = entry + codeLength code := length_ofList
  refine ⟨toList_ofList, htiles, hlength ▸ hfits, fun offset hstart hstop => ?_,
    fun offset ins => at?_ofList_eq_some_iff, fun offset hout => ?_,
    fun more _ => at?_foldl_add_of_lt more⟩
  · obtain ⟨ins, hins, hin⟩ := htiles.covers hstart hstop
    exact ⟨ins, ⟨Array.mem_toList_iff.1 hins, hin⟩, fun other hother =>
      htiles.eq_of_inside hother.1.val hins hother.2 hin⟩
  · refine Option.eq_none_iff_forall_ne_some.2 fun found hfound => ?_
    obtain ⟨hmem, rfl⟩ := at?_ofList_eq_some_iff.1 hfound
    have hwithin := htiles.within hmem.val
    have hnext := found.offset_lt_next
    rcases hout with hheader | hend | ⟨ins, hins, hlt, hin⟩
    · omega
    · omega
    · have hsame := htiles.eq_of_inside hins.val hmem.val ⟨Nat.le_of_lt hlt, hin⟩
        ⟨Nat.le_refl _, hnext⟩
      exact absurd (congrArg Instruction.offset hsame) (Nat.ne_of_lt hlt)

/-- A text of three letters and four bytes lies between two other instructions. -/
theorem instructions_tile_textCode :
    let code : List Instruction := [{ opcode := .nop },
      { opcode := .consts, value := some (.string "né!") }, { opcode := .retn }]
    let program := ofList "" code
    entry + codeLength code < UInt32.size ∧ Tiles program.length 13 program.instructions.toList ∧
      (∃ ins, program.at? 15 = some ins ∧ ins.next = 23) ∧ program.at? 19 = none ∧
      (program.add { opcode := .nop }).at? 15 = program.at? 15 := by
  intro code program
  have hfits : entry + codeLength code < UInt32.size := by decide +kernel
  obtain ⟨-, htiles, -, -, hfound, hnone, hlater⟩ := instructions_tile "" code hfits
  have hmem : ∃ ins ∈ program.instructions, ins.offset = 15 ∧ ins.next = 23 := by decide +kernel
  obtain ⟨ins, hins, hoffset, hnext⟩ := hmem
  refine ⟨hfits, htiles, ⟨ins, (hfound 15 ins).2 ⟨hins, hoffset⟩, hnext⟩, ?_, ?_⟩
  · exact hnone 19 (.inr (.inr ⟨ins, hins, by omega⟩))
  · exact hlater [{ opcode := .nop }] 15 (by decide +kernel)

end Program

end ScriptLift
