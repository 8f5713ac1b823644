import ScriptLift.Program
import ScriptLift.Total

namespace ScriptLift.Program

variable {name : String} {start : Nat} {ins : Instruction} {code before after : List Instruction}

def place (start : Nat) : List Instruction → List Instruction
  | [] => []
  | ins :: rest => { ins with offset := start } :: place (start + ins.length) rest

def codeLength (code : List Instruction) : Nat := total (·.length) code

@[simp] theorem codeLength_nil : codeLength [] = 0 := rfl

@[simp] theorem codeLength_cons : codeLength (ins :: code) = ins.length + codeLength code := by
  simp [codeLength]

@[simp] theorem codeLength_append :
    codeLength (before ++ after) = codeLength before + codeLength after := by
  simp [codeLength]

@[simp] theorem length_place : (place start code).length = code.length := by
  induction code generalizing start with
  | nil => rfl
  | cons ins code ih => simp [place, ih]

theorem place_append :
    place start (before ++ after) = place start before ++ place (start + codeLength before) after := by
  induction before generalizing start with
  | nil => simp [place]
  | cons ins before ih => simp [place, ih, Nat.add_assoc]

theorem length_le_codeLength : code.length ≤ codeLength code := by
  induction code with
  | nil => exact Nat.le_refl 0
  | cons ins code ih =>
    have hpos := ins.length_pos
    simp only [List.length_cons, codeLength_cons]
    omega

theorem offset_lt_of_mem_place (h : ins ∈ place start code) :
    ins.offset < start + codeLength code := by
  induction code generalizing start with
  | nil => cases h
  | cons first code ih =>
    have hpos := first.length_pos
    rw [codeLength_cons]
    rcases List.mem_cons.1 h with rfl | hmem
    · dsimp only
      omega
    · have hlt := ih hmem
      omega

theorem le_offset_of_mem_place (h : ins ∈ place start code) : start ≤ ins.offset := by
  induction code generalizing start with
  | nil => cases h
  | cons first code ih =>
    rcases List.mem_cons.1 h with rfl | hmem
    · exact Nat.le_refl _
    · exact Nat.le_trans (Nat.le_add_right _ _) (ih hmem)

theorem foldl_add (code : List Instruction) (program : Program) :
    (code.foldl add program).instructions.toList =
        program.instructions.toList ++ place program.length code ∧
      (code.foldl add program).length = program.length + codeLength code := by
  induction code generalizing program with
  | nil => simp [place]
  | cons ins code ih =>
    obtain ⟨hcode, hlength⟩ := ih (program.add ins)
    have hnext : (program.add ins).length = program.length + ins.length := rfl
    rw [List.foldl_cons, hcode, hlength, hnext]
    refine ⟨?_, by simp [Nat.add_assoc]⟩
    simp [add, place]

theorem toList_ofList : (ofList name code).instructions.toList = place entry code :=
  (foldl_add code { name }).1

theorem length_ofList : (ofList name code).length = entry + codeLength code :=
  (foldl_add code { name }).2

theorem entry_le_length_ofList : entry ≤ (ofList name code).length := by
  rw [length_ofList]
  exact Nat.le_add_right _ _

theorem at?_add_length (program : Program) (ins : Instruction) :
    (program.add ins).at? program.length = some { ins with offset := program.length } := by
  simp [at?, add]

theorem at?_add_of_ne (program : Program) (ins : Instruction) {offset : Nat}
    (h : offset ≠ program.length) : (program.add ins).at? offset = program.at? offset := by
  have hindex : (program.add ins).index.lookup offset = program.index.lookup offset := by
    rw [add, List.lookup_cons, beq_false_of_ne h]
  rw [at?, at?, hindex]
  cases hplace : program.index.lookup offset with
  | none => rfl
  | some place =>
    obtain ⟨before, behind, hlisted, -⟩ := List.lookup_eq_some_iff.1 hplace
    obtain ⟨found, hfound, -⟩ :=
      Option.map_eq_some_iff.1 (program.located (offset, place) (by simp [hlisted]))
    obtain ⟨hlt, rfl⟩ := Array.getElem?_eq_some_iff.1 hfound
    exact (Array.getElem?_push_lt hlt).trans (Array.getElem?_eq_getElem hlt).symm

/-- All instructions lie before the end, and the index finds what a search through them finds. -/
structure Indexed (program : Program) : Prop where
  offset_lt : ∀ ins ∈ program.instructions, ins.offset < program.length
  at?_eq : ∀ offset, program.at? offset = program.instructions.find? (·.offset = offset)

theorem Indexed.add {program : Program} (h : program.Indexed) (ins : Instruction) :
    (program.add ins).Indexed where
  offset_lt other hother := by
    have hpos := ins.length_pos
    change other.offset < program.length + ins.length
    rcases Array.mem_push.1 hother with hold | rfl
    · have hlt := h.offset_lt other hold
      omega
    · dsimp only
      omega
  at?_eq offset := by
    have hinstructions : (program.add ins).instructions =
        program.instructions.push { ins with offset := program.length } := rfl
    rw [hinstructions, Array.find?_push]
    by_cases heq : offset = program.length
    · subst heq
      have hnone : program.instructions.find? (·.offset = program.length) = none := by
        refine Array.find?_eq_none.2 fun other hother => ?_
        have hlt := h.offset_lt other hother
        simp only [decide_eq_true_eq]
        omega
      simp [at?_add_length, hnone]
    · rw [at?_add_of_ne program ins heq, h.at?_eq]
      simp [Ne.symm heq]

theorem Indexed.foldl_add {program : Program} (h : program.Indexed) (code : List Instruction) :
    (code.foldl Program.add program).Indexed := by
  induction code generalizing program with
  | nil => exact h
  | cons ins code ih => exact ih (h.add ins)

theorem indexed_ofList (name : String) (code : List Instruction) : (ofList name code).Indexed :=
  Indexed.foldl_add ⟨by simp, fun _ => by simp [at?]⟩ code

theorem at?_ofList_of_lt {offset : Nat} (h : offset < entry) :
    (ofList name code).at? offset = none := by
  rw [(indexed_ofList name code).at?_eq, ← Array.find?_toList, toList_ofList]
  refine List.find?_eq_none.2 fun ins hmem => ?_
  have hle := le_offset_of_mem_place hmem
  simp only [decide_eq_true_eq]
  omega

theorem at?_ofList : (ofList name (before ++ ins :: after)).at? (entry + codeLength before) =
    some { ins with offset := entry + codeLength before } := by
  have hbefore : (place entry before).find?
      (fun ins => ins.offset = entry + codeLength before) = none := by
    refine List.find?_eq_none.2 fun other hmem => ?_
    have hlt := offset_lt_of_mem_place hmem
    simp only [decide_eq_true_eq]
    omega
  rw [(indexed_ofList name _).at?_eq, ← Array.find?_toList, toList_ofList, place_append,
    List.find?_append, hbefore]
  simp [place]

end ScriptLift.Program
