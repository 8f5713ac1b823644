import ScriptLift.Source
import ScriptLift.Proofs.Lift.Integrity
import ScriptLift.Proofs.Lift.Pushes

namespace ScriptLift

namespace Text

def hexValue (digit : Char) : Nat :=
  if digit.isDigit then digit.toNat - '0'.toNat else digit.toNat - 'a'.toNat + 10

def readHex (digits : List Char) : Nat := digits.foldl (fun n digit => 16 * n + hexValue digit) 0

theorem hexValue_digitChar {d : Nat} (h : d < 16) : hexValue d.digitChar = d := by
  have hall : ∀ d < 16, hexValue (Nat.digitChar d) = d := by decide
  exact hall d h

theorem readHex_concat (digits : List Char) (digit : Char) :
    readHex (digits ++ [digit]) = 16 * readHex digits + hexValue digit := by
  simp only [readHex, List.foldl_append, List.foldl_cons, List.foldl_nil]

theorem readHex_hexDigits (n : Nat) : readHex (hexDigits n) = n := by
  induction n using Nat.strongRecOn with
  | ind n ih =>
    rw [hexDigits, Nat.toDigits_eq_if (by omega)]
    split
    · next hlt => simp [readHex, hexValue_digitChar hlt]
    · have hread : readHex (Nat.toDigits 16 (n / 16)) = n / 16 := ih (n / 16) (by omega)
      rw [readHex_concat, hread, hexValue_digitChar (Nat.mod_lt n (by omega))]
      omega

theorem readHex_padLeft (width : Nat) (digits : List Char) :
    readHex (padLeft width digits) = readHex digits := by
  have hzeros : ∀ count, (List.replicate count '0').foldl
      (fun n digit => 16 * n + hexValue digit) 0 = 0 := by
    intro count
    induction count with
    | zero => rfl
    | succ count ih =>
      rw [List.replicate_succ, List.foldl_cons]
      exact ih
  rw [readHex, padLeft, List.foldl_append, hzeros, readHex]

theorem offset_inj {m n : Nat} : offset m = offset n ↔ m = n := by
  refine ⟨fun h => ?_, congrArg offset⟩
  have hread := congrArg (fun text => readHex text.toList) h
  simpa [offset, readHex_padLeft, readHex_hexDigits] using hread

end Text

namespace Source

/-- The text gives the global this name, in its declaration and wherever it stands. -/
structure Names (tree : Tree) (routines : Routines) (global : Global) (name : String) : Prop where
  text : ∀ depth, textTo tree routines (depth + 1) global.slot = .ok name
  line : globalLine tree global =
    some ((tree.type global.slot).keyword ++ " " ++ name ++ ";\n")

variable {tree : Tree} {routines : Routines} {global : Global}

theorem Names.unique {name other : String} (h : Names tree routines global name)
    (h' : Names tree routines global other) : name = other :=
  Except.ok.inj ((h.text 0).symm.trans (h'.text 0))

theorem names_global (hstorage : tree.storage? global.slot = some .global)
    (hvalue : global.value = none) :
    Names tree routines global ("glob_" ++ Text.offset (tree.offset global.slot)) := by
  obtain ⟨slot, hslot, hglobal⟩ := Option.map_eq_some_iff.1 hstorage
  have hnode : tree.node global.slot = .slot slot := by
    unfold Tree.slot? at hslot
    split at hslot <;> simp_all
  have hname : Expr.slotName (tree.offset global.slot) slot =
      "glob_" ++ Text.offset (tree.offset global.slot) := by
    rw [Expr.slotName, hglobal]
  constructor
  · intro depth
    rw [textTo, hnode]
    exact congrArg Except.ok hname
  · rw [globalLine, hslot, Option.map_some, hvalue, Expr.slotDeclaration, hname, Tree.type, hslot]

end Source

namespace Lift

theorem value_of_mem_globals_complete {tree : Tree} {global : Global}
    (h : global ∈ (complete tree).globals) : global.value = none := by
  rw [globals_complete] at h
  obtain ⟨slot, -, rfl⟩ := List.mem_map.1 h
  rfl

theorem lt_size_of_mem_globals_complete {tree : Tree} {global : Global}
    (h : global ∈ (complete tree).globals) : global.slot.index < tree.size := by
  obtain ⟨slot, hslot, -⟩ := Option.map_eq_some_iff.1 (mem_globals_complete h)
  exact Tree.lt_size_of_isSlot (by rw [Tree.isSlot, hslot, Option.isSome_some])

theorem names_of_mem_globals_complete {tree : Tree} {global : Global}
    (h : global ∈ (complete tree).globals) (routines : Routines) :
    Source.Names (complete tree) routines global
      ("glob_" ++ Text.offset ((complete tree).offset global.slot)) := by
  refine Source.names_global ?_ (value_of_mem_globals_complete h)
  rw [Tree.storage?, slot?_complete]
  exact mem_globals_complete h

theorem nodup_globals_complete (tree : Tree) : ((complete tree).globals.map (·.slot)).Nodup := by
  have hids : ((List.range tree.size).map NodeId.mk).Nodup :=
    List.nodup_range.map fun _ _ heq => congrArg NodeId.index heq
  rw [globals_complete, collectGlobals, List.map_map]
  simpa [Function.comp_def, globalSlots] using hids.filter _

theorem slot_ne_of_globals {tree : Tree} {i j : Nat} {a b : Global}
    (ha : (complete tree).globals[i]? = some a) (hb : (complete tree).globals[j]? = some b)
    (hij : i ≠ j) : a.slot ≠ b.slot := by
  intro heq
  have hlt : i < ((complete tree).globals.map (·.slot)).length := by
    rw [List.length_map]
    exact (List.getElem?_eq_some_iff.1 ha).1
  refine hij ((List.getElem?_inj hlt (nodup_globals_complete tree)).1 ?_)
  rw [List.getElem?_map, List.getElem?_map, ha, hb, Option.map_some, Option.map_some, heq]

variable {program : Program} {routines : Routines} {settings : LiftSettings} {count : Nat}
  {last : Machine}

theorem global_named (hlast : stage program routines settings count = some last) {global : Global}
    (h : global ∈ (complete last.tree).globals) :
    ∃ earlier visit, PushedAt program routines settings earlier visit global.slot ∧
      Source.Names (complete last.tree) routines global
        ("glob_" ++ Text.offset visit.ins.offset) := by
  obtain ⟨earlier, visit, hpushed⟩ := stage_global_pushed hlast (mem_globals_complete h)
  refine ⟨earlier, visit, hpushed, ?_⟩
  rw [← hpushed.offset hlast (lt_size_of_mem_globals_complete h),
    ← (node_complete last.tree global.slot).1]
  exact names_of_mem_globals_complete h routines

theorem PushedAt.ins_eq_iff {other : Nat} {visit visit' : Visit} {id id' : NodeId}
    (h : PushedAt program routines settings count visit id)
    (h' : PushedAt program routines settings other visit' id') :
    visit.ins = visit'.ins ↔ visit.ins.offset = visit'.ins.offset := by
  have hat : ∀ {count visit id}, PushedAt program routines settings count visit id →
      program.at? visit.ins.offset = some visit.ins := by
    rintro count visit id ⟨m, m', -, hvisit, -⟩
    have hins := (Machine.visit?_eq_some.1 hvisit).2.2.2
    rw [Program.offset_of_at? hins, hins]
  refine ⟨congrArg Instruction.offset, fun heq => Option.some.inj ?_⟩
  rw [← hat h, ← hat h', heq]

end Lift

/-- Every global is pushed by the instruction that makes it and named after it. So two of them have
the same name exactly if one instruction pushed both. If it did so at once, the slots differ in their
suffixes, which the names leave out; else two walks passed the instruction. -/
theorem global_names_eq_iff {program : Program} {routines : Routines} {settings : LiftSettings}
    {tree : Tree} {i j : Nat} {a b : Global} (h : lift program routines settings = some (.ok tree))
    (ha : tree.globals[i]? = some a) (hb : tree.globals[j]? = some b) (hij : i ≠ j) :
    ∃ name other first visit second visit',
      Source.Names tree routines a name ∧ Source.Names tree routines b other ∧
      Lift.PushedAt program routines settings first visit a.slot ∧
      Lift.PushedAt program routines settings second visit' b.slot ∧
      (name = other ↔ visit.ins = visit'.ins) ∧
      (first = second → tree.suffix? a.slot ≠ tree.suffix? b.slot) := by
  obtain ⟨lifted, hrun, rfl⟩ := lift_eq_ok h
  obtain ⟨count, last, hlast, -, rfl⟩ := Lift.exists_stage hrun
  obtain ⟨first, visit, hpushed, hname⟩ := Lift.global_named hlast (List.mem_of_getElem? ha)
  obtain ⟨second, visit', hpushed', hother⟩ := Lift.global_named hlast (List.mem_of_getElem? hb)
  refine ⟨_, _, first, visit, second, visit', hname, hother, hpushed, hpushed', ?_, ?_⟩
  · rw [hpushed.ins_eq_iff hpushed', ← Text.offset_inj]
    exact String.append_right_inj _
  · rintro rfl
    have hlt := Lift.lt_size_of_mem_globals_complete (List.mem_of_getElem? ha)
    change (Lift.complete last.tree).suffix? a.slot ≠ (Lift.complete last.tree).suffix? b.slot
    rw [Tree.suffix?, Tree.suffix?, Lift.slot?_complete, Lift.slot?_complete]
    exact hpushed.suffix_ne hlast hpushed' (Lift.slot_ne_of_globals ha hb hij) hlt

def Tree.sharesOffset (tree : Tree) (i j : Nat) : Bool :=
  (tree.globals[i]?).any fun a => (tree.globals[j]?).any fun b =>
    tree.offset a.slot = tree.offset b.slot

theorem exists_of_sharesOffset {program : Program} {routines : Routines} {settings : LiftSettings}
    {tree : Tree} {i j : Nat} (hlift : lift program routines settings = some (.ok tree))
    (h : tree.sharesOffset i j) :
    ∃ a b name, tree.globals[i]? = some a ∧ tree.globals[j]? = some b ∧
      Source.Names tree routines a name ∧ Source.Names tree routines b name := by
  simp only [Tree.sharesOffset, Option.any_eq_true, decide_eq_true_eq] at h
  obtain ⟨a, ha, b, hb, hoffset⟩ := h
  obtain ⟨lifted, -, rfl⟩ := lift_eq_ok hlift
  refine ⟨a, b, _, ha, hb, Lift.names_of_mem_globals_complete (List.mem_of_getElem? ha) routines, ?_⟩
  rw [Lift.complete, hoffset]
  exact Lift.names_of_mem_globals_complete (List.mem_of_getElem? hb) routines

/-- A branch and the code in front of its target lead to the instruction that pushes a global, with
stacks of different depth. -/
def forkedScript : Program := .ofList "" [
  { opcode := .jsr, jump := 8 },
  { opcode := .retn },
  { opcode := .consti, value := some (.int 0) },
  { opcode := .jz, jump := 12 },
  { opcode := .consti, value := some (.int 1) },
  { opcode := .consti, value := some (.int 5) },
  { opcode := .savebp },
  { opcode := .jsr, jump := 16 },
  { opcode := .restorebp },
  { opcode := .movsp, stack := -4 },
  { opcode := .retn },
  { opcode := .retn }
]

/-- Neither of the two globals has a suffix, so they are pushed in different moves. -/
theorem global_names_eq_forkedScript : ∃ tree a b name first visit second visit',
    lift forkedScript {} .strictly = some (.ok tree) ∧
    tree.globals[1]? = some a ∧ tree.globals[2]? = some b ∧
    Source.Names tree {} a name ∧ Source.Names tree {} b name ∧
    Lift.PushedAt forkedScript {} .strictly first visit a.slot ∧
    Lift.PushedAt forkedScript {} .strictly second visit' b.slot ∧
    visit.ins = visit'.ins ∧ first ≠ second := by
  obtain ⟨tree, hlift, hcond⟩ := exists_of_lift forkedScript {} .strictly
    (fun tree => tree.sharesOffset 1 2 && decide ((tree.globals[1]?).map (tree.suffix? ·.slot) =
      (tree.globals[2]?).map (tree.suffix? ·.slot))) (by decide +kernel)
  rw [Bool.and_eq_true, decide_eq_true_eq] at hcond
  obtain ⟨a, b, name, ha, hb, hname, hname'⟩ := exists_of_sharesOffset hlift hcond.1
  obtain ⟨_, _, first, visit, second, visit', hfirst, hsecond, hpushed, hpushed', hiff, hapart⟩ :=
    global_names_eq_iff hlift ha hb (by decide)
  have hsuffix : tree.suffix? a.slot = tree.suffix? b.slot := by
    simpa [ha, hb] using hcond.2
  refine ⟨tree, a, b, name, first, visit, second, visit', hlift, ha, hb, hname, hname', hpushed,
    hpushed', hiff.1 ?_, fun heq => hapart heq hsuffix⟩
  rw [hfirst.unique hname, hsecond.unique hname']

/-- Two words are copied at once, and all words become globals. -/
def twinScript : Program := .ofList "" [
  { opcode := .jsr, jump := 8 },
  { opcode := .retn },
  { opcode := .consti, value := some (.int 5) },
  { opcode := .consti, value := some (.int 6) },
  { opcode := .cptopsp, stack := -8, size := 8 },
  { opcode := .savebp },
  { opcode := .jsr, jump := 16 },
  { opcode := .restorebp },
  { opcode := .movsp, stack := -16 },
  { opcode := .retn },
  { opcode := .cptopbp, stack := -4, size := 4 },
  { opcode := .action, routine := 1, arity := 1 },
  { opcode := .cptopbp, stack := -8, size := 4 },
  { opcode := .action, routine := 1, arity := 1 },
  { opcode := .retn }
]

/-- Copies have different suffixes, but as globals they have the same name. -/
theorem not_forall_global_names_ne : ¬∀ (program : Program) (routines : Routines)
    (settings : LiftSettings) (tree : Tree) (i j : Nat) (a b : Global) (name other : String),
    lift program routines settings = some (.ok tree) → tree.globals[i]? = some a →
    tree.globals[j]? = some b → i ≠ j → Source.Names tree routines a name →
    Source.Names tree routines b other → name ≠ other := by
  intro h
  obtain ⟨tree, hlift, hshares⟩ := exists_of_lift twinScript printRoutines .strictly
    (fun tree => tree.sharesOffset 2 3) (by decide +kernel)
  obtain ⟨a, b, name, ha, hb, hname, hname'⟩ := exists_of_sharesOffset hlift hshares
  exact h _ _ _ tree 2 3 a b name name hlift ha hb (by decide) hname hname' rfl

end ScriptLift
