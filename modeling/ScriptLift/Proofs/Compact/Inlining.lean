import ScriptLift.Proofs.Compact.Calls
import ScriptLift.Proofs.Compact.Shape

/-! What a value may move over, and what it may not.

A temporary moves into its only use, over the statements in between. None of these writes a slot of
the value, and a value with effects moves over no other effect. Two things are not looked at: what
the callee of a call in between writes, and what is read in between of slots that the value writes. -/
namespace ScriptLift

namespace Tree

variable (tree : Tree) (routines : Routines) (value : NodeId)

def slotsRead : List NodeId :=
  (tree.subtree true value).filter fun slot =>
    tree.isSlot slot && (slot = value || (tree.subtree true value).any (tree.reads · slot))

/-- Slots that evaluating a value hands to a call, of the engine or of a subroutine, to be written. -/
def slotsPassed : List NodeId :=
  (tree.subtree true value).filter fun slot =>
    (tree.subtree true value).any fun n => (tree.kind n).isCall && tree.writes routines n slot

variable {tree routines value} {slot : NodeId}

theorem mem_subtree_of_mem_slotsRead (h : slot ∈ tree.slotsRead value) :
    slot ∈ tree.subtree true value ∧ tree.isSlot slot := by
  obtain ⟨hmem, hcond⟩ := List.mem_filter.1 h
  rw [Bool.and_eq_true] at hcond
  exact ⟨hmem, hcond.1⟩

theorem mem_subtree_of_mem_slotsPassed (h : slot ∈ tree.slotsPassed routines value) :
    slot ∈ tree.subtree true value ∧ tree.isSlot slot := by
  obtain ⟨hmem, hcond⟩ := List.mem_filter.1 h
  obtain ⟨n, -, hn⟩ := List.any_eq_true.1 hcond
  simp only [writes, Bool.and_eq_true] at hn
  exact ⟨hmem, hn.2.1⟩

end Tree

namespace Draft

variable {settings : CompactSettings} {routines : Routines} {draft : Draft} {block : NodeId}

theorem canMove_eq_true {value : NodeId} {between : List NodeId}
    (h : draft.canMove value between) :
    (∀ n ∈ between.flatMap (draft.tree.subtree true), draft.tree.kind n ≠ .label) ∧
      ((draft.tree.subtree true value).any draft.tree.hasEffect →
        ∀ n ∈ between.flatMap (draft.tree.subtree true), draft.tree.hasEffect n = false) ∧
      ∀ slot ∈ draft.tree.subtree true value, draft.tree.isSlot slot →
        ∀ write ∈ draft.facts.writesOf slot,
          write.node ∉ between.flatMap (draft.tree.subtree true) := by
  simp only [canMove, mayCross, Bool.and_eq_true, Bool.not_eq_true', Bool.and_eq_false_iff,
    List.any_eq_false, List.all_eq_true, List.mem_filter, List.contains_eq_mem,
    decide_eq_false_iff_not, decide_eq_true_eq] at h
  obtain ⟨⟨hlabel, heffect⟩, hwrites⟩ := h
  refine ⟨hlabel, fun hvalue n hn => ?_, fun slot hmem hslot => hwrites slot ⟨hmem, hslot⟩⟩
  rcases heffect with heffect | heffect
  · obtain ⟨m, hm, hmeffect⟩ := List.any_eq_true.1 hvalue
    exact absurd hmeffect (heffect m hm)
  · simpa using heffect n hn

namespace Firing

variable {firing : Firing} {move : Inlining}

/-- All nodes of the statements that the value moves over. -/
def crossed (firing : Firing) (move : Inlining) : List NodeId :=
  (firing.draft.between firing.block move).flatMap (firing.draft.tree.subtree true)

/-- No call that the value moves over reaches a subroutine that writes what the value reads. -/
def CallsKeepReads (firing : Firing) (routines : Routines) (move : Inlining) : Prop :=
  ∀ n ∈ firing.crossed move, ∀ callee, firing.draft.tree.callee? n = some callee →
    ∀ slot ∈ firing.draft.tree.slotsRead move.value,
      ¬firing.draft.tree.WritesThrough routines callee slot

/-- `CallsKeepReads`, decided through the bodies of all subroutines that are reached. -/
def callsKeepReads (firing : Firing) (routines : Routines) (move : Inlining) : Bool :=
  ((firing.crossed move).filterMap firing.draft.tree.callee?).all fun callee =>
    (firing.draft.tree.slotsRead move.value).all fun slot =>
      !firing.draft.tree.writesThrough routines callee slot

/-- Nothing that the value moves over reads or writes a slot that the value has written by a call. -/
def SparesPassed (firing : Firing) (routines : Routines) (move : Inlining) : Prop :=
  ∀ n ∈ firing.crossed move, ∀ slot ∈ firing.draft.tree.slotsPassed routines move.value,
    firing.draft.tree.reads n slot = false ∧ firing.draft.tree.writes routines n slot = false

/-- The reads on record of the slots that the value has written lie elsewhere. -/
def passedReadElsewhere (firing : Firing) (routines : Routines) (move : Inlining) : Bool :=
  (firing.draft.tree.slotsPassed routines move.value).all fun slot =>
    (firing.draft.facts.readsOf slot).all fun read => !(firing.crossed move).contains read.node

theorem callsKeepReads_iff :
    firing.callsKeepReads routines move ↔ firing.CallsKeepReads routines move := by
  simp only [callsKeepReads, List.all_eq_true, List.mem_filterMap, Bool.not_eq_true',
    CallsKeepReads]
  constructor
  · intro h n hn callee hcallee slot hslot hwrites
    have hfalse := h callee ⟨n, hn, hcallee⟩ slot hslot
    rw [Tree.writesThrough_iff.2 hwrites] at hfalse
    cases hfalse
  · rintro h callee ⟨n, hn, hcallee⟩ slot hslot
    rw [Bool.eq_false_iff]
    exact fun hwrites => h n hn callee hcallee slot hslot (Tree.writesThrough_iff.1 hwrites)

theorem moves_of_mem_firings {tree : Tree} (htree : tree.WellFormed)
    (hfiring : firing ∈ firings settings routines tree)
    (hmove : firing.rewrite = .inlineValue move) :
    firing.draft.Current routines ∧
      (∀ n ∈ firing.crossed move,
        firing.draft.tree.Met routines firing.draft.tree.size n) ∧
      firing.draft.canMove move.value (firing.draft.between firing.block move) := by
  obtain ⟨hcurrent, hproper, hlive, hadmits⟩ := admits_of_mem_firings htree hfiring
  rw [hmove] at hadmits
  cases hadmits with
  | inlineValue hat hmoves =>
    refine ⟨hcurrent, fun n hn => ?_, hmoves.canMove⟩
    obtain ⟨statement, hstatement, hn⟩ := List.mem_flatMap.1 hn
    rw [hcurrent, Facts.isLive_analyze] at hlive
    exact Tree.met_of_mem_subtree hproper.tree hlive
      (List.mem_of_mem_take (List.mem_of_mem_drop hstatement)) hn

theorem writes_eq_false_of_mem_crossed {tree : Tree} (htree : tree.WellFormed)
    (hfiring : firing ∈ firings settings routines tree)
    (hmove : firing.rewrite = .inlineValue move) {n slot : NodeId} (hn : n ∈ firing.crossed move)
    (hmem : slot ∈ firing.draft.tree.subtree true move.value)
    (hslot : firing.draft.tree.isSlot slot) : firing.draft.tree.writes routines n slot = false := by
  obtain ⟨hcurrent, hmet, hcan⟩ := moves_of_mem_firings htree hfiring hmove
  rw [Bool.eq_false_iff]
  intro hwrites
  obtain ⟨w, hw, hnode⟩ := Facts.exists_mem_writesOf_analyze firing.draft.facts
    (hmet n hn) hwrites
  rw [← hcurrent] at hw
  exact (canMove_eq_true hcan).2.2 slot hmem hslot w hw (hnode ▸ hn)

/-- No node that the value moves over reads a slot that the value has written, if none on record
does. -/
theorem reads_eq_false_of_passedReadElsewhere {tree : Tree} (htree : tree.WellFormed)
    (hfiring : firing ∈ firings settings routines tree)
    (hmove : firing.rewrite = .inlineValue move) (h : firing.passedReadElsewhere routines move)
    {n slot : NodeId} (hn : n ∈ firing.crossed move)
    (hslot : slot ∈ firing.draft.tree.slotsPassed routines move.value) :
    firing.draft.tree.reads n slot = false := by
  obtain ⟨hcurrent, hmet, -⟩ := moves_of_mem_firings htree hfiring hmove
  rw [Bool.eq_false_iff]
  intro hreads
  obtain ⟨r, hr, hnode⟩ := Facts.exists_mem_readsOf_analyze firing.draft.facts
    (hmet n hn) hreads
  rw [← hcurrent] at hr
  have helsewhere := List.all_eq_true.1 (List.all_eq_true.1 h slot hslot) r hr
  rw [hnode] at helsewhere
  simp [hn] at helsewhere

theorem passedReadElsewhere_of_sparesPassed {tree : Tree} (htree : tree.WellFormed)
    (hfiring : firing ∈ firings settings routines tree)
    (hmove : firing.rewrite = .inlineValue move) (h : firing.SparesPassed routines move) :
    firing.passedReadElsewhere routines move := by
  obtain ⟨hcurrent, -, -⟩ := moves_of_mem_firings htree hfiring hmove
  refine List.all_eq_true.2 fun slot hslot => List.all_eq_true.2 fun r hr => ?_
  rw [Bool.not_eq_true', List.contains_eq_mem, decide_eq_false_iff_not]
  intro hcrossed
  rw [hcurrent] at hr
  have hreads := Facts.reads_of_mem_readsOf_analyze hr
  rw [(h r.node hcrossed slot hslot).1] at hreads
  cases hreads

end Firing

/-- Whether some value that moves when a program is compacted has a property. -/
def someInlining (program : Program) (routines : Routines) (lifting : LiftSettings)
    (settings : CompactSettings) (p : Firing → Inlining → Bool) : Bool :=
  liftsTo program routines lifting fun tree => (firings settings routines tree).any fun firing =>
    match firing.rewrite with
    | .inlineValue move => p firing move
    | _ => false

theorem exists_of_someInlining (program : Program) (routines : Routines) (lifting : LiftSettings)
    (settings : CompactSettings) (p : Firing → Inlining → Bool)
    (h : someInlining program routines lifting settings p) :
    ∃ tree firing move, lift program routines lifting = some (.ok tree) ∧
      firing ∈ firings settings routines tree ∧ firing.rewrite = .inlineValue move ∧
      p firing move := by
  obtain ⟨tree, hlift, h⟩ := exists_of_lift program routines lifting _ h
  obtain ⟨firing, hfiring, h⟩ := List.any_eq_true.1 h
  split at h
  · next move hmove => exact ⟨tree, firing, move, hlift, hfiring, hmove, h⟩
  · cases h

end Draft

/-- A value that moves crosses no write of a slot that it reads, and no call at all if it has effects.
Whether the calls that it does cross leave its slots alone is decided by the bodies of the subroutines
that they reach, which compaction does not look at. -/
theorem inlining_keeps_reads_iff {program : Program} {routines : Routines}
    {lifting : LiftSettings} {settings : CompactSettings} {tree : Tree}
    (hlift : lift program routines lifting = some (.ok tree)) {firing : Draft.Firing}
    (hfiring : firing ∈ Draft.firings settings routines tree) {move : Inlining}
    (hmove : firing.rewrite = .inlineValue move) :
    (∀ n ∈ firing.crossed move, ∀ slot ∈ firing.draft.tree.slotsRead move.value,
      firing.draft.tree.writes routines n slot = false) ∧
    ((firing.draft.tree.subtree true move.value).any firing.draft.tree.hasEffect →
      ∀ n ∈ firing.crossed move, firing.draft.tree.callee? n = none) ∧
    (firing.CallsKeepReads routines move ↔ firing.callsKeepReads routines move) := by
  have htree := lift_wellFormed hlift
  refine ⟨fun n hn slot hslot => ?_, fun heffect n hn => ?_, Draft.Firing.callsKeepReads_iff.symm⟩
  · obtain ⟨hmem, hisSlot⟩ := Tree.mem_subtree_of_mem_slotsRead hslot
    exact Draft.Firing.writes_eq_false_of_mem_crossed htree hfiring hmove hn hmem hisSlot
  · obtain ⟨-, -, hcan⟩ := Draft.Firing.moves_of_mem_firings htree hfiring hmove
    have hnone := (Draft.canMove_eq_true hcan).2.1 heffect n hn
    unfold Tree.hasEffect Tree.kind at hnone
    unfold Tree.callee?
    split
    · next hnode => simp [hnode, Node.kind, Kind.isCall] at hnone
    · rfl

/-- A global is copied, a subroutine sets it, and the copy is printed. -/
def globalScript : Program := .ofList "" [
  { opcode := .jsr, jump := 8 },
  { opcode := .retn },
  { opcode := .rsaddi },
  { opcode := .consti, value := some (.int 5) },
  { opcode := .cpdownsp, stack := -8, size := 4 },
  { opcode := .movsp, stack := -4 },
  { opcode := .savebp },
  { opcode := .jsr, jump := 16 },
  { opcode := .restorebp },
  { opcode := .movsp, stack := -4 },
  { opcode := .retn },
  { opcode := .cptopbp, stack := -4, size := 4 },
  { opcode := .jsr, jump := 13 },
  { opcode := .action, routine := 1, arity := 1 },
  { opcode := .retn },
  { opcode := .consti, value := some (.int 7) },
  { opcode := .cpdownbp, stack := -4, size := 4 },
  { opcode := .movsp, stack := -4 },
  { opcode := .retn }
]

def printRoutines : Routines := { table := [(1, ⟨"PrintInteger", .void, [⟨.int, false⟩]⟩)] }

/-- The copy moves over the call. -/
theorem inlining_keeps_reads_globalScript : ∃ tree firing move,
    lift globalScript printRoutines .strictly = some (.ok tree) ∧
    firing ∈ Draft.firings {} printRoutines tree ∧ firing.rewrite = .inlineValue move ∧
    firing.crossed move ≠ [] ∧
    (∀ n ∈ firing.crossed move, ∀ slot ∈ firing.draft.tree.slotsRead move.value,
      firing.draft.tree.writes printRoutines n slot = false) ∧
    (firing.CallsKeepReads printRoutines move ↔ firing.callsKeepReads printRoutines move) := by
  obtain ⟨tree, firing, move, hlift, hfiring, hmove, hcrossed⟩ :=
    Draft.exists_of_someInlining globalScript printRoutines .strictly {}
      (fun f m => f.crossed m ≠ [])
      (by decide +kernel)
  obtain ⟨hwrites, -, hcalls⟩ := inlining_keeps_reads_iff hlift hfiring hmove
  exact ⟨tree, firing, move, hlift, hfiring, hmove, by simpa using hcrossed, hwrites, hcalls⟩

/-- Values do move over calls that write what they read. -/
theorem not_forall_inlining_keeps_reads : ¬∀ (program : Program) (routines : Routines)
    (lifting : LiftSettings) (settings : CompactSettings) (tree : Tree),
    lift program routines lifting = some (.ok tree) → ∀ firing ∈ Draft.firings settings routines tree,
      ∀ move, firing.rewrite = .inlineValue move → firing.CallsKeepReads routines move := by
  intro h
  obtain ⟨tree, firing, move, hlift, hfiring, hmove, hfalse⟩ :=
    Draft.exists_of_someInlining globalScript printRoutines .strictly {}
      (fun f m => !f.callsKeepReads printRoutines m)
      (by decide +kernel)
  have hkeeps := h _ _ _ _ tree hlift firing hfiring move hmove
  rw [Draft.Firing.callsKeepReads_iff.2 hkeeps] at hfalse
  cases hfalse

/-- A value that moves crosses no write of a slot that it has written by a call. It crosses no read of
such a slot either, exactly if the reads on record lie elsewhere, which compaction does not look at. -/
theorem inlining_spares_passed_iff {program : Program} {routines : Routines}
    {lifting : LiftSettings} {settings : CompactSettings} {tree : Tree}
    (hlift : lift program routines lifting = some (.ok tree)) {firing : Draft.Firing}
    (hfiring : firing ∈ Draft.firings settings routines tree) {move : Inlining}
    (hmove : firing.rewrite = .inlineValue move) :
    (∀ n ∈ firing.crossed move, ∀ slot ∈ firing.draft.tree.slotsPassed routines move.value,
      firing.draft.tree.writes routines n slot = false) ∧
    (firing.SparesPassed routines move ↔ firing.passedReadElsewhere routines move) := by
  have htree := lift_wellFormed hlift
  have hwrites : ∀ n ∈ firing.crossed move,
      ∀ slot ∈ firing.draft.tree.slotsPassed routines move.value,
      firing.draft.tree.writes routines n slot = false := by
    intro n hn slot hslot
    obtain ⟨hmem, hisSlot⟩ := Tree.mem_subtree_of_mem_slotsPassed hslot
    exact Draft.Firing.writes_eq_false_of_mem_crossed htree hfiring hmove hn hmem hisSlot
  refine ⟨hwrites, Draft.Firing.passedReadElsewhere_of_sparesPassed htree hfiring hmove,
    fun h n hn slot hslot => ⟨?_, hwrites n hn slot hslot⟩⟩
  exact Draft.Firing.reads_eq_false_of_passedReadElsewhere htree hfiring hmove h hn hslot

/-- A subroutine counts up a word of its caller and answers another; the caller copies the word that
was counted up, then prints the answer and the copy. -/
def counterScript : Program := .ofList "" [
  { opcode := .jsr, jump := 8 },
  { opcode := .retn },
  { opcode := .rsaddi },
  { opcode := .consti, value := some (.int 1) },
  { opcode := .jsr, jump := 40 },
  { opcode := .cptopsp, stack := -4, size := 4 },
  { opcode := .cptopsp, stack := -12, size := 4 },
  { opcode := .action, routine := 1, arity := 1 },
  { opcode := .action, routine := 1, arity := 1 },
  { opcode := .movsp, stack := -8 },
  { opcode := .retn },
  { opcode := .incisp, stack := -4 },
  { opcode := .consti, value := some (.int 9) },
  { opcode := .cpdownsp, stack := -12, size := 4 },
  { opcode := .movsp, stack := -4 },
  { opcode := .retn }
]

/-- The call moves over the copy. -/
theorem inlining_spares_passed_counterScript : ∃ tree firing move,
    lift counterScript printRoutines .strictly = some (.ok tree) ∧
    firing ∈ Draft.firings {} printRoutines tree ∧ firing.rewrite = .inlineValue move ∧
    firing.draft.tree.slotsPassed printRoutines move.value ≠ [] ∧ firing.crossed move ≠ [] ∧
    (∀ n ∈ firing.crossed move, ∀ slot ∈ firing.draft.tree.slotsPassed printRoutines move.value,
      firing.draft.tree.writes printRoutines n slot = false) ∧
    (firing.SparesPassed printRoutines move ↔ firing.passedReadElsewhere printRoutines move) := by
  obtain ⟨tree, firing, move, hlift, hfiring, hmove, hcond⟩ :=
    Draft.exists_of_someInlining counterScript printRoutines .strictly {}
      (fun f m => f.draft.tree.slotsPassed printRoutines m.value ≠ [] ∧ f.crossed m ≠ [])
      (by decide +kernel)
  rw [decide_eq_true_eq] at hcond
  exact ⟨tree, firing, move, hlift, hfiring, hmove, hcond.1, hcond.2,
    inlining_spares_passed_iff hlift hfiring hmove⟩

/-- Values do move over reads of slots that they write. -/
theorem not_forall_inlining_spares_passed : ¬∀ (program : Program) (routines : Routines)
    (lifting : LiftSettings) (settings : CompactSettings) (tree : Tree),
    lift program routines lifting = some (.ok tree) → ∀ firing ∈ Draft.firings settings routines tree,
      ∀ move, firing.rewrite = .inlineValue move → firing.SparesPassed routines move := by
  intro h
  obtain ⟨tree, firing, move, hlift, hfiring, hmove, hfalse⟩ :=
    Draft.exists_of_someInlining counterScript printRoutines .strictly {}
      (fun f m => !f.passedReadElsewhere printRoutines m) (by decide +kernel)
  have hspares := h _ _ _ _ tree hlift firing hfiring move hmove
  rw [Draft.Firing.passedReadElsewhere_of_sparesPassed (lift_wellFormed hlift) hfiring hmove
    hspares] at hfalse
  cases hfalse

end ScriptLift
