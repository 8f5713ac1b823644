import ScriptLift.Proofs.Lift.Faults
import ScriptLift.Proofs.Lift.Integrity

/-! Labels and the instructions that lead back to them.

The table of labels is made before anything is lifted, from a scan for the instructions that lead
back. The lifting of a jump or a branch tells on its own whether it leads back. Both agree: every
instruction that leads back finds the label of its target, gotos name no other labels, and there are
no labels besides. -/
namespace ScriptLift

/-- A jump or a branch that does not lead ahead. One that leads to itself counts as well. -/
def Instruction.LeadsBack (ins : Instruction) : Prop :=
  (ins.opcode = .jmp ∨ ins.opcode = .jz ∨ ins.opcode = .jnz) ∧ ins.jump ≤ 0

instance (ins : Instruction) : Decidable ins.LeadsBack :=
  inferInstanceAs (Decidable (_ ∧ _))

namespace Lift

/-- The table lists the labels of the tree at their offsets, and no offset twice. -/
structure Listed (state : Tree × List (Nat × NodeId)) : Prop where
  label : ∀ id, state.1.node id = .label → (state.1.offset id, id) ∈ state.2
  keys : (state.2.map Prod.fst).Nodup

variable {state : Tree × List (Nat × NodeId)}

theorem Listed.addLabel (h : Listed state) (target : Nat) : Listed (addLabel state target) := by
  unfold Lift.addLabel
  split
  · exact h
  · next hnone =>
    refine ⟨fun id hlabel => ?_, List.nodup_cons.2 ⟨Site.lookup_eq_none_iff.1 hnone, h.keys⟩⟩
    by_cases hid : id = state.1.nextId
    · subst hid
      rw [Tree.offset, Tree.get_alloc_nextId]
      exact List.mem_cons_self
    · have hlt : id.index < state.1.size := by
        have hnew : id.index < (state.1.alloc target .label).size :=
          Tree.lt_size_of_node_ne (by simp [show _ = Node.label from hlabel])
        rw [Tree.size_alloc] at hnew
        exact Nat.lt_of_le_of_ne (Nat.le_of_lt_succ hnew) fun heq =>
          hid (Tree.eq_nextId_of_index heq)
      rw [Tree.node_alloc_of_lt hlt] at hlabel
      rw [Tree.offset_alloc_of_lt hlt]
      exact List.mem_cons_of_mem _ (h.label id hlabel)

theorem mem_keys_addLabel (state : Tree × List (Nat × NodeId)) (target other : Nat) :
    other ∈ (addLabel state target).2.map Prod.fst ↔
      other = target ∨ other ∈ state.2.map Prod.fst := by
  unfold addLabel
  split
  · next label hlookup =>
    refine ⟨.inr, fun h => h.elim (fun heq => heq ▸ ?_) id⟩
    exact List.mem_map_of_mem (Site.mem_of_lookup hlookup)
  · exact List.mem_cons

theorem listed_foldl (h : Listed state) (targets : List Nat) :
    Listed (targets.foldl addLabel state) ∧
      ∀ other, other ∈ (targets.foldl addLabel state).2.map Prod.fst ↔
        other ∈ targets ∨ other ∈ state.2.map Prod.fst := by
  induction targets generalizing state with
  | nil => exact ⟨h, fun other => by simp⟩
  | cons target targets ih =>
    obtain ⟨hlisted, hkeys⟩ := ih (h.addLabel target)
    refine ⟨hlisted, fun other => ?_⟩
    rw [List.foldl_cons, hkeys other, mem_keys_addLabel, List.mem_cons]
    tauto

theorem labels_listed (program : Program) :
    Listed (labels program) ∧ ∀ target, target ∈ (labels program).2.map Prod.fst ↔
      ∃ ins ∈ program.instructions, ins.LeadsBack ∧ ins.target = target := by
  have hnil : Listed ({}, []) := by
    refine ⟨fun id hlabel => ?_, List.nodup_nil⟩
    rw [Tree.node_of_size_le (by simp [Tree.size])] at hlabel
    cases hlabel
  obtain ⟨hlisted, hkeys⟩ :=
    listed_foldl hnil ((program.instructions.toList.filter needsLabel).map (·.target))
  refine ⟨hlisted, fun target => (hkeys target).trans ?_⟩
  simp [needsLabel_eq_true, Instruction.LeadsBack, and_assoc]

theorem exists_label {program : Program} {ins : Instruction} (hins : ins ∈ program.instructions)
    (hback : ins.LeadsBack) : ∃ label, (labels program).2.lookup ins.target = some label := by
  by_contra hnone
  rw [← Option.isSome_iff_exists, Option.not_isSome_iff_eq_none, Site.lookup_eq_none_iff] at hnone
  exact hnone (((labels_listed program).2 ins.target).2 ⟨ins, hins, hback, rfl⟩)

variable {program : Program} {routines : Routines} {settings : LiftSettings} {count : Nat}
  {m : Machine} {id label : NodeId}

theorem kind_eq_label_iff {tree : Tree} : tree.kind id = .label ↔ tree.node id = .label := by
  unfold Tree.kind
  cases tree.node id <;> simp [Node.kind]

theorem MadeOn.kind_ne_label {earlier : Nat} {visit : Visit}
    (hmade : MadeOn program routines settings earlier visit id)
    (h : stage program routines settings count = some m) (hlt : earlier < count) :
    m.tree.kind id ≠ .label := by
  obtain ⟨hstep, hvisit, htree, hnew, hmade⟩ := hmade
  rw [(stage_grows hstep.behind h hlt).kind_eq hmade, Tree.kind, Tree.node_of_exprs_eq htree]
  exact ((visit_trail hstep.before hvisit).tree.made id hnew (by rwa [Tree.size, ← htree])).label

theorem stage_label (h : stage program routines settings count = some m)
    (hlabel : m.tree.node id = .label) : (m.tree.offset id, id) ∈ (labels program).2 := by
  have hkind := kind_eq_label_iff.2 hlabel
  have hgrow := stage_grows (m := start (labels program).1) rfl h (Nat.zero_le _)
  rcases Nat.lt_trichotomy id.index (labels program).1.size with hlt | heq | hgt
  · have hstart : id.index < (start (labels program).1).tree.size := by
      rw [start_size]
      exact Nat.lt_succ_of_lt hlt
    have hold : (start (labels program).1).tree.node id = (labels program).1.node id :=
      Tree.node_alloc_of_lt hlt
    have hoffset : (start (labels program).1).tree.offset id = (labels program).1.offset id :=
      Tree.offset_alloc_of_lt hlt
    rw [hgrow.kind_eq hstart, kind_eq_label_iff, hold] at hkind
    rw [hgrow.offset id hstart, hoffset]
    exact (labels_listed program).1.label id hkind
  · have hroot : (start (labels program).1).tree.kind id = .block := by
      rw [Tree.eq_nextId_of_index heq]
      exact congrArg Node.kind Tree.node_alloc_nextId
    rw [hgrow.kind_eq (by rw [start_size]; omega), hroot] at hkind
    cases hkind
  · obtain ⟨earlier, visit, hcount, hmade⟩ := exists_madeOn h hgt
      (Tree.lt_size_of_node_ne (by simp [hlabel])) (by simp [hkind])
    exact absurd hkind (hmade.kind_ne_label h hcount)

theorem stage_label_iff (h : stage program routines settings count = some m) {target : Nat} :
    m.tree.node id = .label ∧ m.tree.offset id = target ↔ (target, id) ∈ (labels program).2 := by
  constructor
  · rintro ⟨hlabel, rfl⟩
    exact stage_label h hlabel
  · intro hmem
    obtain ⟨hlt, hoffset⟩ := labels_mem hmem
    have hgrow := stage_grows (m := start (labels program).1) rfl h (Nat.zero_le _)
    refine ⟨kind_eq_label_iff.1 ((stage_sound h).labels _ hmem), ?_⟩
    rw [hgrow.offset _ (by rw [start_size]; omega)]
    exact (Tree.offset_alloc_of_lt hlt).trans hoffset

theorem stage_goto_target (h : stage program routines settings count = some m)
    (hgoto : m.tree.node id = .goto label) :
    ∃ ins, program.at? (m.tree.offset id) = some ins ∧ ins.LeadsBack ∧
      m.tree.node label = .label ∧ m.tree.offset label = ins.target := by
  obtain ⟨earlier, visit, hcount, hmade, hback, hlabel⟩ := exists_madeOn_of_goto h hgoto
  obtain ⟨hstep, hvisit, htree, hnew, hlt⟩ := hmade
  have hgrow := stage_grows hstep.behind h hcount
  have hoffset : m.tree.offset id = visit.walk.offset := by
    rw [hgrow.offset id hlt]
    refine (visit_stands hstep.before hvisit htree hnew hlt).resolve_right ?_
    rintro ⟨job, -, hget⟩
    have hkind := hgrow.kind_eq hlt
    rw [Tree.kind, Tree.kind, hgoto, Tree.node, hget] at hkind
    cases hkind
  obtain ⟨-, -, -, hat⟩ := Machine.visit?_eq_some.1 hvisit
  exact ⟨visit.ins, hoffset ▸ hat, needsLabel_eq_true.1 hback,
    (stage_label_iff h).2 (Site.mem_of_lookup hlabel)⟩

theorem not_blames_noLabel {site : Site} (hins : site.ins ∈ program.instructions)
    {offset target : Nat} {opcode : Opcode} :
    ¬site.Blames (script program routines) (.inconsistent offset opcode (.noLabel target)) := by
  intro hblames
  cases hblames with
  | inconsistent hne => exact hne target rfl
  | noLabel hback hnone =>
    obtain ⟨label, hlabel⟩ := exists_label hins (needsLabel_eq_true.1 hback)
    cases hnone.symm.trans hlabel

end Lift

/-- The labels of a tree are the targets of the instructions that lead back, one label for each. A
goto stands at an instruction that leads back, and names the label of its target. No instruction of
the program fails for the lack of a label, on any stack and in any tree, and lifting does not end so
either. -/
theorem labels_are_backward_targets (program : Program) (routines : Routines)
    (settings : LiftSettings) :
    (∀ tree, lift program routines settings = some (.ok tree) →
      (∀ ins ∈ program.instructions, ins.LeadsBack →
        ∃! id, tree.node id = .label ∧ tree.offset id = ins.target) ∧
      (∀ id, tree.node id = .label →
        ∃ ins ∈ program.instructions, ins.LeadsBack ∧ ins.target = tree.offset id) ∧
      ∀ id label, tree.node id = .goto label →
        ∃ ins, program.at? (tree.offset id) = some ins ∧ ins.LeadsBack ∧
          tree.node label = .label ∧ tree.offset label = ins.target) ∧
    (∀ (site : Site) callees ws ws' offset opcode target, site.ins ∈ program.instructions →
      site.visit (Lift.script program routines) callees ws ≠
        .error (.inconsistent offset opcode (.noLabel target)) ws') ∧
    ∀ entry start offset opcode target, lift program routines settings ≠
      some (.error (.block entry start (.inconsistent offset opcode (.noLabel target)))) := by
  refine ⟨fun tree hlift => ?_, fun site callees ws ws' offset opcode target hins hrun => ?_,
    fun entry start offset opcode target hlift => ?_⟩
  · obtain ⟨lifted, hrun, htree⟩ := lift_eq_ok hlift
    obtain ⟨count, last, hstage, -, rfl⟩ := Lift.exists_stage hrun
    obtain rfl : Lift.complete last.tree = tree := htree
    have hlabel : ∀ id, (Lift.complete last.tree).node id = .label ↔
        last.tree.node id = .label := fun id =>
      ⟨fun h => Lift.node_of_complete h (by simp [Node.kind]),
        fun h => Lift.node_complete_of_eq h (by simp [Node.kind])⟩
    have hoffset : ∀ id, (Lift.complete last.tree).offset id = last.tree.offset id :=
      fun id => (Lift.node_complete last.tree id).1
    obtain ⟨hlisted, hkeys⟩ := Lift.labels_listed program
    simp only [hlabel, hoffset]
    refine ⟨fun ins hins hback => ?_, fun id hid => ?_, fun id label hgoto => ?_⟩
    · obtain ⟨label, hlookup⟩ := Lift.exists_label hins hback
      have hmem := Site.mem_of_lookup hlookup
      refine ⟨label, (Lift.stage_label_iff hstage).2 hmem, fun other hother => ?_⟩
      have hmem' := (Lift.stage_label_iff hstage).1 hother
      exact congrArg Prod.snd (List.inj_on_of_nodup_map hlisted.keys hmem' hmem rfl)
    · exact (hkeys _).1 (List.mem_map_of_mem (Lift.stage_label hstage hid))
    · exact Lift.stage_goto_target hstage (Lift.node_of_complete hgoto (by simp [Node.kind]))
  · exact Lift.not_blames_noLabel hins ((site.visit_abides _ callees).fault hrun)
  · cases script_stops hlift with
    | givenUp _ _ _ hcause =>
      cases hcause with
      | refused hins hblames => exact Lift.not_blames_noLabel hins hblames

/-- A jump and a branch back to one place. -/
def backScript : Program := .ofList "" [
  { opcode := .jsr, jump := 8 },
  { opcode := .retn },
  { opcode := .consti, value := some (.int 0) },
  { opcode := .jz, jump := -6 },
  { opcode := .jmp, jump := -12 }
]

/-- Both gotos lead to the one label, at 21. -/
theorem labels_are_backward_targets_backScript : ∃ tree ins id label,
    lift backScript {} .strictly = some (.ok tree) ∧ ins ∈ backScript.instructions ∧ ins.LeadsBack ∧
    tree.node id = .goto label ∧
    (∃! id, tree.node id = .label ∧ tree.offset id = ins.target) ∧
    ∃ ins, backScript.at? (tree.offset id) = some ins ∧ ins.LeadsBack ∧
      tree.node label = .label ∧ tree.offset label = ins.target := by
  obtain ⟨tree, hlift, hcond⟩ := exists_of_lift backScript {} .strictly
    (fun tree => decide (∃ i < tree.size, tree.node ⟨i⟩ = .goto ⟨0⟩)) (by decide +kernel)
  obtain ⟨i, -, hgoto⟩ := of_decide_eq_true hcond
  obtain ⟨ins, hins, hback⟩ : ∃ ins ∈ backScript.instructions, ins.LeadsBack := by decide +kernel
  obtain ⟨hunique, -, htarget⟩ :=
    (labels_are_backward_targets backScript {} .strictly).1 tree hlift
  exact ⟨tree, ins, ⟨i⟩, ⟨0⟩, hlift, hins, hback, hgoto, hunique ins hins hback,
    htarget ⟨i⟩ ⟨0⟩ hgoto⟩

end ScriptLift
