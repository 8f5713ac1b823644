import ScriptLift.Proofs.Compact.Exits
import ScriptLift.Proofs.Dataflow.Walks
import ScriptLift.Proofs.Lift.Offsets

/-! Blocks that are kept for later, and cycles.

What runs as part of a node stands where the node does or ahead, so no node runs as part of itself.
The block that an engine call keeps for later is the one that was saved last on the way to the call.
A block is known by its offset and the depth of the stack, whatever was saved on the way to it. So a
block behind a saved state may be used again within the saved code; a call in it then keeps the very
code that it is part of, and the nodes go round in a circle. There is no other way to a cycle. -/
namespace ScriptLift

namespace Tree

variable (tree : Tree)

/-- The second node stands ahead of the first, or where the first does and comes below it: blocks
come first at their offset, and other nodes are made after those that they hold. -/
def Precedes (a b : NodeId) : Prop :=
  tree.offset a < tree.offset b ∨
    tree.offset a = tree.offset b ∧ tree.kind b ≠ .block ∧ (tree.kind a = .block ∨ b.index < a.index)

/-- An engine call within a block that it keeps for later. -/
def Reenters (n : NodeId) : Prop :=
  tree.kind n = .action ∧
    ∃ block ∈ tree.below true n, tree.kind block = .block ∧ n ∈ tree.subtree true block

instance (n : NodeId) : Decidable (tree.Reenters n) :=
  inferInstanceAs (Decidable (_ ∧ ∃ block ∈ tree.below true n, _))

variable {tree} {a b c id n : NodeId}

namespace Precedes

theorem trans (h : tree.Precedes a b) (g : tree.Precedes b c) : tree.Precedes a c := by
  rcases h with hab | ⟨hab, hb, ha⟩ <;> rcases g with hbc | ⟨hbc, hc, hlater⟩
  · exact .inl (Nat.lt_trans hab hbc)
  · exact .inl (hbc ▸ hab)
  · exact .inl (hab ▸ hbc)
  · have hlt : c.index < b.index := hlater.resolve_left hb
    exact .inr ⟨hab.trans hbc, hc, ha.imp_right hlt.trans⟩

theorem not_cycle : ¬Relation.TransGen tree.Precedes a a := by
  have hself : ∀ b, Relation.TransGen tree.Precedes a b → tree.Precedes a b := by
    intro b hab
    induction hab with
    | single hstep => exact hstep
    | tail _ hstep ih => exact ih.trans hstep
  intro hcycle
  rcases hself a hcycle with hlt | ⟨-, hkind, hblock | hlt⟩
  · exact Nat.lt_irrefl _ hlt
  · exact hkind hblock
  · exact Nat.lt_irrefl _ hlt

end Precedes

theorem acc_runs_of_leaf (h : tree.kind id = .label ∨ tree.kind id = .slot ∨ tree.kind id = .goto) :
    Acc (Function.swap tree.Runs) id := by
  refine Acc.intro id fun n hn => ?_
  have hn : n ∈ tree.below true id := hn.1
  unfold below at hn
  unfold Tree.kind at h
  cases hnode : tree.node id <;> simp_all [Node.kind, Node.operands]

theorem acc_runs_of_isBare (hkind : tree.kind id = .block) (hbare : tree.isBare id) :
    Acc (Function.swap tree.Runs) id := by
  refine Acc.intro id fun s hs => acc_runs_of_leaf (.inr (.inr ?_))
  have hs : s ∈ tree.below true id := hs.1
  rw [below_of_kind_block hkind] at hs
  unfold isBare at hbare
  split at hbare
  · next hnone => simp [hnone] at hs
  · next hone =>
    obtain rfl : s = _ := by simpa [hone] using hs
    exact of_decide_eq_true hbare
  · cases hbare

theorem holds_of_mem_subtree (h : n ∈ tree.subtree true id) :
    Relation.ReflTransGen tree.Holds id n :=
  subtreeTo_induction (fun _ _ htop hbelow => htop.tail hbelow) .refl h

theorem Reenters.cycle (h : tree.Reenters n) : Relation.TransGen tree.Holds n n := by
  obtain ⟨-, block, hblock, -, hn⟩ := h
  exact .head' hblock (holds_of_mem_subtree hn)

end Tree

namespace Lift

variable {program : Program} {routines : Routines} {settings : LiftSettings} {count : Nat}
  {m : Machine} {a b n : NodeId}

theorem size_complete (tree : Tree) : (complete tree).size = tree.size := by
  have hglobals : ∀ sub, (nameGlobals (collectGlobals tree) sub).size = tree.size :=
    fun _ => Tree.size_modifyStatements _
  unfold complete nameSubroutines
  split
  · rfl
  · exact hglobals _
  · exact hglobals _
  · rfl

theorem runs_of_complete {tree : Tree} (h : (complete tree).Runs a b) : tree.Runs a b := by
  refine ⟨mem_below_of_complete h.1, ?_⟩
  rw [← (node_complete tree a).2.1, ← (node_complete tree b).2.1]
  exact h.2

section Ahead

variable (hlength : program.length ≤ 2 ^ 31)
include hlength

/-- What runs as part of a node comes behind it, or everything ends there. -/
theorem stage_runs (h : stage program routines settings count = some m)
    (hruns : m.tree.Runs a b) :
    m.tree.Precedes a b ∨ Acc (Function.swap m.tree.Runs) b := by
  obtain ⟨hbelow, hkept⟩ := hruns
  have hbuilt := (stage_sound h).tree
  by_cases hblock : m.tree.kind a = .block
  · rw [Tree.below_of_kind_block hblock] at hbelow
    rcases stage_statement_offset hlength h hbelow with hlabel | hle
    · exact .inr (Tree.acc_runs_of_leaf (.inl hlabel))
    · have hkind := (hbuilt.wellFormed.statement hbelow).kind
      exact .inl ((Nat.lt_or_eq_of_le hle).imp_right fun heq => ⟨heq, hkind, .inl hblock⟩)
  · rw [Tree.below_of_kind_ne_block hblock] at hbelow
    obtain ⟨o, ho, rfl⟩ := List.mem_map.1 hbelow
    cases stage_mayHold hlength h ho with
    | slot hslot => exact .inr (Tree.acc_runs_of_leaf (.inr (.inl hslot)))
    | idle hidle => exact .inr (Tree.acc_runs_of_isBare hidle.isBlock.kind hidle.bare)
    | kept haction hblock => exact absurd ⟨haction, hblock⟩ hkept
    | ahead hlt => exact .inl (.inl hlt)
    | beside heq hkind => exact .inl (.inr ⟨heq, hkind, .inr (hbuilt.before a o ho)⟩)

theorem stage_runs_acyclic (h : stage program routines settings count = some m) :
    ¬Relation.TransGen m.tree.Runs n n := by
  intro hcycle
  obtain ⟨x, y, hx, hxy, hy, hnot⟩ := Reach.exists_step_of_cycle hcycle Tree.Precedes.not_cycle
  have hends := (stage_runs hlength h hxy).resolve_left hnot
  exact Reach.not_cycle_of_acc hends (.tail' (hy.trans hx) hxy)

end Ahead

end Lift

section Lifted

variable {program : Program} {routines : Routines} {settings : LiftSettings} {tree : Tree}

theorem lift_root_isBlock (h : lift program routines settings = some (.ok tree)) {sub : SubId}
    (hsub : sub ∈ tree.order) : tree.IsBlock (tree.sub sub).root := by
  obtain ⟨lifted, hrun, rfl⟩ := lift_eq_ok h
  obtain ⟨count, last, hstage, -, rfl⟩ := Lift.exists_stage hrun
  have hroot : ((Lift.complete last.tree).sub sub).root = (last.tree.sub sub).root :=
    Lift.field_complete (·.root) (fun _ _ => rfl) last.tree sub
  have hhas : last.tree.HasSub sub :=
    ((Lift.stage_entered hstage).order sub).1 (Lift.order_complete last.tree ▸ hsub)
  have hblock := Lift.stage_root_isBlock hstage hhas
  change (Lift.complete last.tree).IsBlock ((Lift.complete last.tree).sub sub).root
  rw [hroot]
  exact ⟨by rw [Lift.size_complete]; exact hblock.lt,
    by rw [(Lift.node_complete last.tree _).2.1]; exact hblock.kind⟩

theorem lift_closed (h : lift program routines settings = some (.ok tree)) : tree.Closed :=
  ⟨fun _ _ hn => (lift_wellFormed h).lt_of_below hn, fun _ hsub => (lift_root_isBlock h hsub).lt⟩

theorem lift_unnested (h : lift program routines settings = some (.ok tree)) : tree.Unnested :=
  fun _ _ hs => ((lift_wellFormed h).statement hs).kind

theorem lift_walkable (h : lift program routines settings = some (.ok tree)) : tree.Walkable :=
  ⟨lift_closed h, lift_unnested h, fun _ hsub => (lift_root_isBlock h hsub).kind⟩

theorem lift_runs_acyclic (hlength : program.length ≤ 2 ^ 31)
    (h : lift program routines settings = some (.ok tree)) (n : NodeId) :
    ¬Relation.TransGen tree.Runs n n := by
  obtain ⟨lifted, hrun, rfl⟩ := lift_eq_ok h
  obtain ⟨count, last, hstage, -, rfl⟩ := Lift.exists_stage hrun
  intro hcycle
  exact Lift.stage_runs_acyclic hlength hstage
    (Relation.TransGen.mono (fun _ _ => Lift.runs_of_complete) _ _ hcycle)

theorem exists_reenters_of_cycle (hlength : program.length ≤ 2 ^ 31)
    (h : lift program routines settings = some (.ok tree)) {id : NodeId}
    (hcycle : Relation.TransGen tree.Holds id id) :
    ∃ n, Relation.ReflTransGen tree.Holds id n ∧ tree.Reenters n := by
  obtain ⟨n, block, hn, hblock, hback, hkept⟩ :=
    Reach.exists_step_of_cycle hcycle (lift_runs_acyclic hlength h id)
  have hdefers : tree.kind n = .action ∧ tree.kind block = .block := by
    by_contra hruns
    exact hkept ⟨hblock, hruns⟩
  have htree := lift_wellFormed h
  exact ⟨n, hn, hdefers.1, block, hblock, hdefers.2,
    htree.mem_subtree (htree.lt_of_below hblock) (hback.trans hn)⟩

/-- Without what engine calls keep for later there are no cycles. With it the output is free of
cycles, and all walks through it end, exactly if no engine call lies in a block that it keeps. -/
theorem lift_cycleFree_iff (hlength : program.length ≤ 2 ^ 31)
    (hlift : lift program routines settings = some (.ok tree)) :
    (∀ n, ¬Relation.TransGen tree.Runs n n) ∧
    (tree.CycleFree ↔ ∀ n, tree.InOutput n → ¬tree.Reenters n) ∧
    (tree.CycleFree ↔ ∀ sub ∈ tree.order, tree.Grounded (tree.sub sub).root) := by
  refine ⟨lift_runs_acyclic hlength hlift, ⟨?_, ?_⟩, ?_, ?_⟩
  · intro hfree n hn hreenters
    exact hfree n hn hreenters.cycle
  · rintro hnone id ⟨sub, hsub, hid⟩ hcycle
    obtain ⟨n, hn, hreenters⟩ := exists_reenters_of_cycle hlength hlift hcycle
    exact hnone n ⟨sub, hsub, hid.trans hn⟩ hreenters
  · intro hfree sub hsub
    exact hfree.grounded (lift_closed hlift) hsub
  · exact Tree.cycleFree_of_grounded (lift_unnested hlift)

end Lifted

def delayRoutines : Routines :=
  { table := [(1, ⟨"DelayCommand", .void, [⟨.action, false⟩]⟩)] }

/-- Two states are saved, the second one to run a test and return. Behind the jump that follows it
the engine is called with a saved state. -/
def delayScript (jump branch : Int32) : Program := .ofList "" [
  { opcode := .storeState },
  { opcode := .jmp, jump := 8 },
  { opcode := .retn },
  { opcode := .storeState },
  { opcode := .jmp, jump },
  { opcode := .consti, value := some (.int 0) },
  { opcode := .jz, jump := branch },
  { opcode := .retn },
  { opcode := .action, routine := 1, arity := 1 },
  { opcode := .retn }
]

/-- Where the jump leads over the saved code, and the branch stays within it, there is no cycle. -/
theorem lift_cycleFree_delayScript : ∃ tree, (delayScript 20 6).length ≤ 2 ^ 31 ∧
    lift (delayScript 20 6) delayRoutines .strictly = some (.ok tree) ∧
    (∃ n, tree.kind n = .action ∧ ∃ block ∈ tree.below true n, tree.kind block = .block) ∧
    tree.CycleFree := by
  have hlength : (delayScript 20 6).length ≤ 2 ^ 31 := by decide +kernel
  obtain ⟨tree, hlift, hcond⟩ := exists_of_lift (delayScript 20 6) delayRoutines .strictly
    (fun tree => decide ((∃ i < tree.size, tree.kind ⟨i⟩ = .action ∧
      ∃ block ∈ tree.below true ⟨i⟩, tree.kind block = .block) ∧
        ∀ i < tree.size, ¬tree.Reenters ⟨i⟩)) (by decide +kernel)
  obtain ⟨⟨i, -, hkeeps⟩, hnone⟩ := of_decide_eq_true hcond
  refine ⟨tree, hlength, hlift, ⟨⟨i⟩, hkeeps⟩, (lift_cycleFree_iff hlength hlift).2.1.2 ?_⟩
  intro n _ hreenters
  exact hnone n.index (Tree.lt_size_of_kind_ne (by simp [hreenters.1])) hreenters

/-- Where the saved code runs at once, too, its branch leads to the call that keeps it. In the saved
code the call should keep the first state, but its block is used again, and that closes a cycle. -/
theorem not_forall_lift_cycleFree : ¬∀ (program : Program) (routines : Routines)
    (settings : LiftSettings) (tree : Tree), lift program routines settings = some (.ok tree) →
    tree.CycleFree := by
  intro h
  obtain ⟨tree, hlift, hcond⟩ := exists_of_lift (delayScript 6 8) delayRoutines .strictly
    (fun tree => decide (∃ sub ∈ tree.order, ∃ n ∈ tree.body sub, tree.Reenters n))
    (by decide +kernel)
  obtain ⟨sub, hsub, n, hn, hreenters⟩ := of_decide_eq_true hcond
  exact h _ _ _ tree hlift n ⟨sub, hsub, Tree.holds_of_mem_subtree hn⟩ hreenters.cycle

end ScriptLift
