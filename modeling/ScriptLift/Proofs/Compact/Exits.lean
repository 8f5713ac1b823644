import ScriptLift.Proofs.Compact.Inlining

/-! Statements that may leave their block, and values that move over them.

A value with effects moves over no label and no other effect. It may move over a return or a goto:
whether it does is decided by the nodes of the statements in between, which compaction does not ask
for these two. -/
namespace ScriptLift

namespace Tree

variable (tree : Tree)

/-- What runs as part of a node. A block that an engine call takes is kept for later. -/
def Runs (id n : NodeId) : Prop :=
  n ∈ tree.below true id ∧ ¬(tree.kind id = .action ∧ tree.kind n = .block)

def isExit (id : NodeId) : Bool := tree.kind id = .ret || tree.kind id = .goto

/-- Running the node may end in a return or a goto. -/
def Leaves (id : NodeId) : Prop := ∃ n, Relation.ReflTransGen tree.Runs id n ∧ tree.isExit n

variable {tree} {id n : NodeId}

theorem self_mem_subtreeTo (depth : Nat) : id ∈ tree.subtreeTo true depth id := by
  cases depth <;> simp [subtreeTo]

theorem mem_subtreeTo_succ {depth : Nat} {top : NodeId} (h : id ∈ tree.subtreeTo true depth top)
    (hn : n ∈ tree.below true id) : n ∈ tree.subtreeTo true (depth + 1) top := by
  induction depth generalizing top with
  | zero =>
    obtain rfl : id = top := by simpa [subtreeTo] using h
    exact List.mem_cons_of_mem _ (List.mem_flatMap.2 ⟨n, hn, self_mem_subtreeTo 0⟩)
  | succ depth ih =>
    rcases List.mem_cons.1 h with rfl | h
    · exact List.mem_cons_of_mem _ (List.mem_flatMap.2 ⟨n, hn, self_mem_subtreeTo _⟩)
    · obtain ⟨child, hchild, h⟩ := List.mem_flatMap.1 h
      exact List.mem_cons_of_mem _ (List.mem_flatMap.2 ⟨child, hchild, ih h⟩)

theorem subtreeTo_subset_succ (depth : Nat) (top : NodeId) :
    tree.subtreeTo true depth top ⊆ tree.subtreeTo true (depth + 1) top := by
  induction depth generalizing top with
  | zero =>
    intro n hn
    obtain rfl : n = top := by simpa [subtreeTo] using hn
    exact self_mem_subtreeTo 1
  | succ depth ih =>
    intro n hn
    rcases List.mem_cons.1 hn with rfl | hn
    · exact List.mem_cons_self
    · obtain ⟨child, hchild, hn⟩ := List.mem_flatMap.1 hn
      exact List.mem_cons_of_mem _ (List.mem_flatMap.2 ⟨child, hchild, ih child hn⟩)

theorem mem_subtreeTo_of_mem_iterate {steps : Nat}
    (h : n ∈ (Reach.widen fun a => (tree.below true a).toFinset)^[steps] {id}) :
    n ∈ tree.subtreeTo true steps id := by
  induction steps generalizing n with
  | zero => simpa [subtreeTo] using h
  | succ steps ih =>
    rw [Function.iterate_succ_apply', Reach.widen, Finset.mem_union, Finset.mem_biUnion] at h
    rcases h with h | ⟨mid, hmid, hn⟩
    · exact subtreeTo_subset_succ steps id (ih h)
    · exact mem_subtreeTo_succ (ih hmid) (List.mem_toFinset.1 hn)

theorem WellFormed.lt_of_below (htree : tree.WellFormed) (h : n ∈ tree.below true id) :
    n.index < tree.size := by
  by_cases hkind : tree.kind id = .block
  · rw [below_of_kind_block hkind] at h
    exact (htree.statement h).lt
  · rw [below_of_kind_ne_block hkind] at h
    obtain ⟨operand, hoperand, rfl⟩ := List.mem_map.1 h
    exact (htree.operand hoperand).lt

theorem WellFormed.mem_subtree (htree : tree.WellFormed) (hid : id.index < tree.size)
    (h : Relation.ReflTransGen (fun a b => b ∈ tree.below true a) id n) :
    n ∈ tree.subtree true id := by
  have hmem : ∀ a : NodeId, a ∈ (Finset.range tree.size).image NodeId.mk ↔ a.index < tree.size := by
    intro a
    cases a
    simp
  apply mem_subtreeTo_of_mem_iterate
  refine (Reach.mem_iterate_iff ((hmem id).2 hid) (fun a _ b hb => (hmem b).2 ?_) ?_).2 ?_
  · exact htree.lt_of_below (List.mem_toFinset.1 hb)
  · exact Finset.card_image_le.trans_eq (Finset.card_range _)
  · exact Relation.ReflTransGen.mono (fun a b hb => List.mem_toFinset.2 hb) _ _ h

theorem runs_of_mem_subtreeTo {depth : Nat} (h : n ∈ tree.subtreeTo true depth id)
    (hcalls : ∀ m ∈ tree.subtreeTo true depth id, tree.kind m ≠ .action) :
    Relation.ReflTransGen tree.Runs id n := by
  induction depth generalizing id with
  | zero =>
    obtain rfl : n = id := by simpa [subtreeTo] using h
    exact .refl
  | succ depth ih =>
    rcases List.mem_cons.1 h with rfl | h
    · exact .refl
    · obtain ⟨child, hchild, h⟩ := List.mem_flatMap.1 h
      have hruns : tree.Runs id child :=
        ⟨hchild, fun hdefers => hcalls id List.mem_cons_self hdefers.1⟩
      refine .head hruns (ih h fun m hm => hcalls m ?_)
      exact List.mem_cons_of_mem _ (List.mem_flatMap.2 ⟨child, hchild, hm⟩)

theorem WellFormed.leaves_iff (htree : tree.WellFormed) (hid : id.index < tree.size)
    (hcalls : ∀ m ∈ tree.subtree true id, tree.kind m ≠ .action) :
    tree.Leaves id ↔ ∃ n ∈ tree.subtree true id, tree.isExit n := by
  constructor
  · rintro ⟨n, hruns, hexit⟩
    have hbelow := Relation.ReflTransGen.mono (fun a b (h : tree.Runs a b) => h.1) _ _ hruns
    exact ⟨n, htree.mem_subtree hid hbelow, hexit⟩
  · rintro ⟨n, hn, hexit⟩
    exact ⟨n, runs_of_mem_subtreeTo hn hcalls, hexit⟩

end Tree

namespace Draft.Firing

variable {settings : CompactSettings} {routines : Routines} {firing : Firing} {move : Inlining}

/-- No statement that the value moves over leaves the block. -/
def StaysInside (firing : Firing) (move : Inlining) : Prop :=
  ∀ statement ∈ firing.draft.between firing.block move, ¬firing.draft.tree.Leaves statement

def staysInside (firing : Firing) (move : Inlining) : Bool :=
  !(firing.crossed move).any firing.draft.tree.isExit

def hasEffect (firing : Firing) (move : Inlining) : Bool :=
  (firing.draft.tree.subtree true move.value).any firing.draft.tree.hasEffect

theorem staysInside_iff {tree : Tree} (htree : tree.WellFormed)
    (hfiring : firing ∈ firings settings routines tree)
    (hmove : firing.rewrite = .inlineValue move) (heffect : firing.hasEffect move) :
    firing.StaysInside move ↔ firing.staysInside move := by
  obtain ⟨-, hproper, -, -⟩ := admits_of_mem_firings htree hfiring
  obtain ⟨-, -, hcan⟩ := moves_of_mem_firings htree hfiring hmove
  have hleaves : ∀ statement ∈ firing.draft.between firing.block move,
      firing.draft.tree.Leaves statement ↔
        ∃ n ∈ firing.draft.tree.subtree true statement, firing.draft.tree.isExit n := by
    intro statement hstatement
    have hin := List.mem_of_mem_take (List.mem_of_mem_drop hstatement)
    refine hproper.tree.leaves_iff (hproper.tree.statement hin).lt fun m hm hkind => ?_
    have hnone := (canMove_eq_true hcan).2.1 heffect m
      (List.mem_flatMap.2 ⟨statement, hstatement, hm⟩)
    simp [Tree.hasEffect, hkind, Kind.isCall] at hnone
  simp only [staysInside, Bool.not_eq_true', List.any_eq_false, crossed, List.mem_flatMap]
  constructor
  · rintro h n ⟨statement, hstatement, hn⟩ hexit
    exact h statement hstatement ((hleaves statement hstatement).2 ⟨n, hn, hexit⟩)
  · intro h statement hstatement hleave
    obtain ⟨n, hn, hexit⟩ := (hleaves statement hstatement).1 hleave
    exact h n ⟨statement, hstatement, hn⟩ hexit

end Draft.Firing

/-- A value with effects that moves crosses no label and no effect. It stays in front of whatever
may leave the block exactly if no node that it crosses, at any depth, is a return or a goto, which
compaction does not look at. -/
theorem inlining_stays_inside_iff {program : Program} {routines : Routines}
    {lifting : LiftSettings} {settings : CompactSettings} {tree : Tree}
    (hlift : lift program routines lifting = some (.ok tree)) {firing : Draft.Firing}
    (hfiring : firing ∈ Draft.firings settings routines tree) {move : Inlining}
    (hmove : firing.rewrite = .inlineValue move) (heffect : firing.hasEffect move) :
    (∀ n ∈ firing.crossed move,
      firing.draft.tree.kind n ≠ .label ∧ firing.draft.tree.hasEffect n = false) ∧
    (firing.StaysInside move ↔ firing.staysInside move) := by
  have htree := lift_wellFormed hlift
  obtain ⟨-, -, hcan⟩ := Draft.Firing.moves_of_mem_firings htree hfiring hmove
  obtain ⟨hlabels, heffects, -⟩ := Draft.canMove_eq_true hcan
  exact ⟨fun n hn => ⟨hlabels n hn, heffects heffect n hn⟩,
    Draft.Firing.staysInside_iff htree hfiring hmove heffect⟩

/-- A number is drawn; a branch that is always taken returns before the number is printed. -/
def drawScript : Program := .ofList "" [
  { opcode := .jsr, jump := 8 },
  { opcode := .retn },
  { opcode := .action, routine := 2, arity := 0 },
  { opcode := .consti, value := some (.int 0) },
  { opcode := .jz, jump := 13 },
  { opcode := .action, routine := 1, arity := 1 },
  { opcode := .retn },
  { opcode := .movsp, stack := -4 },
  { opcode := .retn }
]

def drawRoutines : Routines :=
  { table := [(1, ⟨"PrintInteger", .void, [⟨.int, false⟩]⟩), (2, ⟨"Random", .int, []⟩)] }

/-- The draw moves over the branch. -/
theorem inlining_stays_inside_drawScript : ∃ tree firing move,
    lift drawScript drawRoutines .strictly = some (.ok tree) ∧
    firing ∈ Draft.firings {} drawRoutines tree ∧ firing.rewrite = .inlineValue move ∧
    firing.hasEffect move ∧ firing.crossed move ≠ [] ∧
    (∀ n ∈ firing.crossed move,
      firing.draft.tree.kind n ≠ .label ∧ firing.draft.tree.hasEffect n = false) ∧
    (firing.StaysInside move ↔ firing.staysInside move) := by
  obtain ⟨tree, firing, move, hlift, hfiring, hmove, hcond⟩ :=
    Draft.exists_of_someInlining drawScript drawRoutines .strictly {}
      (fun f m => f.hasEffect m ∧ f.crossed m ≠ []) (by decide +kernel)
  rw [decide_eq_true_eq] at hcond
  exact ⟨tree, firing, move, hlift, hfiring, hmove, hcond.1, hcond.2,
    inlining_stays_inside_iff hlift hfiring hmove hcond.1⟩

/-- Values with effects do move over statements that leave the block. -/
theorem not_forall_inlining_stays_inside : ¬∀ (program : Program) (routines : Routines)
    (lifting : LiftSettings) (settings : CompactSettings) (tree : Tree),
    lift program routines lifting = some (.ok tree) → ∀ firing ∈ Draft.firings settings routines tree,
      ∀ move, firing.rewrite = .inlineValue move → firing.hasEffect move →
        firing.StaysInside move := by
  intro h
  obtain ⟨tree, firing, move, hlift, hfiring, hmove, hcond⟩ :=
    Draft.exists_of_someInlining drawScript drawRoutines .strictly {}
      (fun f m => f.hasEffect m ∧ f.staysInside m = false) (by decide +kernel)
  rw [decide_eq_true_eq] at hcond
  have hstays := h _ _ _ _ tree hlift firing hfiring move hmove hcond.1
  rw [Draft.Firing.staysInside_iff (lift_wellFormed hlift) hfiring hmove hcond.1, hcond.2] at hstays
  cases hstays

end ScriptLift
