import ScriptLift.Proofs.Tree.Cycles

/-! Levels of a tree.

A text is laid out level by level, from a node to its operands and from a block to its statements. Off
all cycles each step comes to fewer nodes, so there are no more levels than nodes. -/
namespace ScriptLift.Tree

variable (tree : Tree)

def lower (id : NodeId) : Finset NodeId :=
  (tree.below true id).toFinset.filter fun n => n.index < tree.size

def scope (id : NodeId) : Finset NodeId := (Reach.widen tree.lower)^[tree.size] {id}

/-- No more levels than this lie open from the node down. -/
def levels (id : NodeId) : Nat := (tree.scope id).card

variable {tree} {id n : NodeId}

theorem mem_lower : n ∈ tree.lower id ↔ tree.Holds id n ∧ n.index < tree.size := by
  rw [lower, Finset.mem_filter, List.mem_toFinset, Holds]

theorem lower_subset (id : NodeId) : tree.lower id ⊆ tree.handles :=
  fun _ hn => mem_handles.2 (mem_lower.1 hn).2

theorem levels_le (hid : id.index < tree.size) : tree.levels id ≤ tree.size :=
  (Finset.card_le_card (Reach.iterate_subset (mem_handles.2 hid) (fun x _ => lower_subset x) _)).trans
    card_handles_le

theorem levels_pos (id : NodeId) : 0 < tree.levels id := by
  have hself : ∀ steps, id ∈ (Reach.widen tree.lower)^[steps] {id} := by
    intro steps
    induction steps with
    | zero => simp
    | succ steps ih => exact Reach.subset_widen steps ih
  exact Finset.card_pos.2 ⟨id, hself _⟩

theorem levels_lt (hid : id.index < tree.size) (hn : tree.Holds id n) (hlt : n.index < tree.size)
    (hback : ¬Relation.ReflTransGen tree.Holds n id) : tree.levels n < tree.levels id :=
  Reach.card_iterate_lt (mem_handles.2 hid) (fun x _ => lower_subset x) card_handles_le
    (.single (mem_lower.2 ⟨hn, hlt⟩))
    fun h => hback (Relation.ReflTransGen.mono (fun _ _ hstep => (mem_lower.1 hstep).1) _ _ h)

theorem InOutput.levels_lt (h : tree.InOutput id) (hclosed : tree.Closed) (hfree : tree.CycleFree)
    (hn : tree.Holds id n) : tree.levels n < tree.levels id :=
  Tree.levels_lt (hclosed.lt_size h) hn (hclosed.below id n hn)
    fun hback => hfree id h (.head' hn hback)

end ScriptLift.Tree
