import ScriptLift.Proofs.Dataflow.Coverage
import ScriptLift.Proofs.Reach

namespace ScriptLift.Tree

variable (tree : Tree) (routines : Routines)

def callee? (id : NodeId) : Option SubId :=
  match tree.node id with
  | .call callee _ => some callee
  | _ => none

def body (sub : SubId) : List NodeId := tree.subtree true (tree.sub sub).root

def callees (sub : SubId) : Finset SubId := ((tree.body sub).filterMap tree.callee?).toFinset

def Calls (caller callee : SubId) : Prop := callee ∈ tree.callees caller

/-- Whether the subroutine writes the slot, itself or through those it calls. -/
def WritesThrough (sub : SubId) (slot : NodeId) : Prop :=
  ∃ callee, Relation.ReflTransGen tree.Calls sub callee ∧
    ∃ n ∈ tree.body callee, tree.writes routines n slot

def widen (subs : Finset SubId) : Finset SubId := subs ∪ subs.biUnion tree.callees

/-- The subroutines that a call reaches. There are no more of them than call nodes, and itself. -/
def reached (sub : SubId) : Finset SubId := tree.widen^[tree.size + 1] {sub}

def writesThrough (sub : SubId) (slot : NodeId) : Bool :=
  decide (∃ callee ∈ tree.reached sub, ∃ n ∈ tree.body callee, tree.writes routines n slot)

variable {tree} {sub callee : SubId}

theorem mem_callees_iff : callee ∈ tree.callees sub ↔
    ∃ n ∈ tree.body sub, tree.callee? n = some callee := by
  simp [callees]

theorem lt_size_of_callee? {id : NodeId} (h : tree.callee? id = some callee) :
    id.index < tree.size := by
  apply lt_size_of_node_ne
  intro hnode
  simp [callee?, hnode] at h

theorem mem_reached_iff :
    callee ∈ tree.reached sub ↔ Relation.ReflTransGen tree.Calls sub callee := by
  let all : Finset SubId :=
    ((List.range tree.size).filterMap fun i => tree.callee? ⟨i⟩).toFinset
  have hall : all.card ≤ tree.size :=
    (List.toFinset_card_le _).trans ((List.length_filterMap_le _ _).trans_eq List.length_range)
  have hcallees : ∀ caller, tree.callees caller ⊆ all := by
    intro caller callee hcallee
    obtain ⟨n, -, hn⟩ := mem_callees_iff.1 hcallee
    rw [List.mem_toFinset, List.mem_filterMap]
    exact ⟨n.index, List.mem_range.2 (lt_size_of_callee? hn), hn⟩
  change callee ∈ (Reach.widen tree.callees)^[tree.size + 1] {sub} ↔ _
  exact Reach.mem_iterate_iff (Finset.mem_insert_self sub all)
    (fun caller _ => (hcallees caller).trans (Finset.subset_insert _ _))
    ((Finset.card_insert_le _ _).trans (by omega))

theorem writesThrough_iff {routines : Routines} {slot : NodeId} :
    tree.writesThrough routines sub slot ↔ tree.WritesThrough routines sub slot := by
  simp only [writesThrough, decide_eq_true_eq, mem_reached_iff, WritesThrough]

end ScriptLift.Tree
