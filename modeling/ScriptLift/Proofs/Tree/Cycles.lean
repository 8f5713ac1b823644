import ScriptLift.Proofs.Dataflow.Coverage
import ScriptLift.Proofs.Reach

/-! Cycles through the nodes of a tree.

A node holds its operands, and a block its statements. Compaction walks through the output along
these, except that it opens a block where it is an operand and not where it is a statement. What can
be reached by such walks shrinks from a node to those below it, unless it lies on a cycle. -/
namespace ScriptLift

namespace Tree

variable (tree : Tree)

/-- The second node is an operand of the first, or one of its statements. -/
def Holds (a b : NodeId) : Prop := b ∈ tree.below true a

/-- The node can be reached from a subroutine of the output. -/
def InOutput (id : NodeId) : Prop :=
  ∃ sub ∈ tree.order, Relation.ReflTransGen tree.Holds (tree.sub sub).root id

/-- No cycle goes through a node of the output. -/
def CycleFree : Prop := ∀ id, tree.InOutput id → ¬Relation.TransGen tree.Holds id id

/-- All handles lead to nodes of the tree. -/
structure Closed : Prop where
  below : ∀ id, ∀ n ∈ tree.below true id, n.index < tree.size
  root : ∀ sub ∈ tree.order, (tree.sub sub).root.index < tree.size

instance : Decidable tree.Closed :=
  decidable_of_iff ((∀ i < tree.size, ∀ n ∈ tree.below true ⟨i⟩, n.index < tree.size) ∧
      ∀ sub ∈ tree.order, (tree.sub sub).root.index < tree.size) <| by
    refine ⟨fun h => ⟨fun id n hn => ?_, h.2⟩, fun h => ⟨fun i _ => h.below ⟨i⟩, h.root⟩⟩
    by_cases hid : id.index < tree.size
    · exact h.1 id.index hid n hn
    · rw [below, node_of_size_le (Nat.le_of_not_lt hid)] at hn
      cases hn

/-- No block stands as a statement. -/
def Unnested : Prop := ∀ block, ∀ s ∈ tree.statements block, tree.kind s ≠ .block

instance : Decidable tree.Unnested :=
  decidable_of_iff (∀ i < tree.size, ∀ s ∈ tree.statements ⟨i⟩, tree.kind s ≠ .block) <| by
    refine ⟨fun h id s hs => ?_, fun h i _ => h ⟨i⟩⟩
    by_cases hid : id.index < tree.size
    · exact h id.index hid s hs
    · rw [statements, node_of_size_le (Nat.le_of_not_lt hid)] at hs
      cases hs

def descents (id : NodeId) : List NodeId :=
  (tree.below true id).filter fun n => tree.kind id ≠ .block ∨ tree.kind n ≠ .block

def Descends (a b : NodeId) : Prop := b ∈ tree.descents a

/-- Every walk from the node ends. -/
def Grounded (id : NodeId) : Prop := Acc (Function.swap tree.Descends) id

def handles : Finset NodeId := (Finset.range tree.size).image NodeId.mk

def reach (id : NodeId) : Finset NodeId :=
  (Reach.widen fun a => (tree.descents a).toFinset)^[tree.size] {id}

/-- How many nodes walks from a node can come to, besides itself. -/
def rank (id : NodeId) : Nat := (tree.reach id).card - 1

variable {tree} {id n : NodeId}

theorem mem_descents : n ∈ tree.descents id ↔
    n ∈ tree.below true id ∧ (tree.kind id ≠ .block ∨ tree.kind n ≠ .block) := by
  simp [descents]

theorem Descends.holds (h : tree.Descends id n) : tree.Holds id n := (mem_descents.1 h).1

theorem kind_of_statement {s : NodeId} (h : s ∈ tree.statements id) : tree.kind id = .block := by
  unfold statements at h
  unfold Tree.kind
  cases hnode : tree.node id <;> simp_all [Node.kind]

theorem mem_handles : n ∈ tree.handles ↔ n.index < tree.size := by
  cases n
  simp [handles]

theorem card_handles_le : tree.handles.card ≤ tree.size :=
  Finset.card_image_le.trans_eq (Finset.card_range _)

theorem Unnested.descends_iff (h : tree.Unnested) : tree.Descends id n ↔ tree.Holds id n := by
  refine ⟨Descends.holds, fun hn => mem_descents.2 ⟨hn, ?_⟩⟩
  by_cases hkind : tree.kind id = .block
  · rw [Holds, below_of_kind_block hkind] at hn
    exact .inr (h id n hn)
  · exact .inl hkind

theorem Closed.lt_size (h : tree.Closed) (hid : tree.InOutput id) : id.index < tree.size := by
  obtain ⟨sub, hsub, hreach⟩ := hid
  cases hreach with
  | refl => exact h.root sub hsub
  | tail _ hstep => exact h.below _ _ hstep

theorem CycleFree.acc_of_inOutput (h : tree.CycleFree) (hclosed : tree.Closed)
    (hid : tree.InOutput id) : Acc (Function.swap tree.Holds) id := by
  have hlt := hclosed.lt_size hid
  have hholds : (fun x y => y ∈ (tree.below true x).toFinset) = tree.Holds := by
    funext x y
    exact propext List.mem_toFinset
  obtain ⟨sub, hsub, hroot⟩ := hid
  have hacc := @Reach.acc_of_acyclic _ _ (fun a => (tree.below true a).toFinset) _ _
    (mem_handles.2 hlt) (fun x _ y hy => mem_handles.2 (hclosed.below x y (List.mem_toFinset.1 hy)))
  rw [hholds] at hacc
  exact hacc fun x hx => h x ⟨sub, hsub, hroot.trans hx⟩

theorem CycleFree.grounded_of_inOutput (h : tree.CycleFree) (hclosed : tree.Closed)
    (hid : tree.InOutput id) : tree.Grounded id :=
  Subrelation.accessible (fun hstep => Descends.holds hstep) (h.acc_of_inOutput hclosed hid)

theorem CycleFree.grounded (h : tree.CycleFree) (hclosed : tree.Closed) {sub : SubId}
    (hsub : sub ∈ tree.order) : tree.Grounded (tree.sub sub).root :=
  h.grounded_of_inOutput hclosed ⟨sub, hsub, .refl⟩

theorem cycleFree_of_grounded (hnested : tree.Unnested)
    (h : ∀ sub ∈ tree.order, tree.Grounded (tree.sub sub).root) : tree.CycleFree := by
  rintro id ⟨sub, hsub, hid⟩ hcycle
  have hdescends : ∀ a b, tree.Holds a b → tree.Descends a b := fun a b => hnested.descends_iff.2
  have hroot := Relation.ReflTransGen.mono hdescends _ _ hid
  exact Reach.not_cycle_of_acc (Reach.acc_of_reaches (h sub hsub) hroot)
    (Relation.TransGen.mono hdescends _ _ hcycle)

section Shrink

variable {new : Tree} (hexprs : new.exprs = tree.exprs)
include hexprs

theorem node_of_exprs_eq : new.node = tree.node := by
  funext id
  rw [node, node, get, get, get?, get?, hexprs]

theorem below_of_exprs_eq : new.below = tree.below := by
  funext descend id
  rw [below, below, node_of_exprs_eq hexprs]

theorem Unnested.of_exprs_eq (h : tree.Unnested) : new.Unnested := by
  intro block s hs
  rw [statements, node_of_exprs_eq hexprs] at hs
  rw [Tree.kind, node_of_exprs_eq hexprs]
  exact h block s hs

variable (hsubs : new.subroutines = tree.subroutines) (horder : new.order ⊆ tree.order)
include hsubs horder

theorem Closed.shrink (h : tree.Closed) : new.Closed where
  below id n hn := by
    rw [below_of_exprs_eq hexprs] at hn
    rw [size, hexprs]
    exact h.below id n hn
  root sub hsub := by
    rw [Tree.sub, hsubs, size, hexprs]
    exact h.root sub (horder hsub)

theorem CycleFree.shrink (h : tree.CycleFree) : new.CycleFree := by
  have hholds : new.Holds = tree.Holds := by
    funext a b
    rw [Holds, Holds, below_of_exprs_eq hexprs]
  rintro id ⟨sub, hsub, hid⟩
  rw [hholds] at hid ⊢
  refine h id ⟨sub, horder hsub, ?_⟩
  rw [Tree.sub, hsubs, size, hexprs] at hid
  exact hid

end Shrink

theorem Closed.descent (h : tree.Closed) (hn : tree.Descends id n) : n.index < tree.size :=
  h.below id n hn.holds

theorem Closed.descents_subset (h : tree.Closed) :
    ∀ x ∈ tree.handles, (tree.descents x).toFinset ⊆ tree.handles :=
  fun _ _ _ hy => mem_handles.2 (h.descent (List.mem_toFinset.1 hy))

theorem Closed.mem_reach (h : tree.Closed) (hid : id.index < tree.size) :
    n ∈ tree.reach id ↔ Relation.ReflTransGen tree.Descends id n := by
  have hiff := Reach.mem_iterate_iff (b := n) (mem_handles.2 hid) h.descents_subset
    card_handles_le
  refine hiff.trans ⟨?_, ?_⟩
  · exact Relation.ReflTransGen.mono (fun a b hb => List.mem_toFinset.1 hb) _ _
  · exact Relation.ReflTransGen.mono (fun a b hb => List.mem_toFinset.2 hb) _ _

theorem self_mem_reach : id ∈ tree.reach id := by
  have hself : ∀ steps, id ∈ (Reach.widen fun a => (tree.descents a).toFinset)^[steps] {id} := by
    intro steps
    induction steps with
    | zero => simp
    | succ steps ih => exact Reach.subset_widen steps ih
  exact hself tree.size

theorem Closed.rank_lt (h : tree.Closed) (hid : id.index < tree.size) (hground : tree.Grounded id)
    (hn : Relation.TransGen tree.Descends id n) : tree.rank n < tree.rank id := by
  have hback : ¬Relation.ReflTransGen tree.Descends n id :=
    fun hback => Reach.not_cycle_of_acc hground (hn.trans_left hback)
  have hless : (tree.reach n).card < (tree.reach id).card := by
    refine Reach.card_iterate_lt (mem_handles.2 hid) h.descents_subset card_handles_le ?_ ?_
    · exact Relation.ReflTransGen.mono (fun a b hb => List.mem_toFinset.2 hb) _ _
        hn.to_reflTransGen
    · exact fun hreach => hback
        (Relation.ReflTransGen.mono (fun a b hb => List.mem_toFinset.1 hb) _ _ hreach)
  have hpos : 0 < (tree.reach n).card := Finset.card_pos.2 ⟨n, self_mem_reach⟩
  unfold rank
  omega

theorem Closed.rank_le (h : tree.Closed) (hid : id.index < tree.size) :
    tree.rank id ≤ tree.size := by
  have hsub : tree.reach id ⊆ tree.handles :=
    Reach.iterate_subset (mem_handles.2 hid) h.descents_subset tree.size
  have hcard := (Finset.card_le_card hsub).trans card_handles_le
  unfold rank
  omega

theorem Closed.rank_of_slot (h : tree.Closed) (hslot : tree.kind id = .slot) : tree.rank id = 0 := by
  have hid : id.index < tree.size := lt_size_of_kind_ne (by simp [hslot])
  have hself : tree.reach id ⊆ {id} := by
    intro n hn
    rcases Relation.ReflTransGen.cases_head ((h.mem_reach hid).1 hn) with rfl | ⟨m, hm, -⟩
    · exact Finset.mem_singleton_self _
    · have hnone := hm.holds
      rw [Holds, below_of_kind_slot hslot] at hnone
      cases hnone
  have hcard := Finset.card_le_card hself
  rw [Finset.card_singleton] at hcard
  unfold rank
  omega

theorem Closed.rank_mono {new : Tree} (h : tree.Closed) (hnew : new.Closed)
    (hsize : new.size = tree.size)
    (hshorter : ∀ a b, new.Descends a b → Relation.TransGen tree.Descends a b)
    (hid : id.index < tree.size) : new.rank id ≤ tree.rank id := by
  have hsub : new.reach id ⊆ tree.reach id := by
    intro n hn
    rw [hnew.mem_reach (hsize ▸ hid)] at hn
    rw [h.mem_reach hid]
    induction hn with
    | refl => exact .refl
    | tail _ hstep ih => exact ih.trans (hshorter _ _ hstep).to_reflTransGen
  have hcard := Finset.card_le_card hsub
  unfold rank
  omega

end Tree

end ScriptLift
