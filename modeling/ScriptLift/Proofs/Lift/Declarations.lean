import Mathlib.Algebra.BigOperators.Group.Finset.Piecewise
import Mathlib.Algebra.Order.BigOperators.Group.Finset
import ScriptLift.Proofs.Lift.Changes
import ScriptLift.Proofs.Lift.Deferral
import ScriptLift.Proofs.Lift.Ownership

/-! Declarations of slots.

A slot of a subroutine's own is made together with the statement that declares it: the slot itself,
or the assignment of its first value. Arguments are made without one, and no later statement declares
a slot. Words that become globals lose a declaration of their own when the globals are collected. -/
namespace ScriptLift

namespace Node

/-- The left side of an assignment, and whether the assignment declares it. -/
def assigns? : Node → Option (NodeId × Bool)
  | .binary .assign left _ declares => some (left, declares)
  | _ => none

variable {node : Node} {assigned : NodeId × Bool}

theorem eq_assign_of_assigns? (h : node.assigns? = some assigned) :
    ∃ right, node = .binary .assign assigned.1 right assigned.2 := by
  unfold assigns? at h
  split at h
  · cases h
    exact ⟨_, rfl⟩
  · cases h

theorem kind_of_assigns? (h : node.assigns? = some assigned) : node.kind = .binary .assign := by
  obtain ⟨right, rfl⟩ := eq_assign_of_assigns? h
  rfl

theorem assigns?_eq_none (h : node.kind ≠ .binary .assign) : node.assigns? = none :=
  Option.eq_none_iff_forall_not_mem.2 fun _ hassigns => h (kind_of_assigns? hassigns)

theorem assigns?_of_isPlain (h : node.isPlain) (left : NodeId) :
    node.assigns? ≠ some (left, true) := by
  intro hassigns
  obtain ⟨right, rfl⟩ := eq_assign_of_assigns? hassigns
  cases isDeclaration_of_isPlain h

end Node

namespace Tree

/-- The statement is the slot itself, or an assignment that declares it. -/
def declares (tree : Tree) (id s : NodeId) : Bool :=
  s = id || (tree.node s).assigns? = some (id, true)

def occurrences (tree : Tree) (blocks : Finset NodeId) (p : NodeId → Bool) : Nat :=
  ∑ block ∈ blocks, (tree.statements block).countP p

def declarations (tree : Tree) (blocks : Finset NodeId) (id : NodeId) : Nat :=
  tree.occurrences blocks (tree.declares id)

/-- Slots of a subroutine's own are declared once, except for one that waits for its declaration;
arguments are not declared, and no slot is declared twice. No assignment stands in two places. -/
structure DeclaresOnce (tree : Tree) (waiting : Option NodeId) : Prop where
  statement : ∀ block, ∀ s ∈ tree.statements block, s.index < tree.size
  target : ∀ s left, (tree.node s).assigns? = some (left, true) → left.index < tree.size
  own : ∀ id, tree.storage? id = some .own →
    tree.declarations tree.handles id = if waiting = some id then 0 else 1
  waits : ∀ id, waiting = some id → tree.storage? id = some .own
  argument : ∀ id, tree.storage? id = some .argument → tree.declarations tree.handles id = 0
  slot : ∀ id, tree.isSlot id → tree.declarations tree.handles id ≤ 1
  assignment : ∀ s, tree.kind s = .binary .assign → tree.occurrences tree.handles (· = s) ≤ 1

variable {tree new : Tree} {blocks : Finset NodeId} {p q : NodeId → Bool} {id s block : NodeId}
  {node : Node} {waiting : Option NodeId}

theorem declares_iff : tree.declares id s ↔ s = id ∨ (tree.node s).assigns? = some (id, true) := by
  simp [declares]

theorem occurrences_congr (h : ∀ block, ∀ s ∈ tree.statements block, p s = q s) :
    tree.occurrences blocks p = tree.occurrences blocks q :=
  Finset.sum_congr rfl fun block _ => List.countP_congr fun s hs => by rw [h block s hs]

theorem occurrences_of_statements_eq (h : ∀ block, new.statements block = tree.statements block) :
    new.occurrences blocks p = tree.occurrences blocks p :=
  Finset.sum_congr rfl fun block _ => by rw [h]

theorem occurrences_eq_zero (h : ∀ block, ∀ s ∈ tree.statements block, p s = false) :
    tree.occurrences blocks p = 0 := by
  refine Finset.sum_eq_zero fun block _ => List.countP_eq_zero.2 fun s hs => ?_
  simp [h block s hs]

theorem occurrences_le_handles (p : NodeId → Bool) :
    tree.occurrences blocks p ≤ tree.occurrences tree.handles p := by
  refine Finset.sum_le_sum_of_ne_zero fun block _ hne => mem_handles.2 ?_
  by_contra hle
  rw [statements, node_of_size_le (Nat.le_of_not_lt hle)] at hne
  exact hne rfl

theorem occurrences_le
    (h : ∀ block, (new.statements block).countP q ≤ (tree.statements block).countP p) :
    new.occurrences blocks q ≤ tree.occurrences tree.handles p :=
  (Finset.sum_le_sum fun block _ => h block).trans (occurrences_le_handles p)

theorem occurrences_of_size_le
    (h : ∀ block, ∀ t ∈ tree.statements block, t.index < tree.size) (hs : tree.size ≤ s.index) :
    tree.occurrences blocks (· = s) = 0 := by
  refine occurrences_eq_zero fun block t ht => ?_
  rw [decide_eq_false_iff_not]
  rintro rfl
  exact absurd (h block t ht) (Nat.not_lt.2 hs)

theorem handles_of_size_eq (h : new.size = tree.size) : new.handles = tree.handles := by
  rw [handles, handles, h]

theorem occurrences_alloc (offset : Nat)
    (hempty : ∀ statements, node = .block statements → statements = []) :
    (tree.alloc offset node).occurrences (tree.alloc offset node).handles p =
      tree.occurrences tree.handles p := by
  rw [occurrences_of_statements_eq fun _ => statements_alloc hempty]
  symm
  refine Finset.sum_subset (fun block hblock => ?_) fun block _ hnot => ?_
  · rw [mem_handles] at hblock ⊢
    rw [size_alloc]
    omega
  · rw [mem_handles, Nat.not_lt] at hnot
    rw [statements, node_of_size_le hnot]
    rfl

theorem occurrences_modifyStatements (hblock : tree.IsBlock block)
    (change : List NodeId → List NodeId) :
    (tree.modifyStatements block change).occurrences tree.handles p +
        (tree.statements block).countP p =
      tree.occurrences tree.handles p + (change (tree.statements block)).countP p := by
  have hrest : ∀ other ∈ tree.handles.erase block,
      ((tree.modifyStatements block change).statements other).countP p =
        (tree.statements other).countP p := fun other hother => by
    rw [statements_modifyStatements_of_ne _ (Finset.ne_of_mem_erase hother)]
  have hmem : block ∈ tree.handles := mem_handles.2 hblock.lt
  rw [occurrences, occurrences, ← Finset.sum_erase_add _ _ hmem, Finset.sum_congr rfl hrest,
    ← Finset.sum_erase_add _ (fun other => (tree.statements other).countP p) hmem,
    statements_modifyStatements_self _ hblock.kind hblock.lt]
  omega

theorem occurrences_pushStatement (hblock : tree.IsBlock block) (s : NodeId) :
    (tree.pushStatement block s).occurrences tree.handles p =
      tree.occurrences tree.handles p + if p s then 1 else 0 := by
  have hpush : (tree.pushStatement block s).occurrences tree.handles p + _ = _ :=
    occurrences_modifyStatements hblock (· ++ [s])
  rw [List.countP_append, List.countP_singleton] at hpush
  omega

theorem assigns?_modify {target : NodeId} {f : Node → Node}
    (h : (f (tree.node target)).assigns? = (tree.node target).assigns?) :
    ((tree.modify target f).node s).assigns? = (tree.node s).assigns? := by
  rcases node_modify_cases tree target s f with heq | ⟨rfl, -, heq⟩
  · rw [heq]
  · rw [heq, h]

theorem assigns?_modifyStatements (change : List NodeId → List NodeId) :
    ((tree.modifyStatements block change).node s).assigns? = (tree.node s).assigns? :=
  assigns?_modify (by cases tree.node block <;> rfl)

theorem assigns?_modifySlot (slot : NodeId) (f : Slot → Slot) :
    ((tree.modifySlot slot f).node s).assigns? = (tree.node s).assigns? :=
  assigns?_modify (by cases tree.node slot <;> rfl)

theorem declares_congr (h : (new.node s).assigns? = (tree.node s).assigns?) :
    new.declares id s = tree.declares id s := by
  rw [declares, declares, h]

theorem kind_of_assigns? {assigned : NodeId × Bool} (h : (tree.node s).assigns? = some assigned) :
    tree.kind s = .binary .assign :=
  Node.kind_of_assigns? h

namespace DeclaresOnce

theorem declarations_of_size_le (h : tree.DeclaresOnce waiting) (hid : tree.size ≤ id.index) :
    tree.declarations blocks id = 0 := by
  refine occurrences_eq_zero fun block s hs => ?_
  rw [Bool.eq_false_iff, ne_eq, declares_iff]
  rintro (rfl | hassigns)
  · exact absurd (h.statement block s hs) (Nat.not_lt.2 hid)
  · exact absurd (h.target s id hassigns) (Nat.not_lt.2 hid)

theorem declarations_alloc (h : tree.DeclaresOnce waiting) (offset : Nat)
    (hempty : ∀ statements, node = .block statements → statements = []) (id : NodeId) :
    (tree.alloc offset node).declarations (tree.alloc offset node).handles id =
      tree.declarations tree.handles id := by
  refine (occurrences_alloc offset hempty).trans (occurrences_congr fun block s hs => ?_)
  exact declares_congr (by rw [node_alloc_of_lt (h.statement block s hs)])

/-- A new node. If it is a slot of the subroutine's own, this waits for its declaration. -/
theorem alloc_of_waiting {waiting' : Option NodeId} (h : tree.DeclaresOnce waiting) (offset : Nat)
    (hempty : ∀ statements, node = .block statements → statements = [])
    (htarget : ∀ left, node.assigns? = some (left, true) → left.index < tree.size)
    (hwaiting : ∀ id, waiting' = some id ↔ waiting = some id ∨
      id = tree.nextId ∧ ∃ slot, node = .slot slot ∧ slot.storage = .own) :
    (tree.alloc offset node).DeclaresOnce waiting' := by
  have hstorage : (tree.alloc offset node).storage? tree.nextId = some .own ↔
      ∃ slot, node = .slot slot ∧ slot.storage = .own := by
    rw [storage?, slot?, node_alloc_nextId]
    cases node <;> simp
  have hwaits : ∀ id, waiting = some id → id.index < tree.size := by
    intro id hid
    exact lt_size_of_storage? (h.waits id hid)
  -- A node that is not there yet is the new one.
  have hnew : ∀ id : NodeId, ¬id.index < tree.size → (tree.alloc offset node).kind id ≠ .block →
      id = tree.nextId := fun id hnot hkind =>
    eq_nextId_of_alloc (Nat.le_of_not_lt hnot) (lt_size_of_kind_ne hkind)
  have hslot : ∀ {id storage}, (tree.alloc offset node).storage? id = some storage →
      (tree.alloc offset node).kind id ≠ .block := by
    intro id storage hid hkind
    rw [storage?_eq_none (by simp [hkind])] at hid
    cases hid
  refine ⟨fun block s hs => ?_, fun s left hs => ?_, fun id hid => ?_, fun id hid => ?_,
    fun id hid => ?_, fun id hid => ?_, fun s hs => ?_⟩
  · rw [statements_alloc hempty] at hs
    rw [size_alloc]
    exact Nat.lt_succ_of_lt (h.statement block s hs)
  · rw [size_alloc]
    by_cases hold : s.index < tree.size
    · rw [node_alloc_of_lt hold] at hs
      exact Nat.lt_succ_of_lt (h.target s left hs)
    · rw [hnew s hold (by simp [kind_of_assigns? hs]), node_alloc_nextId] at hs
      exact Nat.lt_succ_of_lt (htarget left hs)
  · rw [h.declarations_alloc offset hempty]
    by_cases hold : id.index < tree.size
    · have hne : id ≠ tree.nextId := by
        rintro rfl
        exact Nat.lt_irrefl _ hold
      rw [storage?_alloc_of_lt hold] at hid
      rw [h.own id hid]
      simp only [hwaiting id, hne, false_and, or_false]
    · rw [h.declarations_of_size_le (Nat.le_of_not_lt hold), if_pos]
      obtain rfl := hnew id hold (hslot hid)
      exact (hwaiting _).2 (.inr ⟨rfl, hstorage.1 hid⟩)
  · rcases (hwaiting id).1 hid with hid | ⟨rfl, hown⟩
    · rw [storage?_alloc_of_lt (hwaits id hid)]
      exact h.waits id hid
    · exact hstorage.2 hown
  · rw [h.declarations_alloc offset hempty]
    by_cases hold : id.index < tree.size
    · rw [storage?_alloc_of_lt hold] at hid
      exact h.argument id hid
    · exact h.declarations_of_size_le (Nat.le_of_not_lt hold)
  · rw [h.declarations_alloc offset hempty]
    by_cases hold : id.index < tree.size
    · rw [isSlot, slot?_alloc_of_lt hold] at hid
      exact h.slot id hid
    · rw [h.declarations_of_size_le (Nat.le_of_not_lt hold)]
      exact Nat.zero_le _
  · rw [occurrences_alloc offset hempty]
    by_cases hold : s.index < tree.size
    · rw [kind, node_alloc_of_lt hold] at hs
      exact h.assignment s hs
    · rw [occurrences_of_size_le h.statement (Nat.le_of_not_lt hold)]
      exact Nat.zero_le _

theorem alloc (h : tree.DeclaresOnce waiting) (offset : Nat)
    (hempty : ∀ statements, node = .block statements → statements = [])
    (htarget : ∀ left, node.assigns? = some (left, true) → left.index < tree.size)
    (hslot : ∀ slot, node = .slot slot → slot.storage ≠ .own) :
    (tree.alloc offset node).DeclaresOnce waiting := by
  refine h.alloc_of_waiting offset hempty htarget fun id => (or_iff_left ?_).symm
  rintro ⟨-, slot, hnode, hown⟩
  exact hslot slot hnode hown

theorem allocPlain (h : tree.DeclaresOnce waiting) (hplain : node.isPlain) (offset : Nat) :
    (tree.alloc offset node).DeclaresOnce waiting := by
  refine h.alloc offset
    (fun _ => Node.statements_eq_nil (Node.kind_ne_block_of_isPlain hplain))
    (fun left hleft => absurd hleft (Node.assigns?_of_isPlain hplain left)) ?_
  rintro _ rfl
  exact absurd rfl (Node.kind_ne_slot_of_isPlain hplain)

theorem allocSlot (h : tree.DeclaresOnce none) (offset : Nat) {slot : Slot}
    (hown : slot.storage = .own) :
    (tree.alloc offset (.slot slot)).DeclaresOnce (some tree.nextId) := by
  refine h.alloc_of_waiting offset (by simp) (by simp [Node.assigns?]) fun id => ?_
  simp [hown, eq_comm]

theorem of_assigns?_eq (h : tree.DeclaresOnce waiting) (hsize : new.size = tree.size)
    (hkind : ∀ id, new.kind id = tree.kind id)
    (hassigns : ∀ s, (new.node s).assigns? = (tree.node s).assigns?)
    (hstatements : ∀ block, new.statements block = tree.statements block)
    (hown : ∀ id, new.storage? id = some .own → tree.storage? id = some .own)
    (hwaits : ∀ id, waiting = some id → new.storage? id = some .own)
    (hargument : ∀ id, new.storage? id = some .argument → tree.storage? id = some .argument) :
    new.DeclaresOnce waiting := by
  have hdeclarations : ∀ id, new.declarations new.handles id =
      tree.declarations tree.handles id := by
    intro id
    rw [handles_of_size_eq hsize]
    exact (occurrences_of_statements_eq hstatements).trans
      (occurrences_congr fun _ _ _ => declares_congr (hassigns _))
  refine ⟨fun block s hs => ?_, fun s left hs => ?_, fun id hid => ?_, hwaits, fun id hid => ?_,
    fun id hid => ?_, fun s hs => ?_⟩
  · rw [hstatements] at hs
    rw [hsize]
    exact h.statement block s hs
  · rw [hassigns] at hs
    rw [hsize]
    exact h.target s left hs
  · rw [hdeclarations, h.own id (hown id hid)]
  · rw [hdeclarations, h.argument id (hargument id hid)]
  · rw [isSlot_iff_kind, hkind, ← isSlot_iff_kind] at hid
    rw [hdeclarations]
    exact h.slot id hid
  · rw [hkind] at hs
    rw [handles_of_size_eq hsize, occurrences_of_statements_eq hstatements]
    exact h.assignment s hs

theorem of_exprs_eq (h : tree.DeclaresOnce waiting) (heq : new.exprs = tree.exprs) :
    new.DeclaresOnce waiting := by
  have hnode : ∀ id, new.node id = tree.node id := fun _ => by rw [node_of_exprs_eq heq]
  have hstorage : ∀ id, new.storage? id = tree.storage? id := fun _ => by
    rw [storage?, slot?_of_exprs_eq heq, ← storage?]
  refine h.of_assigns?_eq (by rw [size, heq, ← size]) (fun id => by rw [kind, hnode, ← kind])
    (fun s => by rw [hnode]) (fun block => statements_of_exprs_eq heq)
    (fun id hid => by rwa [← hstorage]) (fun id hid => ?_) fun id hid => by rwa [← hstorage]
  rw [hstorage]
  exact h.waits id hid

theorem modifySlot (h : tree.DeclaresOnce none) (slot : NodeId) {f : Slot → Slot}
    (hf : ∀ s, (f s).storage = s.storage ∨ (f s).storage = .global) :
    (tree.modifySlot slot f).DeclaresOnce none := by
  have hstorage : ∀ {id storage}, (tree.modifySlot slot f).storage? id = some storage →
      storage ≠ .global → tree.storage? id = some storage := by
    intro id storage hid hne
    rcases storage?_modifySlot slot f with heq | ⟨s, hs, heq⟩
    · rwa [← heq]
    · cases heq.symm.trans hid
      rw [storage?, hs, Option.map_some, (hf s).resolve_right hne]
  exact h.of_assigns?_eq (size_modifySlot _) (fun id => kind_modifySlot _)
    (fun s => assigns?_modifySlot slot f) (fun block => statements_modifySlot _)
    (fun id hid => hstorage hid (by simp)) (by simp) fun id hid => hstorage hid (by simp)

/-- A new statement of a block. It declares what waits for a declaration, and nothing else. -/
theorem pushStatement (h : tree.DeclaresOnce waiting) (hblock : tree.IsBlock block)
    (hs : s.index < tree.size)
    (hnew : tree.kind s = .binary .assign → tree.occurrences tree.handles (· = s) = 0)
    (hdeclares : ∀ id, tree.isSlot id → (tree.declares id s ↔ waiting = some id)) :
    (tree.pushStatement block s).DeclaresOnce none := by
  have hsize : (tree.pushStatement block s).size = tree.size := size_pushStatement
  have hisSlot : ∀ {id}, (tree.pushStatement block s).isSlot id → tree.isSlot id := by
    intro id hid
    rwa [isSlot_iff_kind, Tree.pushStatement, kind_modifyStatements, ← isSlot_iff_kind] at hid
  have hdeclarations : ∀ {id}, (tree.pushStatement block s).isSlot id →
      (tree.pushStatement block s).declarations (tree.pushStatement block s).handles id =
        tree.declarations tree.handles id + if waiting = some id then 1 else 0 := by
    intro id hid
    rw [handles_of_size_eq hsize]
    refine (occurrences_congr fun _ _ _ => declares_congr (assigns?_modifyStatements _)).trans ?_
    rw [occurrences_pushStatement hblock]
    simp only [hdeclares id (hisSlot hid)]
    rfl
  have hslot : ∀ {id storage}, (tree.pushStatement block s).storage? id = some storage →
      (tree.pushStatement block s).isSlot id := by
    intro id storage hid
    exact isSlot_iff_kind.2 (kind_of_storage? hid)
  refine ⟨fun other t ht => ?_, fun t left ht => ?_, fun id hid => ?_, by simp, fun id hid => ?_,
    fun id hid => ?_, fun t ht => ?_⟩
  · rw [hsize]
    rcases mem_statements_pushStatement ht with ht | rfl
    · exact h.statement other t ht
    · exact hs
  · rw [Tree.pushStatement, assigns?_modifyStatements] at ht
    rw [hsize]
    exact h.target t left ht
  · have hold : tree.storage? id = some .own := by rwa [← storage?_pushStatement]
    rw [hdeclarations (hslot hid), h.own id hold]
    split <;> simp
  · have hold : tree.storage? id = some .argument := by rwa [← storage?_pushStatement]
    rw [hdeclarations (hslot hid), h.argument id hold, if_neg]
    intro hwaiting
    cases hold.symm.trans (h.waits id hwaiting)
  · rw [hdeclarations hid]
    split
    · next hwaiting => rw [h.own id (h.waits id hwaiting), if_pos hwaiting]
    · exact h.slot id (hisSlot hid)
  · rw [handles_of_size_eq hsize, occurrences_pushStatement hblock]
    rw [Tree.pushStatement, kind_modifyStatements] at ht
    by_cases heq : s = t
    · subst heq
      rw [hnew ht]
      simp
    · simpa [heq] using h.assignment t ht

theorem record (h : tree.DeclaresOnce waiting) (hblock : tree.IsBlock block) (offset : Nat)
    (hslot : node.kind ≠ .slot) (hkind : node.kind ≠ .block)
    (hassigns : ∀ left, node.assigns? = some (left, true) ↔ waiting = some left) :
    ((tree.alloc offset node).pushStatement block tree.nextId).DeclaresOnce none := by
  have hempty : ∀ statements, node = .block statements → statements = [] := fun _ =>
    Node.statements_eq_nil hkind
  have halloc : (tree.alloc offset node).DeclaresOnce waiting := by
    refine h.alloc offset hempty (fun left hleft => ?_) (by rintro _ rfl; exact absurd rfl hslot)
    exact lt_size_of_storage? (h.waits left ((hassigns left).1 hleft))
  refine halloc.pushStatement (hblock.mono (.alloc _ _ _)) (by simp) (fun _ => ?_)
    fun id hid => ?_
  · rw [occurrences_alloc offset hempty]
    exact occurrences_of_size_le h.statement (Nat.le_refl _)
  · rw [declares_iff, node_alloc_nextId, hassigns, or_iff_right]
    rintro rfl
    rw [isSlot_iff_kind, kind, node_alloc_nextId] at hid
    exact hslot hid

theorem reserve (h : tree.DeclaresOnce none) (hblock : tree.IsBlock block) (offset : Nat)
    {slot : Slot} (hown : slot.storage = .own) :
    ((tree.alloc offset (.slot slot)).pushStatement block tree.nextId).DeclaresOnce none := by
  refine (h.allocSlot offset hown).pushStatement (hblock.mono (.alloc _ _ _)) (by simp)
    (fun hkind => ?_) fun id _ => ?_
  · rw [kind, node_alloc_nextId] at hkind
    cases hkind
  · rw [declares_iff, node_alloc_nextId]
    simp [Node.assigns?]

end DeclaresOnce

end Tree

namespace Site

open Lift

variable {site : Site} {script : Script} {ws ws' : Workspace}

theorem Change.declaresOnce (h : site.Change script ws ws') (hin : site.InTree script ws.tree)
    (hws : ws.tree.DeclaresOnce none) : ws'.tree.DeclaresOnce none := by
  cases h with
  | make hplain =>
    exact hws.allocPlain hplain _
  | record hplain =>
    exact hws.record hin.block _ (Node.kind_ne_slot_of_isPlain hplain)
      (Node.kind_ne_block_of_isPlain hplain)
      fun left => by simp [Node.assigns?_of_isPlain hplain left]
  | label hlabel =>
    obtain ⟨hlt, hkind⟩ := hin.label _ _ hlabel
    refine hws.pushStatement hin.block hlt (by simp [hkind]) fun id hid => ?_
    refine iff_of_false (fun hdeclares => ?_) (by simp)
    rcases Tree.declares_iff.1 hdeclares with rfl | hassigns
    · cases hkind.symm.trans (Tree.isSlot_iff_kind.1 hid)
    · cases hkind.symm.trans (Tree.kind_of_assigns? hassigns)
  | @fork label =>
    have hblock : (ws.tree.alloc site.ins.offset (.block [])).DeclaresOnce none :=
      hws.alloc _ (by simp) (by simp [Node.assigns?]) (by simp)
    exact hblock.record (Tree.isBlock_alloc rfl) _ (by simp [Node.kind]) (by simp [Node.kind])
      (by simp [Node.assigns?])
  | schedule => exact hws.alloc _ (by simp) (by simp [Node.assigns?]) (by simp)
  | reserve hown => exact hws.reserve hin.block _ hown
  | @declare slot made value hown hmade =>
    have hslot := hws.allocSlot site.ins.offset hown
    have hblock := hin.block.mono (.alloc _ site.ins.offset (.slot slot))
    cases made with
    | none =>
      exact hslot.record hblock _ (by simp [Node.kind]) (by simp [Node.kind])
        (by simp [Node.assigns?])
    | some node =>
      have hplain : node.isPlain := hmade node rfl
      exact (hslot.allocPlain hplain _).record (hblock.mono (.alloc _ _ _)) _
        (by simp [Node.kind]) (by simp [Node.kind]) (by simp [Node.assigns?])
  | push | context => exact hws
  | mark | retype => exact hws.modifySlot _ fun _ => .inl rfl
  | promote => exact hws.modifySlot _ fun _ => .inr rfl
  | argument =>
    exact hws.alloc _ (by simp) (by simp [Node.assigns?]) (by rintro _ ⟨⟩; simp [Slot.mark])
  | warn => exact hws.of_exprs_eq rfl

theorem visit_declaresOnce (site : Site) (script : Script) (callees : List (Nat × SubId))
    (hin : site.InTree script ws.tree) (h : ws.tree.DeclaresOnce none) :
    (left (site.visit script callees ws)).tree.DeclaresOnce none := by
  refine (visit_induction
    (P := fun ws => site.InTree script ws.tree ∧ ws.tree.DeclaresOnce none)
    (fun hchange hmid => ⟨hmid.1.grows hchange.grows, hchange.declaresOnce hmid.1 hmid.2⟩) ?_
    ⟨hin, h⟩).2
  intro mid node hleaves hmid
  refine ⟨hmid.1.grows (.record _ _ _ _ _), hmid.2.record hmid.1.block _ ?_ ?_ fun left => ?_⟩ <;>
    cases node <;> simp_all [Node.leaves, Node.kind, Node.assigns?]

end Site

namespace Lift

variable {program : Program} {routines : Routines} {settings : LiftSettings} {count : Nat}
  {m : Machine}

/-- Labels and empty blocks declare nothing. -/
theorem start_declaresOnce (program : Program) :
    (start (labels program).1).tree.DeclaresOnce none := by
  have hnode := start_node program
  have hstatements : ∀ block, (start (labels program).1).tree.statements block = [] := by
    intro block
    unfold Tree.statements
    rcases hnode block with heq | heq <;> rw [heq]
  have hkind : ∀ id, (start (labels program).1).tree.kind id = .label ∨
      (start (labels program).1).tree.kind id = .block := by
    intro id
    unfold Tree.kind
    rcases hnode id with heq | heq <;> simp [heq, Node.kind]
  have hstorage : ∀ id, (start (labels program).1).tree.storage? id = none := fun id =>
    Tree.storage?_eq_none fun hslot => by rcases hkind id with h | h <;> cases h.symm.trans hslot
  refine ⟨fun block s hs => ?_, fun s left hs => ?_, fun id hid => ?_, by simp, fun id hid => ?_,
    fun id hid => ?_, fun s hs => ?_⟩
  · simp [hstatements] at hs
  · rcases hkind s with h | h <;> cases h.symm.trans (Tree.kind_of_assigns? hs)
  · simp [hstorage] at hid
  · simp [hstorage] at hid
  · rcases hkind id with h | h <;> cases h.symm.trans (Tree.isSlot_iff_kind.1 hid)
  · rcases hkind s with h | h <;> cases h.symm.trans hs

theorem stage_declaresOnce (h : stage program routines settings count = some m) :
    m.tree.DeclaresOnce none := by
  refine stage_induction (P := fun _ m => m.tree.DeclaresOnce none) (start_declaresOnce program)
    (fun hstep hm => ?_) h
  cases hstep.turn with
  | ended _ _ htree => exact hm.of_exprs_eq htree
  | shifted _ _ _ _ htree => exact hm.of_exprs_eq htree
  | visited hvisit _ _ _ htree =>
    exact (Site.visit_declaresOnce _ _ _ (visit_inTree hstep.before hvisit) hm).of_exprs_eq htree
  | entered _ _ _ _ htree =>
    exact (hm.alloc _ (by simp) (by simp [Node.assigns?]) (by simp)).of_exprs_eq htree

end Lift

namespace Tree

variable {tree : Tree} {blocks : Finset NodeId}

/-- Statements that are dropped are globals: no own slot loses its declaration. -/
theorem DeclaresOnce.complete (h : tree.DeclaresOnce none) :
    (Lift.complete tree).DeclaresOnce none := by
  have hsize : (Lift.complete tree).size = tree.size := Lift.size_complete tree
  have hkind : ∀ id, (Lift.complete tree).kind id = tree.kind id := fun id =>
    (Lift.node_complete tree id).2.1
  have hstorage : ∀ id, (Lift.complete tree).storage? id = tree.storage? id := fun id => by
    rw [storage?, Lift.slot?_complete, ← storage?]
  have hassigns : ∀ s, ((Lift.complete tree).node s).assigns? = (tree.node s).assigns? := by
    intro s
    by_cases hblock : tree.kind s = .block
    · have hnone : ∀ {old : Tree}, old.kind s = .block → (old.node s).assigns? = none :=
        fun hold => Node.assigns?_eq_none fun hassign => by cases hold.symm.trans hassign
      rw [hnone hblock, hnone ((hkind s).trans hblock)]
    · rw [(Lift.node_complete tree s).2.2 hblock]
  have hfewer : ∀ {blocks p}, (Lift.complete tree).occurrences blocks p ≤
      tree.occurrences tree.handles p := by
    intro blocks p
    refine occurrences_le fun block => ?_
    obtain ⟨q, -, hkept⟩ := Lift.statements_complete tree block
    rw [hkept]
    exact List.filter_sublist.countP_le
  have hdeclares : ∀ id, (Lift.complete tree).declares id = tree.declares id := fun id =>
    funext fun s => declares_congr (hassigns s)
  have hle : ∀ id, (Lift.complete tree).declarations (Lift.complete tree).handles id ≤
      tree.declarations tree.handles id := by
    intro id
    rw [declarations, hdeclares]
    exact hfewer
  refine ⟨fun block s hs => ?_, fun s left hs => ?_, fun id hid => ?_, by simp, fun id hid => ?_,
    fun id hid => ?_, fun s hs => ?_⟩
  · obtain ⟨q, -, hkept⟩ := Lift.statements_complete tree block
    rw [hkept] at hs
    rw [hsize]
    exact h.statement block s (List.mem_filter.1 hs).1
  · rw [hassigns] at hs
    rw [hsize]
    exact h.target s left hs
  · rw [hstorage] at hid
    refine Eq.trans ?_ (h.own id hid)
    rw [declarations, hdeclares, handles_of_size_eq hsize]
    refine Finset.sum_congr rfl fun block _ => ?_
    obtain ⟨q, hq, hkept⟩ := Lift.statements_complete tree block
    rw [hkept, List.countP_filter]
    refine List.countP_congr fun s _ => ?_
    -- What declares an own slot is no global itself.
    have hs : tree.declares id s → q s := by
      intro hdeclare
      refine hq s ?_
      rcases declares_iff.1 hdeclare with rfl | hassigns
      · simp [hid]
      · have hnone : tree.storage? s = none := storage?_eq_none (by simp [kind_of_assigns? hassigns])
        simp [hnone]
    simpa using hs
  · rw [hstorage] at hid
    exact Nat.le_zero.1 ((hle id).trans (h.argument id hid).le)
  · rw [isSlot_iff_kind, hkind, ← isSlot_iff_kind] at hid
    exact (hle id).trans (h.slot id hid)
  · rw [hkind] at hs
    exact hfewer.trans (h.assignment s hs)

end Tree

end ScriptLift
