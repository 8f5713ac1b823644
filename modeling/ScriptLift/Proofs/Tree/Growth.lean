import ScriptLift.Tree

namespace ScriptLift

namespace Tree

variable {tree : Tree} {id other : NodeId} {node : Node} {offset : Nat}

theorem get_of_size_le (h : tree.size ≤ id.index) : tree.get id = ⟨0, .block []⟩ := by
  have hget : tree.get? id = none := by simpa [get?, size] using h
  simp [get, hget]

theorem node_of_size_le (h : tree.size ≤ id.index) : tree.node id = .block [] := by
  rw [node, get_of_size_le h]

theorem lt_size_of_node_ne (h : tree.node id ≠ .block []) : id.index < tree.size := by
  by_cases hlt : id.index < tree.size
  · exact hlt
  · exact absurd (node_of_size_le (Nat.le_of_not_lt hlt)) h

theorem lt_size_of_isSlot (h : tree.isSlot id) : id.index < tree.size := by
  apply lt_size_of_node_ne
  intro hblock
  simp [isSlot, slot?, hblock] at h

theorem node_of_isSlot (h : tree.isSlot id) : ∃ slot, tree.node id = .slot slot := by
  unfold isSlot slot? at h
  split at h
  · next slot hnode => exact ⟨slot, hnode⟩
  · simp at h

theorem isSlot_of_node {slot : Slot} (h : tree.node id = .slot slot) : tree.isSlot id := by
  simp [isSlot, slot?, h]

theorem isSlot_iff_kind : tree.isSlot id = true ↔ tree.kind id = .slot := by
  unfold isSlot slot? kind
  cases tree.node id <;> simp [Node.kind]

theorem kind_of_storage? {storage : Storage} (h : tree.storage? id = some storage) :
    tree.kind id = .slot := by
  obtain ⟨slot, hslot, -⟩ := Option.map_eq_some_iff.1 h
  rw [← isSlot_iff_kind, isSlot, hslot, Option.isSome_some]

theorem storage?_eq_none (h : tree.kind id ≠ .slot) : tree.storage? id = none :=
  Option.eq_none_iff_forall_not_mem.2 fun _ hstorage => h (kind_of_storage? hstorage)

theorem lt_size_of_storage? {storage : Storage} (h : tree.storage? id = some storage) :
    id.index < tree.size :=
  lt_size_of_isSlot (isSlot_iff_kind.2 (kind_of_storage? h))

@[simp] theorem size_alloc : (tree.alloc offset node).size = tree.size + 1 := by
  simp [size, alloc]

theorem get_alloc_of_lt (h : id.index < tree.size) :
    (tree.alloc offset node).get id = tree.get id := by
  simp only [size] at h
  rw [get, get, get?, get?, alloc, Array.getElem?_push_lt h, Array.getElem?_eq_getElem h]

theorem node_alloc_of_lt (h : id.index < tree.size) :
    (tree.alloc offset node).node id = tree.node id := by
  rw [Tree.node, get_alloc_of_lt h, Tree.node]

theorem offset_alloc_of_lt (h : id.index < tree.size) :
    (tree.alloc offset node).offset id = tree.offset id := by
  rw [Tree.offset, get_alloc_of_lt h, Tree.offset]

@[simp] theorem get_alloc_nextId : (tree.alloc offset node).get tree.nextId = ⟨offset, node⟩ := by
  simp [get, get?, alloc, nextId]

@[simp] theorem node_alloc_nextId : (tree.alloc offset node).node tree.nextId = node := by
  rw [Tree.node, get_alloc_nextId]

@[simp] theorem nextId_index : tree.nextId.index = tree.size := rfl

theorem node_alloc (h : tree.node id ≠ .block []) :
    (tree.alloc offset node).node id = tree.node id :=
  node_alloc_of_lt (lt_size_of_node_ne h)

variable {f : Node → Node}

@[simp] theorem size_modify : (tree.modify id f).size = tree.size := by
  simp [size, modify]

theorem get_modify_of_ne (h : other ≠ id) : (tree.modify id f).get other = tree.get other := by
  have hne : id.index ≠ other.index := by
    intro he
    apply h
    cases id
    cases other
    simp_all
  simp [get, get?, modify, Array.getElem?_modify, hne]

theorem get_modify_self (h : id.index < tree.size) :
    (tree.modify id f).get id = ⟨tree.offset id, f (tree.node id)⟩ := by
  simp only [size] at h
  simp only [get, get?, modify, offset, Tree.node]
  rw [Array.getElem?_modify, if_pos rfl, Array.getElem?_eq_getElem h]
  rfl

theorem get_modify_of_size_le (h : tree.size ≤ id.index) :
    (tree.modify id f).get other = tree.get other := by
  by_cases hne : other = id
  · subst hne
    rw [get_of_size_le h, get_of_size_le (by simpa using h)]
  · exact get_modify_of_ne hne

theorem node_modify_of_ne (h : other ≠ id) : (tree.modify id f).node other = tree.node other := by
  rw [Tree.node, get_modify_of_ne h, Tree.node]

theorem node_modify_self (h : id.index < tree.size) :
    (tree.modify id f).node id = f (tree.node id) := by
  rw [Tree.node, get_modify_self h]

@[simp] theorem offset_modify : (tree.modify id f).offset other = tree.offset other := by
  by_cases hlt : id.index < tree.size
  · by_cases hne : other = id
    · subst hne
      rw [Tree.offset, get_modify_self hlt]
    · rw [Tree.offset, get_modify_of_ne hne, Tree.offset]
  · rw [Tree.offset, get_modify_of_size_le (Nat.le_of_not_lt hlt), Tree.offset]

theorem node_modify_cases (tree : Tree) (id other : NodeId) (f : Node → Node) :
    (tree.modify id f).node other = tree.node other ∨
      other = id ∧ id.index < tree.size ∧ (tree.modify id f).node other = f (tree.node other) := by
  by_cases hne : other = id
  · subst hne
    by_cases hlt : other.index < tree.size
    · exact .inr ⟨rfl, hlt, node_modify_self hlt⟩
    · left
      rw [Tree.node, get_modify_of_size_le (Nat.le_of_not_lt hlt), Tree.node]
  · exact .inl (node_modify_of_ne hne)

theorem kind_modify (h : ∀ node, (f node).kind = node.kind) (other : NodeId) :
    (tree.modify id f).kind other = tree.kind other := by
  unfold kind
  rcases node_modify_cases tree id other f with heq | ⟨-, -, heq⟩
  · rw [heq]
  · rw [heq, h]

@[simp] theorem kind_modifySlot (g : Slot → Slot) :
    (tree.modifySlot id g).kind other = tree.kind other := by
  apply kind_modify
  intro node
  cases node <;> rfl

@[simp] theorem kind_modifyStatements (g : List NodeId → List NodeId) :
    (tree.modifyStatements id g).kind other = tree.kind other := by
  apply kind_modify
  intro node
  cases node <;> rfl

@[simp] theorem size_modifySlot (g : Slot → Slot) : (tree.modifySlot id g).size = tree.size :=
  size_modify

@[simp] theorem size_modifyStatements (g : List NodeId → List NodeId) :
    (tree.modifyStatements id g).size = tree.size :=
  size_modify

@[simp] theorem size_pushStatement {block statement : NodeId} :
    (tree.pushStatement block statement).size = tree.size :=
  size_modify

theorem statements_modifyStatements_of_ne (g : List NodeId → List NodeId) (h : other ≠ id) :
    (tree.modifyStatements id g).statements other = tree.statements other := by
  rw [statements, modifyStatements, node_modify_of_ne h, statements]

theorem statements_modifyStatements_self (g : List NodeId → List NodeId)
    (hk : tree.kind id = .block) (h : id.index < tree.size) :
    (tree.modifyStatements id g).statements id = g (tree.statements id) := by
  rw [statements, modifyStatements, node_modify_self h, statements]
  unfold kind at hk
  cases hn : tree.node id <;> simp_all [Node.kind]

theorem statements_modifySlot (g : Slot → Slot) :
    (tree.modifySlot id g).statements other = tree.statements other := by
  unfold statements modifySlot
  rcases node_modify_cases tree id other _ with heq | ⟨-, -, heq⟩
  · rw [heq]
  · rw [heq]
    cases tree.node other <;> rfl

theorem statements_of_exprs_eq {later : Tree} (h : later.exprs = tree.exprs) :
    later.statements id = tree.statements id := by
  simp only [statements, Tree.node, get, get?, h]

end Tree

/-- What an update of slots and blocks leaves of a node. -/
def Node.form : Node → Node
  | .slot _ => .slot { type := .void }
  | .block _ => .block []
  | node => node

namespace Tree

/-- Nodes stay where they are; a slot may change its type, a block gains statements at its end. -/
structure Grows (old new : Tree) : Prop where
  size : old.size ≤ new.size
  form : ∀ id : NodeId, id.index < old.size → (new.node id).form = (old.node id).form
  offset : ∀ id : NodeId, id.index < old.size → new.offset id = old.offset id
  statements : ∀ id : NodeId, id.index < old.size → old.statements id <+: new.statements id

namespace Grows

variable {old mid new : Tree}

theorem refl (tree : Tree) : Grows tree tree :=
  ⟨Nat.le_refl _, fun _ _ => rfl, fun _ _ => rfl, fun _ _ => List.prefix_rfl⟩

theorem trans (h : Grows old mid) (g : Grows mid new) : Grows old new where
  size := Nat.le_trans h.size g.size
  form id hid := (g.form id (Nat.lt_of_lt_of_le hid h.size)).trans (h.form id hid)
  offset id hid := (g.offset id (Nat.lt_of_lt_of_le hid h.size)).trans (h.offset id hid)
  statements id hid :=
    (h.statements id hid).trans (g.statements id (Nat.lt_of_lt_of_le hid h.size))

theorem node_eq (h : Grows old new) {id : NodeId} (hs : old.kind id ≠ .slot)
    (hb : old.kind id ≠ .block) : new.node id = old.node id := by
  have hlt : id.index < old.size := by
    apply lt_size_of_node_ne
    intro hn
    simp [kind, hn, Node.kind] at hb
  have hform := h.form id hlt
  unfold kind at hs hb
  cases ho : old.node id <;> cases hn : new.node id <;> simp_all [Node.form, Node.kind]

theorem node_of_eq (h : Grows old new) {id : NodeId} {node : Node} (hn : old.node id = node)
    (hs : node.kind ≠ .slot) (hb : node.kind ≠ .block) : new.node id = node := by
  subst hn
  exact h.node_eq hs hb

theorem isSlot (h : Grows old new) {id : NodeId} (hs : old.isSlot id) : new.isSlot id := by
  obtain ⟨slot, hslot⟩ := node_of_isSlot hs
  have hform := h.form id (lt_size_of_isSlot hs)
  rw [hslot] at hform
  cases hn : new.node id <;> simp_all [Node.form, Tree.isSlot, slot?]

theorem kind_eq (h : Grows old new) {id : NodeId} (hlt : id.index < old.size) :
    new.kind id = old.kind id := by
  have hform := h.form id hlt
  unfold kind
  cases ho : old.node id <;> cases hn : new.node id <;> simp_all [Node.form, Node.kind]

theorem alloc (tree : Tree) (offset : Nat) (node : Node) : Grows tree (tree.alloc offset node) where
  size := by simp
  form id hid := by rw [node_alloc_of_lt hid]
  offset id hid := offset_alloc_of_lt hid
  statements id hid := by
    have heq : (tree.alloc offset node).statements id = tree.statements id := by
      rw [Tree.statements, Tree.statements, node_alloc_of_lt hid]
    exact heq ▸ List.prefix_refl _

theorem modifySlot (tree : Tree) (slot : NodeId) (g : Slot → Slot) :
    Grows tree (tree.modifySlot slot g) where
  size := by simp
  form id _ := by
    rcases node_modify_cases tree slot id _ with heq | ⟨-, -, heq⟩
    · rw [Tree.modifySlot, heq]
    · rw [Tree.modifySlot, heq]
      cases tree.node id <;> rfl
  offset _ _ := by simp [Tree.modifySlot]
  statements id _ := statements_modifySlot g ▸ List.prefix_refl _

theorem pushStatement (tree : Tree) (block statement : NodeId) :
    Grows tree (tree.pushStatement block statement) where
  size := by simp
  form id _ := by
    rcases node_modify_cases tree block id _ with heq | ⟨-, -, heq⟩
    · rw [Tree.pushStatement, modifyStatements, heq]
    · rw [Tree.pushStatement, modifyStatements, heq]
      cases tree.node id <;> rfl
  offset _ _ := by simp [Tree.pushStatement, modifyStatements]
  statements id hid := by
    unfold Tree.statements
    rcases node_modify_cases tree block id _ with heq | ⟨-, -, heq⟩
    · exact heq ▸ List.prefix_refl _
    · rw [Tree.pushStatement, modifyStatements, heq]
      cases tree.node id <;> simp

theorem record (tree : Tree) (offset : Nat) (node : Node) (block statement : NodeId) :
    Grows tree ((tree.alloc offset node).pushStatement block statement) :=
  (alloc tree offset node).trans (pushStatement _ block statement)

theorem of_exprs_eq (h : new.exprs = old.exprs) : Grows old new := by
  have hget : ∀ id, new.get id = old.get id := by
    intro id
    rw [get, get, get?, get?, h]
  refine ⟨Nat.le_of_eq (by rw [Tree.size, Tree.size, h]), ?_, ?_, ?_⟩
  · intro id _
    rw [node, node, hget]
  · intro id _
    rw [Tree.offset, Tree.offset, hget]
  · intro id _
    have heq : new.statements id = old.statements id := by
      rw [Tree.statements, Tree.statements, node, node, hget]
    exact heq ▸ List.prefix_refl _

end Grows

end Tree

end ScriptLift
