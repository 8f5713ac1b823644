import ScriptLift.Proofs.Tree.Growth

namespace ScriptLift

theorem Node.statements_eq_nil {node : Node} (h : node.kind ≠ .block) {statements : List NodeId}
    (hnode : node = .block statements) : statements = [] := by
  subst hnode
  exact absurd rfl h

namespace Tree

/-- All nodes stay and keep their kind; there may be more of them. -/
structure Extends (old new : Tree) : Prop where
  size : old.size ≤ new.size
  kind : ∀ id : NodeId, id.index < old.size → new.kind id = old.kind id

/-- A node that may be an operand. Assignments are statements only. -/
structure IsValue (tree : Tree) (id : NodeId) : Prop where
  lt : id.index < tree.size
  kind : tree.kind id ≠ .binary .assign

/-- A node that may be a statement. -/
structure IsStatement (tree : Tree) (id : NodeId) : Prop where
  lt : id.index < tree.size
  kind : tree.kind id ≠ .block

/-- The parts of a node are what they may be. A return stands at the end of a block. -/
structure Fits (tree : Tree) (node : Node) : Prop where
  operand : ∀ o ∈ node.operands, tree.IsValue o.2
  whole : ∀ id index, node = .component id index → tree.isSlot id
  statement : ∀ statements, node = .block statements → ∀ s ∈ statements, tree.IsStatement s
  returns : ∀ statements, node = .block statements → ∀ s ∈ statements.dropLast, tree.kind s ≠ .ret

def WellFormed (tree : Tree) : Prop := ∀ id, tree.Fits (tree.node id)

variable {tree old mid new : Tree} {id : NodeId} {node : Node}

theorem lt_size_of_kind_ne (h : tree.kind id ≠ .block) : id.index < tree.size := by
  apply lt_size_of_node_ne
  intro hnode
  exact h (by rw [Tree.kind, hnode, Node.kind])

theorem lt_size_of_operand {o : Role × NodeId} (h : o ∈ (tree.node id).operands) :
    id.index < tree.size := by
  apply lt_size_of_node_ne
  intro hnode
  simp [hnode, Node.operands] at h

theorem lt_size_of_statement {s : NodeId} (h : s ∈ tree.statements id) : id.index < tree.size := by
  apply lt_size_of_node_ne
  intro hnode
  simp [statements, hnode] at h

theorem eq_nextId_of_index (h : id.index = tree.size) : id = tree.nextId := by
  cases id
  exact congrArg NodeId.mk h

theorem node_nextId : tree.node tree.nextId = .block [] := node_of_size_le (Nat.le_refl _)

theorem statements_alloc {offset : Nat} (h : ∀ statements, node = .block statements → statements = []) :
    (tree.alloc offset node).statements id = tree.statements id := by
  rcases Nat.lt_trichotomy id.index tree.size with hlt | heq | hgt
  · rw [statements, statements, node_alloc_of_lt hlt]
  · rw [eq_nextId_of_index heq, statements, statements, node_alloc_nextId, node_nextId]
    cases node with
    | block statements => exact h statements rfl
    | _ => rfl
  · rw [statements, statements, node_of_size_le (by rw [size_alloc]; omega),
      node_of_size_le (Nat.le_of_lt hgt)]

theorem mem_statements_pushStatement {block s t : NodeId}
    (h : t ∈ (tree.pushStatement block s).statements id) : t ∈ tree.statements id ∨ t = s := by
  unfold statements pushStatement modifyStatements at h
  rcases node_modify_cases tree block id _ with heq | ⟨-, -, heq⟩
  · rw [heq] at h
    exact .inl h
  · rw [heq] at h
    unfold statements
    cases hnode : tree.node id <;> simp_all

theorem isStatement_of_kind_ne (h : tree.kind id ≠ .block) : tree.IsStatement id :=
  ⟨lt_size_of_kind_ne h, h⟩

theorem isValue_of_isSlot (h : tree.isSlot id) : tree.IsValue id :=
  ⟨lt_size_of_isSlot h, by simp [isSlot_iff_kind.1 h]⟩

namespace Extends

theorem refl (tree : Tree) : Extends tree tree := ⟨Nat.le_refl _, fun _ _ => rfl⟩

theorem trans (h : Extends old mid) (g : Extends mid new) : Extends old new where
  size := Nat.le_trans h.size g.size
  kind id hid := (g.kind id (Nat.lt_of_lt_of_le hid h.size)).trans (h.kind id hid)

theorem of_grows (h : Grows old new) : Extends old new := ⟨h.size, fun _ => h.kind_eq⟩

theorem modify {f : Node → Node} (h : (f (tree.node id)).kind = tree.kind id) :
    Extends tree (tree.modify id f) := by
  refine ⟨by simp, fun other _ => ?_⟩
  unfold Tree.kind at h ⊢
  rcases node_modify_cases tree id other f with heq | ⟨rfl, -, heq⟩
  · rw [heq]
  · rw [heq, h]

theorem of_exprs_eq (h : new.exprs = old.exprs) : Extends old new :=
  of_grows (Grows.of_exprs_eq h)

theorem kind_eq (h : Extends old new) (hkind : old.kind id ≠ .block) :
    new.kind id = old.kind id :=
  h.kind id (lt_size_of_kind_ne hkind)

theorem isSlot (h : Extends old new) (hslot : old.isSlot id) : new.isSlot id := by
  rw [isSlot_iff_kind] at hslot ⊢
  rw [h.kind_eq (by simp [hslot]), hslot]

theorem isValue (h : Extends old new) (hid : old.IsValue id) : new.IsValue id :=
  ⟨Nat.lt_of_lt_of_le hid.lt h.size, by rw [h.kind id hid.lt]; exact hid.kind⟩

theorem isStatement (h : Extends old new) (hid : old.IsStatement id) : new.IsStatement id :=
  ⟨Nat.lt_of_lt_of_le hid.lt h.size, by rw [h.kind id hid.lt]; exact hid.kind⟩

theorem fits (h : Extends old new) (hnode : old.Fits node) : new.Fits node where
  operand o ho := h.isValue (hnode.operand o ho)
  whole id index hid := h.isSlot (hnode.whole id index hid)
  statement statements hs s hmem := h.isStatement (hnode.statement statements hs s hmem)
  returns statements hs s hmem := by
    rw [h.kind s (hnode.statement statements hs s (List.dropLast_subset _ hmem)).lt]
    exact hnode.returns statements hs s hmem

end Extends

theorem fits_of_operands (hblock : node.kind ≠ .block) (hcomponent : node.kind ≠ .component)
    (h : ∀ o ∈ node.operands, tree.IsValue o.2) : tree.Fits node where
  operand := h
  whole id index hnode := absurd (by rw [hnode, Node.kind]) hcomponent
  statement statements hnode := absurd (by rw [hnode, Node.kind]) hblock
  returns statements hnode := absurd (by rw [hnode, Node.kind]) hblock

theorem fits_component (h : tree.isSlot id) (index : Nat) : tree.Fits (.component id index) where
  operand o ho := by
    obtain rfl : o = (.source, id) := by simpa [Node.operands] using ho
    exact isValue_of_isSlot h
  whole other i hnode := by
    cases hnode
    exact h
  statement statements hnode := by cases hnode
  returns statements hnode := by cases hnode

theorem fits_block {statements : List NodeId} (h : ∀ s ∈ statements, tree.IsStatement s)
    (hreturns : ∀ s ∈ statements.dropLast, tree.kind s ≠ .ret) :
    tree.Fits (.block statements) where
  operand o ho := by cases ho
  whole _ _ hnode := by cases hnode
  statement others hnode := by
    cases hnode
    exact h
  returns others hnode := by
    cases hnode
    exact hreturns

namespace WellFormed

theorem operand (h : tree.WellFormed) {o : Role × NodeId} (ho : o ∈ (tree.node id).operands) :
    tree.IsValue o.2 :=
  (h id).operand o ho

theorem statement (h : tree.WellFormed) {block s : NodeId} (hs : s ∈ tree.statements block) :
    tree.IsStatement s := by
  unfold statements at hs
  split at hs
  · next hnode => exact (h block).statement _ hnode s hs
  · cases hs

theorem returns (h : tree.WellFormed) {block s : NodeId}
    (hs : s ∈ (tree.statements block).dropLast) : tree.kind s ≠ .ret := by
  unfold statements at hs
  split at hs
  · next hnode => exact (h block).returns _ hnode s hs
  · cases hs

theorem empty : ({} : Tree).WellFormed := by
  intro id
  rw [node_of_size_le (by simp [size])]
  exact fits_block (by simp) (by simp)

theorem of_exprs_eq (h : old.WellFormed) (heq : new.exprs = old.exprs) : new.WellFormed := by
  intro id
  have hnode : new.node id = old.node id := by rw [Tree.node, Tree.node, get, get, get?, get?, heq]
  rw [hnode]
  exact (Extends.of_exprs_eq heq).fits (h id)

theorem alloc (h : tree.WellFormed) (hnode : tree.Fits node) (offset : Nat) :
    (tree.alloc offset node).WellFormed := by
  have hextends := Extends.of_grows (Grows.alloc tree offset node)
  intro id
  rcases Nat.lt_trichotomy id.index tree.size with hlt | heq | hgt
  · rw [node_alloc_of_lt hlt]
    exact hextends.fits (h id)
  · rw [eq_nextId_of_index heq, node_alloc_nextId]
    exact hextends.fits hnode
  · rw [node_of_size_le (by rw [size_alloc]; omega)]
    exact fits_block (by simp) (by simp)

theorem modify {f : Node → Node} (h : tree.WellFormed)
    (hkind : (f (tree.node id)).kind = tree.kind id)
    (hfits : id.index < tree.size → tree.Fits (f (tree.node id))) :
    (tree.modify id f).WellFormed := by
  intro other
  have hextends := Extends.modify hkind
  rcases node_modify_cases tree id other f with heq | ⟨rfl, hlt, heq⟩
  · rw [heq]
    exact hextends.fits (h other)
  · rw [heq]
    exact hextends.fits (hfits hlt)

theorem modifySlot (h : tree.WellFormed) (g : Slot → Slot) : (tree.modifySlot id g).WellFormed := by
  refine h.modify (by unfold Tree.kind; cases tree.node id <;> rfl) fun _ => ?_
  cases hnode : tree.node id with
  | slot slot =>
    exact (fits_of_operands (by simp [Node.kind]) (by simp [Node.kind]) (by simp [Node.operands]) :
      tree.Fits (.slot (g slot)))
  | _ =>
    simp only
    exact hnode ▸ h id

theorem modifyStatements (h : tree.WellFormed) {g : List NodeId → List NodeId}
    (hstatements : ∀ s ∈ g (tree.statements id), tree.IsStatement s)
    (hreturns : ∀ s ∈ (g (tree.statements id)).dropLast, tree.kind s ≠ .ret) :
    (tree.modifyStatements id g).WellFormed := by
  refine h.modify (by unfold Tree.kind; cases tree.node id <;> rfl) fun _ => ?_
  cases hnode : tree.node id with
  | block statements =>
    have heq : tree.statements id = statements := by rw [Tree.statements, hnode]
    rw [heq] at hstatements hreturns
    exact fits_block hstatements hreturns
  | _ =>
    simp only
    exact hnode ▸ h id

theorem shrinkStatements (h : tree.WellFormed) {g : List NodeId → List NodeId}
    (hsub : (g (tree.statements id)).Sublist (tree.statements id)) :
    (tree.modifyStatements id g).WellFormed := by
  refine h.modifyStatements (fun s hs => h.statement (hsub.subset hs)) fun s hs => ?_
  have hlast := hsub.reverse.tail
  rw [List.tail_reverse, List.tail_reverse, List.reverse_sublist] at hlast
  exact h.returns (hlast.subset hs)

theorem pushStatement (h : tree.WellFormed) {block s : NodeId} (hs : tree.IsStatement s)
    (hopen : ∀ t ∈ tree.statements block, tree.kind t ≠ .ret) :
    (tree.pushStatement block s).WellFormed := by
  refine h.modifyStatements (fun t ht => ?_) fun t ht => ?_
  · rcases List.mem_append.1 ht with ht | ht
    · exact h.statement ht
    · obtain rfl : t = s := by simpa using ht
      exact hs
  · rw [List.dropLast_concat] at ht
    exact hopen t ht

end WellFormed

/-- Well-formed, with every operand made before the node that holds it. -/
structure Built (tree : Tree) : Prop where
  wellFormed : tree.WellFormed
  before : ∀ id, ∀ o ∈ (tree.node id).operands, o.2.index < id.index

namespace Built

theorem empty : ({} : Tree).Built where
  wellFormed := .empty
  before id o ho := by
    rw [node_of_size_le (by simp [size])] at ho
    cases ho

theorem of_exprs_eq (h : old.Built) (heq : new.exprs = old.exprs) : new.Built where
  wellFormed := h.wellFormed.of_exprs_eq heq
  before id o ho := by
    rw [Tree.node, get, get?, heq] at ho
    exact h.before id o ho

theorem alloc (h : tree.Built) (hnode : tree.Fits node) (offset : Nat) :
    (tree.alloc offset node).Built where
  wellFormed := h.wellFormed.alloc hnode offset
  before id o ho := by
    rcases Nat.lt_trichotomy id.index tree.size with hlt | heq | hgt
    · rw [node_alloc_of_lt hlt] at ho
      exact h.before id o ho
    · rw [eq_nextId_of_index heq, node_alloc_nextId] at ho
      rw [heq]
      exact (hnode.operand o ho).lt
    · rw [node_of_size_le (by rw [size_alloc]; exact hgt)] at ho
      cases ho

theorem modify {f : Node → Node} (h : tree.Built) (htree : (tree.modify id f).WellFormed)
    (hf : (f (tree.node id)).operands = (tree.node id).operands) : (tree.modify id f).Built where
  wellFormed := htree
  before other o ho := by
    rcases node_modify_cases tree id other f with heq | ⟨rfl, -, heq⟩
    · rw [heq] at ho
      exact h.before other o ho
    · rw [heq, hf] at ho
      exact h.before other o ho

theorem modifySlot (h : tree.Built) (g : Slot → Slot) : (tree.modifySlot id g).Built :=
  h.modify (h.wellFormed.modifySlot g) (by cases tree.node id <;> rfl)

theorem pushStatement (h : tree.Built) {block s : NodeId} (hs : tree.IsStatement s)
    (hopen : ∀ t ∈ tree.statements block, tree.kind t ≠ .ret) :
    (tree.pushStatement block s).Built := by
  have htree := h.wellFormed.pushStatement hs hopen
  unfold Tree.pushStatement modifyStatements at htree ⊢
  exact h.modify htree (by cases tree.node block <;> rfl)

end Built

end Tree

end ScriptLift
