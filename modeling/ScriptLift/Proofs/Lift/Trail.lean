import ScriptLift.Proofs.Lift.Shape
import ScriptLift.Total

namespace ScriptLift

/-- Words that the argument of an engine call takes from the stack. -/
def Routine.argumentWords (routine : Routine) (index : Nat) : Nat :=
  match routine.argumentType? index with
  | none | some .action => 0
  | some .vector => 3
  | some _ => 1

def Shape.words : Shape → Nat
  | .scalar => 2
  | .vectorVector => 6
  | .floatVector | .vectorFloat => 4

namespace Instruction

/-- How many words at the top of the stack the instruction uses as they lie, whoever pushed them. -/
def takes (routines : Routines) (ins : Instruction) : Nat :=
  match ins.opcode.operation with
  | .branch | .unary => 1
  | .binary =>
    match ins.binaryOperation with
    | .ok operation => operation.shape.words
    | .error _ => 0
  | .compare => ins.size.toNat / 4 + ins.size.toNat / 4
  | .copyDown => ins.size.toNat / 4
  | .action =>
    match routines.get? ins.routine with
    | some routine => total routine.argumentWords (List.range ins.arity.toNat)
    | none => 0
  | _ => 0

def taken (routines : Routines) (ins : Instruction) (ctx : Context) : List Word :=
  ctx.stack.take (ins.takes routines)

end Instruction

/-- A block that no walk has filled: it is empty, or the block of its own for a conditional goto. -/
def Tree.isBare (tree : Tree) (block : NodeId) : Bool :=
  match tree.statements block with
  | [] => true
  | [statement] => tree.kind statement = .goto
  | _ => false

/-- Every word has a later slot than those below it, and all slots come before `size`. -/
structure Context.Ordered (size : Nat) (ctx : Context) : Prop where
  descending : ctx.stack.Pairwise fun upper lower => lower.slot.index < upper.slot.index
  bound : ∀ word ∈ ctx.stack, word.slot.index < size

namespace Context.Ordered

variable {size : Nat} {ctx : Context}

theorem mono (h : ctx.Ordered size) {size' : Nat} (hle : size ≤ size') : ctx.Ordered size' :=
  ⟨h.descending, fun word hword => Nat.lt_of_lt_of_le (h.bound word hword) hle⟩

theorem shrink (h : ctx.Ordered size) {ctx' : Context} (hsub : ctx'.stack.Sublist ctx.stack) :
    ctx'.Ordered size :=
  ⟨h.descending.sublist hsub, fun word hword => h.bound word (hsub.subset hword)⟩

end Context.Ordered

namespace Tree

variable {tree old new : Tree} {id : NodeId} {node : Node} {offset : Nat}

theorem storage?_alloc_of_lt (h : id.index < tree.size) :
    (tree.alloc offset node).storage? id = tree.storage? id := by
  rw [storage?, slot?, node_alloc_of_lt h, storage?, slot?]

theorem storage?_pushStatement {block s : NodeId} :
    (tree.pushStatement block s).storage? id = tree.storage? id := by
  unfold storage? slot? pushStatement modifyStatements
  rcases node_modify_cases tree block id _ with heq | ⟨-, -, heq⟩
  · rw [heq]
  · rw [heq]
    cases tree.node id <;> rfl

theorem storage?_modifySlot (slot : NodeId) (f : Slot → Slot) :
    (tree.modifySlot slot f).storage? id = tree.storage? id ∨
      ∃ s, tree.slot? id = some s ∧ (tree.modifySlot slot f).storage? id = some (f s).storage := by
  unfold storage? slot? modifySlot
  rcases node_modify_cases tree slot id _ with heq | ⟨-, -, heq⟩
  · exact .inl (by rw [heq])
  · rw [heq]
    cases tree.node id with
    | slot s => exact .inr ⟨s, rfl, rfl⟩
    | _ => exact .inl rfl

theorem storage?_modifySlot_eq {slot : NodeId} {f : Slot → Slot}
    (hf : ∀ s, (f s).storage = s.storage) :
    (tree.modifySlot slot f).storage? id = tree.storage? id := by
  rcases storage?_modifySlot slot f with heq | ⟨s, hs, heq⟩
  · exact heq
  · rw [heq, hf, storage?, hs, Option.map_some]

theorem eq_nextId_of_alloc (h : tree.size ≤ id.index)
    (h' : id.index < (tree.alloc offset node).size) : id = tree.nextId := by
  rw [size_alloc] at h'
  exact eq_nextId_of_index (by omega)

theorem statements_pushStatement (tree : Tree) (block s : NodeId) :
    (tree.pushStatement block s).statements block = tree.statements block ∨
      (tree.pushStatement block s).statements block = tree.statements block ++ [s] := by
  unfold statements pushStatement modifyStatements
  rcases node_modify_cases tree block block _ with heq | ⟨-, -, heq⟩
  · exact .inl (by rw [heq])
  · rw [heq]
    cases tree.node block with
    | block statements => exact .inr rfl
    | _ => exact .inl rfl

theorem Grows.operands_eq (h : Grows old new) (hid : id.index < old.size) :
    (new.node id).operands = (old.node id).operands := by
  have hform := h.form id hid
  cases ho : old.node id <;> cases hn : new.node id <;>
    simp_all [Node.form, Node.operands]

theorem isBare_of_statements (h : tree.statements id = []) : tree.isBare id := by
  rw [isBare, h]

end Tree

namespace Site

/-- What an instruction finds: words that it takes, words of the subroutine in progress, globals,
arguments known already, and the block that it branches ahead to. -/
inductive Finds (site : Site) (routines : Routines) (start : Workspace) : NodeId → Prop
  | taken {word} : word ∈ site.ins.taken routines start.context →
      Finds site routines start word.slot
  | own {word} : word ∈ start.context.stack → word.owner = start.context.current →
      Finds site routines start word.slot
  | global {id} : start.tree.storage? id = some .global → Finds site routines start id
  | argument {position id} : (position, id) ∈ start.outer → Finds site routines start id
  | block {key id} : (key, id) ∈ start.blocks → key.1 = site.ins.target → 0 < site.ins.jump →
      Finds site routines start id

variable (site : Site) (script : Script) (start : Workspace)

def IsNew (id : NodeId) : Prop := start.tree.size ≤ id.index

/-- What a node may hold that the instruction makes. -/
def Knows (id : NodeId) : Prop := IsNew start id ∨ site.Finds script.routines start id

/-- An operand of a new node is known, or it is the saved state that an engine call takes. -/
def Holds (kind : Kind) (id : NodeId) : Prop :=
  site.Knows script start id ∨ kind = .action ∧ start.context.savedAction = some id

/-- The instruction jumps or branches back, to the place of the label. -/
def LeadsBackTo (label : NodeId) : Prop :=
  Lift.needsLabel site.ins ∧ script.labels.lookup site.ins.target = some label

/-- A node that the instruction made: it holds what it may, a goto names the label that the
instruction leads back to, labels are not made, and a block is bare. -/
structure Makes (tree : Tree) (id : NodeId) : Prop where
  operand : ∀ o ∈ (tree.node id).operands, site.Holds script start (tree.kind id) o.2
  goto : ∀ label, tree.node id = .goto label → site.LeadsBackTo script label
  label : tree.kind id ≠ .label
  bare : tree.isBare id
  statement : ∀ s ∈ tree.statements id, IsNew start s ∧ s.index < tree.size

/-- The tree while the instruction is executed. The label of the instruction comes first among the
statements that are added. -/
structure Grown (tree : Tree) : Prop where
  block : site.block.index < start.tree.size
  size : start.tree.size ≤ tree.size
  made : ∀ id, IsNew start id → id.index < tree.size → site.Makes script start tree id
  statements : ∃ more, tree.statements site.block = start.tree.statements site.block ++
    (script.labels.lookup site.ins.offset).toList ++ more ∧ ∀ s ∈ more, IsNew start s
  storage : ∀ id : NodeId, id.index < start.tree.size →
    tree.storage? id = start.tree.storage? id ∨
      tree.storage? id = some .global ∧ site.ins.opcode.operation = .saveBase

/-- The context while the instruction is executed. -/
structure Follows (size : Nat) (ctx : Context) : Prop where
  calls : ctx.calls = start.context.calls
  word : ∀ word ∈ ctx.stack, word ∈ start.context.stack ∨
    IsNew start word.slot ∧ word.owner = start.context.current
  ordered : start.context.Ordered start.tree.size → ctx.Ordered size

/-- The workspace while the instruction is executed. A state that is saved anew resumes at one of
the blocks. -/
structure Trail (ws : Workspace) : Prop where
  tree : site.Grown script start ws.tree
  context : Follows start ws.tree.size ws.context
  saved : ∀ block, ws.context.savedAction = some block →
    start.context.savedAction = some block ∨ ∃ key, (key, block) ∈ ws.blocks
  outer : ∀ argument ∈ ws.outer, argument ∈ start.outer ∨ IsNew start argument.2
  blocks : ∀ block ∈ ws.blocks, block ∈ start.blocks ∨ IsNew start block.2

variable {site script start} {ws : Workspace} {tree new : Tree} {id : NodeId}

theorem Makes.mono (h : site.Makes script start tree id) (hid : id.index < tree.size)
    (hgrow : tree.Grows new) (hsame : new.statements id = tree.statements id) :
    site.Makes script start new id := by
  refine ⟨?_, fun label hlabel => ?_, by rw [hgrow.kind_eq hid]; exact h.label, ?_, fun s hs => ?_⟩
  · rw [hgrow.operands_eq hid, hgrow.kind_eq hid]
    exact h.operand
  · have hkind : tree.kind id = .goto := by
      rw [← hgrow.kind_eq hid, Tree.kind, hlabel, Node.kind]
    rw [hgrow.node_eq (by simp [hkind]) (by simp [hkind])] at hlabel
    exact h.goto label hlabel
  · have hbare := h.bare
    have hstatement := h.statement
    unfold Tree.isBare at hbare ⊢
    rw [hsame]
    generalize tree.statements id = statements at hbare hstatement ⊢
    rcases statements with _ | ⟨s, _ | ⟨_, _⟩⟩
    · rfl
    · have hs := (hstatement s List.mem_cons_self).2
      simp only [hgrow.kind_eq hs]
      exact hbare
    · cases hbare
  · rw [hsame] at hs
    exact ⟨(h.statement s hs).1, Nat.lt_of_lt_of_le (h.statement s hs).2 hgrow.size⟩

theorem makes_of_operands {node : Node} (hnode : tree.node id = node) (hblock : node.kind ≠ .block)
    (hoperand : ∀ o ∈ node.operands, site.Holds script start node.kind o.2)
    (hgoto : ∀ label, node = .goto label → site.LeadsBackTo script label)
    (hlabel : node.kind ≠ .label) : site.Makes script start tree id := by
  subst hnode
  have hnone : tree.statements id = [] := by
    unfold Tree.statements
    split
    · next heq => rw [heq] at hblock; exact absurd rfl hblock
    · rfl
  exact ⟨hoperand, hgoto, hlabel, Tree.isBare_of_statements hnone, by simp [hnone]⟩

theorem makes_block (hnode : tree.node id = .block []) : site.Makes script start tree id := by
  have hnone : tree.statements id = [] := by rw [Tree.statements, hnode]
  refine ⟨by simp [hnode, Node.operands], fun label hlabel => ?_, by simp [Tree.kind, hnode, Node.kind],
    Tree.isBare_of_statements hnone, by simp [hnone]⟩
  rw [hnode] at hlabel
  cases hlabel

namespace Grown

/-- Further nodes that are made, and further statements of the block. -/
theorem extend (h : site.Grown script start tree) (hgrow : tree.Grows new)
    (hmade : ∀ id : NodeId, tree.size ≤ id.index → id.index < new.size →
      site.Makes script start new id)
    (hsame : ∀ id : NodeId, id.index < tree.size → id ≠ site.block →
      new.statements id = tree.statements id)
    (hmore : ∃ more, new.statements site.block = tree.statements site.block ++ more ∧
      ∀ s ∈ more, IsNew start s)
    (hstorage : ∀ id : NodeId, id.index < tree.size → new.storage? id = tree.storage? id) :
    site.Grown script start new := by
  refine ⟨h.block, Nat.le_trans h.size hgrow.size, fun id hnew hlt => ?_, ?_, fun id hid => ?_⟩
  · by_cases hid : id.index < tree.size
    · refine (h.made id hnew hid).mono hid hgrow (hsame id hid ?_)
      rintro rfl
      exact absurd h.block (Nat.not_lt.2 hnew)
    · exact hmade id (Nat.le_of_not_lt hid) hlt
  · obtain ⟨first, hfirst, hnew⟩ := h.statements
    obtain ⟨more, hmore, hnew'⟩ := hmore
    refine ⟨first ++ more, by rw [hmore, hfirst, List.append_assoc], fun s hs => ?_⟩
    exact (List.mem_append.1 hs).elim (hnew s) (hnew' s)
  · rw [hstorage id (Nat.lt_of_lt_of_le hid h.size)]
    exact h.storage id hid

theorem alloc (h : site.Grown script start tree) {offset : Nat} {node : Node}
    (hempty : ∀ statements, node = .block statements → statements = [])
    (hmade : site.Makes script start (tree.alloc offset node) tree.nextId) :
    site.Grown script start (tree.alloc offset node) := by
  refine h.extend (.alloc tree offset node) (fun id hnew hlt => ?_)
    (fun id _ _ => Tree.statements_alloc hempty) ⟨[], ?_, by simp⟩
    (fun id hid => Tree.storage?_alloc_of_lt hid)
  · rw [Tree.eq_nextId_of_alloc hnew hlt]
    exact hmade
  · rw [List.append_nil, Tree.statements_alloc hempty]

theorem pushStatement (h : site.Grown script start tree) {s : NodeId} (hs : IsNew start s) :
    site.Grown script start (tree.pushStatement site.block s) := by
  refine h.extend (.pushStatement tree site.block s) (fun id hnew hlt => ?_)
    (fun id _ hne => Tree.statements_modifyStatements_of_ne _ hne) ?_
    (fun _ _ => Tree.storage?_pushStatement)
  · rw [Tree.size_pushStatement] at hlt
    exact absurd hlt (Nat.not_lt.2 hnew)
  · rcases Tree.statements_pushStatement tree site.block s with heq | heq
    · exact ⟨[], by rw [heq, List.append_nil], by simp⟩
    · exact ⟨[s], heq, by simpa using hs⟩

theorem modifySlot (h : site.Grown script start tree) {slot : NodeId} {f : Slot → Slot}
    (hf : ∀ s, (f s).storage = s.storage) : site.Grown script start (tree.modifySlot slot f) := by
  refine h.extend (.modifySlot tree slot f) (fun id hnew hlt => ?_)
    (fun _ _ _ => Tree.statements_modifySlot f)
    ⟨[], by rw [List.append_nil, Tree.statements_modifySlot], by simp⟩
    (fun _ _ => Tree.storage?_modifySlot_eq hf)
  rw [Tree.size_modifySlot] at hlt
  exact absurd hlt (Nat.not_lt.2 hnew)

theorem of_exprs_eq (h : site.Grown script start tree) (heq : new.exprs = tree.exprs) :
    site.Grown script start new := by
  have hget : ∀ id, new.get id = tree.get id := fun id => by
    simp only [Tree.get, Tree.get?, heq]
  refine h.extend (.of_exprs_eq heq) (fun id hnew hlt => ?_)
    (fun _ _ _ => Tree.statements_of_exprs_eq heq)
    ⟨[], by rw [List.append_nil, Tree.statements_of_exprs_eq heq], by simp⟩
    (fun id _ => by simp only [Tree.storage?, Tree.slot?, Tree.node, hget])
  rw [Tree.size, heq] at hlt
  exact absurd hlt (Nat.not_lt.2 hnew)

/-- A goto becomes the only statement of a new block. -/
theorem pushGoto (h : site.Grown script start tree) {block goto label : NodeId}
    (hnew : IsNew start block) (hempty : tree.node block = .block [])
    (hlt : block.index < tree.size) (hgoto : tree.node goto = .goto label)
    (hgotoNew : IsNew start goto) : site.Grown script start (tree.pushStatement block goto) := by
  have hgrow := Tree.Grows.pushStatement tree block goto
  have hnode : (tree.pushStatement block goto).node block = .block [goto] := by
    rw [Tree.pushStatement, Tree.modifyStatements, Tree.node_modify_self hlt, hempty]
    rfl
  have hstatements : (tree.pushStatement block goto).statements block = [goto] := by
    rw [Tree.statements, hnode]
  have hother : ∀ id : NodeId, id ≠ block →
      (tree.pushStatement block goto).statements id = tree.statements id :=
    fun id hne => Tree.statements_modifyStatements_of_ne _ hne
  have hgotoLt : goto.index < tree.size := Tree.lt_size_of_node_ne (by simp [hgoto])
  have hkind : (tree.pushStatement block goto).kind goto = .goto := by
    rw [hgrow.kind_eq hgotoLt, Tree.kind, hgoto, Node.kind]
  refine ⟨h.block, by rw [Tree.size_pushStatement]; exact h.size, fun id hid hidLt => ?_, ?_,
    fun id hid => ?_⟩
  · rw [Tree.size_pushStatement] at hidLt
    by_cases hne : id = block
    · subst hne
      refine ⟨by simp [hnode, Node.operands], by simp [hnode], by simp [Tree.kind, hnode, Node.kind],
        ?_, fun s hs => ?_⟩
      · simp only [Tree.isBare, hstatements, hkind, decide_true]
      · rw [hstatements, List.mem_singleton] at hs
        subst hs
        exact ⟨hgotoNew, by rw [Tree.size_pushStatement]; exact hgotoLt⟩
    · exact (h.made id hid hidLt).mono hidLt hgrow (hother id hne)
  · rw [hother]
    · exact h.statements
    · rintro rfl
      exact absurd h.block (Nat.not_lt.2 hnew)
  · rw [Tree.storage?_pushStatement]
    exact h.storage id hid

/-- Base pointers are saved: slots become globals. -/
theorem globalize (h : site.Grown script start tree)
    (hop : site.ins.opcode.operation = .saveBase) (slot : NodeId) :
    site.Grown script start (tree.modifySlot slot fun s => { s with storage := .global }) := by
  have hgrow := Tree.Grows.modifySlot tree slot fun s => { s with storage := .global }
  refine ⟨h.block, by rw [Tree.size_modifySlot]; exact h.size, fun id hnew hlt => ?_, ?_,
    fun id hid => ?_⟩
  · rw [Tree.size_modifySlot] at hlt
    exact (h.made id hnew hlt).mono hlt hgrow (Tree.statements_modifySlot _)
  · rw [Tree.statements_modifySlot]
    exact h.statements
  · rcases Tree.storage?_modifySlot slot _ with heq | ⟨s, -, heq⟩
    · rw [heq]
      exact h.storage id hid
    · exact .inr ⟨heq, hop⟩

end Grown

namespace Trail

theorem setTree (h : site.Trail script start ws) (htree : site.Grown script start new)
    (hsize : ws.tree.size ≤ new.size) : site.Trail script start { ws with tree := new } where
  tree := htree
  context := ⟨h.context.calls, h.context.word, fun hstart => (h.context.ordered hstart).mono hsize⟩
  saved := h.saved
  outer := h.outer
  blocks := h.blocks

theorem alloc (h : site.Trail script start ws) {node : Node} (hblock : node.kind ≠ .block)
    (hplace : node.kind ≠ .goto ∧ node.kind ≠ .label)
    (hoperand : ∀ o ∈ node.operands, site.Holds script start node.kind o.2) :
    site.Trail script start { ws with tree := ws.tree.alloc site.ins.offset node } := by
  refine h.setTree (h.tree.alloc ?_ (makes_of_operands Tree.node_alloc_nextId hblock hoperand ?_
    hplace.2)) (by simp)
  · rintro statements rfl
    exact absurd rfl hblock
  · rintro label rfl
    exact absurd rfl hplace.1

theorem allocGoto (h : site.Trail script start ws) {label : NodeId}
    (hlabel : site.LeadsBackTo script label) :
    site.Trail script start { ws with tree := ws.tree.alloc site.ins.offset (.goto label) } := by
  refine h.setTree (h.tree.alloc (by simp) (makes_of_operands Tree.node_alloc_nextId
    (by simp [Node.kind]) (by simp [Node.operands]) ?_ (by simp [Node.kind]))) (by simp)
  rintro other heq
  cases heq
  exact hlabel

theorem emit (h : site.Trail script start ws) {s : NodeId} (hs : IsNew start s) :
    site.Trail script start { ws with tree := ws.tree.pushStatement site.block s } :=
  h.setTree (h.tree.pushStatement hs) (by simp)

theorem jump (h : site.Trail script start ws) {label : NodeId}
    (hlabel : site.LeadsBackTo script label) :
    site.Trail script start { ws with
      tree := ((ws.tree.alloc site.ins.offset (.block [])).alloc site.ins.offset
        (.goto label)).pushStatement ws.tree.nextId
          (ws.tree.alloc site.ins.offset (.block [])).nextId } := by
  have hempty : site.Makes script start (ws.tree.alloc site.ins.offset (.block []))
      ws.tree.nextId := makes_block Tree.node_alloc_nextId
  have hblock := h.setTree (h.tree.alloc (by simp) hempty) (by simp)
  have hgoto := hblock.allocGoto hlabel
  refine hgoto.setTree (hgoto.tree.pushGoto h.tree.size ?_ ?_
    Tree.node_alloc_nextId hblock.tree.size) (by simp)
  · rw [Tree.node_alloc_of_lt (by simp), Tree.node_alloc_nextId]
  · rw [Tree.size_alloc, Tree.size_alloc, Tree.nextId_index]
    omega

theorem isNew_nextId (h : site.Trail script start ws) : IsNew start ws.tree.nextId := h.tree.size

theorem setContext (h : site.Trail script start ws) {context : Context}
    (hcalls : context.calls = ws.context.calls) (hstack : context.stack.Sublist ws.context.stack)
    (hsaved : ∀ block, context.savedAction = some block → ws.context.savedAction = some block ∨
      ∃ key, (key, block) ∈ ws.blocks) :
    site.Trail script start { ws with context } where
  tree := h.tree
  context :=
    { calls := hcalls.trans h.context.calls
      word := fun word hword => h.context.word word (hstack.subset hword)
      ordered := fun hstart => (h.context.ordered hstart).shrink hstack }
  saved := fun block hblock => (hsaved block hblock).elim (h.saved block) .inr
  outer := h.outer
  blocks := h.blocks

/-- A new word is pushed that is newer than those on the stack. -/
theorem push (h : site.Trail script start ws) {slot : NodeId} (hnew : IsNew start slot)
    (hlt : slot.index < ws.tree.size)
    (hlast : start.context.Ordered start.tree.size →
      ∀ word ∈ ws.context.stack, word.slot.index < slot.index) :
    site.Trail script start { ws with context := ws.context.push slot } where
  tree := h.tree
  context :=
    { calls := h.context.calls
      word := fun word hword => by
        rcases List.mem_cons.1 hword with rfl | hword
        · refine .inr ⟨hnew, ?_⟩
          rw [Context.current, Context.current, Context.top, Context.top, h.context.calls]
        · exact h.context.word word hword
      ordered := fun hstart => by
        have hold := h.context.ordered hstart
        refine ⟨List.pairwise_cons.2 ⟨hlast hstart, hold.descending⟩, fun word hword => ?_⟩
        rcases List.mem_cons.1 hword with rfl | hword
        · exact hlt
        · exact hold.bound word hword }
  saved := h.saved
  outer := h.outer
  blocks := h.blocks

theorem current (h : site.Trail script start ws) : ws.context.current = start.context.current := by
  rw [Context.current, Context.current, Context.top, Context.top, h.context.calls]

end Trail

/-- The context with `count` words taken so far, and nothing else done to it. -/
def Taking (start : Workspace) (count : Nat) (ctx : Context) : Prop :=
  ctx = { start.context with stack := start.context.stack.drop count }

/-- Run on a trail whose context satisfies `I`, `x` stays on the trail, failing or not; what it
yields, and the context then, satisfy `Q`. -/
def Obtains {α : Type} (site : Site) (script : Script) (start : Workspace) (I : Context → Prop)
    (x : Lift α) (Q : α → Context → Prop) : Prop :=
  ∀ ws, site.Trail script start ws → I ws.context →
    site.Trail script start (Lift.left (x ws)) ∧
      ∀ a ws', x ws = .ok a ws' → Q a ws'.context ∧ ws.tree.size ≤ ws'.tree.size

/-- `x` leaves the context alone, and what it yields satisfies `P`. -/
def Steady {α : Type} (site : Site) (script : Script) (start : Workspace) (x : Lift α)
    (P : α → Prop) : Prop :=
  ∀ I, site.Obtains script start I x fun a ctx => P a ∧ I ctx

section Rules

variable {α β : Type} {I : Context → Prop} {P : α → Prop} {Q : α → Context → Prop}
  {R : β → Context → Prop}

namespace Obtains

theorem pure {a : α} (h : ∀ ctx, I ctx → Q a ctx) :
    site.Obtains script start I (Pure.pure a : Lift α) Q := by
  intro ws hws hI
  refine ⟨hws, ?_⟩
  rintro b ws' hrun
  cases hrun
  exact ⟨h _ hI, Nat.le_refl _⟩

theorem throw (fault : Error) :
    site.Obtains script start I (MonadExcept.throw fault : Lift α) Q := by
  intro ws hws _
  refine ⟨hws, ?_⟩
  rintro b ws' hrun
  cases hrun

theorem bind {x : Lift α} {f : α → Lift β} (hx : site.Obtains script start I x Q)
    (hf : ∀ a, site.Obtains script start (Q a) (f a) R) :
    site.Obtains script start I (x >>= f) R := by
  intro ws hws hI
  obtain ⟨htrail, hresult⟩ := hx ws hws hI
  change site.Trail script start (Lift.left (EStateM.bind x f ws)) ∧
    ∀ b ws', EStateM.bind x f ws = .ok b ws' → R b ws'.context ∧ ws.tree.size ≤ ws'.tree.size
  unfold EStateM.bind
  cases hrun : x ws with
  | error fault mid =>
    rw [hrun] at htrail
    refine ⟨htrail, ?_⟩
    rintro b ws' h
    cases h
  | ok a mid =>
    rw [hrun] at htrail
    obtain ⟨hQ, hsize⟩ := hresult a mid hrun
    obtain ⟨hlast, hresult'⟩ := hf a mid htrail hQ
    refine ⟨hlast, fun b ws' h => ?_⟩
    obtain ⟨hR, hsize'⟩ := hresult' b ws' h
    exact ⟨hR, Nat.le_trans hsize hsize'⟩

theorem lift {p : Prop} {x : Lift α} (h : p → site.Obtains script start I x Q) :
    site.Obtains script start (fun ctx => p ∧ I ctx) x Q :=
  fun ws hws hI => h hI.1 ws hws hI.2

theorem post {x : Lift α} {Q' : α → Context → Prop} (h : site.Obtains script start I x Q)
    (hQ : ∀ a ctx, Q a ctx → Q' a ctx) : site.Obtains script start I x Q' := by
  intro ws hws hI
  obtain ⟨htrail, hresult⟩ := h ws hws hI
  refine ⟨htrail, fun a ws' hrun => ?_⟩
  obtain ⟨hQ', hsize⟩ := hresult a ws' hrun
  exact ⟨hQ a _ hQ', hsize⟩

theorem get : site.Obtains script start I (MonadState.get : Lift Workspace)
    fun ws ctx => (site.Trail script start ws ∧ I ws.context) ∧ I ctx := by
  intro ws hws hI
  refine ⟨hws, ?_⟩
  rintro a ws' hrun
  cases hrun
  exact ⟨⟨⟨hws, hI⟩, hI⟩, Nat.le_refl _⟩

theorem forM {f : α → Lift Unit} {xs : List α}
    (h : ∀ a ∈ xs, site.Obtains script start I (f a) fun _ => I) :
    site.Obtains script start I (xs.forM f) fun _ => I := by
  induction xs with
  | nil => exact pure fun _ hI => hI
  | cons a xs ih =>
    exact bind (h a List.mem_cons_self) fun _ => ih fun b hb => h b (List.mem_cons_of_mem _ hb)

/-- Each step takes its share of the words. -/
theorem mapM_taking {f : α → Lift β} {share : α → Nat} {limit : Nat} {P : β → Prop} (xs : List α)
    (h : ∀ a ∈ xs, ∀ count, count + share a ≤ limit →
      site.Obtains script start (Taking start count) (f a)
        fun b ctx => P b ∧ Taking start (count + share a) ctx)
    (count : Nat) (hlimit : count + total share xs ≤ limit) :
    site.Obtains script start (Taking start count) (xs.mapM f)
      fun bs ctx => (∀ b ∈ bs, P b) ∧ Taking start (count + total share xs) ctx := by
  induction xs generalizing count with
  | nil => exact pure fun _ hI => ⟨by simp, hI⟩
  | cons a xs ih =>
    rw [total_cons] at hlimit ⊢
    rw [List.mapM_cons]
    refine bind (h a List.mem_cons_self count (by omega)) fun b => lift fun hb => ?_
    refine bind (ih (fun c hc => h c (List.mem_cons_of_mem _ hc)) (count + share a) (by omega))
      fun bs => lift fun hbs => pure fun ctx hctx => ⟨?_, ?_⟩
    · intro c hc
      rcases List.mem_cons.1 hc with rfl | hc
      · exact hb
      · exact hbs c hc
    · rw [← Nat.add_assoc]
      exact hctx

end Obtains

namespace Steady

theorem pure {a : α} (h : P a) : site.Steady script start (Pure.pure a : Lift α) P :=
  fun _ => .pure fun _ hI => ⟨h, hI⟩

theorem throw (fault : Error) : site.Steady script start (MonadExcept.throw fault : Lift α) P :=
  fun _ => .throw fault

theorem obtains {x : Lift α} {f : α → Lift β} (hx : site.Steady script start x P)
    (hf : ∀ a, P a → site.Obtains script start I (f a) R) :
    site.Obtains script start I (x >>= f) R :=
  .bind (hx I) fun a => .lift (hf a)

theorem bind {x : Lift α} {f : α → Lift β} {P' : β → Prop} (hx : site.Steady script start x P)
    (hf : ∀ a, P a → site.Steady script start (f a) P') :
    site.Steady script start (x >>= f) P' :=
  fun I => hx.obtains fun a ha => hf a ha I

theorem mono {x : Lift α} {P' : α → Prop} (h : site.Steady script start x P)
    (hP : ∀ a, P a → P' a) : site.Steady script start x P' :=
  fun I => (h I).post fun a _ hQ => ⟨hP a hQ.1, hQ.2⟩

theorem get : site.Steady script start (MonadState.get : Lift Workspace)
    fun ws => site.Trail script start ws :=
  fun _ => Obtains.get.post fun _ _ h => ⟨h.1.1, h.2⟩

theorem of_tree {x : Lift α} (h : ∀ ws, site.Trail script start ws →
    ∃ a ws', x ws = .ok a ws' ∧ site.Trail script start ws' ∧ P a ∧ ws'.context = ws.context ∧
      ws.tree.size ≤ ws'.tree.size) : site.Steady script start x P := by
  intro I ws hws hI
  obtain ⟨a, ws', hrun, htrail, ha, hcontext, hsize⟩ := h ws hws
  rw [hrun]
  refine ⟨htrail, ?_⟩
  rintro b last heq
  cases heq
  exact ⟨⟨ha, hcontext ▸ hI⟩, hsize⟩

theorem mapM {f : α → Lift β} {P : β → Prop} {xs : List α}
    (h : ∀ a ∈ xs, site.Steady script start (f a) P) :
    site.Steady script start (xs.mapM f) fun bs => ∀ b ∈ bs, P b := by
  induction xs with
  | nil => exact pure (by simp)
  | cons a xs ih =>
    rw [List.mapM_cons]
    refine (h a List.mem_cons_self).bind fun b hb =>
      (ih fun c hc => h c (List.mem_cons_of_mem _ hc)).bind fun bs hbs => pure fun c hc => ?_
    rcases List.mem_cons.1 hc with rfl | hc
    · exact hb
    · exact hbs c hc

theorem forM {f : α → Lift Unit} {xs : List α}
    (h : ∀ a ∈ xs, site.Steady script start (f a) fun _ => True) :
    site.Steady script start (xs.forM f) fun _ => True :=
  fun I => (Obtains.forM fun a ha => (h a ha I).post fun _ _ hQ => hQ.2).post
    fun _ _ hI => ⟨trivial, hI⟩

theorem require (condition : Bool) (cause : Inconsistency) :
    site.Steady script start (site.require condition cause) fun _ => True := by
  unfold Site.require
  split
  · exact pure trivial
  · exact throw _

theorem check (result : Except Inconsistency α) :
    site.Steady script start (site.check result) fun a => result = .ok a := by
  cases result with
  | ok a => exact pure rfl
  | error cause => exact throw _

theorem alloc {node : Node} (hblock : node.kind ≠ .block)
    (hplace : node.kind ≠ .goto ∧ node.kind ≠ .label)
    (hoperand : ∀ o ∈ node.operands, site.Knows script start o.2) :
    site.Steady script start (site.alloc node) (IsNew start) :=
  of_tree fun _ hws =>
    ⟨_, _, rfl, hws.alloc hblock hplace fun o ho => .inl (hoperand o ho), hws.isNew_nextId, rfl,
      by simp⟩

theorem allocAction {routine : UInt16} {arguments : List NodeId}
    (h : ∀ a ∈ arguments, site.Holds script start .action a) :
    site.Steady script start (site.alloc (.action routine arguments)) (IsNew start) := by
  refine of_tree fun _ hws => ⟨_, _, rfl, hws.alloc (by simp [Node.kind]) (by simp [Node.kind])
    fun o ho => ?_, hws.isNew_nextId, rfl, by simp⟩
  rw [Node.kind]
  exact h _ (snd_mem_of_mem_mapIdx ho)

theorem allocGoto {label : NodeId} (hlabel : site.LeadsBackTo script label) :
    site.Steady script start (site.alloc (.goto label)) (IsNew start) :=
  of_tree fun _ hws => ⟨_, _, rfl, hws.allocGoto hlabel, hws.isNew_nextId, rfl, by simp⟩

theorem emit {s : NodeId} (hs : IsNew start s) :
    site.Steady script start (site.emit s) fun _ => True :=
  of_tree fun _ hws => ⟨_, _, rfl, hws.emit hs, trivial, rfl, by simp⟩

theorem record {node : Node} (hblock : node.kind ≠ .block)
    (hplace : node.kind ≠ .goto ∧ node.kind ≠ .label)
    (hoperand : ∀ o ∈ node.operands, site.Knows script start o.2) :
    site.Steady script start (site.alloc node >>= fun id => site.emit id) fun _ => True :=
  (alloc hblock hplace hoperand).bind fun _ hid => emit hid

end Steady

end Rules

section Handlers

variable {I : Context → Prop} {value left right : NodeId} {count : Nat}

theorem obtains_of_steady {α : Type} {x : Lift α}
    (h : site.Steady script start x fun _ => True) :
    site.Obtains script start I x fun _ _ => True :=
  (h I).post fun _ _ _ => trivial

theorem knows_pair {op : BinaryOp} {declares : Bool} (hleft : site.Knows script start left)
    (hright : site.Knows script start right) :
    ∀ o ∈ (Node.binary op left right declares).operands, site.Knows script start o.2 := by
  simp only [Node.operands, List.mem_cons, List.not_mem_nil, or_false]
  rintro o (rfl | rfl)
  · exact hleft
  · exact hright

theorem steady_binary (op : BinaryOp) (hleft : site.Knows script start left)
    (hright : site.Knows script start right) :
    site.Steady script start (site.alloc (.binary op left right false)) (IsNew start) :=
  .alloc (by simp [Node.kind]) (by simp [Node.kind]) (knows_pair hleft hright)

theorem steady_assign (declares : Bool) (hleft : site.Knows script start left)
    (hright : site.Knows script start right) :
    site.Steady script start
      (site.alloc (.binary .assign left right declares) >>= fun id => site.emit id)
      fun _ => True :=
  .record (by simp [Node.kind]) (by simp [Node.kind]) (knows_pair hleft hright)

theorem steady_slot (slot : Slot) :
    site.Steady script start (site.alloc (.slot slot)) (IsNew start) :=
  .alloc (by simp [Node.kind]) (by simp [Node.kind]) (by simp [Node.operands])

theorem steady_bindSlot (slot : Slot) (hvalue : site.Knows script start value) :
    site.Steady script start (site.bindSlot slot value) (IsNew start) :=
  (steady_slot slot).bind fun target htarget =>
    (Steady.alloc (by simp [Node.kind]) (by simp [Node.kind])
      (knows_pair (.inl htarget) hvalue)).bind fun _ hassign =>
        (Steady.emit hassign).bind fun _ _ => .pure htarget

/-- A slot that is pushed once it is declared. No word is pushed in between, so it is the newest. -/
theorem obtains_push {x : NodeId → Lift Unit} (slot : Slot)
    (hx : ∀ id, IsNew start id → site.Steady script start (x id) fun _ => True) :
    site.Obtains script start I
      (site.alloc (.slot slot) >>= fun id => x id >>= fun _ => Lift.push id) fun _ _ => True := by
  intro ws hws _
  let mid : Workspace := { ws with tree := ws.tree.alloc site.ins.offset (.slot slot) }
  have hmid : site.Trail script start mid :=
    hws.alloc (by simp [Node.kind]) (by simp [Node.kind]) (by simp [Node.operands])
  obtain ⟨htrail, hresult⟩ := hx ws.tree.nextId hws.isNew_nextId (· = ws.context) mid hmid rfl
  change site.Trail script start (Lift.left (EStateM.bind (x ws.tree.nextId)
    (fun _ => Lift.push ws.tree.nextId) mid)) ∧ ∀ a ws', EStateM.bind (x ws.tree.nextId)
    (fun _ => Lift.push ws.tree.nextId) mid = .ok a ws' → True ∧ ws.tree.size ≤ ws'.tree.size
  unfold EStateM.bind
  cases hrun : x ws.tree.nextId mid with
  | error fault last =>
    rw [hrun] at htrail
    refine ⟨htrail, ?_⟩
    rintro a ws' h
    cases h
  | ok _ last =>
    rw [hrun] at htrail
    obtain ⟨⟨-, hcontext⟩, hsize⟩ := hresult _ last hrun
    have hlt : ws.tree.size < last.tree.size := by
      rw [Tree.size_alloc] at hsize
      exact hsize
    refine ⟨htrail.push hws.isNew_nextId hlt fun hstart word hword => ?_, ?_⟩
    · have hold : word ∈ ws.context.stack := hcontext ▸ hword
      exact (hws.context.ordered hstart).bound word hold
    · rintro a ws' h
      cases h
      exact ⟨trivial, Nat.le_of_lt hlt⟩

theorem obtains_bindPush (slot : Slot) (hvalue : site.Knows script start value) :
    site.Obtains script start I (site.bindSlot slot value >>= fun id => Lift.push id)
      fun _ _ => True :=
  obtains_push (x := fun id => site.alloc (.binary .assign id value true) >>= fun assign =>
    site.emit assign) slot fun _ hid => steady_assign true (.inl hid) hvalue

theorem mem_taken {word : Word} {size : Nat}
    (hlimit : count + size ≤ site.ins.takes script.routines)
    (hword : word ∈ (start.context.stack.drop count).take size) :
    site.Knows script start word.slot := by
  refine .inr (.taken ?_)
  rw [List.take_drop] at hword
  exact List.take_subset_take_left _ hlimit (List.mem_of_mem_drop hword)

theorem obtains_popMany (size : Nat) (hlimit : count + size ≤ site.ins.takes script.routines) :
    site.Obtains script start (Taking start count) (site.popMany size) fun slots ctx =>
      (∀ s ∈ slots, site.Knows script start s) ∧ Taking start (count + size) ctx := by
  intro ws hws hI
  rw [popMany_eq]
  cases hpop : ws.context.popMany size with
  | error cause =>
    refine ⟨hws, ?_⟩
    rintro a ws' h
    cases h
  | ok popped =>
    obtain ⟨words, context⟩ := popped
    obtain ⟨-, rfl, rfl⟩ := Context.popMany_eq_ok hpop
    refine ⟨hws.setContext rfl (List.drop_sublist _ _) fun block hblock => .inl hblock, ?_⟩
    rintro slots ws' hrun
    cases hrun
    refine ⟨⟨fun s hs => ?_, ?_⟩, Nat.le_refl _⟩
    · obtain ⟨word, hword, rfl⟩ := List.mem_map.1 hs
      rw [hI, List.mem_reverse] at hword
      exact mem_taken hlimit hword
    · simp only [Taking] at hI ⊢
      rw [hI, List.drop_drop]

theorem obtains_pop (hlimit : count + 1 ≤ site.ins.takes script.routines) :
    site.Obtains script start (Taking start count) site.pop
      fun slot ctx => site.Knows script start slot ∧ Taking start (count + 1) ctx := by
  intro ws hws hI
  rw [pop_eq]
  cases hpop : ws.context.pop with
  | error cause =>
    refine ⟨hws, ?_⟩
    rintro a ws' h
    cases h
  | ok popped =>
    obtain ⟨word, context⟩ := popped
    obtain ⟨hstack, hcontext⟩ := Context.pop_eq_ok hpop
    have hdrop : start.context.stack.drop count = word :: context.stack := by rw [← hstack, hI]
    refine ⟨hws.setContext (by rw [hcontext]) (by rw [hstack]; exact List.sublist_cons_self _ _)
      fun block hblock => .inl (by rw [hcontext] at hblock; exact hblock), ?_⟩
    rintro slot ws' hrun
    cases hrun
    refine ⟨⟨mem_taken hlimit (by rw [hdrop]; simp), ?_⟩, Nat.le_refl _⟩
    simp only [Taking] at hI ⊢
    rw [hcontext, hI, ← List.drop_drop, hdrop, List.drop_one, List.tail_cons]

theorem obtains_popVector (hlimit : count + 3 ≤ site.ins.takes script.routines) :
    site.Obtains script start (Taking start count) site.popVector
      fun slot ctx => site.Knows script start slot ∧ Taking start (count + 3) ctx := by
  refine .bind (obtains_popMany 3 hlimit) fun words => .lift fun hwords => ?_
  have hfloat : ∀ name slot, site.Steady script start (site.requireFloat name slot) fun _ => True :=
    fun name slot => Steady.get.bind fun _ _ => .require _ _
  split
  · next x y z =>
    refine (hfloat _ _).obtains fun _ _ => (hfloat _ _).obtains fun _ _ =>
      (hfloat _ _).obtains fun _ _ => ?_
    have hvector : site.Steady script start (site.alloc (.vector x y z)) (IsNew start) := by
      refine .alloc (by simp [Node.kind]) (by simp [Node.kind]) ?_
      simp only [Node.operands, List.mem_cons, List.not_mem_nil, or_false]
      rintro o (rfl | rfl | rfl) <;> exact hwords _ (by simp)
    exact (hvector _).post fun id _ h => ⟨.inl h.1, h.2⟩
  · exact .throw _

theorem obtains_popPair (shape : Shape) (hlimit : shape.words ≤ site.ins.takes script.routines) :
    site.Obtains script start (Taking start 0) (site.popPair shape)
      fun pair _ => site.Knows script start pair.1 ∧ site.Knows script start pair.2 := by
  cases shape with
  | scalar =>
    exact .bind (obtains_pop (Nat.le_trans (by decide) hlimit)) fun _ => .lift fun hright =>
      .bind (obtains_pop hlimit) fun _ => .lift fun hleft => .pure fun _ _ => ⟨hleft, hright⟩
  | vectorVector =>
    exact .bind (obtains_popVector (Nat.le_trans (by decide) hlimit)) fun _ => .lift fun hright =>
      .bind (obtains_popVector hlimit) fun _ => .lift fun hleft => .pure fun _ _ => ⟨hleft, hright⟩
  | floatVector =>
    exact .bind (obtains_popVector (Nat.le_trans (by decide) hlimit)) fun _ => .lift fun hright =>
      .bind (obtains_pop hlimit) fun _ => .lift fun hleft => .pure fun _ _ => ⟨hleft, hright⟩
  | vectorFloat =>
    exact .bind (obtains_pop (Nat.le_trans (by decide) hlimit)) fun _ => .lift fun hright =>
      .bind (obtains_popVector hlimit) fun _ => .lift fun hleft => .pure fun _ _ => ⟨hleft, hright⟩

theorem obtains_pushComponent (hvalue : site.Knows script start value) (name : String)
    (index : Nat) :
    site.Obtains script start I (site.pushComponent value name index) fun _ _ => True := by
  refine obtains_push (x := fun id => site.alloc (.component value index) >>= fun part =>
    site.alloc (.binary .assign id part true) >>= fun assign => site.emit assign) _ fun id hid => ?_
  have hpart : site.Steady script start (site.alloc (.component value index)) (IsNew start) :=
    .alloc (by simp [Node.kind]) (by simp [Node.kind]) (by simpa [Node.operands] using hvalue)
  exact hpart.bind fun part hnew => steady_assign true (.inl hid) (.inl hnew)

theorem obtains_produce (type : ValueType) (hvalue : site.Knows script start value) :
    site.Obtains script start I (site.produce type value) fun _ _ => True := by
  unfold produce
  split
  · refine (steady_bindSlot _ hvalue).obtains fun result hresult => ?_
    exact .bind (obtains_pushComponent (.inl hresult) _ _) fun _ =>
      .bind (obtains_pushComponent (.inl hresult) _ _) fun _ =>
        obtains_pushComponent (.inl hresult) _ _
  · exact obtains_bindPush _ hvalue

theorem obtains_declareBare (type : ValueType) :
    site.Obtains script start I (site.declareBare type) fun _ _ => True :=
  obtains_push (x := fun id => site.emit id) _ fun _ hid => .emit hid

theorem obtains_load : site.Obtains script start I site.load fun _ _ => True := by
  unfold load
  split
  · next literal _ =>
    have hliteral : site.Steady script start (site.alloc (.literal literal)) (IsNew start) :=
      .alloc (by simp [Node.kind]) (by simp [Node.kind]) (by simp [Node.operands])
    exact hliteral.obtains fun _ hnew => obtains_bindPush _ (.inl hnew)
  · exact .throw _

theorem obtains_applyUnary (op : UnaryOp) (hlimit : 1 ≤ site.ins.takes script.routines) :
    site.Obtains script start (Taking start 0) (site.applyUnary op) fun _ _ => True := by
  refine .bind (obtains_pop hlimit) fun operand => .lift fun hoperand =>
    Steady.get.obtains fun _ _ => ?_
  have hvalue : site.Steady script start (site.alloc (.unary op operand)) (IsNew start) :=
    .alloc (by simp [Node.kind]) (by simp [Node.kind]) (by simpa [Node.operands] using hoperand)
  exact hvalue.obtains fun _ hnew => obtains_bindPush _ (.inl hnew)

theorem obtains_applyBinary (operation : BinaryOperation)
    (hlimit : operation.shape.words ≤ site.ins.takes script.routines) :
    site.Obtains script start (Taking start 0) (site.applyBinary operation) fun _ _ => True := by
  refine .bind (obtains_popPair _ hlimit) fun pair ws hws hpair => ?_
  exact (steady_binary _ hpair.1 hpair.2).obtains (I := fun _ => True)
    (fun _ hnew => obtains_produce _ (.inl hnew)) ws hws trivial

theorem steady_compareWord (relation join : BinaryOp) (index : Nat) {words : NodeId × NodeId}
    (hresult : IsNew start value) (hleft : site.Knows script start words.1)
    (hright : site.Knows script start words.2) :
    site.Steady script start (site.compareWord relation join value index words) fun _ => True := by
  refine (steady_binary relation hleft hright).bind fun word hword => ?_
  split
  · exact steady_assign true (.inl hresult) (.inl hword)
  · exact (steady_binary join (.inl hresult) (.inl hword)).bind fun joined hjoined =>
      steady_assign false (.inl hresult) (.inl hjoined)

theorem obtains_compare
    (hlimit : site.ins.size.toNat / 4 + site.ins.size.toNat / 4 ≤ site.ins.takes script.routines) :
    site.Obtains script start (Taking start 0) site.compare fun _ _ => True := by
  refine (Steady.require _ _).obtains fun _ _ => ?_
  refine .bind (obtains_popMany _ (by omega)) fun rights => .lift fun hrights => ?_
  refine .bind (obtains_popMany _ (by omega)) fun lefts => .lift fun hlefts => ?_
  refine obtains_push (x := fun result => (lefts.zip rights).zipIdx.forM fun words =>
    site.compareWord site.ins.opcode.comparison.1 site.ins.opcode.comparison.2 result words.2
      words.1) _ fun result hresult =>
      .forM fun words hwords => ?_
  obtain ⟨hleft, hright⟩ := List.of_mem_zip (List.fst_mem_of_mem_zipIdx hwords)
  exact steady_compareWord _ _ _ hresult (hlefts _ hleft) (hrights _ hright)

/-- An argument takes its words, or is the saved state. -/
theorem obtains_actionArgument (routine : Routine) (index : Nat)
    (hlimit : count + routine.argumentWords index ≤ site.ins.takes script.routines) :
    site.Obtains script start (Taking start count) (site.actionArgument routine index)
      fun slot ctx => site.Holds script start .action slot ∧
        Taking start (count + routine.argumentWords index) ctx := by
  have hknown : ∀ {x : Lift NodeId} {more : Nat},
      site.Obtains script start (Taking start count) x
        (fun slot ctx => site.Knows script start slot ∧ Taking start (count + more) ctx) →
      site.Obtains script start (Taking start count) x
        fun slot ctx => site.Holds script start .action slot ∧ Taking start (count + more) ctx :=
    fun hx => hx.post fun _ _ h => ⟨.inl h.1, h.2⟩
  unfold Routine.argumentWords at hlimit ⊢
  unfold actionArgument
  split
  · exact .throw _
  · next htype =>
    simp only [htype] at hlimit ⊢
    exact hknown (obtains_popVector hlimit)
  · next htype =>
    simp only [htype] at hlimit ⊢
    -- Words are taken, but nothing else happens to the context meanwhile.
    refine .bind .get fun ws => .lift fun hws => ?_
    split
    · next block hblock =>
      rw [hws.2] at hblock
      exact .pure fun _ hctx => ⟨.inr ⟨rfl, hblock⟩, hctx⟩
    · exact .throw _
  · next type hvector haction htype =>
    have hwords : (match routine.argumentType? index with
        | none | some .action => 0
        | some .vector => 3
        | some _ => 1) = 1 := by
      rw [htype]
      cases type <;> simp_all
    rw [hwords] at hlimit ⊢
    exact hknown (obtains_pop hlimit)

theorem knows_arguments {arguments : List NodeId} {role : Nat → Role}
    (h : ∀ a ∈ arguments, site.Knows script start a) :
    ∀ o ∈ arguments.mapIdx fun i a => (role i, a), site.Knows script start o.2 :=
  fun _ ho => h _ (snd_mem_of_mem_mapIdx ho)

theorem obtains_action (hop : site.ins.opcode.operation = .action) :
    site.Obtains script start (Taking start 0) (site.action script.routines) fun _ _ => True := by
  unfold action
  split
  · exact .throw _
  · next routine hroutine =>
    have hlimit : 0 + total routine.argumentWords (List.range site.ins.arity.toNat) ≤
        site.ins.takes script.routines := by
      simp [Instruction.takes, hop, hroutine]
    refine .bind (.mapM_taking _ (fun index _ _ => obtains_actionArgument routine index) 0 hlimit)
      fun arguments => .lift fun harguments => ?_
    have hcall : site.Steady script start (site.alloc (.action site.ins.routine arguments))
        (IsNew start) := .allocAction harguments
    by_cases hvoid : routine.result = .void
    · simp only [hvoid, if_true]
      exact obtains_of_steady (hcall.bind fun _ hnew => .emit hnew)
    · simp only [hvoid, if_false]
      exact hcall.obtains fun _ hnew => obtains_produce _ (.inl hnew)

theorem steady_argument (position : Int) (type : ValueType) (how : Access) :
    site.Steady script start (site.argument position type how) (site.Knows script start) := by
  refine .of_tree fun ws hws => ?_
  unfold argument
  cases hlookup : ws.outer.lookup position with
  | some slot =>
    refine ⟨_, _, rfl, hws.setTree (hws.tree.modifySlot fun _ => rfl) (by simp), ?_, rfl, by simp⟩
    exact (hws.outer _ (mem_of_lookup hlookup)).symm.imp_right .argument
  | none =>
    let fresh : Slot := { type, storage := .argument, position := some position }
    have halloc : site.Trail script start
        { ws with tree := ws.tree.alloc site.ins.offset (.slot (fresh.mark how)) } :=
      hws.alloc (by simp [Node.kind]) (by simp [Node.kind]) (by simp [Node.operands])
    refine ⟨_, _, rfl, ⟨halloc.tree, halloc.context, halloc.saved, fun argument hargument => ?_,
      halloc.blocks⟩,
      .inl hws.isNew_nextId, rfl, by simp⟩
    rcases mem_insert hargument with rfl | hargument
    · exact .inr hws.isNew_nextId
    · exact hws.outer argument hargument

/-- A word is reached directly only if it is a global or belongs to the subroutine in progress. -/
theorem steady_access (hop : site.ins.opcode.operation ≠ .saveBase) (index : Nat) (how : Access) :
    site.Steady script start (site.access index how) (site.Knows script start) := by
  refine Steady.get.bind fun ws hws => (Steady.check _).bind fun word hword => ?_
  split
  · dsimp only
    split
    · exact steady_argument _ _ _
    · exact .throw _
  · next houter =>
    refine .pure ?_
    rcases hws.context.word word (mem_of_word hword) with hold | ⟨hnew, -⟩
    · by_cases hlt : word.slot.index < start.tree.size
      · simp only [Context.isOuter, hws.current, ne_eq, Bool.and_eq_true, decide_eq_true_eq,
          Bool.not_eq_true', decide_eq_false_iff_not, not_and, Decidable.not_not] at houter
        by_cases howner : word.owner = start.context.current
        · exact .inr (.own hold howner)
        · rcases hws.tree.storage _ hlt with hsame | ⟨-, hsave⟩
          · exact .inr (.global (hsame ▸ houter howner))
          · exact absurd hsave hop
      · exact .inl (Nat.le_of_not_lt hlt)
    · exact .inl hnew

theorem steady_below : site.Steady script start site.below fun _ => True := by
  unfold below
  split
  · exact .pure trivial
  · exact .throw _

theorem steady_addressed : site.Steady script start site.addressed fun _ => True :=
  steady_below.bind fun _ _ => Steady.get.bind fun _ _ => (Steady.check _).mono fun _ _ => trivial

theorem steady_retype (left right : NodeId) :
    site.Steady script start (Lift.retype left right) fun _ => True := by
  refine .of_tree fun ws hws => ?_
  refine ⟨(), _, rfl, ?_⟩
  dsimp only
  split
  · exact ⟨hws.setTree (hws.tree.modifySlot fun _ => rfl) (by simp), trivial, rfl, by simp⟩
  · exact ⟨hws, trivial, rfl, Nat.le_refl _⟩

theorem mem_take_of_word {ctx : Context} {index size : Nat} {word : Word} (hindex : index < size)
    (h : ctx.word (ctx.depth - 1 - index) = .ok word) : word ∈ ctx.stack.take size := by
  unfold Context.word at h
  split at h
  · next hget =>
    cases h
    have hlt : ctx.depth - 1 - index < ctx.stack.reverse.length :=
      (List.getElem?_eq_some_iff.1 hget).1
    rw [List.length_reverse] at hlt
    rw [List.getElem?_reverse hlt] at hget
    refine List.mem_of_getElem? (i := ctx.stack.length - 1 - (ctx.depth - 1 - index)) ?_
    rw [List.getElem?_take, if_pos (by rw [Context.depth] at *; omega), hget]
  · cases h

theorem obtains_copyDown (hop : site.ins.opcode.operation ≠ .saveBase)
    (hlimit : site.ins.size.toNat / 4 ≤ site.ins.takes script.routines) :
    site.Obtains script start (Taking start 0) site.copyDown fun _ _ => True := by
  refine steady_addressed.obtains fun first _ => Steady.get.obtains fun _ _ =>
    (Steady.require _ _).obtains fun _ _ => ?_
  refine (Obtains.forM fun i hi => ?_).post fun _ _ _ => trivial
  refine .bind .get fun ws => .lift fun hws => (Steady.check _).obtains fun word hword => ?_
  obtain ⟨-, htaking⟩ := hws
  have htaken : site.Knows script start word.slot := by
    rw [htaking] at hword
    have htake : word ∈ (start.context.stack.drop 0).take (site.ins.size.toNat / 4) :=
      mem_take_of_word (List.mem_range.1 hi) hword
    exact mem_taken (by omega) htake
  exact (steady_access hop _ _).obtains fun left hleft => (steady_retype _ _).obtains fun _ _ =>
    (steady_assign false hleft htaken _).post fun _ _ h => h.2

theorem obtains_copyTop (hop : site.ins.opcode.operation ≠ .saveBase) :
    site.Obtains script start I site.copyTop fun _ _ => True := by
  refine steady_addressed.obtains fun first _ => ?_
  refine fun ws hws _ => Obtains.forM (I := fun _ => True) (fun i _ => ?_) ws hws trivial
  exact (steady_access hop _ _).obtains fun source hsource => Steady.get.obtains fun _ _ =>
    obtains_bindPush _ hsource

theorem obtains_release : site.Obtains script start I site.release fun _ _ => True := by
  refine steady_below.obtains fun position _ => .bind (Q := fun _ _ => True) (fun ws hws _ => ?_)
    fun _ => .pure fun _ _ => trivial
  rw [popMany_eq]
  cases hpop : ws.context.popMany (position.natAbs / 4) with
  | error cause =>
    refine ⟨hws, ?_⟩
    rintro a ws' h
    cases h
  | ok popped =>
    obtain ⟨words, context⟩ := popped
    obtain ⟨-, -, rfl⟩ := Context.popMany_eq_ok hpop
    refine ⟨hws.setContext rfl (List.drop_sublist _ _) fun block hblock => .inl hblock, ?_⟩
    rintro slots ws' hrun
    cases hrun
    exact ⟨trivial, Nat.le_refl _⟩

theorem sublist_kept (stack : List Word) (size first last : Nat) :
    ((((stack.take size).reverse.take last).drop first).reverse ++ stack.drop size).Sublist
      stack := by
  have hkept : (((stack.take size).reverse.take last).drop first).Sublist
      (stack.take size).reverse :=
    (List.drop_sublist _ _).trans (List.take_sublist _ _)
  have hreverse := hkept.reverse
  rw [List.reverse_reverse] at hreverse
  have hall := hreverse.append_right (stack.drop size)
  rwa [List.take_append_drop] at hall

theorem obtains_destruct : site.Obtains script start I site.destruct fun _ _ => True := by
  unfold destruct
  split
  · exact .throw _
  · intro ws hws _
    dsimp only
    rw [destructWords_eq]
    split
    · cases hpop : ws.context.popMany (site.ins.size.toNat / 4) with
      | error cause =>
        refine ⟨hws, ?_⟩
        rintro a ws' h
        cases h
      | ok popped =>
        obtain ⟨words, context⟩ := popped
        obtain ⟨-, rfl, rfl⟩ := Context.popMany_eq_ok hpop
        refine ⟨hws.setContext rfl (sublist_kept _ _ _ _) fun block hblock => .inl hblock, ?_⟩
        rintro slots ws' hrun
        cases hrun
        exact ⟨trivial, Nat.le_refl _⟩
    · refine ⟨hws, ?_⟩
      rintro a ws' h
      cases h

theorem steady_applyStep (hop : site.ins.opcode.operation ≠ .saveBase) (op : UnaryOp) :
    site.Steady script start (site.applyStep op) fun _ => True :=
  steady_addressed.bind fun _ _ => (steady_access hop _ _).bind fun _ htarget =>
    .record (by simp [Node.kind]) (by simp [Node.kind]) (by simpa [Node.operands] using htarget)

theorem steady_targetLabel (hback : Lift.needsLabel site.ins) :
    site.Steady script start (site.targetLabel script.labels) (site.LeadsBackTo script) := by
  unfold targetLabel
  split
  · next label hlookup => exact .pure ⟨hback, hlookup⟩
  · exact .throw _

theorem steady_jump (hop : site.ins.opcode.operation = .jump) :
    site.Steady script start (site.jump script.labels) fun _ => True := by
  unfold jump
  split
  · exact .pure trivial
  · next hjump =>
    refine Steady.bind (P := fun _ => True) ?_ fun _ _ => .pure trivial
    have hgoto : site.Steady script start (site.targetLabel script.labels >>= fun label =>
        site.alloc (.goto label) >>= fun goto => site.emit goto) fun _ => True :=
      (steady_targetLabel (Lift.needsLabel_of_jump hop hjump)).bind fun label hlabel =>
        (Steady.allocGoto hlabel).bind fun _ hnew => .emit hnew
    have hwarn : site.Steady script start site.warnSelfJump fun _ => True :=
      .of_tree fun ws hws =>
        ⟨(), _, rfl, hws.setTree (hws.tree.of_exprs_eq rfl) (Nat.le_refl _), trivial, rfl,
          Nat.le_refl _⟩
    unfold jumpBack
    dsimp only
    split
    · exact hwarn.bind fun _ _ => hgoto
    · exact hgoto

theorem schedule_trail {ws : Workspace} (hws : site.Trail script start ws) (offset : Nat) :
    ∃ depth block ws', Lift.schedule offset ws = .ok block ws' ∧ site.Trail script start ws' ∧
      ((offset, depth), block) ∈ ws'.blocks ∧ ws'.context = ws.context ∧ ws.tree.size ≤ ws'.tree.size := by
  unfold Lift.schedule
  dsimp only
  cases hlookup : ws.blocks.lookup (offset, ws.context.depth) with
  | some block => exact ⟨_, block, ws, rfl, hws, mem_of_lookup hlookup, rfl, Nat.le_refl _⟩
  | none =>
    have hempty : site.Makes script start (ws.tree.alloc offset (.block [])) ws.tree.nextId :=
      makes_block Tree.node_alloc_nextId
    have htree := hws.setTree (hws.tree.alloc (by simp) hempty) (by simp)
    refine ⟨_, _, _, rfl, ⟨htree.tree, htree.context, fun block hblock => ?_, htree.outer,
      fun block hblock => ?_⟩, List.mem_cons_self, rfl, by simp⟩
    · exact (hws.saved block hblock).imp_right fun ⟨key, hkey⟩ => ⟨key, List.mem_cons_of_mem _ hkey⟩
    · rcases List.mem_cons.1 hblock with rfl | hblock
      · exact .inr hws.isNew_nextId
      · exact hws.blocks block hblock

theorem steady_schedule (hjump : 0 < site.ins.jump) :
    site.Steady script start (Lift.schedule site.ins.target) (site.Knows script start) := by
  refine .of_tree fun ws hws => ?_
  obtain ⟨depth, block, ws', hrun, htrail, hmem, hcontext, hsize⟩ :=
    schedule_trail hws site.ins.target
  refine ⟨block, ws', hrun, htrail, ?_, hcontext, hsize⟩
  exact (htrail.blocks _ hmem).symm.imp_right fun hold => .block hold rfl hjump

theorem steady_branchBlock (hop : site.ins.opcode.operation = .branch) :
    site.Steady script start (site.branchBlock script.labels) (site.Knows script start) := by
  unfold branchBlock
  split
  · next hjump => exact steady_schedule hjump
  · next hjump =>
    refine (steady_targetLabel (Lift.needsLabel_of_branch hop hjump)).bind fun label hlabel =>
      .of_tree fun ws hws => ?_
    refine ⟨_, _, rfl, hws.jump hlabel, .inl hws.isNew_nextId, rfl, ?_⟩
    rw [Tree.size_pushStatement, Tree.size_alloc, Tree.size_alloc]
    omega

theorem obtains_branch (hop : site.ins.opcode.operation = .branch)
    (hlimit : 1 ≤ site.ins.takes script.routines) :
    site.Obtains script start (Taking start 0) (site.branch script.labels)
      fun _ _ => True := by
  refine .bind (obtains_pop hlimit) fun operand => .lift fun hoperand => ?_
  have hzero : site.Steady script start (site.alloc (.literal (.int 0))) (IsNew start) :=
    .alloc (by simp [Node.kind]) (by simp [Node.kind]) (by simp [Node.operands])
  refine hzero.obtains fun zero hnew => (steady_binary _ hoperand (.inl hnew)).obtains
    fun test htest => (steady_branchBlock hop).obtains fun block hblock => ?_
  refine obtains_of_steady (.record (by simp [Node.kind]) (by simp [Node.kind]) ?_)
  simp only [Node.operands, List.mem_cons, List.not_mem_nil, or_false]
  rintro o (rfl | rfl)
  · exact .inl htest
  · exact hblock

theorem obtains_storeState (program : Program) :
    site.Obtains script start I (site.storeState program) fun _ _ => True := by
  have hjump : site.Steady script start (site.followingJump program) fun _ => True := by
    unfold followingJump
    split
    · exact .pure trivial
    · exact .throw _
  refine hjump.obtains fun jump _ ws hws _ => ?_
  obtain ⟨depth, block, mid, hrun, htrail, hmem, -, hsize⟩ := schedule_trail hws jump.next
  let save (ws : Workspace) : Workspace :=
    { ws with context := { ws.context with savedAction := some block } }
  have hresult : (Lift.schedule jump.next >>= fun block => (modify fun ws : Workspace =>
      { ws with context := { ws.context with savedAction := some block } } : Lift Unit)) ws =
        .ok () (save mid) := by
    change EStateM.bind _ _ ws = _
    unfold EStateM.bind
    rw [hrun]
    rfl
  rw [hresult]
  refine ⟨htrail.setContext rfl (List.Sublist.refl _) fun other hother => ?_, ?_⟩
  · cases hother
    exact .inr ⟨_, hmem⟩
  · rintro a ws' heq
    cases heq
    exact ⟨trivial, hsize⟩

theorem steady_call (hop : site.ins.opcode.operation ≠ .saveBase) (callee : SubId) :
    site.Steady script start (site.call callee) fun _ => True := by
  refine Steady.get.bind fun ws _ => (Steady.mapM fun formal _ => ?_).bind fun arguments hknown =>
    .record (by simp [Node.kind]) (by simp [Node.kind]) (knows_arguments hknown)
  exact Steady.get.bind fun _ _ => (Steady.check _).bind fun _ _ => steady_access hop _ _

theorem obtains_saveBase (hop : site.ins.opcode.operation = .saveBase) :
    site.Obtains script start I Lift.saveBase fun _ _ => True := by
  intro ws hws _
  let globalize (tree : Tree) (word : Word) : Tree :=
    tree.modifySlot word.slot fun s => { s with storage := .global }
  have hfold : ∀ (words : List Word) (tree : Tree), site.Grown script start tree →
      site.Grown script start (words.foldl globalize tree) ∧
        (words.foldl globalize tree).size = tree.size := by
    intro words
    induction words with
    | nil => exact fun tree htree => ⟨htree, rfl⟩
    | cons word words ih =>
      intro tree htree
      obtain ⟨hgrown, hsize⟩ := ih _ (htree.globalize hop word.slot)
      exact ⟨hgrown, hsize.trans (by simp)⟩
  obtain ⟨htree, hsize⟩ := hfold ws.context.stack ws.tree hws.tree
  have htrail := hws.setTree htree (Nat.le_of_eq hsize.symm)
  refine ⟨htrail.setContext rfl (List.Sublist.refl _) fun block hblock => .inl hblock, ?_⟩
  rintro a ws' hrun
  cases hrun
  exact ⟨trivial, Nat.le_of_eq hsize.symm⟩

theorem obtains_restoreBase : site.Obtains script start I Lift.restoreBase fun _ _ => True := by
  intro ws hws _
  refine ⟨hws.setContext rfl (List.Sublist.refl _) fun block hblock => .inl hblock, ?_⟩
  rintro a ws' hrun
  cases hrun
  exact ⟨trivial, Nat.le_refl _⟩

theorem steady_ret : site.Steady script start site.ret fun _ => True :=
  .record (by simp [Node.kind]) (by simp [Node.kind]) (by simp [Node.operands])

theorem obtains_onward {handler : Lift Unit}
    (h : site.Obtains script start I handler fun _ _ => True) :
    site.Obtains script start I (site.onward handler) fun _ _ => True :=
  .bind h fun _ => .pure fun _ _ => trivial

theorem obtains_execute (callees : List (Nat × SubId)) :
    site.Obtains script start (Taking start 0) (site.execute script callees) fun _ _ => True := by
  unfold execute
  cases hop : site.ins.opcode.operation with
  | nop => exact obtains_onward (.pure fun _ _ => trivial)
  | ret => exact obtains_of_steady (steady_ret.bind fun _ _ => .pure trivial)
  | jump => exact obtains_of_steady (steady_jump hop)
  | call =>
    dsimp only
    split
    · exact obtains_onward (obtains_of_steady (steady_call (by simp [hop]) _))
    · exact .pure fun _ _ => trivial
  | branch => exact obtains_onward (obtains_branch hop (by simp [Instruction.takes, hop]))
  | reserve =>
    obtain ⟨type, -, hrun⟩ := reserve_eq hop
    exact obtains_onward (hrun ▸ obtains_declareBare type)
  | load => exact obtains_onward obtains_load
  | action => exact obtains_onward (obtains_action hop)
  | copyDown =>
    exact obtains_onward (obtains_copyDown (by simp [hop]) (by simp [Instruction.takes, hop]))
  | copyTop => exact obtains_onward (obtains_copyTop (by simp [hop]))
  | release => exact obtains_onward obtains_release
  | destruct => exact obtains_onward obtains_destruct
  | step =>
    obtain ⟨op, -, hrun⟩ := step_eq hop
    exact obtains_onward (obtains_of_steady (hrun ▸ steady_applyStep (by simp [hop]) op))
  | unary =>
    obtain ⟨op, -, hrun⟩ := unary_eq hop
    exact obtains_onward (hrun ▸ obtains_applyUnary op (by simp [Instruction.takes, hop]))
  | compare => exact obtains_onward (obtains_compare (by simp [Instruction.takes, hop]))
  | storeState => exact obtains_onward (obtains_storeState _)
  | saveBase => exact obtains_onward (obtains_saveBase hop)
  | restoreBase => exact obtains_onward obtains_restoreBase
  | binary =>
    obtain ⟨operation, hrow, hrun⟩ := binary_eq hop
    exact obtains_onward
      (hrun ▸ obtains_applyBinary operation (by simp [Instruction.takes, hop, hrow]))

end Handlers

/-- The label of the instruction is placed before anything else. -/
theorem placeLabel_trail (script : Script) (hblock : site.block.index < start.tree.size)
    (hkind : start.tree.kind site.block = .block) :
    site.Trail script start (Lift.left (site.placeLabel script.labels start)) ∧
      (Lift.left (site.placeLabel script.labels start)).context = start.context := by
  have hfollows : Follows start start.tree.size start.context :=
    ⟨rfl, fun _ hword => .inl hword, fun hstart => hstart⟩
  have hnone : ∀ {id : NodeId}, IsNew start id → ¬id.index < start.tree.size :=
    fun hnew hlt => absurd hlt (Nat.not_lt.2 hnew)
  unfold placeLabel
  cases hlookup : script.labels.lookup site.ins.offset with
  | none =>
    refine ⟨⟨⟨hblock, Nat.le_refl _, fun id hnew hlt => absurd hlt (hnone hnew),
      ⟨[], by simp [hlookup, Lift.left, Pure.pure, EStateM.pure], by simp⟩, fun id _ => .inl rfl⟩,
      hfollows, fun _ h => .inl h, fun _ h => .inl h, fun _ h => .inl h⟩, rfl⟩
  | some label =>
    refine ⟨⟨⟨hblock, ?_, fun id hnew hlt => ?_, ⟨[], ?_, by simp⟩, fun id _ => .inl ?_⟩, ?_,
      fun _ h => .inl h, fun _ h => .inl h, fun _ h => .inl h⟩, rfl⟩
    · exact Nat.le_of_eq Tree.size_pushStatement.symm
    · exact absurd (Tree.size_pushStatement ▸ hlt) (hnone hnew)
    · rw [hlookup, List.append_nil]
      exact Tree.statements_modifyStatements_self _ hkind hblock
    · exact Tree.storage?_pushStatement
    · have hsize : (start.tree.pushStatement site.block label).size = start.tree.size :=
        Tree.size_pushStatement
      change Follows start (start.tree.pushStatement site.block label).size start.context
      rw [hsize]
      exact hfollows

theorem visit_trail (site : Site) (script : Script) (callees : List (Nat × SubId))
    (start : Workspace) (hblock : site.block.index < start.tree.size)
    (hkind : start.tree.kind site.block = .block) :
    site.Trail script start (Lift.left (site.visit script callees start)) := by
  obtain ⟨htrail, hcontext⟩ := placeLabel_trail script hblock hkind
  change site.Trail script start (Lift.left (EStateM.bind _ _ start))
  unfold EStateM.bind
  rw [placeLabel_eq_ok]
  refine (obtains_execute callees _ htrail ?_).1
  rw [hcontext]
  rfl

end Site

end ScriptLift
