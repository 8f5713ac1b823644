import ScriptLift.Proofs.Compact.Grounding
import ScriptLift.Proofs.Dataflow.Walks

/-! How often slots are read and written.

A walk through the output comes to a node as often as the statements of its blocks lead to it. A value
that moves to its use takes the place of the slot there, and the statement that declared the slot
goes: whatever the nodes of that statement count is now counted at the use, so the reads and writes of
all other slots stay as many as they were. -/
namespace ScriptLift

section Total

variable {α β : Type} {f g : α → Nat} {xs ys : List α}

theorem total_flatMap (f : β → Nat) (g : α → List β) (xs : List α) :
    total f (xs.flatMap g) = total (fun x => total f (g x)) xs := by
  induction xs with
  | nil => rfl
  | cons x xs ih => rw [List.flatMap_cons, total_append, ih, total_cons]

theorem total_filter (f : α → Nat) (p : α → Bool) (xs : List α) :
    total f (xs.filter p) = total (fun x => if p x then f x else 0) xs := by
  induction xs with
  | nil => rfl
  | cons x xs ih =>
    rw [List.filter_cons, total_cons, ← ih]
    split
    · rw [total_cons]
    · rw [Nat.zero_add]

theorem total_perm (h : xs.Perm ys) (f : α → Nat) : total f xs = total f ys := by
  induction h with
  | nil => rfl
  | cons x _ ih => rw [total_cons, total_cons, ih]
  | swap x y xs =>
    simp only [total_cons]
    omega
  | trans _ _ ih ih' => exact ih.trans ih'

theorem total_add_mul (f g : α → Nat) (k : Nat) (xs : List α) :
    total (fun x => f x + g x * k) xs = total f xs + total g xs * k := by
  induction xs with
  | nil => simp
  | cons x xs ih =>
    rw [total_cons, ih, total_cons, total_cons, Nat.add_mul]
    omega

theorem total_eq_zero (h : ∀ x ∈ xs, f x = 0) : total f xs = 0 := by
  induction xs with
  | nil => rfl
  | cons x xs ih =>
    rw [total_cons, h x List.mem_cons_self, ih fun y hy => h y (List.mem_cons_of_mem x hy)]

theorem total_pos {x : α} (hx : x ∈ xs) (hpos : 0 < f x) : 0 < total f xs := by
  induction xs with
  | nil => cases hx
  | cons y xs ih =>
    rw [total_cons]
    rcases List.mem_cons.1 hx with rfl | hx
    · omega
    · have := ih hx
      omega

theorem length_filterMap (f : α → Option β) (xs : List α) :
    (xs.filterMap f).length = total (fun x => (f x).toList.length) xs := by
  induction xs with
  | nil => rfl
  | cons x xs ih =>
    rw [total_cons, ← ih, List.filterMap_cons]
    cases f x with
    | none => simp
    | some y =>
      simp
      omega

theorem total_indicator [DecidableEq α] (a : α) (xs : List α) :
    total (fun x => if x = a then 1 else 0) xs = xs.count a := by
  induction xs with
  | nil => rfl
  | cons x xs ih =>
    rw [total_cons, ih, List.count_cons]
    by_cases h : x = a
    · simp [h]
      omega
    · simp [h]

end Total

theorem Node.operands_of_kind_block {node : Node} (h : node.kind = .block) : node.operands = [] := by
  cases node <;> simp_all [Node.kind, operands]

namespace Tree

variable (tree : Tree)

def usesOf (uses : Node → Role → Bool) (slot id : NodeId) : Nat :=
  total (fun o => if tree.isSlot slot ∧ o.2 = slot ∧ uses (tree.node id) o.1 then 1 else 0)
    (tree.node id).operands

def mass (w : NodeId → Nat) (id : NodeId) : Nat := total w (tree.within tree.size id)

def heldIn (part id : NodeId) : Nat :=
  total (fun o => if o.2 = part then 1 else 0) (tree.node id).operands

def isInner (id : NodeId) : Bool := tree.kind id ≠ .slot ∧ tree.kind id ≠ .block

end Tree

namespace Event

variable {tree : Tree} {routines : Routines} {slot id : NodeId}

theorem total_ofNode {uses : Node → Role → Bool} {pick : Event → Nat} {sub : SubId}
    {deferred : Bool} (hcontrol : ∀ e ∈ ofControl tree sub deferred id, pick e = 0)
    (hslot : ∀ role operand, total pick (ofSlot tree routines id role operand) =
      if operand = slot ∧ uses (tree.node id) role then 1 else 0) :
    total pick (ofNode tree routines sub deferred id) = tree.usesOf uses slot id := by
  rw [ofNode, total_append, total_eq_zero hcontrol, Nat.zero_add, total_flatMap, total_filter,
    Tree.usesOf]
  refine total_congr fun o _ => ?_
  rw [hslot]
  by_cases heq : o.2 = slot
  · by_cases hisSlot : tree.isSlot slot <;> simp [heq, hisSlot]
  · simp [heq]

theorem total_readOf_ofNode (slot : NodeId) (sub : SubId) (deferred : Bool) :
    total (fun e => (readOf slot e).toList.length) (ofNode tree routines sub deferred id) =
      tree.usesOf Tree.readsAt slot id := by
  refine total_ofNode (fun e he => ?_) fun role operand => ?_
  · have hnone := (mem_ofControl he).1
    cases e with
    | read s r => exact absurd rfl (hnone s r)
    | _ => rfl
  · unfold ofSlot Tree.readsAt
    by_cases heq : operand = slot <;> split <;> (try split) <;> simp_all [readOf]

theorem total_writeOf_ofNode (slot : NodeId) (sub : SubId) (deferred : Bool) :
    total (fun e => (writeOf slot e).toList.length) (ofNode tree routines sub deferred id) =
      tree.usesOf (tree.writesAt routines) slot id := by
  refine total_ofNode (fun e he => ?_) fun role operand => ?_
  · have hnone := (mem_ofControl he).2.1
    cases e with
    | write s w => exact absurd rfl (hnone s w)
    | _ => rfl
  · unfold ofSlot Tree.writesAt
    by_cases heq : operand = slot <;> split <;> (try split) <;> simp_all [writeOf]

theorem total_trace {pick : Event → Nat} {w : NodeId → Nat}
    (hblock : ∀ sub b, pick (.block sub b) = 0)
    (hnode : ∀ sub deferred n, total pick (ofNode tree routines sub deferred n) = w n) :
    total pick (trace tree routines) =
      total (fun b => total w (tree.nodesOf b)) (visited tree routines) := by
  obtain ⟨stops, htrace, hvisited, -⟩ := trace_eq tree routines
  rw [htrace, hvisited, total_flatMap, total_perm (List.reverse_perm _), total_map]
  refine total_congr fun stop _ => ?_
  rw [ofStop, total_cons, hblock, Nat.zero_add, total_flatMap]
  exact total_congr fun n _ => hnode _ _ n

end Event

namespace Facts

variable {tree : Tree} {routines : Routines} {facts : Facts} {slot : NodeId}

theorem length_readsOf : ((facts.analyze tree routines).readsOf slot).length =
    total (fun b => total (tree.usesOf Tree.readsAt slot) (tree.nodesOf b))
      (Event.visited tree routines) := by
  rw [readsOf_analyze, length_filterMap]
  exact Event.total_trace (fun _ _ => rfl) fun sub deferred _ =>
    Event.total_readOf_ofNode slot sub deferred

theorem length_writesOf : ((facts.analyze tree routines).writesOf slot).length =
    total (fun b => total (tree.usesOf (tree.writesAt routines) slot) (tree.nodesOf b))
      (Event.visited tree routines) := by
  rw [writesOf_analyze, length_filterMap]
  exact Event.total_trace (fun _ _ => rfl) fun sub deferred _ =>
    Event.total_writeOf_ofNode slot sub deferred

end Facts

namespace Tree

variable {tree old new : Tree} {w w' : NodeId → Nat} {id n node value : NodeId}

theorem total_innerOperands (g : NodeId → Nat) (id : NodeId) :
    total g (tree.innerOperands id) =
      total (fun o => if tree.isInner o.2 then g o.2 else 0) (tree.node id).operands := by
  rw [innerOperands, total_filter, total_map]
  rfl

/-- From a grounded node no path is longer than its rank. -/
theorem Closed.within_eq (hclosed : tree.Closed) (hground : tree.Grounded id)
    (hlt : id.index < tree.size) {depth other : Nat} (hdepth : tree.rank id ≤ depth)
    (hother : tree.rank id ≤ other) : tree.within depth id = tree.within other id := by
  induction hground generalizing depth other with
  | intro id hacc ih =>
    have hless : ∀ c ∈ tree.innerOperands id, tree.rank c < tree.rank id := fun c hc =>
      hclosed.rank_lt hlt (Acc.intro id hacc) (.single (Inner.descends hc))
    cases depth with
    | zero =>
      have hnone : tree.innerOperands id = [] := List.eq_nil_iff_forall_not_mem.2 fun c hc => by
        have := hless c hc
        omega
      cases other <;> simp [within, hnone]
    | succ depth =>
      cases other with
      | zero =>
        have hnone : tree.innerOperands id = [] := List.eq_nil_iff_forall_not_mem.2 fun c hc => by
          have := hless c hc
          omega
        simp [within, hnone]
      | succ other =>
        rw [within, within]
        refine congrArg (id :: ·) (List.flatMap_congr fun c hc => ?_)
        have hrank := hless c hc
        exact ih c (Inner.descends hc) (hclosed.descent (Inner.descends hc)) (by omega) (by omega)

theorem Closed.within_size (hclosed : tree.Closed) (hground : tree.Grounded id)
    (hlt : id.index < tree.size) : tree.within tree.size id =
      id :: (tree.innerOperands id).flatMap (tree.within tree.size) := by
  have hrank := hclosed.rank_le hlt
  exact hclosed.within_eq hground hlt hrank (Nat.le_succ_of_le hrank)

theorem Closed.mass_eq (hclosed : tree.Closed) (hground : tree.Grounded id)
    (hlt : id.index < tree.size) (w : NodeId → Nat) :
    tree.mass w id = w id + total (tree.mass w) (tree.innerOperands id) := by
  rw [mass, hclosed.within_size hground hlt, total_cons, total_flatMap]
  rfl

theorem total_nodesOf (w : NodeId → Nat) (block : NodeId) :
    total w (tree.nodesOf block) = total (tree.mass w) (tree.statements block) :=
  total_flatMap w _ _

theorem mem_nestedBlocks {part block : NodeId} (hpart : tree.kind part = .block) :
    part ∈ (tree.nestedBlocks false block).map (·.1) ↔
      0 < total (tree.heldIn part) (tree.nodesOf block) := by
  constructor
  · intro hmem
    obtain ⟨p, hp, rfl⟩ := List.mem_map.1 hmem
    obtain ⟨n, hn, hp⟩ := List.mem_flatMap.1 hp
    obtain ⟨o, ho, rfl⟩ := List.mem_map.1 hp
    exact total_pos hn (total_pos (List.mem_filter.1 ho).1 (by simp))
  · intro hpos
    by_contra hnone
    have hzero : total (tree.heldIn part) (tree.nodesOf block) = 0 := by
      refine total_eq_zero fun n hn => total_eq_zero fun o ho => if_neg fun heq => hnone ?_
      refine List.mem_map.2 ⟨(o.2, o.1.isDeferring), ?_, heq⟩
      refine List.mem_flatMap.2 ⟨n, hn, List.mem_map.2 ⟨o, ?_, by simp⟩⟩
      exact List.mem_filter.2 ⟨ho, by simp [heq, hpart]⟩
    omega

/-- In place of a slot that `node` holds comes `value`; all other operands stay. -/
structure Transplants (old new : Tree) (node value : NodeId) : Prop where
  size : new.size = old.size
  kind : ∀ n, new.kind n = old.kind n
  operands : ∀ n, n ≠ node → (new.node n).operands = (old.node n).operands
  replaced : ∃ role slot position, old.kind slot = .slot ∧
    (old.node node).operands[position]? = some (role, slot) ∧
    (new.node node).operands = (old.node node).operands.set position (role, value)

namespace Transplants

variable (h : old.Transplants new node value)
include h

theorem isInner_eq (n : NodeId) : new.isInner n = old.isInner n := by
  rw [isInner, isInner, h.kind]

theorem innerOperands_eq (hne : n ≠ node) : new.innerOperands n = old.innerOperands n := by
  unfold innerOperands
  simp only [h.operands n hne, h.kind]

theorem total_innerOperands_node (g : NodeId → Nat) :
    total g (new.innerOperands node) =
      total g (old.innerOperands node) + if old.isInner value then g value else 0 := by
  obtain ⟨role, slot, position, hslot, hat, hset⟩ := h.replaced
  obtain ⟨hlt, hget⟩ := List.getElem?_eq_some_iff.1 hat
  have hsum := total_set (fun o => if old.isInner o.2 then g o.2 else 0) hlt (role, value)
  have hnone : old.isInner slot = false := by simp [isInner, hslot]
  rw [hget, hnone] at hsum
  rw [total_innerOperands, total_innerOperands, hset]
  simp only [h.isInner_eq]
  simpa using hsum

variable (hold : old.Closed) (hnew : new.Closed)
  (hground : ∀ id, old.Grounded id → new.Grounded id)
include hold hnew hground

theorem within_eq (hid : old.Grounded id) (hlt : id.index < old.size)
    (hapart : ¬Relation.ReflTransGen old.Inner id node) :
    new.within new.size id = old.within old.size id := by
  induction hid with
  | intro id hacc ih =>
    have hid : old.Grounded id := Acc.intro id hacc
    have hne : id ≠ node := by
      rintro rfl
      exact hapart .refl
    rw [hnew.within_size (hground id hid) (by rw [h.size]; exact hlt), hold.within_size hid hlt,
      h.innerOperands_eq hne]
    refine congrArg (id :: ·) (List.flatMap_congr fun c hc => ?_)
    have hinner : old.Inner id c := hc
    exact ih c hinner.descends (hold.descent hinner.descends) fun hreach =>
      hapart (.head hinner hreach)

theorem mass_eq_of_apart (hid : old.Grounded id) (hlt : id.index < old.size)
    (hapart : ¬Relation.ReflTransGen old.Inner id node) (hw : ∀ n, n ≠ node → w' n = w n) :
    new.mass w' id = old.mass w id := by
  rw [mass, mass, h.within_eq hold hnew hground hid hlt hapart]
  refine total_congr fun n hn => hw n ?_
  rintro rfl
  exact hapart (inner_of_mem_within hn)

/-- Each time the node stands in a statement, the value comes in addition. -/
theorem mass_eq {extra : Nat} (hvalue : old.Grounded value) (hvalueLt : value.index < old.size)
    (hapart : ¬Relation.ReflTransGen old.Inner value node) (hw : ∀ n, n ≠ node → w' n = w n)
    (hnode : w' node = w node + extra) (hid : old.Grounded id) (hlt : id.index < old.size) :
    new.mass w' id = old.mass w id + old.mass (fun n => if n = node then 1 else 0) id *
      (extra + if old.isInner value then old.mass w value else 0) := by
  induction hid with
  | intro id hacc ih =>
    have hid : old.Grounded id := Acc.intro id hacc
    rw [hnew.mass_eq (hground id hid) (by rw [h.size]; exact hlt), hold.mass_eq hid hlt,
      hold.mass_eq hid hlt]
    by_cases hne : id = node
    · subst hne
      -- The node stands in none of its operands, nor in the value.
      have hback : ∀ c ∈ old.innerOperands id, ¬Relation.ReflTransGen old.Inner c id := by
        intro c hc hreach
        have hdown : old.Descends id c := Inner.descends hc
        exact Reach.not_cycle_of_acc hid (.head' hdown (reaches_of_inner hreach))
      have hrest : total (new.mass w') (old.innerOperands id) =
          total (old.mass w) (old.innerOperands id) := total_congr fun c hc =>
        have hdown : old.Descends id c := Inner.descends hc
        h.mass_eq_of_apart hold hnew hground (hid.inv hdown) (hold.descent hdown) (hback c hc) hw
      have hnone : total (old.mass fun n => if n = id then 1 else 0) (old.innerOperands id) = 0 := by
        refine total_eq_zero fun c hc => total_eq_zero fun n hn => if_neg ?_
        rintro rfl
        exact hback c hc (inner_of_mem_within hn)
      have hmoved := h.mass_eq_of_apart hold hnew hground hvalue hvalueLt hapart hw
      rw [h.total_innerOperands_node, hrest, hmoved, hnode, hnone, if_pos rfl]
      omega
    · have hchildren : total (new.mass w') (old.innerOperands id) =
          total (fun c => old.mass w c + old.mass (fun n => if n = node then 1 else 0) c *
            (extra + if old.isInner value then old.mass w value else 0)) (old.innerOperands id) :=
        total_congr fun c hc =>
          have hdown : old.Descends id c := Inner.descends hc
          ih c hdown (hold.descent hdown)
      rw [h.innerOperands_eq hne, hchildren, total_add_mul, hw id hne, if_neg hne, Nat.zero_add]
      omega

end Transplants

end Tree

theorem Tree.readsAt_setOperand? {node next : Node} {role : Role} {value : NodeId}
    (h : node.setOperand? role value = some next) (place : Role) :
    Tree.readsAt next place = Tree.readsAt node place := by
  obtain ⟨-, rfl⟩ := Node.setOperand?_eq_some_iff.1 h
  cases node with
  | binary op => cases op <;> cases place <;> rfl
  | _ => rfl

theorem Tree.writesAt_setOperand? {tree : Tree} {routines : Routines} {node next : Node}
    {role : Role} {value : NodeId} (h : node.setOperand? role value = some next) (place : Role) :
    tree.writesAt routines next place = tree.writesAt routines node place := by
  obtain ⟨-, rfl⟩ := Node.setOperand?_eq_some_iff.1 h
  cases node with
  | action | call | unary => cases place <;> rfl
  | binary op => cases op <;> cases place <;> rfl
  | _ => rfl

theorem Tree.writesAt_of_subroutines_eq {old new : Tree} (hsize : new.size = old.size)
    (hsubs : new.subroutines = old.subroutines) (routines : Routines) :
    new.writesAt routines = old.writesAt routines := by
  have hsub : ∀ sub, new.sub sub = old.sub sub := fun sub => by rw [Tree.sub, Tree.sub, hsubs, hsize]
  funext node role
  unfold Tree.writesAt Event.writesArgument
  simp only [hsub]

namespace Draft

variable {routines : Routines} {draft : Draft} {block statement b : NodeId} {move : Inlining}

theorem Current.visited (hcurrent : draft.Current routines) (hlive : draft.facts.isLive block) :
    block ∈ Event.visited draft.tree routines := by
  rw [hcurrent] at hlive
  exact Facts.isLive_analyze.1 hlive

def inlined (draft : Draft) (block : NodeId) (move : Inlining) : Tree :=
  (draft.tree.setOperand move.read.node move.read.role move.value).eraseStatement block move.index

theorem node_inlined_of_ne {n : NodeId} (hne : n ≠ move.read.node) (hn : n ≠ block) :
    (draft.inlined block move).node n = draft.tree.node n :=
  (Tree.node_modify_of_ne hn).trans (Tree.node_modify_of_ne hne)

theorem kind_inlined (n : NodeId) : (draft.inlined block move).kind n = draft.tree.kind n :=
  (Tree.kind_modifyStatements _).trans
    (Tree.kind_modify (fun node => Tree.kind_setOperand_getD node _ _) n)

theorem statements_inlined_of_ne (hne : b ≠ block) :
    (draft.inlined block move).statements b = draft.tree.statements b :=
  (Tree.statements_modifyStatements_of_ne _ hne).trans Tree.statements_setOperand

section Inlined

variable (hmoves : draft.Moves block statement move) (hcurrent : draft.Current routines)
  (hat : (draft.tree.statements block)[move.index]? = some statement)

include hmoves hcurrent hat

theorem Moves.ne_block : move.read.node ≠ block := by
  rintro heq
  have hkind := (Tree.kind_ne_of_operand (hmoves.reads hcurrent)).2
  exact hkind (heq ▸ Tree.kind_of_statement (List.mem_of_getElem? hat))

theorem Moves.node_inlined : ∃ next position,
    (draft.tree.node move.read.node).setOperand? move.read.role move.value = some next ∧
      (draft.inlined block move).node move.read.node = next ∧
      (draft.tree.node move.read.node).operands[position]? = some (move.read.role, move.slot) ∧
      next.operands =
        (draft.tree.node move.read.node).operands.set position (move.read.role, move.value) := by
  have hreads := hmoves.reads hcurrent
  obtain ⟨next, position, hset, hposition, hoperands⟩ := Node.setOperand?_eq_set hreads move.value
  have hlt : move.read.node.index < draft.tree.size :=
    Tree.lt_size_of_kind_ne (Tree.kind_ne_of_operand hreads).2
  refine ⟨next, position, hset, ?_, hposition, hoperands⟩
  calc (draft.inlined block move).node move.read.node
      = (draft.tree.setOperand move.read.node move.read.role move.value).node move.read.node :=
        Tree.node_modify_of_ne (hmoves.ne_block hcurrent hat)
    _ = next := (Tree.node_modify_self hlt).trans (by rw [hset, Option.getD_some])

theorem Moves.transplants :
    draft.tree.Transplants (draft.inlined block move) move.read.node move.value where
  size := (Tree.size_eraseStatement _).trans Tree.size_setOperand
  kind := kind_inlined
  operands n hne := by
    by_cases hn : n = block
    · subst hn
      have hblock := Tree.kind_of_statement (List.mem_of_getElem? hat)
      rw [Node.operands_of_kind_block hblock,
        Node.operands_of_kind_block ((kind_inlined n).trans hblock)]
    · rw [node_inlined_of_ne hne hn]
  replaced := by
    obtain ⟨next, position, -, hnode, hposition, hoperands⟩ := hmoves.node_inlined hcurrent hat
    have hslot := Tree.kind_of_storage? hmoves.storage
    exact ⟨_, _, position, hslot, hposition, hnode ▸ hoperands⟩

omit hmoves hcurrent in
theorem statements_inlined : (draft.inlined block move).statements block =
    (draft.tree.statements block).eraseIdx move.index := by
  obtain ⟨hnode, hlt⟩ := Tree.node_of_statement hat
  have hkind := Tree.kind_of_statement (List.mem_of_getElem? hat)
  refine (Tree.statements_modifyStatements_self _ ?_ ?_).trans (by rw [Tree.statements_setOperand])
  · exact (Tree.kind_modify (fun node => Tree.kind_setOperand_getD node _ _) _).trans hkind
  · rw [Tree.size_setOperand]
    exact hlt

theorem Moves.total_operands {f : Role × NodeId → Nat} (hslot : f (move.read.role, move.slot) = 0) :
    total f ((draft.inlined block move).node move.read.node).operands =
      total f (draft.tree.node move.read.node).operands + f (move.read.role, move.value) := by
  obtain ⟨next, position, -, hnode, hposition, hoperands⟩ := hmoves.node_inlined hcurrent hat
  obtain ⟨hlt, hget⟩ := List.getElem?_eq_some_iff.1 hposition
  have hsum := total_set f hlt (move.read.role, move.value)
  rw [hget, hslot, Nat.add_zero] at hsum
  rw [hnode, hoperands, hsum]

variable (hlive : draft.facts.isLive block)
include hlive

/-- The node that reads the temporary stands once among the nodes of the block, and not in the
declaration. -/
theorem Moves.occurs :
    total (draft.tree.mass fun n => if n = move.read.node then 1 else 0)
        (draft.tree.statements block) = 1 ∧
      draft.tree.mass (fun n => if n = move.read.node then 1 else 0) statement = 0 := by
  have hvisited := hcurrent.visited hlive
  have honce := hmoves.read
  rw [hcurrent] at honce
  obtain ⟨consumer, hconsumer, hread⟩ := hmoves.consumes hcurrent
  constructor
  · rw [← Tree.total_nodesOf, total_indicator]
    have hmem : move.read.node ∈ draft.tree.nodesOf block :=
      List.mem_flatMap.2 ⟨consumer, List.mem_of_getElem? hconsumer, hread⟩
    have hpos := List.count_pos_iff.2 hmem
    have hless : ¬2 ≤ (draft.tree.nodesOf block).count move.read.node := fun htwo =>
      Event.not_pair_sublist_nodesOf honce hvisited (List.replicate_sublist_iff.2 htwo)
    omega
  · refine total_eq_zero fun n hn => if_neg ?_
    rintro rfl
    exact Event.statement_of_read honce hvisited hmoves.later hat hconsumer hn hread

variable (hsturdy : draft.Sturdy) (hfree : draft.tree.CycleFree) {w w' : NodeId → Nat}
  (hw : ∀ n, n ≠ move.read.node → w' n = w n)
  (hnode : w' move.read.node = w move.read.node + w statement)
include hsturdy hfree hw hnode

/-- What the declaration counted, the use counts in addition. -/
theorem Moves.mass_inlined {t : NodeId} (ht : draft.tree.InOutput t) :
    (draft.inlined block move).mass w' t = draft.tree.mass w t +
      draft.tree.mass (fun n => if n = move.read.node then 1 else 0) t *
        draft.tree.mass w statement := by
  have hclosed := hsturdy.closed
  have hnext : (draft.inlined block move).Closed :=
    (hsturdy.apply hcurrent hlive (.inlineValue hat hmoves)).closed
  have hin : draft.tree.InOutput statement :=
    (Tree.inOutput_of_visited (hcurrent.visited hlive)).step
      (Tree.holds_of_statement (List.mem_of_getElem? hat))
  have hoperand : (.right, move.value) ∈ (draft.tree.node statement).operands := by
    simp [hmoves.node, Node.operands]
  have hdown := Tree.descends_of_operand hoperand
  have hground := hfree.grounded_of_inOutput hclosed hin
  have hapart : ¬Relation.ReflTransGen draft.tree.Inner move.value move.read.node := fun hreach =>
    hsturdy.not_reaches_read hcurrent hlive hat hmoves (Tree.reaches_of_inner hreach)
  have hslot : draft.tree.isInner move.slot = false := by
    simp [Tree.isInner, Tree.kind_of_storage? hmoves.storage]
  have hmass : draft.tree.mass w statement = w statement +
      if draft.tree.isInner move.value then draft.tree.mass w move.value else 0 := by
    rw [hclosed.mass_eq hground (hclosed.lt_size hin), Tree.total_innerOperands, hmoves.node]
    simp [Node.operands, hslot]
  rw [hmass]
  exact (hmoves.transplants hcurrent hat).mass_eq hclosed hnext
    (fun _ => hsturdy.grounded_inlineValue hcurrent hlive hat hmoves) (hground.inv hdown)
    (hclosed.descent hdown) hapart hw hnode (hfree.grounded_of_inOutput hclosed ht)
    (hclosed.lt_size ht)

/-- Every block that is visited counts as before. -/
theorem Moves.total_nodesOf (hb : b ∈ Event.visited draft.tree routines) :
    total w' ((draft.inlined block move).nodesOf b) = total w (draft.tree.nodesOf b) := by
  have hin : ∀ t ∈ draft.tree.statements b, draft.tree.InOutput t := fun t ht =>
    (Tree.inOutput_of_visited hb).step (Tree.holds_of_statement ht)
  have hmass : ∀ {t}, draft.tree.InOutput t → (draft.inlined block move).mass w' t = _ :=
    hmoves.mass_inlined hcurrent hat hlive hsturdy hfree hw hnode
  rw [Tree.total_nodesOf, Tree.total_nodesOf]
  by_cases hne : b = block
  · subst hne
    obtain ⟨hlt, hget⟩ := List.getElem?_eq_some_iff.1 hat
    obtain ⟨hone, hzero⟩ := hmoves.occurs hcurrent hat hlive
    have hrest := total_eraseIdx
      (draft.tree.mass fun n => if n = move.read.node then 1 else 0) hlt
    have hweights := total_eraseIdx (draft.tree.mass w) hlt
    rw [hget, hzero, hone] at hrest
    rw [hget] at hweights
    rw [statements_inlined hat,
      total_congr fun t ht => hmass (hin t (List.mem_of_mem_eraseIdx ht)), total_add_mul,
      show total _ _ = 1 from hrest, Nat.one_mul, hweights]
  · rw [statements_inlined_of_ne hne]
    refine total_congr fun t ht => ?_
    have honce := hmoves.read
    rw [hcurrent] at honce
    obtain ⟨consumer, hconsumer, hread⟩ := hmoves.consumes hcurrent
    have hblock : move.read.node ∈ draft.tree.nodesOf block :=
      List.mem_flatMap.2 ⟨consumer, List.mem_of_getElem? hconsumer, hread⟩
    have hnone : draft.tree.mass (fun n => if n = move.read.node then 1 else 0) t = 0 := by
      refine total_eq_zero fun n hn => if_neg ?_
      rintro rfl
      exact hne (Event.block_of_read honce hb (hcurrent.visited hlive)
        (List.mem_flatMap.2 ⟨t, ht, hn⟩) hblock)
    rw [hmass (hin t ht), hnone, Nat.zero_mul, Nat.add_zero]

omit hw hnode

theorem Moves.visited_inlined : b ∈ Event.visited (draft.inlined block move) routines ↔
    b ∈ Event.visited draft.tree routines := by
  obtain ⟨-, hroots⟩ := Event.covers_trace draft.tree routines
  obtain ⟨-, hroots'⟩ := Event.covers_trace (draft.inlined block move) routines
  have hrewires := (Rewrite.inlineValue move).rewires_apply block hsturdy.closed
  have hroot : ∀ sub ∈ draft.tree.order,
      ((draft.inlined block move).sub sub).root = (draft.tree.sub sub).root := hrewires.root
  have hnested : ∀ {b}, b ∈ Event.visited draft.tree routines → ∀ c,
      c ∈ ((draft.inlined block move).nestedBlocks false b).map (·.1) ↔
        c ∈ (draft.tree.nestedBlocks false b).map (·.1) := by
    intro b hb c
    by_cases hkind : draft.tree.kind c = .block
    · rw [Tree.mem_nestedBlocks ((kind_inlined c).trans hkind), Tree.mem_nestedBlocks hkind]
      have hslot : move.slot ≠ c := by
        rintro rfl
        rw [Tree.kind_of_storage? hmoves.storage] at hkind
        cases hkind
      rw [hmoves.total_nodesOf hcurrent hat hlive hsturdy hfree ?_ ?_ hb]
      · intro n hn
        rw [Tree.heldIn, Tree.heldIn, (hmoves.transplants hcurrent hat).operands n hn]
      · rw [Tree.heldIn, hmoves.total_operands hcurrent hat (by simp [hslot]), Tree.heldIn,
          Tree.heldIn, hmoves.node]
        simp [Node.operands, hslot]
    · have hnone : ∀ {tree : Tree}, tree.kind c ≠ .block →
          c ∉ (tree.nestedBlocks false b).map (·.1) := by
        intro tree hne hmem
        obtain ⟨p, hp, rfl⟩ := List.mem_map.1 hmem
        obtain ⟨n, -, hp⟩ := List.mem_flatMap.1 hp
        obtain ⟨o, ho, rfl⟩ := List.mem_map.1 hp
        exact hne (of_decide_eq_true (List.mem_filter.1 ho).2)
      exact iff_of_false (hnone ((kind_inlined c).trans_ne hkind)) (hnone hkind)
  have hfound : ∀ {tree : Tree} {b c : NodeId}, b ∈ Event.visited tree routines →
      c ∈ (tree.nestedBlocks false b).map (·.1) → c ∈ Event.visited tree routines := by
    intro tree b c hb hc
    obtain ⟨p, hp, rfl⟩ := List.mem_map.1 hc
    simpa using (Event.covers_trace tree routines).1.nested b hb p hp
  constructor
  · refine Event.visited_induction (P := fun b => b ∈ Event.visited draft.tree routines)
      (fun sub hsub => ?_) (fun b hb c hc => ?_) b
    · rw [hroot sub hsub]
      exact hroots sub hsub
    · exact hfound hb ((hnested hb _).1 (List.mem_map_of_mem hc))
  · intro hb
    refine (@Event.visited_induction draft.tree routines
      (fun b => b ∈ Event.visited draft.tree routines ∧
        b ∈ Event.visited (draft.inlined block move) routines)
      (fun sub hsub => ⟨hroots sub hsub, ?_⟩) (fun b hb c hc => ?_) b hb).2
    · rw [← hroot sub hsub]
      exact hroots' sub hsub
    · have hmem := List.mem_map_of_mem (f := (·.1)) hc
      exact ⟨hfound hb.1 hmem, hfound hb.2 ((hnested hb.1 _).2 hmem)⟩

omit hsturdy hfree in
/-- The node that reads the temporary does not write it. -/
theorem Moves.writesAt_eq_false :
    draft.tree.writesAt routines (draft.tree.node move.read.node) move.read.role = false := by
  rw [Bool.eq_false_iff]
  intro hat'
  have hreads := hmoves.reads hcurrent
  obtain ⟨consumer, hconsumer, hread⟩ := hmoves.consumes hcurrent
  have hwrites : draft.tree.writes routines move.read.node move.slot := by
    have hslot := Tree.isSlot_iff_kind.2 (Tree.kind_of_storage? hmoves.storage)
    simp only [Tree.writes, hslot, Bool.true_and, List.any_eq_true]
    exact ⟨_, hreads, by simp [hat']⟩
  have hmet : draft.tree.Met routines draft.tree.size move.read.node :=
    .inr (.inr ⟨(Tree.kind_ne_of_operand hreads).2, block, hcurrent.visited hlive, consumer,
      List.mem_of_getElem? hconsumer, hread⟩)
  obtain ⟨write, hmem, hnode⟩ := Facts.exists_mem_writesOf_analyze draft.facts hmet hwrites
  obtain ⟨value, hwritten⟩ := hmoves.written
  rw [← hcurrent, hwritten, List.mem_singleton] at hmem
  have heq : statement = move.read.node := by rw [← hnode, hmem]
  have hzero := (hmoves.occurs hcurrent hat hlive).2
  have hself : move.read.node ∈ draft.tree.within draft.tree.size statement := by
    rw [heq]
    cases draft.tree.size <;> simp [Tree.within]
  have hpos := total_pos (f := fun n => if n = move.read.node then 1 else 0) hself (by simp)
  rw [Tree.mass] at hzero
  omega

omit hat hlive hsturdy hfree hcurrent in
theorem Moves.readsAt : Tree.readsAt (draft.tree.node move.read.node) move.read.role := by
  have hadmits := hmoves.admits
  unfold Tree.readsAt
  split
  · next hnode hrole => simp [Read.admitsValue, hrole, Tree.kind, hnode, Node.kind] at hadmits
  · rfl

/-- A slot other than the temporary is used as often as before. -/
theorem Moves.usesOf_inlined {slot : NodeId} (hslot : slot ≠ move.slot)
    {uses uses' : Node → Role → Bool}
    (hsame : ∀ n, n ≠ move.read.node → uses' (draft.tree.node n) = uses (draft.tree.node n))
    (hread : uses' ((draft.inlined block move).node move.read.node) =
      uses (draft.tree.node move.read.node))
    (hmoved : uses (draft.tree.node move.read.node) move.read.role =
      uses (draft.tree.node statement) .right) (hb : b ∈ Event.visited draft.tree routines) :
    total ((draft.inlined block move).usesOf uses' slot) ((draft.inlined block move).nodesOf b) =
      total (draft.tree.usesOf uses slot) (draft.tree.nodesOf b) := by
  have htransplants := hmoves.transplants hcurrent hat
  have hisSlot : (draft.inlined block move).isSlot slot = draft.tree.isSlot slot := by
    rw [Bool.eq_iff_iff, Tree.isSlot_iff_kind, Tree.isSlot_iff_kind, kind_inlined]
  refine hmoves.total_nodesOf hcurrent hat hlive hsturdy hfree (fun n hn => ?_) ?_ hb
  · by_cases hblock : n = block
    · have hkind := Tree.kind_of_statement (List.mem_of_getElem? hat)
      rw [Tree.usesOf, Tree.usesOf, htransplants.operands n hn, hblock,
        Node.operands_of_kind_block hkind]
      rfl
    · rw [Tree.usesOf, Tree.usesOf, node_inlined_of_ne hn hblock, hisSlot, hsame n hn]
  · rw [Tree.usesOf, Tree.usesOf, Tree.usesOf, hisSlot, hread,
      hmoves.total_operands hcurrent hat (by simp [Ne.symm hslot]), hmoves.node]
    rw [hmoves.node] at hmoved
    simp [Node.operands, Ne.symm hslot, hmoved]

/-- All slots but the temporary are read and written as often as before. -/
theorem Moves.counts_inlined {slot : NodeId} (hslot : slot ≠ move.slot) (facts : Facts) :
    ((facts.analyze (draft.inlined block move) routines).readsOf slot).length =
        (draft.facts.readsOf slot).length ∧
      ((facts.analyze (draft.inlined block move) routines).writesOf slot).length =
        (draft.facts.writesOf slot).length := by
  have hvisited : (Event.visited (draft.inlined block move) routines).Perm
      (Event.visited draft.tree routines) := by
    obtain ⟨-, -, -, hnodup⟩ := Event.trace_eq draft.tree routines
    obtain ⟨-, -, -, hnodup'⟩ := Event.trace_eq (draft.inlined block move) routines
    exact (List.perm_ext_iff_of_nodup hnodup' hnodup).2 fun _ =>
      hmoves.visited_inlined hcurrent hat hlive hsturdy hfree
  obtain ⟨next, -, hset, hnode, -, -⟩ := hmoves.node_inlined hcurrent hat
  have hsubs : (draft.inlined block move).writesAt routines = draft.tree.writesAt routines :=
    Tree.writesAt_of_subroutines_eq (hmoves.transplants hcurrent hat).size rfl routines
  rw [hcurrent, Facts.length_readsOf, Facts.length_readsOf, Facts.length_writesOf,
    Facts.length_writesOf, total_perm hvisited, total_perm hvisited]
  constructor
  · refine total_congr fun b hb => hmoves.usesOf_inlined hcurrent hat hlive hsturdy hfree hslot
      (fun _ _ => rfl) ?_ ?_ hb
    · funext place
      rw [hnode, Tree.readsAt_setOperand? hset]
    · rw [hmoves.readsAt, hmoves.node]
      rfl
  · refine total_congr fun b hb => hmoves.usesOf_inlined hcurrent hat hlive hsturdy hfree hslot
      (fun n _ => by rw [hsubs]) ?_ ?_ hb
    · funext place
      rw [hnode, hsubs, Tree.writesAt_setOperand? hset]
    · rw [hmoves.writesAt_eq_false hcurrent hat hlive, hmoves.node]
      rfl

end Inlined

end Draft

end ScriptLift
