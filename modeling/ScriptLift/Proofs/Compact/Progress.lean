import Mathlib.Data.List.Nodup
import Mathlib.Data.List.Perm.Subperm
import ScriptLift.Proofs.Compact.Shape

namespace ScriptLift

section Total

variable {α : Type} {f g : α → Nat} {xs : List α} {i : Nat}

theorem total_congr (h : ∀ x ∈ xs, f x = g x) : total f xs = total g xs := by
  induction xs with
  | nil => rfl
  | cons x xs ih =>
    rw [total_cons, total_cons, h x List.mem_cons_self,
      ih fun y hy => h y (List.mem_cons_of_mem x hy)]

theorem total_modify (f : α → Nat) (hi : i < xs.length) (next : α → α) :
    total f (xs.modify i next) + f xs[i] = total f xs + f (next xs[i]) := by
  induction xs generalizing i with
  | nil => cases hi
  | cons x xs ih =>
    cases i with
    | zero =>
      simp only [List.modify_zero_cons, total_cons, List.getElem_cons_zero]
      omega
    | succ i =>
      have hrest := ih (Nat.lt_of_succ_lt_succ hi)
      simp only [List.modify_succ_cons, total_cons, List.getElem_cons_succ]
      omega

theorem total_set (f : α → Nat) (hi : i < xs.length) (x : α) :
    total f (xs.set i x) + f xs[i] = total f xs + f x := by
  rw [List.set_eq_modify]
  exact total_modify f hi fun _ => x

theorem total_eraseIdx (f : α → Nat) (hi : i < xs.length) :
    total f (xs.eraseIdx i) + f xs[i] = total f xs := by
  induction xs generalizing i with
  | nil => cases hi
  | cons x xs ih =>
    cases i with
    | zero =>
      simp only [List.eraseIdx_cons_zero, total_cons, List.getElem_cons_zero]
      omega
    | succ i =>
      have hrest := ih (Nat.lt_of_succ_lt_succ hi)
      simp only [List.eraseIdx_cons_succ, total_cons, List.getElem_cons_succ]
      omega

theorem total_le_mul (xs : List α) {k : Nat} (h : ∀ x, f x ≤ k * g x) :
    total f xs ≤ k * total g xs := by
  induction xs with
  | nil => simp
  | cons x xs ih =>
    simp only [total_cons, Nat.mul_add]
    exact Nat.add_le_add (h x) ih

theorem total_le_length (xs : List α) {k : Nat} (h : ∀ x, f x ≤ k) : total f xs ≤ k * xs.length := by
  induction xs with
  | nil => simp
  | cons x xs ih =>
    have := h x
    simp only [total_cons, List.length_cons, Nat.mul_add]
    omega

end Total

/-- What a statement counts: assignments may still lose their left side. -/
def Kind.statementCost (kind : Kind) : Nat := if kind = .binary .assign then 3 else 2

/-- What an operand counts: blocks and vectors may still collapse. -/
def Kind.operandCost (kind : Kind) : Nat := if kind = .block ∨ kind = .vector then 1 else 0

theorem Kind.operandCost_le (kind : Kind) : kind.operandCost ≤ 1 := by
  unfold operandCost
  split <;> omega

theorem Kind.two_le_statementCost (kind : Kind) : 2 ≤ kind.statementCost := by
  unfold statementCost
  split <;> omega

theorem Kind.statementCost_le (kind : Kind) : kind.statementCost ≤ 3 := by
  unfold statementCost
  split <;> omega

def Node.cost (kind : NodeId → Kind) : Node → Nat
  | .block statements => total (fun s => (kind s).statementCost) statements
  | node => total (fun o => (kind o.2).operandCost) node.operands

namespace Tree

def weight (tree : Tree) : Nat := total (fun e => e.node.cost tree.kind) tree.exprs.toList

def formalCount (tree : Tree) : Nat := total (·.formals.length) tree.subroutines.toList

def callCount (tree : Tree) : Nat :=
  (List.range tree.size).countP fun i => tree.kind ⟨i⟩ = .call

variable {tree new : Tree} {id : NodeId} {f : Node → Node}

theorem cost_eq_of_fits {node : Node} (hnode : tree.Fits node) (hext : tree.Extends new) :
    node.cost new.kind = node.cost tree.kind := by
  have hstatements : ∀ statements, node = .block statements →
      total (fun s => (new.kind s).statementCost) statements =
        total (fun s => (tree.kind s).statementCost) statements := by
    intro statements heq
    refine total_congr fun s hs => ?_
    rw [hext.kind s (hnode.statement statements heq s hs).lt]
  have hoperands : total (fun o => (new.kind o.2).operandCost) node.operands =
      total (fun o => (tree.kind o.2).operandCost) node.operands := by
    refine total_congr fun o ho => ?_
    rw [hext.kind o.2 (hnode.operand o ho).lt]
  cases node with
  | block statements => rw [Node.cost, Node.cost, hstatements statements rfl]
  | _ => rw [Node.cost, Node.cost, hoperands] <;> simp

theorem node_eq_getElem (h : id.index < tree.exprs.size) :
    tree.node id = tree.exprs[id.index].node := by
  rw [node, get, get?, Array.getElem?_eq_getElem h, Option.getD_some]

theorem total_cost_eq (h : tree.WellFormed) (hext : tree.Extends new) :
    total (fun e => e.node.cost new.kind) tree.exprs.toList = tree.weight := by
  refine total_congr fun e he => ?_
  obtain ⟨i, hi, rfl⟩ := List.getElem_of_mem he
  rw [Array.length_toList] at hi
  have hnode : tree.node ⟨i⟩ = tree.exprs[i].node := node_eq_getElem hi
  rw [Array.getElem_toList, ← hnode]
  exact cost_eq_of_fits (h ⟨i⟩) hext

theorem weight_modify (hid : id.index < tree.size)
    (hkind : (f (tree.node id)).kind = tree.kind id) :
    (tree.modify id f).weight + (tree.node id).cost tree.kind =
      tree.weight + (f (tree.node id)).cost tree.kind := by
  have hlt : id.index < tree.exprs.size := hid
  have hkinds : (tree.modify id f).kind = tree.kind := by
    funext other
    unfold Tree.kind at hkind ⊢
    rcases node_modify_cases tree id other f with heq | ⟨rfl, -, heq⟩
    · rw [heq]
    · rw [heq, hkind]
  have hlist : id.index < tree.exprs.toList.length := by simpa using hlt
  have hsum := total_modify (fun e => e.node.cost tree.kind) hlist
    fun e => { e with node := f e.node }
  unfold weight
  rw [hkinds, node_eq_getElem hlt]
  simpa [modify] using hsum

theorem exprs_modify_of_size_le (h : tree.size ≤ id.index) : (tree.modify id f).exprs = tree.exprs := by
  have hle : tree.exprs.size ≤ id.index := h
  apply Array.ext_getElem?
  intro i
  rw [modify, Array.getElem?_modify]
  split
  · next heq => rw [← heq, Array.getElem?_eq_none hle, Option.map_none]
  · rfl

theorem weight_of_exprs_eq (h : new.exprs = tree.exprs) : new.weight = tree.weight := by
  have hkind : new.kind = tree.kind := by
    funext id
    rw [Tree.kind, Tree.kind, node, node, get, get, get?, get?, h]
  rw [weight, weight, h, hkind]

theorem weight_modify_le (more : Nat) (hkind : (f (tree.node id)).kind = tree.kind id)
    (hcost : (f (tree.node id)).cost tree.kind ≤ (tree.node id).cost tree.kind + more) :
    (tree.modify id f).weight ≤ tree.weight + more := by
  by_cases hid : id.index < tree.size
  · have := weight_modify hid hkind
    omega
  · rw [weight_of_exprs_eq (exprs_modify_of_size_le (Nat.le_of_not_lt hid))]
    omega

theorem weight_alloc (h : tree.WellFormed) {node : Node} (hnode : tree.Fits node) (offset : Nat) :
    (tree.alloc offset node).weight = tree.weight + node.cost tree.kind := by
  have hext := Extends.of_grows (Grows.alloc tree offset node)
  rw [weight, alloc, Array.toList_push, total_append,
    ← total_cost_eq h hext, ← cost_eq_of_fits hnode hext]
  simp [alloc]

theorem node_of_statement {block s : NodeId} {index : Nat}
    (h : (tree.statements block)[index]? = some s) :
    tree.node block = .block (tree.statements block) ∧ block.index < tree.size := by
  have hnode : tree.node block = .block (tree.statements block) := by
    unfold statements at h ⊢
    cases hn : tree.node block <;> simp_all
  refine ⟨hnode, lt_size_of_node_ne ?_⟩
  rw [hnode]
  intro heq
  rw [Node.block.inj heq] at h
  cases h

theorem weight_modifyStatements {block s : NodeId} {index : Nat}
    (h : (tree.statements block)[index]? = some s) (g : List NodeId → List NodeId) :
    (tree.modifyStatements block g).weight +
        total (fun s => (tree.kind s).statementCost) (tree.statements block) =
      tree.weight + total (fun s => (tree.kind s).statementCost) (g (tree.statements block)) := by
  obtain ⟨hnode, hlt⟩ := node_of_statement h
  have hmodify : (tree.modifyStatements block g).weight + _ = _ :=
    weight_modify hlt (by unfold Tree.kind; cases tree.node block <;> rfl)
  simpa only [hnode, Node.cost] using hmodify

theorem weight_eraseStatement {block s : NodeId} {index : Nat}
    (h : (tree.statements block)[index]? = some s) :
    (tree.eraseStatement block index).weight + 2 ≤ tree.weight := by
  have hmodify := weight_modifyStatements h (·.eraseIdx index)
  obtain ⟨hindex, rfl⟩ := List.getElem?_eq_some_iff.1 h
  have hsum := total_eraseIdx (fun s => (tree.kind s).statementCost) hindex
  have htwo := (tree.kind (tree.statements block)[index]).two_le_statementCost
  unfold eraseStatement
  omega

theorem weight_setStatement {block s : NodeId} {index : Nat}
    (h : (tree.statements block)[index]? = some s) (statement : NodeId) :
    (tree.setStatement block index statement).weight + (tree.kind s).statementCost =
      tree.weight + (tree.kind statement).statementCost := by
  have hmodify := weight_modifyStatements h (·.set index statement)
  obtain ⟨hindex, rfl⟩ := List.getElem?_eq_some_iff.1 h
  have hsum := total_set (fun s => (tree.kind s).statementCost) hindex statement
  unfold setStatement
  omega

end Tree

namespace Node

variable {node next : Node} {role : Role} {old new : NodeId}

theorem cost_of_kind_ne (kind : NodeId → Kind) (h : node.kind ≠ .block) :
    node.cost kind = total (fun o => (kind o.2).operandCost) node.operands := by
  cases node <;> simp_all [Node.kind, Node.cost]

theorem kind_ne_block_of_operand (h : (role, old) ∈ node.operands) : node.kind ≠ .block := by
  cases node <;> simp_all [Node.kind, operands]

theorem total_mapIdx (arguments : List NodeId) (f : Nat → Role) (w : NodeId → Nat) :
    total (fun o => w o.2) (arguments.mapIdx fun i a => (f i, a)) = total w arguments := by
  induction arguments generalizing f with
  | nil => rfl
  | cons argument arguments ih =>
    rw [List.mapIdx_cons, total_cons, total_cons]
    exact congrArg _ (ih fun i => f (i + 1))

theorem cost_le (node : Node) (kind : NodeId → Kind) : node.cost kind ≤ 3 * node.partCount := by
  have hoperands : total (fun o => (kind o.2).operandCost) node.operands ≤
      3 * node.operands.length :=
    total_le_length _ fun o => Nat.le_trans (kind o.2).operandCost_le (by omega)
  cases node with
  | block statements => exact total_le_length statements fun s => (kind s).statementCost_le
  | _ => exact hoperands

theorem setOperand?_of_mem (h : (role, old) ∈ node.operands) (new : NodeId) :
    ∃ next, node.setOperand? role new = some next ∧ ∀ w : NodeId → Nat,
      total (fun o => w o.2) next.operands + w old =
        total (fun o => w o.2) node.operands + w new := by
  obtain ⟨next, position, hset, hat, hoperands⟩ := setOperand?_eq_set h new
  obtain ⟨hlt, hheld⟩ := List.getElem?_eq_some_iff.1 hat
  refine ⟨next, hset, fun w => ?_⟩
  have hsum := total_set (fun o : Role × NodeId => w o.2) hlt (role, new)
  rw [hheld] at hsum
  rw [hoperands]
  exact hsum

end Node

namespace Tree

variable {tree new : Tree} {id value : NodeId} {role : Role}

theorem weight_setOperand {old : NodeId} (h : (role, old) ∈ (tree.node id).operands)
    (value : NodeId) :
    (tree.setOperand id role value).weight + (tree.kind old).operandCost =
      tree.weight + (tree.kind value).operandCost := by
  have hid : id.index < tree.size := by
    apply lt_size_of_node_ne
    intro heq
    simp [heq, Node.operands] at h
  obtain ⟨next, hnext, hsum⟩ := Node.setOperand?_of_mem h value
  have hblock := Node.kind_ne_block_of_operand h
  have hmodify := weight_modify (f := fun node => (node.setOperand? role value).getD node) hid
    (kind_setOperand_getD _ role value)
  rw [hnext, Option.getD_some, Node.cost_of_kind_ne _ hblock,
    Node.cost_of_kind_ne _ (by rw [Node.kind_setOperand? hnext]; exact hblock)] at hmodify
  have hcost := hsum fun o => (tree.kind o).operandCost
  unfold setOperand
  omega

theorem weight_setOperand_le (tree : Tree) (id : NodeId) (role : Role) (value : NodeId) :
    (tree.setOperand id role value).weight ≤ tree.weight + 1 := by
  cases hset : (tree.node id).setOperand? role value with
  | none =>
    refine weight_modify_le (f := fun node => (node.setOperand? role value).getD node) 1
      (kind_setOperand_getD _ role value) ?_
    rw [hset, Option.getD_none]
    exact Nat.le_add_right _ _
  | some next =>
    obtain ⟨old, hold⟩ := Node.exists_operand_of_setOperand? hset
    have hweight := weight_setOperand hold value
    have hcost := (tree.kind value).operandCost_le
    omega

theorem weight_setDeclares (tree : Tree) (id : NodeId) (declares : Bool) :
    (tree.setDeclares id declares).weight ≤ tree.weight := by
  refine weight_modify_le 0 (by unfold Tree.kind; cases tree.node id <;> rfl) ?_
  cases tree.node id <;> simp [Node.cost, Node.operands]

theorem callCount_eq (hext : tree.Extends new) (hsize : new.size = tree.size) :
    new.callCount = tree.callCount := by
  rw [callCount, callCount, hsize]
  refine List.countP_congr fun i hi => ?_
  rw [hext.kind ⟨i⟩ (List.mem_range.1 hi)]

theorem callCount_alloc (offset : Nat) {node : Node} (hnode : node.kind ≠ .call) :
    (tree.alloc offset node).callCount = tree.callCount := by
  have hext := Extends.of_grows (Grows.alloc tree offset node)
  have hlast : (tree.alloc offset node).kind ⟨tree.size⟩ = node.kind := by
    have heq : (⟨tree.size⟩ : NodeId) = tree.nextId := rfl
    rw [heq, Tree.kind, node_alloc_nextId]
  have hold : (List.range tree.size).countP (fun i => (tree.alloc offset node).kind ⟨i⟩ = .call) =
      tree.callCount := by
    refine List.countP_congr fun i hi => ?_
    rw [hext.kind ⟨i⟩ (List.mem_range.1 hi)]
  rw [callCount, size_alloc, List.range_succ, List.countP_append, hold]
  simp [hlast, hnode]

theorem callCount_le_size (tree : Tree) : tree.callCount ≤ tree.size := by
  have h := List.countP_le_length (p := fun i => tree.kind ⟨i⟩ = .call) (l := List.range tree.size)
  rwa [List.length_range] at h

theorem statements_of_kind_ne (h : tree.kind id ≠ .block) : tree.statements id = [] := by
  unfold Tree.kind at h
  unfold statements
  cases hnode : tree.node id <;> simp_all [Node.kind]

theorem statements_modify {block : NodeId} {f : Node → Node}
    (hf : ∀ statements, f (.block statements) = .block statements)
    (hkind : (f (tree.node id)).kind = tree.kind id) :
    (tree.modify id f).statements block = tree.statements block := by
  by_cases hblock : tree.kind block = .block
  · unfold statements
    rcases node_modify_cases tree id block f with heq | ⟨rfl, -, heq⟩
    · rw [heq]
    · unfold Tree.kind at hblock
      cases hnode : tree.node block <;> simp_all [Node.kind]
  · have hext := Extends.modify hkind
    rw [statements_of_kind_ne hblock, statements_of_kind_ne]
    rwa [hext.kind_eq hblock]

@[simp] theorem statements_setOperand {block : NodeId} :
    (tree.setOperand id role value).statements block = tree.statements block :=
  statements_modify (fun _ => by cases role <;> rfl) (kind_setOperand_getD _ role value)

@[simp] theorem statements_setDeclares {block : NodeId} (declares : Bool) :
    (tree.setDeclares id declares).statements block = tree.statements block :=
  statements_modify (fun _ => rfl) (by unfold Tree.kind; cases tree.node id <;> rfl)

@[simp] theorem size_setOperand : (tree.setOperand id role value).size = tree.size := size_modify ..

@[simp] theorem size_eraseStatement (index : Nat) :
    (tree.eraseStatement id index).size = tree.size := size_modify ..

@[simp] theorem size_setStatement (index : Nat) :
    (tree.setStatement id index value).size = tree.size := size_modify ..

@[simp] theorem size_setDeclares (declares : Bool) :
    (tree.setDeclares id declares).size = tree.size := size_modify ..

end Tree

namespace Draft

variable {settings : CompactSettings} {routines : Routines} {draft next : Draft} {block : NodeId}

/-- What every step lowers. An argument that becomes a result weighs more than the destinations that
its calls may get and the declaration in the body. -/
def measure (draft : Draft) : Nat :=
  draft.tree.formalCount * (2 * draft.tree.callCount + 3) +
    2 * draft.facts.destinations.length + draft.tree.weight

theorem measure_refresh : (draft.refresh routines).measure = draft.measure := by
  simp [measure, refresh]

theorem Destined.length_destinations_le (h : draft.Destined) :
    draft.facts.destinations.length ≤ draft.tree.callCount := by
  have hsub : draft.facts.destinations.map (·.1.index) ⊆
      (List.range draft.tree.size).filter fun i => draft.tree.kind ⟨i⟩ = .call := by
    intro i hi
    obtain ⟨entry, hentry, rfl⟩ := List.mem_map.1 hi
    have hcall := (h.slots entry hentry).1
    have hlt : entry.1.index < draft.tree.size := Tree.lt_size_of_kind_ne (by simp [hcall])
    exact List.mem_filter.2 ⟨List.mem_range.2 hlt, by simpa using hcall⟩
  have hnodup : (draft.facts.destinations.map (·.1.index)).Nodup := by
    have hkeys := List.Nodup.map (fun _ _ heq => Facts.index_eq_iff.1 heq) h.keys
    rwa [List.map_map] at hkeys
  have hle := (hnodup.subperm hsub).length_le
  rwa [List.length_map, ← List.countP_eq_length_filter] at hle

theorem length_dropDestination_lt {facts : Facts} {call slot : NodeId}
    (h : facts.destination? call = some slot) :
    (facts.dropDestination call).destinations.length < facts.destinations.length := by
  obtain ⟨before, behind, heq, -⟩ := List.lookup_eq_some_iff.1 h
  have hmem : (call, slot) ∈ facts.destinations := by simp [heq]
  exact List.length_filter_lt_length_iff_exists.2 ⟨_, hmem, by simp⟩

theorem subroutines_apply (rewrite : Rewrite) :
    (rewrite.apply block draft).tree.subroutines = draft.tree.subroutines := by
  cases rewrite <;> rfl

theorem callCount_apply {rewrite : Rewrite} (h : draft.Proper)
    (hadmits : draft.Admits block rewrite) :
    (rewrite.apply block draft).tree.callCount = draft.tree.callCount := by
  have hext := (h.apply hadmits).1
  cases hadmits with
  | assignCall => 
    simp only [Rewrite.apply]
    refine (Tree.callCount_eq (Tree.extends_modifyStatements _) (by simp)).trans ?_
    exact Tree.callCount_alloc _ (by simp [Node.kind])
  | _ => exact Tree.callCount_eq hext (by simp [Rewrite.apply])

theorem mem_operands_of_argument {tree : Tree} {action argument : NodeId} {index : Nat}
    {routine : UInt16} {arguments : List NodeId} (hnode : tree.node action = .action routine arguments)
    (hargument : arguments[index]? = some argument) :
    (.actionArgument index, argument) ∈ (tree.node action).operands := by
  obtain ⟨hlt, rfl⟩ := List.getElem?_eq_some_iff.1 hargument
  rw [hnode]
  exact List.mem_mapIdx.2 ⟨index, hlt, rfl⟩

theorem operandCost_of_onlyCall? {tree : Tree} {argument call : NodeId}
    (h : tree.onlyCall? argument = some call) : (tree.kind argument).operandCost = 1 := by
  have hblock : tree.kind argument = .block := by
    by_contra hne
    simp [Tree.onlyCall?, Tree.statements_of_kind_ne hne] at h
  simp [hblock, Kind.operandCost]

theorem operandCost_of_isCall {kind : Kind} (h : kind.isCall) : kind.operandCost = 0 := by
  cases kind <;> simp_all [Kind.operandCost, Kind.isCall]

theorem operandCost_of_isSlot {tree : Tree} {id : NodeId} (h : tree.isSlot id) :
    (tree.kind id).operandCost = 0 := by
  simp [Tree.isSlot_iff_kind.1 h, Kind.operandCost]

theorem operandCost_of_recomposed? {tree : Tree} {operand source : NodeId}
    (h : tree.recomposed? operand = some source) : (tree.kind operand).operandCost = 1 := by
  unfold Tree.recomposed? at h
  split at h
  · next hnode => simp [Tree.kind, hnode, Node.kind, Kind.operandCost]
  · cases h

/-- A call that becomes an assignment counts one more. -/
theorem weight_assignCall {tree : Tree} {block call slot : NodeId} {index : Nat} (offset : Nat)
    (h : tree.WellFormed) (hslot : tree.isSlot slot)
    (hat : (tree.statements block)[index]? = some call) (hkind : tree.kind call = .call) :
    ((tree.alloc offset (.binary .assign slot call false)).setStatement block index
      tree.nextId).weight = tree.weight + 1 := by
  have hext := Tree.Extends.of_grows
    (Tree.Grows.alloc tree offset (.binary .assign slot call false))
  have hvalue : tree.IsValue call := isValue_of_isCall (by rw [hkind]; rfl)
  have halloc := Tree.weight_alloc h (fits_assign hslot hvalue false) offset
  have hat' : ((tree.alloc offset (.binary .assign slot call false)).statements block)[index]? =
      some call := by
    rw [Tree.statements_alloc (by simp)]
    exact hat
  have hset := Tree.weight_setStatement hat' tree.nextId
  have hnext : (tree.alloc offset (.binary .assign slot call false)).kind tree.nextId =
      .binary .assign := by
    rw [Tree.kind, Tree.node_alloc_nextId, Node.kind]
  have hcost : (Node.binary .assign slot call false).cost tree.kind = 0 := by
    simp [Node.cost, Node.operands, hkind, Tree.isSlot_iff_kind.1 hslot, Kind.operandCost]
  rw [hext.kind_eq (by simp [hkind]), hkind, hnext] at hset
  simp only [Kind.statementCost, reduceCtorEq, if_false, if_true] at hset
  omega

theorem measure_apply_lt {rewrite : Rewrite} (h : draft.Proper)
    (hadmits : draft.Admits block rewrite) : (rewrite.apply block draft).measure < draft.measure := by
  -- Arguments and calls are as before; destinations go, or the weight does.
  have hformals : (rewrite.apply block draft).tree.formalCount = draft.tree.formalCount := by
    rw [Tree.formalCount, subroutines_apply, Tree.formalCount]
  have hcalls := callCount_apply h hadmits
  have hrest : 2 * (rewrite.apply block draft).facts.destinations.length +
      (rewrite.apply block draft).tree.weight <
      2 * draft.facts.destinations.length + draft.tree.weight := by
    cases hadmits with
    | dropDeclaration hat | dropAssignment hat | dropLabel hat =>
      have hweight := Tree.weight_eraseStatement hat
      simp only [Rewrite.apply]
      omega
    | @mergeDeclaration index statement assign hat hinit =>
      have hdeclares := draft.tree.weight_setDeclares assign true
      have hat' : ((draft.tree.setDeclares assign true).statements block)[index]? = some statement := by
        rw [Tree.statements_setDeclares]
        exact hat
      have hweight := Tree.weight_eraseStatement hat'
      simp only [Rewrite.apply]
      omega
    | @collapseAction action argument call index routine arguments hnode hargument hcall =>
      have hweight := Tree.weight_setOperand (mem_operands_of_argument hnode hargument) call
      rw [operandCost_of_onlyCall? hcall, operandCost_of_isCall (isCall_of_onlyCall? hcall)]
        at hweight
      simp only [Rewrite.apply]
      omega
    | @assignCall index call slot hat hkind hslot =>
      have hdestinations := length_dropDestination_lt hslot
      have hweight := weight_assignCall (draft.tree.offset call) h.tree
        (h.destined.destination hslot) hat hkind
      simp only [Rewrite.apply]
      omega
    | @inlineValue statement move hat hmoves =>
      have hoperand := draft.tree.weight_setOperand_le move.read.node move.read.role move.value
      have hat' : ((draft.tree.setOperand move.read.node move.read.role move.value).statements
          block)[move.index]? = some statement := by
        rw [Tree.statements_setOperand]
        exact hat
      have hweight := Tree.weight_eraseStatement hat'
      simp only [Rewrite.apply]
      omega
    | @collapseVector node operand source role hoperand hsource =>
      have hweight := Tree.weight_setOperand hoperand source
      rw [operandCost_of_recomposed? hsource,
        operandCost_of_isSlot (isSlot_of_recomposed? h.tree hsource)] at hweight
      simp only [Rewrite.apply]
      omega
    | @keepValue index statement slot value declares hat hnode hkept =>
      have hvalue := (h.tree statement).operand (.right, value)
        (by rw [hnode]; simp [Node.operands])
      have hweight := Tree.weight_setStatement hat value
      have hassign : draft.tree.kind statement = .binary .assign := by
        rw [Tree.kind, hnode, Node.kind]
      simp only [hassign, Kind.statementCost, if_true, if_neg hvalue.kind] at hweight
      simp only [Rewrite.apply]
      omega
  unfold measure
  rw [hformals, hcalls]
  omega

theorem formalCount_modifySub {tree : Tree} {sub : SubId} {f : Subroutine → Subroutine}
    (hsub : sub.index < tree.subroutines.size) :
    (tree.modifySub sub f).formalCount + (tree.sub sub).formals.length =
      tree.formalCount + (f (tree.sub sub)).formals.length := by
  have hlist : sub.index < tree.subroutines.toList.length := by simpa using hsub
  have hsum := total_modify (·.formals.length) hlist f
  have hget : tree.sub sub = tree.subroutines[sub.index] := by
    rw [Tree.sub, Array.getElem?_eq_getElem hsub, Option.getD_some]
  rw [hget]
  simpa [Tree.formalCount, Tree.modifySub] using hsum

theorem lt_size_of_formal {tree : Tree} {sub : SubId} {index : Nat} {formal : Formal}
    (h : (tree.sub sub).formals[index]? = some formal) : sub.index < tree.subroutines.size := by
  by_contra hge
  simp [Tree.sub, Array.getElem?_eq_none (Nat.le_of_not_lt hge)] at h

theorem lightens_answer {tree : Tree} {slot : NodeId} (hslot : tree.isSlot slot) (ret : NodeId) :
    (answer slot tree ret).weight ≤ tree.weight := by
  refine Tree.weight_modify_le 0 (by unfold Tree.kind; cases tree.node ret <;> rfl) ?_
  cases tree.node ret <;> simp [Node.cost, Node.operands, operandCost_of_isSlot hslot]

theorem lightens_answers {slot : NodeId} (returns : List NodeId) {tree : Tree}
    (hslot : tree.isSlot slot) : (returns.foldl (answer slot) tree).weight ≤ tree.weight := by
  induction returns generalizing tree with
  | nil => exact Nat.le_refl _
  | cons ret returns ih =>
    exact Nat.le_trans (ih ((extends_answer tree slot ret).isSlot hslot)) (lightens_answer hslot ret)

theorem lightens_takeArgument (index : Nat) (draft : Draft) (call : NodeId) :
    (takeArgument index draft call).tree.weight ≤ draft.tree.weight := by
  unfold takeArgument
  split
  case h_2 => exact Nat.le_refl _
  case h_1 callee arguments hnode =>
  split
  case h_2 => exact Nat.le_refl _
  case h_1 removed hremoved =>
  refine Tree.weight_modify_le (f := fun _ => .call callee (arguments.eraseIdx index)) 0
    (by rw [Tree.kind, hnode, Node.kind, Node.kind]) ?_
  have hsum := total_eraseIdx (fun a => (draft.tree.kind a).operandCost)
    (List.getElem?_eq_some_iff.1 hremoved).1
  rw [hnode]
  simp only [Node.cost, Node.operands,
    Node.total_mapIdx _ _ fun a => (draft.tree.kind a).operandCost]
  omega

theorem lightens_takeArguments (index : Nat) (calls : List NodeId) (draft : Draft) :
    (calls.foldl (takeArgument index) draft).tree.weight ≤ draft.tree.weight := by
  induction calls generalizing draft with
  | nil => exact Nat.le_refl _
  | cons call calls ih => exact Nat.le_trans (ih _) (lightens_takeArgument index draft call)

/-- One declaration comes. -/
theorem weight_makeResult_le (sub : SubId) (index : Nat) {formal : Formal}
    (hslot : draft.tree.isSlot formal.slot) :
    (draft.makeResult sub index formal).tree.weight ≤ draft.tree.weight + 2 := by
  let narrowed := draft.tree.modifySub sub fun s => { s with formals := s.formals.eraseIdx index }
  let marked := narrowed.modifySlot formal.slot fun s => { s with storage := .result }
  let declared := marked.modifyStatements (marked.sub sub).root (formal.slot :: ·)
  let answered := (draft.facts.returnsOf sub).foldl (answer formal.slot) declared
  have hnarrowedExt : draft.tree.Extends narrowed := Tree.Extends.of_exprs_eq rfl
  have hmarkedExt : draft.tree.Extends marked :=
    hnarrowedExt.trans (Tree.Extends.of_grows (Tree.Grows.modifySlot narrowed formal.slot _))
  have hslot' := hmarkedExt.isSlot hslot
  have hmarked : marked.weight ≤ narrowed.weight := by
    refine Tree.weight_modify_le 0
      (by unfold Tree.kind; cases narrowed.node formal.slot <;> rfl) ?_
    cases narrowed.node formal.slot <;> simp [Node.cost, Node.operands]
  have hdeclared : declared.weight ≤ marked.weight + 2 := by
    refine Tree.weight_modify_le 2 (by
      unfold Tree.kind; cases marked.node (marked.sub sub).root <;> rfl) ?_
    have hkind := Tree.isSlot_iff_kind.1 hslot'
    cases marked.node (marked.sub sub).root <;>
      simp [Node.cost, Node.operands, hkind, Kind.statementCost, Nat.add_comm]
  calc
    (draft.makeResult sub index formal).tree.weight
      = ((draft.facts.callsOf sub).foldl (takeArgument index)
          { draft with tree := answered }).tree.weight := Tree.weight_of_exprs_eq rfl
    _ ≤ answered.weight := lightens_takeArguments index _ _
    _ ≤ declared.weight :=
      lightens_answers _ ((Tree.extends_modifyStatements (formal.slot :: ·)).isSlot hslot')
    _ ≤ narrowed.weight + 2 := Nat.le_trans hdeclared (Nat.add_le_add_right hmarked 2)
    _ = draft.tree.weight + 2 := congrArg (· + 2) (Tree.weight_of_exprs_eq rfl)

theorem formalCount_makeResult {sub : SubId} {index : Nat} {formal : Formal}
    (hformal : (draft.tree.sub sub).formals[index]? = some formal) :
    (draft.makeResult sub index formal).tree.formalCount + 1 = draft.tree.formalCount := by
  have hedits := edits_makeResult draft sub index formal
  have hcount := formalCount_modifySub (f := answering index formal) (lt_size_of_formal hformal)
  have hlength := List.length_eraseIdx_add_one (List.getElem?_eq_some_iff.1 hformal).1
  rw [Tree.formalCount, hedits.subroutines, ← Tree.formalCount]
  simp only [answering] at hcount ⊢
  omega

theorem measure_makeResult_lt (h : draft.Proper) {sub : SubId} {index : Nat} {formal : Formal}
    (hformal : (draft.tree.sub sub).formals[index]? = some formal)
    (hslot : draft.tree.isSlot formal.slot) :
    (draft.makeResult sub index formal).measure < draft.measure := by
  obtain ⟨hext, hproper⟩ := h.makeResult sub index hslot
  have hedits := edits_makeResult draft sub index formal
  have hweight := weight_makeResult_le sub index hslot
  -- One argument goes, and the calls may get destinations in its place.
  have hdestinations := hproper.destined.length_destinations_le
  have hformals := formalCount_makeResult hformal
  have hcalls : (draft.makeResult sub index formal).tree.callCount = draft.tree.callCount :=
    Tree.callCount_eq hext hedits.size
  unfold measure
  rw [← hformals, hcalls, Nat.add_one_mul (draft.makeResult sub index formal).tree.formalCount]
  rw [hcalls] at hdestinations
  omega

theorem Step.measure_lt (h : Step settings routines draft next) (hcurrent : draft.Current routines)
    (hdraft : draft.Proper) : next.measure < draft.measure := by
  cases h with
  | recover hindex hformal =>
    rw [measure_refresh]
    exact measure_makeResult_lt hdraft hformal (isSlot_of_resultIndex? hcurrent hindex hformal)
  | rewrite hlive hrewrite =>
    rw [measure_refresh]
    exact measure_apply_lt hdraft (admits_of_rewrite? hrewrite)

theorem lowers_measure (settings : CompactSettings) (routines : Routines) :
    Lowers settings routines Proper measure where
  change ha hproper hchange := hchange.proper ha hproper
  queue _ _ := rfl
  step ha hproper hstep := hstep.measure_lt ha hproper

theorem weight_add_le_extent (tree : Tree) :
    tree.weight + 3 * (tree.size + tree.formalCount) ≤ 3 * tree.extent := by
  have hsum := total_le_mul tree.exprs.toList fun e => e.node.cost_le tree.kind
  unfold Tree.weight Tree.extent Tree.formalCount
  omega

theorem measure_lt_bound (h : draft.facts.destinations = []) :
    draft.measure < Nat.pow (draft.tree.extent + 2) 12 := by
  have hextent := weight_add_le_extent draft.tree
  have hcalls := draft.tree.callCount_le_size
  have hproduct : draft.tree.formalCount * (2 * draft.tree.callCount + 3) ≤
      draft.tree.extent * (2 * draft.tree.extent + 3) :=
    Nat.mul_le_mul (by omega) (by omega)
  calc
    draft.measure ≤ draft.tree.extent * (2 * draft.tree.extent + 3) + 3 * draft.tree.extent := by
      simp only [measure, h, List.length_nil]
      omega
    _ < 2 * ((draft.tree.extent + 2) * (draft.tree.extent + 2)) := by
      simp only [Nat.mul_add, Nat.add_mul, Nat.mul_left_comm draft.tree.extent 2]
      omega
    _ ≤ (draft.tree.extent + 2) * ((draft.tree.extent + 2) * (draft.tree.extent + 2)) :=
      Nat.mul_le_mul_right _ (by omega)
    _ = (draft.tree.extent + 2) ^ 3 := by rw [Nat.pow_succ', Nat.pow_two]
    _ ≤ (draft.tree.extent + 2) ^ 12 := Nat.pow_le_pow_right (by omega) (by omega)

end Draft

end ScriptLift
