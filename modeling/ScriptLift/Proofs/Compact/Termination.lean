import ScriptLift.Proofs.Compact.Grounding
import ScriptLift.Proofs.Compact.Idempotence

/-! Compaction ends on every tree without cycles, whatever its nodes are.

No size of the tree alone goes down: results bring declarations, calls get assignments, and a value
that moves makes its consumer larger. What goes down is the statements there are and may still come,
and, while they stay, the number of nodes that the parts of nodes lead to. -/
namespace ScriptLift

def Node.statementCount : Node → Nat
  | .block statements => statements.length
  | _ => 0

theorem Node.statementCount_of_kind_ne {node : Node} (h : node.kind ≠ .block) :
    node.statementCount = 0 := by
  cases node <;> simp_all [Node.kind, statementCount]

theorem Node.statementCount_setOperand (node : Node) (role : Role) (value : NodeId) :
    ((node.setOperand? role value).getD node).statementCount = node.statementCount := by
  by_cases hkind : node.kind = .block
  · cases node <;> simp_all [Node.kind, setOperand?]
  · rw [statementCount_of_kind_ne hkind,
      statementCount_of_kind_ne (by rwa [Tree.kind_setOperand_getD])]

theorem Node.length_parts (node : Node) : node.parts.length = node.partCount := by
  cases node <;> simp [parts, partCount]

theorem Node.statementCount_le (node : Node) : node.statementCount ≤ node.partCount := by
  cases node <;> simp [statementCount, partCount]

namespace Tree

variable {tree old new : Tree} {id value : NodeId} {role : Role} {f : Node → Node} {g : Node → Nat}

def sum (tree : Tree) (g : Node → Nat) : Nat := total (fun e => g e.node) tree.exprs.toList

def tally (tree : Tree) (w : NodeId → Nat) : Nat := tree.sum fun node => total w node.parts

theorem sum_of_exprs_eq (h : new.exprs = old.exprs) : new.sum g = old.sum g := by rw [sum, sum, h]

theorem sum_modify (hid : id.index < tree.size) :
    (tree.modify id f).sum g + g (tree.node id) = tree.sum g + g (f (tree.node id)) := by
  have hlt : id.index < tree.exprs.size := hid
  have hlist : id.index < tree.exprs.toList.length := by simpa using hlt
  have hsum := total_modify (fun e => g e.node) hlist fun e => { e with node := f e.node }
  rw [node_eq_getElem hlt]
  simpa [sum, modify] using hsum

theorem sum_modify_le (more : Nat) (h : g (f (tree.node id)) ≤ g (tree.node id) + more) :
    (tree.modify id f).sum g ≤ tree.sum g + more := by
  by_cases hid : id.index < tree.size
  · have hsum : (tree.modify id f).sum g + _ = _ := sum_modify hid
    omega
  · rw [sum_of_exprs_eq (exprs_modify_of_size_le (Nat.le_of_not_lt hid))]
    omega

theorem sum_modify_eq (h : g (f (tree.node id)) = g (tree.node id)) :
    (tree.modify id f).sum g = tree.sum g := by
  by_cases hid : id.index < tree.size
  · have hsum : (tree.modify id f).sum g + _ = _ := sum_modify hid
    omega
  · exact sum_of_exprs_eq (exprs_modify_of_size_le (Nat.le_of_not_lt hid))

theorem sum_alloc (offset : Nat) (node : Node) :
    (tree.alloc offset node).sum g = tree.sum g + g node := by
  simp [sum, alloc]

theorem sum_le_sum {g' : Node → Nat} (h : ∀ node, g node ≤ g' node) : tree.sum g ≤ tree.sum g' :=
  total_le_total _ fun e => h e.node

theorem tally_setOperand {operand : NodeId} (h : (role, operand) ∈ (tree.node id).operands)
    (value : NodeId) (w : NodeId → Nat) :
    (tree.setOperand id role value).tally w + w operand = tree.tally w + w value := by
  have hblock := Node.kind_ne_block_of_operand h
  have hid : id.index < tree.size := lt_size_of_kind_ne hblock
  obtain ⟨next, hnext, hsum⟩ := Node.setOperand?_of_mem h value
  have hmodify : (tree.setOperand id role value).tally w + _ = _ := sum_modify hid
  rw [hnext, Option.getD_some, Node.parts_of_kind_ne hblock,
    Node.parts_of_kind_ne (by rwa [Node.kind_setOperand? hnext]), total_map, total_map] at hmodify
  have hcost := hsum w
  unfold tally at hmodify ⊢
  omega

theorem tally_setDeclares (declares : Bool) (w : NodeId → Nat) :
    (tree.setDeclares id declares).tally w = tree.tally w := by
  refine sum_modify_eq ?_
  cases tree.node id <;> rfl

theorem tally_modifyStatements {block s : NodeId} {index : Nat}
    (h : (tree.statements block)[index]? = some s) (change : List NodeId → List NodeId)
    (w : NodeId → Nat) :
    (tree.modifyStatements block change).tally w + total w (tree.statements block) =
      tree.tally w + total w (change (tree.statements block)) := by
  obtain ⟨hnode, hlt⟩ := node_of_statement h
  have hmodify : (tree.modifyStatements block change).tally w + _ = _ := sum_modify hlt
  simpa only [hnode, Node.parts, tally] using hmodify

theorem tally_eraseStatement {block s : NodeId} {index : Nat}
    (h : (tree.statements block)[index]? = some s) (w : NodeId → Nat) :
    (tree.eraseStatement block index).tally w + w s = tree.tally w := by
  have hmodify := tally_modifyStatements h (·.eraseIdx index) w
  obtain ⟨hindex, rfl⟩ := List.getElem?_eq_some_iff.1 h
  have hsum := total_eraseIdx w hindex
  unfold eraseStatement
  omega

theorem tally_setStatement {block s : NodeId} {index : Nat}
    (h : (tree.statements block)[index]? = some s) (statement : NodeId) (w : NodeId → Nat) :
    (tree.setStatement block index statement).tally w + w s = tree.tally w + w statement := by
  have hmodify := tally_modifyStatements h (·.set index statement) w
  obtain ⟨hindex, rfl⟩ := List.getElem?_eq_some_iff.1 h
  have hsum := total_set w hindex statement
  unfold setStatement
  omega

def statementCount (tree : Tree) : Nat := tree.sum Node.statementCount

theorem statementCount_eraseStatement {block s : NodeId} {index : Nat}
    (h : (tree.statements block)[index]? = some s) :
    (tree.eraseStatement block index).statementCount + 1 = tree.statementCount := by
  obtain ⟨hnode, hlt⟩ := node_of_statement h
  have hmodify : (tree.eraseStatement block index).statementCount + _ = _ := sum_modify hlt
  have hlength := List.length_eraseIdx_add_one (List.getElem?_eq_some_iff.1 h).1
  rw [hnode] at hmodify
  simp only [Node.statementCount] at hmodify
  unfold statementCount at hmodify ⊢
  omega

@[simp] theorem statementCount_setStatement (index : Nat) :
    (tree.setStatement id index value).statementCount = tree.statementCount := by
  refine sum_modify_eq ?_
  cases tree.node id <;> simp [Node.statementCount]

@[simp] theorem statementCount_setOperand :
    (tree.setOperand id role value).statementCount = tree.statementCount :=
  sum_modify_eq (Node.statementCount_setOperand _ role value)

@[simp] theorem statementCount_setDeclares (declares : Bool) :
    (tree.setDeclares id declares).statementCount = tree.statementCount := by
  refine sum_modify_eq ?_
  cases tree.node id <;> rfl

/-- Slots lead nowhere. -/
def linkCost (tree : Tree) (n : NodeId) : Nat := if tree.kind n = .slot then 0 else 1

def links (tree : Tree) : Nat := tree.tally tree.linkCost

/-- What the parts of nodes lead to, all together. -/
def spread (tree : Tree) : Nat := tree.tally tree.rank

theorem linkCost_le (tree : Tree) (n : NodeId) : tree.linkCost n ≤ 1 := by
  unfold linkCost
  split <;> omega

theorem linkCost_of_isSlot (h : tree.isSlot id) : tree.linkCost id = 0 := by
  simp [linkCost, isSlot_iff_kind.1 h]

theorem linkCost_of_kind_ne (h : tree.kind id ≠ .slot) : tree.linkCost id = 1 := by
  simp [linkCost, h]

theorem linkCost_eq (h : old.Extends new) (hnew : ∀ id, old.size ≤ id.index → new.kind id ≠ .slot) :
    new.linkCost = old.linkCost := by
  funext n
  by_cases hlt : n.index < old.size
  · rw [linkCost, linkCost, h.kind n hlt]
  · have hold : old.kind n ≠ .slot := by
      rw [Tree.kind, node_of_size_le (Nat.le_of_not_lt hlt)]
      simp [Node.kind]
    rw [linkCost_of_kind_ne hold, linkCost_of_kind_ne (hnew n (Nat.le_of_not_lt hlt))]

theorem linkCost_eq_of_size (h : old.Extends new) (hsize : new.size = old.size) :
    new.linkCost = old.linkCost := by
  refine linkCost_eq h fun id hid => ?_
  rw [Tree.kind, node_of_size_le (hsize ▸ hid)]
  simp [Node.kind]

theorem rank_of_size_le (h : tree.size ≤ id.index) : tree.rank id = 0 := by
  have hnone : ∀ steps, (Reach.widen fun a => (tree.descents a).toFinset)^[steps] {id} = {id} := by
    intro steps
    induction steps with
    | zero => rfl
    | succ steps ih =>
      rw [Function.iterate_succ_apply', ih, Reach.widen]
      simp [descents, below, node_of_size_le h]
  rw [rank, reach, hnone, Finset.card_singleton]

theorem Closed.rank_le_linkCost (h : tree.Closed) (n : NodeId) :
    tree.rank n ≤ tree.size * tree.linkCost n := by
  by_cases hslot : tree.kind n = .slot
  · rw [h.rank_of_slot hslot]
    exact Nat.zero_le _
  · rw [linkCost_of_kind_ne hslot, Nat.mul_one]
    by_cases hlt : n.index < tree.size
    · exact h.rank_le hlt
    · rw [rank_of_size_le (Nat.le_of_not_lt hlt)]
      exact Nat.zero_le _

theorem Closed.spread_le (h : tree.Closed) : tree.spread ≤ tree.size * tree.links :=
  total_le_mul _ fun e => total_le_mul e.node.parts h.rank_le_linkCost

theorem Closed.tally_rank_le (h : old.Closed) (hnew : new.Closed) (hsize : new.size = old.size)
    (hshorter : ∀ a b, new.Descends a b → Relation.TransGen old.Descends a b) :
    new.spread ≤ new.tally old.rank := by
  refine sum_le_sum fun node => total_le_total _ fun n => ?_
  by_cases hlt : n.index < old.size
  · exact h.rank_mono hnew hsize hshorter hlt
  · rw [rank_of_size_le (hsize ▸ Nat.le_of_not_lt hlt)]
    exact Nat.zero_le _

end Tree

namespace Draft

variable {settings : CompactSettings} {routines : Routines} {draft next : Draft} {block : NodeId}
  {rewrite : Rewrite}

/-- Assignments that may still come: one for each destination, and as many for an argument as there
are calls. -/
def pending (draft : Draft) : Nat :=
  draft.tree.formalCount * (draft.tree.callCount + 1) + draft.facts.destinations.length

/-- Statements there are, and what may still bring one or take one away. -/
def remaining (draft : Draft) : Nat :=
  draft.tree.statementCount + draft.tree.formalCount * (draft.tree.callCount + 2) +
    draft.facts.destinations.length

/-- Nodes that may come to be, times links that may. -/
def room (draft : Draft) : Nat :=
  (draft.tree.size + draft.pending) * (draft.tree.links + draft.pending)

/-- What every step lowers, for any tree without cycles. -/
def load (draft : Draft) : Nat := draft.remaining * (draft.room + 1) + draft.tree.spread

theorem load_refresh : (draft.refresh routines).load = draft.load := by
  simp [load, remaining, room, pending, refresh]

theorem spread_le_room (h : draft.tree.Closed) : draft.tree.spread ≤ draft.room :=
  Nat.le_trans h.spread_le (Nat.mul_le_mul (Nat.le_add_right _ _) (Nat.le_add_right _ _))

theorem room_mono (hsize : next.tree.size + next.pending ≤ draft.tree.size + draft.pending)
    (hlinks : next.tree.links + next.pending ≤ draft.tree.links + draft.pending) :
    next.room ≤ draft.room :=
  Nat.mul_le_mul hsize hlinks

theorem load_lt_of_fewer (hnext : next.tree.Closed) (hfewer : next.remaining < draft.remaining)
    (hroom : next.room ≤ draft.room) : next.load < draft.load := by
  have hspread := spread_le_room hnext
  calc
    next.load ≤ next.remaining * (draft.room + 1) + draft.room :=
      Nat.add_le_add (Nat.mul_le_mul_left _ (Nat.succ_le_succ hroom)) (Nat.le_trans hspread hroom)
    _ < (next.remaining + 1) * (draft.room + 1) := by
      rw [Nat.add_one_mul]
      omega
    _ ≤ draft.remaining * (draft.room + 1) := Nat.mul_le_mul_right _ hfewer
    _ ≤ draft.load := Nat.le_add_right _ _

theorem load_lt_of_closer (hsame : next.remaining = draft.remaining)
    (hroom : next.room ≤ draft.room) (hspread : next.tree.spread < draft.tree.spread) :
    next.load < draft.load := by
  unfold load
  rw [hsame]
  exact Nat.add_lt_add_of_le_of_lt (Nat.mul_le_mul_left _ (Nat.succ_le_succ hroom)) hspread

section InPlace

variable (h : draft.Sturdy) (hadmits : draft.Admits block rewrite)
  (hsize : (rewrite.apply block draft).tree.size = draft.tree.size)
  (hfacts : (rewrite.apply block draft).facts = draft.facts)
include h hsize

theorem linkCost_apply :
    (rewrite.apply block draft).tree.linkCost = draft.tree.linkCost :=
  Tree.linkCost_eq_of_size (rewrite.rewires_apply block h.closed).kinds hsize

include hfacts

theorem counts_apply :
    (rewrite.apply block draft).pending = draft.pending ∧
      (rewrite.apply block draft).remaining + draft.tree.statementCount =
        draft.remaining + (rewrite.apply block draft).tree.statementCount := by
  have hformals : (rewrite.apply block draft).tree.formalCount = draft.tree.formalCount := by
    rw [Tree.formalCount, subroutines_apply, Tree.formalCount]
  have hcalls : (rewrite.apply block draft).tree.callCount = draft.tree.callCount :=
    Tree.callCount_eq (rewrite.rewires_apply block h.closed).kinds hsize
  unfold pending remaining
  rw [hformals, hcalls, hfacts]
  omega

theorem room_apply_le
    (hlinks : (rewrite.apply block draft).tree.tally draft.tree.linkCost ≤ draft.tree.links) :
    (rewrite.apply block draft).room ≤ draft.room := by
  have hpending := (counts_apply h hsize hfacts).1
  refine room_mono (by rw [hsize, hpending]) ?_
  rw [hpending, Tree.links, linkCost_apply h hsize]
  exact Nat.add_le_add_right hlinks _

theorem load_lt_of_erased (hnext : (rewrite.apply block draft).tree.Closed)
    (hcount : (rewrite.apply block draft).tree.statementCount + 1 = draft.tree.statementCount)
    (hlinks : (rewrite.apply block draft).tree.tally draft.tree.linkCost ≤ draft.tree.links) :
    (rewrite.apply block draft).load < draft.load := by
  have hcounts := (counts_apply h hsize hfacts).2
  exact load_lt_of_fewer hnext (by omega) (room_apply_le h hsize hfacts hlinks)

include hadmits

theorem load_lt_of_shortened (hnext : (rewrite.apply block draft).tree.Closed)
    (hshort : rewrite.isShortcut)
    (hcount : (rewrite.apply block draft).tree.statementCount = draft.tree.statementCount)
    (hlinks : (rewrite.apply block draft).tree.tally draft.tree.linkCost ≤ draft.tree.links)
    (hranks : (rewrite.apply block draft).tree.tally draft.tree.rank < draft.tree.spread) :
    (rewrite.apply block draft).load < draft.load := by
  have hcounts := (counts_apply h hsize hfacts).2
  have hspread := h.closed.tally_rank_le hnext hsize fun a b hab => by
    rcases (rewrite.rewires_apply block h.closed).descends h.closed hab with hold | hlink
    · exact .single hold
    · exact hadmits.shortens hshort hlink
  exact load_lt_of_closer (by omega) (room_apply_le h hsize hfacts hlinks) (by omega)

end InPlace

/-- A statement goes, in a tree whose statements and links are those of the draft or fewer. -/
theorem load_eraseStatement_lt (h : draft.Sturdy) (hcurrent : draft.Current routines)
    (hlive : draft.facts.isLive block) (hadmits : draft.Admits block rewrite) {tree : Tree}
    {index : Nat} {s : NodeId} (happly : rewrite.apply block draft =
      { draft with tree := tree.eraseStatement block index })
    (hat : (tree.statements block)[index]? = some s) (hsize : tree.size = draft.tree.size)
    (hcount : tree.statementCount = draft.tree.statementCount)
    (hlinks : tree.tally draft.tree.linkCost ≤ draft.tree.links + draft.tree.linkCost s) :
    (rewrite.apply block draft).load < draft.load := by
  have hnext := (h.apply hcurrent hlive hadmits).closed
  have hless := Tree.statementCount_eraseStatement hat
  have htally := Tree.tally_eraseStatement hat draft.tree.linkCost
  refine load_lt_of_erased h ?_ ?_ hnext ?_ ?_
  · rw [happly]
    simpa using hsize
  · rw [happly]
  · rw [happly]
    dsimp only
    omega
  · rw [happly]
    dsimp only
    omega

/-- An operand is replaced by one that ranks lower. -/
theorem load_setOperand_lt (h : draft.Sturdy) (hcurrent : draft.Current routines)
    (hlive : draft.facts.isLive block) (hadmits : draft.Admits block rewrite)
    (hshort : rewrite.isShortcut) {node operand value : NodeId} {role : Role}
    (happly : rewrite.apply block draft =
      { draft with tree := draft.tree.setOperand node role value })
    (hoperand : (role, operand) ∈ (draft.tree.node node).operands)
    (hnode : Relation.ReflTransGen draft.tree.Descends block node)
    (hkind : draft.tree.kind operand ≠ .slot)
    (hvalue : Relation.TransGen draft.tree.Descends operand value) :
    (rewrite.apply block draft).load < draft.load := by
  have hnext := (h.apply hcurrent hlive hadmits).closed
  have hdescends := Tree.descends_of_operand hoperand
  have hground : draft.tree.Grounded operand :=
    (Reach.acc_of_reaches (h.live hcurrent hlive).2 hnode).inv hdescends
  have hrank := h.closed.rank_lt (h.closed.descent hdescends) hground hvalue
  have hlinks := Tree.tally_setOperand hoperand value draft.tree.linkCost
  have hranks := Tree.tally_setOperand hoperand value draft.tree.rank
  have hcost := draft.tree.linkCost_le value
  rw [Tree.linkCost_of_kind_ne hkind] at hlinks
  refine load_lt_of_shortened h hadmits ?_ ?_ hnext hshort ?_ ?_ ?_
  · rw [happly]
    exact Tree.size_setOperand
  · rw [happly]
  · rw [happly]
    exact Tree.statementCount_setOperand
  · rw [happly]
    unfold Tree.links
    dsimp only
    omega
  · rw [happly]
    unfold Tree.spread
    dsimp only
    omega

theorem load_keepValue_lt (h : draft.Sturdy) (hcurrent : draft.Current routines)
    (hlive : draft.facts.isLive block) {index : Nat} {statement slot value : NodeId}
    {declares : Bool} (hat : (draft.tree.statements block)[index]? = some statement)
    (hnode : draft.tree.node statement = .binary .assign slot value declares)
    (hkept : draft.tree.isKept value) :
    (Rewrite.apply block draft (.keepValue index value)).load < draft.load := by
  have hadmits : draft.Admits block (.keepValue index value) := .keepValue hat hnode hkept
  have hnext := (h.apply hcurrent hlive hadmits).closed
  have hkind : draft.tree.kind statement = .binary .assign := by rw [Tree.kind, hnode, Node.kind]
  have hdescends := Tree.descends_of_statement (List.mem_of_getElem? hat) (by simp [hkind])
  have hoperand : (.right, value) ∈ (draft.tree.node statement).operands := by
    simp [hnode, Node.operands]
  have hrank := h.closed.rank_lt (h.closed.descent hdescends)
    ((h.live hcurrent hlive).2.inv hdescends) (.single (Tree.descends_of_operand hoperand))
  have hlinks := Tree.tally_setStatement hat value draft.tree.linkCost
  have hranks := Tree.tally_setStatement hat value draft.tree.rank
  have hcost := draft.tree.linkCost_le value
  rw [Tree.linkCost_of_kind_ne (by simp [hkind] : draft.tree.kind statement ≠ .slot)] at hlinks
  refine load_lt_of_shortened h hadmits (by simp [Rewrite.apply]) rfl hnext rfl ?_ ?_ ?_
  · exact Tree.statementCount_setStatement index
  · simp only [Rewrite.apply, Tree.links]
    omega
  · simp only [Rewrite.apply, Tree.spread]
    omega

theorem counts_assignCall (draft : Draft) (block call slot : NodeId) (index : Nat) :
    let next := Rewrite.apply block draft (.assignCall index call slot)
    next.tree.size = draft.tree.size + 1 ∧ next.tree.formalCount = draft.tree.formalCount ∧
      next.tree.callCount = draft.tree.callCount ∧
      next.tree.statementCount = draft.tree.statementCount := by
  refine ⟨by simp [Rewrite.apply], rfl, ?_, ?_⟩
  · exact (Tree.callCount_eq (Tree.extends_modifyStatements _) (by simp)).trans
      (Tree.callCount_alloc _ (by simp [Node.kind]))
  · exact (Tree.statementCount_setStatement index).trans (Tree.sum_alloc _ _)

theorem linkCost_assignCall (h : draft.tree.Closed) (block call slot : NodeId) (index : Nat) :
    (Rewrite.apply block draft (.assignCall index call slot)).tree.linkCost =
      draft.tree.linkCost := by
  have hsize := (counts_assignCall draft block call slot index).1
  refine Tree.linkCost_eq ((Rewrite.assignCall index call slot).rewires_apply block h).kinds
    fun id hid => ?_
  rcases Nat.eq_or_lt_of_le hid with heq | hlt
  · obtain rfl := Tree.eq_nextId_of_index heq.symm
    rw [kind_assignCall]
    simp
  · rw [Tree.kind, Tree.node_of_size_le (by rw [hsize]; exact hlt)]
    simp [Node.kind]

/-- Its left side is a slot, so one link comes. -/
theorem links_assignCall (h : draft.Sturdy) {call slot : NodeId} {index : Nat}
    (hat : (draft.tree.statements block)[index]? = some call) (hkind : draft.tree.kind call = .call)
    (hslot : draft.tree.isSlot slot) :
    (Rewrite.apply block draft (.assignCall index call slot)).tree.links =
      draft.tree.links + 1 := by
  have hcall : draft.tree.linkCost call = 1 := Tree.linkCost_of_kind_ne (by simp [hkind])
  have hnew : draft.tree.linkCost draft.tree.nextId = 1 :=
    Tree.linkCost_of_kind_ne (by simp [Tree.kind, Tree.node_nextId, Node.kind])
  have hat' : ((draft.tree.alloc (draft.tree.offset call)
      (.binary .assign slot call false)).statements block)[index]? = some call := by
    rw [Tree.statements_alloc (by simp)]
    exact hat
  have hset := Tree.tally_setStatement hat' draft.tree.nextId draft.tree.linkCost
  have hnode : total draft.tree.linkCost (Node.binary .assign slot call false).parts = 1 := by
    simp [Node.parts, Node.operands, Tree.linkCost_of_isSlot hslot, hcall]
  have halloc : (draft.tree.alloc (draft.tree.offset call)
      (.binary .assign slot call false)).tally draft.tree.linkCost = draft.tree.links + _ :=
    Tree.sum_alloc _ _
  rw [Tree.links, linkCost_assignCall h.closed]
  simp only [Rewrite.apply]
  omega

/-- A call gets its assignment: one node more, one destination less. -/
theorem load_assignCall_lt (h : draft.Sturdy) (hcurrent : draft.Current routines)
    (hlive : draft.facts.isLive block) {call slot : NodeId} {index : Nat}
    (hat : (draft.tree.statements block)[index]? = some call) (hkind : draft.tree.kind call = .call)
    (hslot : draft.facts.destination? call = some slot) :
    (Rewrite.apply block draft (.assignCall index call slot)).load < draft.load := by
  have hnext := (h.apply hcurrent hlive (.assignCall hat hkind hslot)).closed
  have hlinks := links_assignCall h hat hkind (h.destined.destination hslot)
  obtain ⟨hsize, hformals, hcalls, hcount⟩ := counts_assignCall draft block call slot index
  have hless : (Rewrite.apply block draft (.assignCall index call slot)).facts.destinations.length <
    draft.facts.destinations.length := length_dropDestination_lt hslot
  refine load_lt_of_fewer hnext ?_ (room_mono ?_ ?_)
  · rw [remaining, hformals, hcalls, hcount, remaining]
    omega
  · rw [pending, hsize, hformals, hcalls, pending]
    omega
  · rw [pending, hlinks, hformals, hcalls, pending]
    omega

theorem load_apply_lt (h : draft.Sturdy) (hcurrent : draft.Current routines)
    (hlive : draft.facts.isLive block) (hrewrite : draft.rewrite? block settings = some rewrite) :
    (rewrite.apply block draft).load < draft.load := by
  have hadmits := admits_of_rewrite? hrewrite
  have hcollapse : ∀ {node}, rewrite.collapsed? = some node → _ :=
    fun hnode => reaches_of_collapsed? hrewrite hnode
  have hrule := hadmits
  cases hrule with
  | dropDeclaration hat | dropAssignment hat | dropLabel hat =>
    exact load_eraseStatement_lt h hcurrent hlive hadmits rfl hat rfl rfl (Nat.le_add_right _ _)
  | @mergeDeclaration index statement assign hat hinit =>
    have hat' : ((draft.tree.setDeclares assign true).statements block)[index]? = some statement := by
      rw [Tree.statements_setDeclares]
      exact hat
    refine load_eraseStatement_lt h hcurrent hlive hadmits rfl hat' (by simp) (by simp) ?_
    rw [Tree.tally_setDeclares]
    exact Nat.le_add_right _ _
  | @inlineValue statement move hat hmoves =>
    have hat' : ((draft.tree.setOperand move.read.node move.read.role move.value).statements
        block)[move.index]? = some statement := by
      rw [Tree.statements_setOperand]
      exact hat
    have hslot : draft.tree.linkCost move.slot = 0 := by
      have hstorage := hmoves.storage
      refine Tree.linkCost_of_isSlot ?_
      unfold Tree.isSlot
      cases hsome : draft.tree.slot? move.slot <;> simp_all [Tree.storage?]
    have hstatement : draft.tree.linkCost statement = 1 :=
      Tree.linkCost_of_kind_ne (by simp [Tree.kind, hmoves.node, Node.kind])
    have hlinks := Tree.tally_setOperand (hmoves.reads hcurrent) move.value draft.tree.linkCost
    have hcost := draft.tree.linkCost_le move.value
    refine load_eraseStatement_lt h hcurrent hlive hadmits rfl hat' (by simp) (by simp) ?_
    unfold Tree.links
    omega
  | @collapseAction action argument call index routine arguments hnode hargument hcall =>
    have hblock : draft.tree.kind argument ≠ .slot := by
      intro hslot
      have hnone := (Tree.descends_of_onlyCall? hcall).holds
      rw [Tree.Holds, Tree.below_of_kind_slot hslot] at hnone
      cases hnone
    exact load_setOperand_lt h hcurrent hlive hadmits rfl rfl
      (mem_operands_of_argument hnode hargument) (hcollapse rfl) hblock
      (.single (Tree.descends_of_onlyCall? hcall))
  | @collapseVector node operand source role hoperand hsource =>
    have hvector : draft.tree.kind operand ≠ .slot := by
      intro hslot
      obtain ⟨m, hm, -⟩ := Relation.TransGen.head'_iff.1 (Tree.reaches_of_recomposed? hsource)
      have hnone := hm.holds
      rw [Tree.Holds, Tree.below_of_kind_slot hslot] at hnone
      cases hnone
    exact load_setOperand_lt h hcurrent hlive hadmits rfl rfl hoperand (hcollapse rfl) hvector
      (Tree.reaches_of_recomposed? hsource)
  | assignCall hat hkind hslot => exact load_assignCall_lt h hcurrent hlive hat hkind hslot
  | keepValue hat hnode hkept => exact load_keepValue_lt h hcurrent hlive hat hnode hkept

theorem Recovery.sum_le {sub : SubId} {index count : Nat} {formal : Formal}
    (h : Recovery sub index formal count draft next) {g : Node → Nat} (more : Nat)
    (hslot : ∀ slot other, g (.slot slot) = g (.slot other))
    (hblock : ∀ statements, g (.block (formal.slot :: statements)) ≤ g (.block statements) + more)
    (hret : ∀ value, g (.ret (some formal.slot)) ≤ g (.ret value))
    (hcall : ∀ callee arguments, g (.call callee (List.eraseIdx arguments index)) ≤
      g (.call callee arguments)) :
    next.tree.sum g ≤ draft.tree.sum g + count * more := by
  induction h with
  | refl => exact Nat.le_add_right _ _
  | trans _ _ ihh ihg =>
    rw [Nat.add_mul]
    omega
  | subroutine => exact Nat.le_add_right _ _
  | slot draft f =>
    refine Nat.le_trans (Tree.sum_modify_le 0 ?_) (Nat.le_add_right _ _)
    cases draft.tree.node formal.slot with
    | slot slot => exact Nat.le_of_eq (hslot _ _)
    | _ => exact Nat.le_refl _
  | declare draft block =>
    rw [Nat.one_mul]
    refine Tree.sum_modify_le more ?_
    cases draft.tree.node block with
    | block statements => exact hblock statements
    | _ => exact Nat.le_add_right _ _
  | answer draft ret =>
    refine Nat.le_trans (Tree.sum_modify_le 0 ?_) (Nat.le_add_right _ _)
    cases draft.tree.node ret with
    | ret value => exact hret value
    | _ => exact Nat.le_refl _
  | take draft call =>
    refine Nat.le_trans ?_ (Nat.le_add_right _ _)
    unfold takeArgument
    split
    case h_2 => exact Nat.le_refl _
    case h_1 callee arguments hnode =>
    split
    · refine Tree.sum_modify_le (f := fun _ => .call callee (arguments.eraseIdx index)) 0 ?_
      rw [hnode]
      exact hcall callee arguments
    · exact Nat.le_refl _

theorem total_eraseIdx_le (w : NodeId → Nat) (arguments : List NodeId) (index : Nat) :
    total w (arguments.eraseIdx index) ≤ total w arguments := by
  by_cases hlt : index < arguments.length
  · exact Nat.le_trans (Nat.le_add_right _ _) (Nat.le_of_eq (total_eraseIdx w hlt))
  · rw [List.eraseIdx_of_length_le (Nat.le_of_not_lt hlt)]

/-- An argument goes, and with it more than its calls and its declaration bring. -/
theorem load_makeResult_lt (h : draft.Sturdy) {sub : SubId} {index : Nat} {formal : Formal}
    (hformal : (draft.tree.sub sub).formals[index]? = some formal)
    (hslot : draft.tree.isSlot formal.slot) :
    (draft.makeResult sub index formal).load < draft.load := by
  have hrecovery := recovery_makeResult draft sub index formal
  have hnext := h.makeResult sub index hslot
  have hsize := (edits_makeResult draft sub index formal).size
  have hformals := formalCount_makeResult hformal
  have hcalls : (draft.makeResult sub index formal).tree.callCount = draft.tree.callCount :=
    Tree.callCount_eq hrecovery.extends hsize
  have hdestinations := hnext.destined.length_destinations_le
  have hcount : (draft.makeResult sub index formal).tree.statementCount ≤
      draft.tree.statementCount + 1 * 1 :=
    hrecovery.sum_le 1 (fun _ _ => rfl) (fun _ => Nat.le_refl _) (fun _ => Nat.le_refl _)
      (fun _ _ => Nat.le_refl _)
  have hlinks : (draft.makeResult sub index formal).tree.links ≤ draft.tree.links + 1 * 0 := by
    rw [Tree.links, Tree.linkCost_eq_of_size hrecovery.extends hsize]
    refine hrecovery.sum_le 0 (fun _ _ => rfl) (fun statements => ?_) (fun value => ?_)
      (fun callee arguments => ?_)
    · simp [Node.parts, Tree.linkCost_of_isSlot hslot]
    · simp [Node.parts, Node.operands, Tree.linkCost_of_isSlot hslot]
    · rw [Node.parts_call, Node.parts_call]
      exact total_eraseIdx_le _ _ _
  rw [hcalls] at hdestinations
  have hproduct := Nat.add_one_mul (draft.makeResult sub index formal).tree.formalCount
  have hpending : (draft.makeResult sub index formal).pending ≤ draft.pending := by
    rw [pending, hcalls, pending, ← hformals, hproduct]
    omega
  refine load_lt_of_fewer hnext.closed ?_ (room_mono ?_ ?_)
  · rw [remaining, hcalls, remaining, ← hformals, hproduct]
    omega
  · exact Nat.add_le_add (Nat.le_of_eq hsize) hpending
  · exact Nat.add_le_add (by omega) hpending

theorem Step.load_lt (h : Step settings routines draft next) (hcurrent : draft.Current routines)
    (hdraft : draft.Sturdy) : next.load < draft.load := by
  cases h with
  | recover hindex hformal =>
    rw [load_refresh]
    exact load_makeResult_lt hdraft hformal (isSlot_of_resultIndex? hcurrent hindex hformal)
  | rewrite hlive hrewrite =>
    rw [load_refresh]
    exact load_apply_lt hdraft hcurrent hlive hrewrite

theorem lowers_load (settings : CompactSettings) (routines : Routines) :
    Lowers settings routines Sturdy load where
  change ha hsturdy hchange := hchange.sturdy ha hsturdy
  queue _ _ := rfl
  step ha hsturdy hstep := hstep.load_lt ha hsturdy

theorem counts_le_extent (tree : Tree) :
    tree.size + tree.statementCount + tree.formalCount ≤ tree.extent ∧
      tree.size + tree.links + tree.formalCount ≤ tree.extent := by
  have hstatements : tree.statementCount ≤ total (·.node.partCount) tree.exprs.toList :=
    total_le_total _ fun e => e.node.statementCount_le
  have hlinks : tree.links ≤ total (·.node.partCount) tree.exprs.toList := by
    refine total_le_total _ fun e => ?_
    rw [← e.node.length_parts, ← Nat.one_mul e.node.parts.length]
    exact total_le_length _ tree.linkCost_le
  unfold Tree.extent Tree.formalCount
  omega

/-- As long as no result is pending, the rounds have more than enough. -/
theorem load_lt_bound (hclosed : draft.tree.Closed) (h : draft.facts.destinations = []) :
    draft.load < Nat.pow (draft.tree.extent + 2) 12 := by
  obtain ⟨hstatements, hlinks⟩ := counts_le_extent draft.tree
  have hcalls := draft.tree.callCount_le_size
  generalize hbase : draft.tree.extent + 2 = base at *
  have hproduct : ∀ more ≤ 2, draft.tree.formalCount * (draft.tree.callCount + more) ≤
      draft.tree.extent * base := fun more hmore => Nat.mul_le_mul (by omega) (by omega)
  have hsquare : base * base = draft.tree.extent * base + 2 * base := by
    rw [← Nat.add_mul, hbase]
  have hremaining : draft.remaining ≤ base * base := by
    have hle := hproduct 2 (Nat.le_refl _)
    simp only [remaining, h, List.length_nil]
    omega
  have hroom : draft.room ≤ base * base * (base * base) := by
    have hle := hproduct 1 (by omega)
    refine Nat.mul_le_mul ?_ ?_ <;> simp only [pending, h, List.length_nil] <;> omega
  have hspread := Nat.le_trans (spread_le_room hclosed) hroom
  have hfour : 4 ≤ base * base := Nat.mul_le_mul (by omega : 2 ≤ base) (by omega : 2 ≤ base)
  calc
    draft.load ≤ base * base * (base * base * (base * base) + 1) + base * base * (base * base) :=
      Nat.add_le_add (Nat.mul_le_mul hremaining (Nat.succ_le_succ hroom)) hspread
    _ < 4 * (base * base * (base * base * (base * base))) := by
      have hone : base * base * 1 ≤ base * base * (base * base * (base * base)) :=
        Nat.mul_le_mul_left _ (Nat.mul_pos (by omega) (by omega))
      have htwo : 1 * (base * base * (base * base)) ≤ base * base * (base * base * (base * base)) :=
        Nat.mul_le_mul_right _ (by omega)
      rw [Nat.mul_add]
      omega
    _ ≤ base * base * (base * base * (base * base * (base * base))) := Nat.mul_le_mul_right _ hfour
    _ = base ^ 8 := by simp only [Nat.pow_succ, Nat.pow_zero, Nat.one_mul, Nat.mul_assoc]
    _ ≤ base ^ 12 := Nat.pow_le_pow_right (by omega) (by omega)

theorem prepare_tree (settings : CompactSettings) (routines : Routines) (tree : Tree) :
    (prepare settings routines tree).tree.exprs = tree.exprs ∧
      (prepare settings routines tree).tree.subroutines = tree.subroutines ∧
      (prepare settings routines tree).tree.order ⊆ tree.order := by
  have hstarted := order_dropSub_subset { tree } startName
  have hsubs := subroutines_dropSub { tree } startName
  have hexprs := exprs_dropSub { tree } startName
  unfold prepare
  dsimp only
  split
  · obtain ⟨globals, htree⟩ := foldGlobals_tree routines
      (({ tree : Draft }.dropSub startName).1.refresh routines)
    rw [htree]
    refine ⟨(exprs_dropSub _ _).trans hexprs, (subroutines_dropSub _ _).trans hsubs, ?_⟩
    exact List.Subset.trans (order_dropSub_subset _ _) hstarted
  · exact ⟨hexprs, hsubs, hstarted⟩

theorem prepare_current (settings : CompactSettings) (routines : Routines) (tree : Tree) :
    (prepare settings routines tree).Current routines := by
  unfold prepare
  dsimp only
  split
  · exact foldGlobals_current (current_refresh _ _)
  · exact current_refresh _ _

theorem prepare_sturdy (settings : CompactSettings) (routines : Routines) {tree : Tree}
    (hclosed : tree.Closed) (hfree : tree.CycleFree) :
    (prepare settings routines tree).Sturdy := by
  obtain ⟨hexprs, hsubs, horder⟩ := prepare_tree settings routines tree
  have hclosed' := hclosed.shrink hexprs hsubs horder
  have hdestinations := @destinations_prepare settings routines tree
  refine ⟨hclosed', fun sub => (hfree.shrink hexprs hsubs horder).grounded hclosed', ?_, ?_⟩
  · rw [hdestinations]
    simp
  · rw [hdestinations]
    exact List.nodup_nil

/-- The rounds end well before their limit, since every step lowers the load. -/
theorem prepare_endsInTime (settings : CompactSettings) (routines : Routines) {tree : Tree}
    (hclosed : tree.Closed) (hfree : tree.CycleFree) :
    (prepare settings routines tree).EndsInTime settings routines := by
  have hsturdy := prepare_sturdy settings routines hclosed hfree
  obtain ⟨count, hcount, hends⟩ := (lowers_load settings routines).exists_ends
    (prepare_current settings routines tree) hsturdy
  exact ⟨count, Nat.lt_of_le_of_lt hcount (load_lt_bound hsturdy.closed (destinations_prepare tree)),
    hends⟩

theorem Changes.cycleFree (h : Changes settings routines draft next)
    (hcurrent : draft.Current routines) (hdraft : draft.Sturdy) (hnested : draft.tree.Unnested) :
    next.tree.Unnested ∧ next.tree.CycleFree := by
  obtain ⟨-, hsturdy, hunnested⟩ := h.invariant (fun d => d.Sturdy ∧ d.tree.Unnested) hcurrent
    ⟨hdraft, hnested⟩ fun a b ha hinv hchange => by
      refine ⟨hchange.sturdy ha hinv.1, ?_⟩
      cases hchange with
      | queue => exact hinv.2
      | step hstep => exact hstep.unnested ha hinv.1 hinv.2
  exact ⟨hunnested, Tree.cycleFree_of_grounded hunnested hsturdy.grounded⟩

end Draft

theorem Tree.Acyclic.cycleFree {tree : Tree} (h : tree.Acyclic) : tree.CycleFree := by
  obtain ⟨rank, hrank⟩ := h
  have hless : ∀ {a b}, Relation.TransGen tree.Holds a b → rank b < rank a := by
    intro a b hab
    induction hab with
    | single hstep => exact hrank _ _ hstep
    | tail _ hstep ih => exact Nat.lt_trans (hrank _ _ hstep) ih
  exact fun id _ hcycle => Nat.lt_irrefl _ (hless hcycle)

end ScriptLift
