import ScriptLift.Proofs.Compact.Progress
import ScriptLift.Proofs.Dataflow.Stops

/-! Rewiring: which links between nodes a step of compaction may add.

Links go from a node to its operands, and from a block to its statements. A step loses some and adds
few, so what can be reached afterwards is told by the links that come. -/
namespace ScriptLift

def Node.parts : Node → List NodeId
  | .block statements => statements
  | node => node.operands.map (·.2)

theorem Node.parts_of_kind_ne {node : Node} (h : node.kind ≠ .block) :
    node.parts = node.operands.map (·.2) := by
  cases node <;> simp_all [Node.kind, parts]

@[simp] theorem Node.parts_call (callee : SubId) (arguments : List NodeId) :
    (Node.call callee arguments).parts = arguments :=
  List.ext_getElem (by simp [parts, operands]) (by simp [parts, operands])

namespace Tree

variable {tree old mid new : Tree} {extra : NodeId → NodeId → Prop} {id a b : NodeId}

theorem below_eq_parts (tree : Tree) (id : NodeId) : tree.below true id = (tree.node id).parts := by
  unfold below Node.parts
  cases tree.node id <;> rfl

theorem lt_size_of_below (h : b ∈ tree.below true a) : a.index < tree.size := by
  apply lt_size_of_node_ne
  intro hnode
  rw [below_eq_parts, hnode] at h
  cases h

/-- Nodes keep their kinds, subroutines their roots; all links that come are `extra`. -/
structure Rewires (old new : Tree) (extra : NodeId → NodeId → Prop) : Prop where
  kinds : old.Extends new
  order : new.order = old.order
  root : ∀ sub ∈ old.order, (new.sub sub).root = (old.sub sub).root
  below : ∀ a b, b ∈ new.below true a → b ∈ old.below true a ∨ extra a b

namespace Rewires

theorem refl (tree : Tree) (extra : NodeId → NodeId → Prop) : Rewires tree tree extra :=
  ⟨.refl tree, rfl, fun _ _ => rfl, fun _ _ => .inl⟩

theorem trans (h : Rewires old mid extra) (g : Rewires mid new extra) : Rewires old new extra where
  kinds := h.kinds.trans g.kinds
  order := g.order.trans h.order
  root sub hsub := (g.root sub (h.order ▸ hsub)).trans (h.root sub hsub)
  below a b hb := (g.below a b hb).elim (h.below a b) .inr

theorem modify {f : Node → Node} (hkind : (f (tree.node id)).kind = tree.kind id)
    (hparts : ∀ n ∈ (f (tree.node id)).parts, n ∈ (tree.node id).parts ∨ extra id n) :
    Rewires tree (tree.modify id f) extra where
  kinds := .modify hkind
  order := rfl
  root sub _ := by simp [Tree.sub, Tree.modify, size]
  below a b hb := by
    rw [below_eq_parts] at hb ⊢
    rcases node_modify_cases tree id a f with heq | ⟨rfl, -, heq⟩
    · exact .inl (heq ▸ hb)
    · exact hparts b (heq ▸ hb)

theorem of_exprs_eq (hexprs : new.exprs = old.exprs) (horder : new.order = old.order)
    (hroot : ∀ sub ∈ old.order, (new.sub sub).root = (old.sub sub).root) :
    Rewires old new extra where
  kinds := .of_exprs_eq hexprs
  order := horder
  root := hroot
  below a b hb := by
    rw [below_eq_parts, node, get, get?, hexprs] at hb
    rw [below_eq_parts]
    exact .inl hb

theorem modifySlot (g : Slot → Slot) : Rewires tree (tree.modifySlot id g) extra := by
  refine .modify (by unfold Tree.kind; cases tree.node id <;> rfl) fun n hn => .inl ?_
  cases hnode : tree.node id <;> simp_all [Node.parts, Node.operands]

theorem setDeclares (declares : Bool) : Rewires tree (tree.setDeclares id declares) extra := by
  refine .modify (by unfold Tree.kind; cases tree.node id <;> rfl) fun n hn => .inl ?_
  cases hnode : tree.node id <;> simp_all [Node.parts, Node.operands]

theorem modifyStatements {g : List NodeId → List NodeId}
    (h : ∀ statements, ∀ s ∈ g statements, s ∈ statements ∨ extra id s) :
    Rewires tree (tree.modifyStatements id g) extra := by
  refine .modify (by unfold Tree.kind; cases tree.node id <;> rfl) fun n hn => ?_
  cases hnode : tree.node id with
  | block statements =>
    rw [hnode] at hn
    exact h statements n hn
  | _ =>
    rw [hnode] at hn
    exact .inl hn

theorem eraseStatement (index : Nat) : Rewires tree (tree.eraseStatement id index) extra :=
  .modifyStatements fun _ _ hs => .inl (List.mem_of_mem_eraseIdx hs)

theorem setStatement (index : Nat) {statement : NodeId} (h : extra id statement) :
    Rewires tree (tree.setStatement id index statement) extra := by
  refine .modifyStatements fun statements s hs => ?_
  rcases List.mem_or_eq_of_mem_set hs with hs | rfl
  · exact .inl hs
  · exact .inr h

theorem setOperand {role : Role} {value : NodeId} (h : extra id value) :
    Rewires tree (tree.setOperand id role value) extra := by
  refine .modify (kind_setOperand_getD _ role value) fun n hn => ?_
  cases hset : (tree.node id).setOperand? role value with
  | none =>
    rw [hset] at hn
    exact .inl hn
  | some next =>
    rw [hset, Option.getD_some] at hn
    obtain ⟨old, hold⟩ := Node.exists_operand_of_setOperand? hset
    have hkind := Node.kind_ne_block_of_operand hold
    rw [Node.parts_of_kind_ne (by rwa [Node.kind_setOperand? hset])] at hn
    obtain ⟨operand, hoperand, rfl⟩ := List.mem_map.1 hn
    rw [Node.parts_of_kind_ne hkind, List.mem_map]
    rcases Node.mem_operands_setOperand? hset hoperand with heq | hbefore
    · exact .inr (heq ▸ h)
    · exact .inl hbefore

/-- A new node has links of its own. -/
theorem alloc (hclosed : tree.Closed) (offset : Nat) (node : Node)
    (h : ∀ n ∈ node.parts, extra tree.nextId n) : Rewires tree (tree.alloc offset node) extra where
  kinds := .of_grows (.alloc tree offset node)
  order := rfl
  root sub hsub := by
    have hlt := hclosed.root sub hsub
    unfold Tree.sub at hlt ⊢
    cases hsome : tree.subroutines[sub.index]? with
    | none => simp [hsome] at hlt
    | some s => simp [Tree.alloc, hsome]
  below a b hb := by
    rw [below_eq_parts] at hb ⊢
    by_cases hlt : a.index < tree.size
    · exact .inl (node_alloc_of_lt hlt ▸ hb)
    · have hnew := lt_size_of_below (by rw [below_eq_parts]; exact hb)
      rw [size_alloc] at hnew
      obtain rfl := eq_nextId_of_index (by omega : a.index = tree.size)
      rw [node_alloc_nextId] at hb
      exact .inr (h b hb)

theorem closed (h : Rewires old new extra) (hold : old.Closed)
    (hextra : ∀ a b, extra a b → b.index < new.size) : new.Closed where
  below a b hb := by
    rcases h.below a b hb with hb | hb
    · exact Nat.lt_of_lt_of_le (hold.below a b hb) h.kinds.size
    · exact hextra a b hb
  root sub hsub := by
    rw [h.order] at hsub
    rw [h.root sub hsub]
    exact Nat.lt_of_lt_of_le (hold.root sub hsub) h.kinds.size

theorem descends (h : Rewires old new extra) (hold : old.Closed) (hab : new.Descends a b) :
    old.Descends a b ∨ extra a b := by
  obtain ⟨hb, hkinds⟩ := mem_descents.1 hab
  refine (h.below a b hb).imp_left fun hb => mem_descents.2 ⟨hb, ?_⟩
  rwa [h.kinds.kind a (lt_size_of_below hb), h.kinds.kind b (hold.below a b hb)] at hkinds

theorem unnested (h : Rewires old new extra) (hold : old.Closed) (hnested : old.Unnested)
    (hextra : ∀ a b, extra a b → new.kind a = .block → new.kind b ≠ .block) : new.Unnested := by
  intro block s hs
  have hblock := kind_of_statement hs
  have hbelow : s ∈ new.below true block := by rwa [below_of_kind_block hblock]
  rcases h.below block s hbelow with hbefore | hcomes
  · rw [h.kinds.kind block (lt_size_of_below hbefore)] at hblock
    rw [h.kinds.kind s (hold.below block s hbefore)]
    rw [below_of_kind_block hblock] at hbefore
    exact hnested block s hbefore
  · exact hextra block s hcomes hblock

theorem grounded_of_shorter (h : Rewires old new extra) (hold : old.Closed)
    (hextra : ∀ a b, extra a b → Relation.TransGen old.Descends a b) (hid : old.Grounded id) :
    new.Grounded id := by
  refine Reach.acc_of_shorter (fun x y hxy => ?_) hid
  rcases h.descends hold hxy with hxy | hxy
  · exact .single hxy
  · exact hextra x y hxy

theorem grounded_of_added (h : Rewires old new extra) (hold : old.Closed)
    (hextra : ∀ a b, extra a b → new.Grounded b) (hid : old.Grounded id) : new.Grounded id :=
  Reach.acc_of_added (fun x y hxy => (h.descends hold hxy).imp_right (hextra x y)) hid

theorem grounded_of_apart (h : Rewires old new extra) (hold : old.Closed)
    (hextra : ∀ a b, extra a b → ¬Relation.ReflTransGen old.Descends id a)
    (hid : old.Grounded id) : new.Grounded id := by
  refine Reach.acc_of_below (fun x y hx hxy => ?_) hid
  exact (h.descends hold hxy).resolve_right fun hcomes => hextra x y hcomes hx

end Rewires

theorem grounded_of_slot (h : tree.kind id = .slot) : tree.Grounded id := by
  refine Acc.intro id fun n hn => ?_
  have hnone := Descends.holds hn
  rw [Holds, below_of_kind_slot h] at hnone
  cases hnone

end Tree

namespace Draft

/-- What happens to a draft on the way to a result, with the number of declarations that come. -/
inductive Recovery (sub : SubId) (index : Nat) (formal : Formal) : Nat → Draft → Draft → Prop where
  | refl (draft : Draft) : Recovery sub index formal 0 draft draft
  | trans {m n : Nat} {first mid last : Draft} (h : Recovery sub index formal m first mid)
    (g : Recovery sub index formal n mid last) : Recovery sub index formal (m + n) first last
  | subroutine (draft : Draft) (f : Subroutine → Subroutine) (hroot : ∀ s, (f s).root = s.root) :
    Recovery sub index formal 0 draft { draft with tree := draft.tree.modifySub sub f }
  | slot (draft : Draft) (f : Slot → Slot) :
    Recovery sub index formal 0 draft { draft with tree := draft.tree.modifySlot formal.slot f }
  | declare (draft : Draft) (block : NodeId) :
    Recovery sub index formal 1 draft
      { draft with tree := draft.tree.modifyStatements block (formal.slot :: ·) }
  | answer (draft : Draft) (ret : NodeId) :
    Recovery sub index formal 0 draft { draft with tree := answer formal.slot draft.tree ret }
  | take (draft : Draft) (call : NodeId) :
    Recovery sub index formal 0 draft (takeArgument index draft call)

variable {sub : SubId} {index count : Nat} {formal : Formal} {draft next : Draft}

theorem recovery_answers (returns : List NodeId) (draft : Draft) :
    Recovery sub index formal 0 draft
      { draft with tree := returns.foldl (answer formal.slot) draft.tree } := by
  induction returns generalizing draft with
  | nil => exact .refl draft
  | cons ret returns ih => exact (Recovery.answer draft ret).trans (ih _)

theorem recovery_takeArguments (calls : List NodeId) (draft : Draft) :
    Recovery sub index formal 0 draft (calls.foldl (takeArgument index) draft) := by
  induction calls generalizing draft with
  | nil => exact .refl draft
  | cons call calls ih => exact (Recovery.take draft call).trans (ih _)

/-- One declaration comes. -/
theorem recovery_makeResult (draft : Draft) (sub : SubId) (index : Nat) (formal : Formal) :
    Recovery sub index formal 1 draft (draft.makeResult sub index formal) := by
  let narrow : Subroutine → Subroutine := fun s => { s with formals := s.formals.eraseIdx index }
  let name : Subroutine → Subroutine := fun s =>
    { s with
      result := formal.type
      name := if s.name = mainName then conditionalName else s.name }
  let narrowed := draft.tree.modifySub sub narrow
  let marked := narrowed.modifySlot formal.slot fun s => { s with storage := .result }
  let declared := marked.modifyStatements (marked.sub sub).root (formal.slot :: ·)
  let answered := (draft.facts.returnsOf sub).foldl (answer formal.slot) declared
  have hmarked : Recovery sub index formal 0 draft { draft with tree := marked } :=
    (Recovery.subroutine draft narrow fun _ => rfl).trans (.slot { draft with tree := narrowed } _)
  have hdeclared : Recovery sub index formal 1 draft { draft with tree := declared } :=
    hmarked.trans (.declare { draft with tree := marked } _)
  have hanswered : Recovery sub index formal 1 draft { draft with tree := answered } :=
    hdeclared.trans (recovery_answers _ { draft with tree := declared })
  exact (hanswered.trans (recovery_takeArguments (draft.facts.callsOf sub) _)).trans
    (.subroutine _ name fun _ => rfl)

theorem Recovery.extends (h : Recovery sub index formal count draft next) :
    draft.tree.Extends next.tree := by
  induction h with
  | refl => exact .refl _
  | trans _ _ ihh ihg => exact ihh.trans ihg
  | subroutine => exact .of_exprs_eq rfl
  | slot => exact .of_grows (.modifySlot _ _ _)
  | declare => exact Tree.extends_modifyStatements _
  | answer => exact extends_answer _ _ _
  | take => exact extends_takeArgument _ _ _

theorem Recovery.destined (h : Recovery sub index formal count draft next)
    (hdraft : draft.Destined) : next.Destined := by
  have hedit : ∀ {tree : Tree} {draft : Draft}, draft.Destined → draft.tree.Extends tree →
      Destined { draft with tree } := fun hdraft hext => hdraft.edit hext (List.Sublist.refl _)
  induction h with
  | refl => exact hdraft
  | trans _ _ ihh ihg => exact ihg (ihh hdraft)
  | subroutine => exact hedit hdraft (.of_exprs_eq rfl)
  | slot => exact hedit hdraft (.of_grows (.modifySlot _ _ _))
  | declare => exact hedit hdraft (Tree.extends_modifyStatements _)
  | answer => exact hedit hdraft (extends_answer _ _ _)
  | take _ call => exact hdraft.takeArgument index call

theorem root_modifySub (tree : Tree) (sub other : SubId) {f : Subroutine → Subroutine}
    (hf : ∀ s, (f s).root = s.root) :
    ((tree.modifySub sub f).sub other).root = (tree.sub other).root := by
  simp only [Tree.sub, Tree.modifySub, Array.getElem?_modify, Tree.size]
  split
  · cases tree.subroutines[other.index]? <;> simp [hf]
  · rfl

theorem rewires_answer (slot : NodeId) (tree : Tree) (ret : NodeId) :
    tree.Rewires (answer slot tree ret) fun _ n => n = slot := by
  refine .modify (by unfold Tree.kind; cases tree.node ret <;> rfl) fun n hn => ?_
  cases hnode : tree.node ret with
  | ret value =>
    rw [hnode] at hn
    exact .inr (by simpa [Node.parts, Node.operands] using hn)
  | _ =>
    rw [hnode] at hn
    exact .inl hn

theorem rewires_takeArgument {extra : NodeId → NodeId → Prop} (index : Nat) (draft : Draft)
    (call : NodeId) : draft.tree.Rewires (takeArgument index draft call).tree extra := by
  unfold takeArgument
  split
  case h_2 => exact .refl _ _
  case h_1 callee arguments hnode =>
  split
  case h_2 => exact .refl _ _
  case h_1 removed hremoved =>
  refine Tree.Rewires.modify (f := fun _ => .call callee (arguments.eraseIdx index))
    (by rw [Tree.kind, hnode, Node.kind, Node.kind]) fun n hn => .inl ?_
  rw [Node.parts_call] at hn
  rw [hnode, Node.parts_call]
  exact List.mem_of_mem_eraseIdx hn

theorem Recovery.rewires (h : Recovery sub index formal count draft next) :
    draft.tree.Rewires next.tree fun _ n => n = formal.slot := by
  induction h with
  | refl => exact .refl _ _
  | trans _ _ ihh ihg => exact ihh.trans ihg
  | subroutine draft f hroot => exact .of_exprs_eq rfl rfl fun _ _ => root_modifySub _ _ _ hroot
  | slot => exact .modifySlot _
  | declare => exact .modifyStatements fun _ _ hs => (List.mem_cons.1 hs).symm
  | answer => exact rewires_answer formal.slot _ _
  | take => exact rewires_takeArgument _ _ _

end Draft

/-- The links that come with a rewrite. -/
def Rewrite.Link (rewrite : Rewrite) (block : NodeId) (tree : Tree) (a b : NodeId) : Prop :=
  match rewrite with
  | .dropDeclaration _ | .mergeDeclaration _ _ | .dropAssignment _ | .dropLabel _ => False
  | .collapseAction action _ call => a = action ∧ b = call
  | .assignCall _ call slot =>
    (a = block ∧ b = tree.nextId) ∨ (a = tree.nextId ∧ (b = slot ∨ b = call))
  | .inlineValue move => a = move.read.node ∧ b = move.value
  | .collapseVector node _ source => a = node ∧ b = source
  | .keepValue _ value => a = block ∧ b = value

theorem Rewrite.rewires_apply (rewrite : Rewrite) (block : NodeId) {draft : Draft}
    (hclosed : draft.tree.Closed) :
    draft.tree.Rewires (rewrite.apply block draft).tree (rewrite.Link block draft.tree) := by
  cases rewrite with
  | dropDeclaration | dropAssignment | dropLabel => exact .eraseStatement _
  | mergeDeclaration index assign => exact .trans (.setDeclares true) (.eraseStatement index)
  | collapseAction | collapseVector => exact .setOperand ⟨rfl, rfl⟩
  | assignCall index call slot =>
    refine .trans (.alloc hclosed (draft.tree.offset call) (.binary .assign slot call false)
      fun n hn => ?_) (.setStatement index (.inl ⟨rfl, rfl⟩))
    exact .inr ⟨rfl, by simpa [Node.parts, Node.operands] using hn⟩
  | inlineValue move => exact .trans (.setOperand ⟨rfl, rfl⟩) (.eraseStatement move.index)
  | keepValue index => exact .setStatement index ⟨rfl, rfl⟩

end ScriptLift
