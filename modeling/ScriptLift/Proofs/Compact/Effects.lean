import ScriptLift.Proofs.Compact.Shedding
import ScriptLift.Proofs.Compact.Termination

/-! What rewrites of a block keep.

The calls, steps, jumps and branches of the output stay the same, values keep their shape, and moving
a value changes how often its own slot is read and written, and no other. Labels stay as well, unless
all jumps to a label stand where the walk through the output does not come. -/
namespace ScriptLift

namespace Tree

variable {tree old new : Tree} {id value : NodeId} {role : Role}

theorem Extends.isAssignable (h : old.Extends new) (hvalue : old.isAssignable value) :
    new.isAssignable value := by
  have hkind : old.kind value ≠ .block := by
    intro heq
    simp [Tree.isAssignable, isKept, heq, Kind.isCall, Kind.isUnary, Kind.isBinary,
      Kind.isPlain] at hvalue
  rw [Tree.isAssignable, isKept, h.kind_eq hkind]
  exact hvalue

theorem Extends.fitsShape (h : old.Extends new) {node : Node} (hnode : old.fitsShape node) :
    new.fitsShape node := by
  unfold Tree.fitsShape at hnode ⊢
  split
  · exact h.isAssignable hnode
  · exact h.isSlot hnode
  · rfl

theorem fitsShape_binary {op : BinaryOp} {left : NodeId} {declares : Bool} :
    tree.fitsShape (.binary op left value declares) ↔ (op = .assign → tree.isAssignable value) := by
  cases op <;> simp [fitsShape]

theorem fitsShape_setOperand? {node next : Node} (hnode : tree.fitsShape node)
    (hset : node.setOperand? role value = some next)
    (hright : node.kind = .binary .assign → role = .right → tree.isAssignable value)
    (hsource : role ≠ .source) : tree.fitsShape next := by
  unfold Node.setOperand? at hset
  split at hset <;> (try split at hset) <;> cases hset <;> try rfl
  · exact absurd rfl hsource
  · rw [fitsShape_binary] at hnode ⊢
    exact hnode
  · rw [fitsShape_binary]
    exact fun hop => hright (by rw [Node.kind, hop]) rfl

namespace Shaped

variable (h : tree.Shaped)
include h

theorem right (hkind : tree.kind id = .binary .assign)
    (hvalue : (.right, value) ∈ (tree.node id).operands) : tree.isAssignable value := by
  have hid := h id
  unfold Tree.kind at hkind
  cases hnode : tree.node id <;> rw [hnode] at hkind hvalue hid <;> cases hkind
  next right _ =>
  obtain rfl : value = right := by simpa [Node.operands] using hvalue
  exact hid

theorem source (hvalue : (.source, value) ∈ (tree.node id).operands) : tree.kind value = .slot := by
  have hid := h id
  cases hnode : tree.node id with
  | component whole index =>
    rw [hnode] at hvalue hid
    obtain rfl : value = whole := by simpa [Node.operands] using hvalue
    exact isSlot_iff_kind.1 hid
  | ret operand => cases operand <;> simp [hnode, Node.operands] at hvalue
  | _ => simp [hnode, Node.operands] at hvalue

theorem modify {f : Node → Node} (hkind : (f (tree.node id)).kind = tree.kind id)
    (hf : tree.fitsShape (f (tree.node id))) : (tree.modify id f).Shaped := by
  intro n
  apply Extends.fitsShape (.modify hkind)
  rcases node_modify_cases tree id n f with heq | ⟨rfl, -, heq⟩
  · rw [heq]
    exact h n
  · rw [heq]
    exact hf

theorem modifyStatements (g : List NodeId → List NodeId) : (tree.modifyStatements id g).Shaped := by
  have hid := h id
  apply h.modify
  · unfold Tree.kind
    cases tree.node id <;> rfl
  · cases hnode : tree.node id with
    | block => rfl
    | _ =>
      rw [hnode] at hid
      exact hid

theorem setDeclares (declares : Bool) : (tree.setDeclares id declares).Shaped := by
  have hid := h id
  apply h.modify
  · unfold Tree.kind
    cases tree.node id <;> rfl
  · cases hnode : tree.node id with
    | binary =>
      rw [hnode, fitsShape_binary] at hid
      exact fitsShape_binary.2 hid
    | _ =>
      rw [hnode] at hid
      exact hid

theorem setOperand (hright : tree.kind id = .binary .assign → role = .right → tree.isAssignable value)
    (hsource : role ≠ .source) : (tree.setOperand id role value).Shaped := by
  have hid := h id
  refine h.modify (kind_setOperand_getD _ role value) ?_
  cases hset : (tree.node id).setOperand? role value with
  | none => exact hid
  | some next => exact fitsShape_setOperand? hid hset hright hsource

theorem alloc (offset : Nat) {node : Node} (hnode : tree.fitsShape node) :
    (tree.alloc offset node).Shaped := by
  intro n
  apply Extends.fitsShape (.of_grows (.alloc tree offset node))
  rcases Nat.lt_trichotomy n.index tree.size with hlt | heq | hgt
  · rw [node_alloc_of_lt hlt]
    exact h n
  · rw [eq_nextId_of_index heq, node_alloc_nextId]
    exact hnode
  · rw [node_of_size_le (by rw [size_alloc]; omega)]
    rfl

end Shaped

end Tree

namespace Draft

variable {settings : CompactSettings} {routines : Routines} {draft : Draft} {block : NodeId}
  {rewrite : Rewrite}

theorem Admits.shaped (h : draft.Admits block rewrite) (hshaped : draft.tree.Shaped) :
    (rewrite.apply block draft).tree.Shaped := by
  cases h with
  | dropDeclaration | dropAssignment | dropLabel | keepValue => exact hshaped.modifyStatements _
  | mergeDeclaration => exact (hshaped.setDeclares true).modifyStatements _
  | collapseAction => exact hshaped.setOperand (by simp) (by simp)
  | assignCall hat hkind =>
    refine Tree.Shaped.modifyStatements (hshaped.alloc _ ?_) _
    simp [Tree.fitsShape, Tree.isAssignable, Tree.isKept, hkind, Kind.isCall]
  | @inlineValue statement move hat hmoves =>
    refine Tree.Shaped.modifyStatements (hshaped.setOperand (fun _ _ => ?_) hmoves.ne_source) _
    have hstatement := hshaped statement
    rw [hmoves.node] at hstatement
    exact hstatement
  | @collapseVector node operand source role hoperand hsource =>
    have hvector := (Tree.recomposed?_eq_some hsource).1
    refine hshaped.setOperand (fun hkind hrole => ?_) fun hrole => ?_
    -- No vector is assigned, and none is taken apart.
    · have hright := hshaped.right hkind (hrole ▸ hoperand)
      simp [Tree.isAssignable, Tree.isKept, hvector, Kind.isCall, Kind.isUnary, Kind.isBinary,
        Kind.isPlain] at hright
    · cases hvector.symm.trans (hshaped.source (hrole ▸ hoperand))

/-- A label that a rewrite drops. -/
def Unlabels (draft : Draft) (block : NodeId) (rewrite : Rewrite) (label : NodeId) : Prop :=
  ∃ index, rewrite = .dropLabel index ∧ (draft.tree.statements block)[index]? = some label ∧
    draft.tree.kind label = .label ∧ draft.facts.gotosTo label = []

/-- Some nodes go, and none of them does anything. -/
def Spares (draft : Draft) (block : NodeId) (rewrite : Rewrite) : Prop :=
  ∃ lost, draft.tree.Sheds (rewrite.apply block draft).tree lost (draft.Unlabels block rewrite)

theorem spares_of_declaration? (h : draft.declaration? block = some rewrite) :
    draft.Spares block rewrite := by
  obtain ⟨slot, index, hat, hrule⟩ := exists_of_findSome?_zipIdx h
  have hdrop : ∀ {new : Tree} {dropped : NodeId → Prop}, draft.tree.kind slot = .slot →
      draft.tree.Cuts new (fun a b => a = block ∧ b = slot) →
        draft.tree.Sheds new (· = slot) dropped := fun hslot hcuts =>
    Tree.sheds_of_leaf hcuts (Tree.below_of_kind_slot hslot true) (by rw [hslot]; rfl)
      (by simp [hslot])
  have hmerge : ∀ assign, draft.tree.Cuts
      ((draft.tree.setDeclares assign true).eraseStatement block index)
        fun a b => a = block ∧ b = slot := by
    intro assign
    have hat' : ((draft.tree.setDeclares assign true).statements block)[index]? = some slot := by
      rwa [Tree.statements_setDeclares]
    simpa only [false_or] using (Tree.Cuts.setDeclares true).trans (.eraseStatement hat')
  dsimp only [declarationAt?] at hrule
  split at hrule
  · next hstorage =>
    split at hrule
    · cases hrule
      exact ⟨_, hdrop (Tree.kind_of_storage? hstorage) (.eraseStatement hat)⟩
    · obtain ⟨assign, -, rfl⟩ := Option.map_eq_some_iff.1 hrule
      exact ⟨_, hdrop (Tree.kind_of_storage? hstorage) (hmerge assign)⟩
  · next hstorage =>
    obtain ⟨assign, -, rfl⟩ := Option.map_eq_some_iff.1 hrule
    exact ⟨_, hdrop (Tree.kind_of_storage? hstorage) (hmerge assign)⟩
  · cases hrule

theorem spares_of_unusedLabel? (h : draft.unusedLabel? block = some rewrite) :
    draft.Spares block rewrite := by
  obtain ⟨label, index, hat, hrule⟩ := exists_of_findSome?_zipIdx h
  dsimp only at hrule
  split at hrule
  case isFalse => cases hrule
  case isTrue hunused =>
  cases hrule
  have hleaf : draft.tree.below true label = [] := by
    have hlabel := hunused.1
    rw [Tree.below_eq_parts]
    unfold Tree.kind at hlabel
    cases hnode : draft.tree.node label <;> rw [hnode] at hlabel <;> cases hlabel
    rfl
  exact ⟨_, Tree.sheds_of_leaf (.eraseStatement hat) hleaf (by rw [hunused.1]; rfl)
    fun _ => ⟨index, rfl, hat, hunused⟩⟩

theorem statement_alloc {index : Nat} {s : NodeId}
    (hat : (draft.tree.statements block)[index]? = some s) (offset : Nat) (slot call : NodeId) :
    ((draft.tree.alloc offset (.binary .assign slot call false)).statements block)[index]? =
      some s := by
  rw [Tree.statements_alloc (by simp)]
  exact hat

theorem cuts_assignCall {index : Nat} {call : NodeId} (slot : NodeId)
    (hat : (draft.tree.statements block)[index]? = some call) :
    draft.tree.Cuts (Rewrite.apply block draft (.assignCall index call slot)).tree
      fun a b => a = block ∧ b = call := by
  have hat' := statement_alloc hat (draft.tree.offset call) slot call
  have hcuts : draft.tree.Cuts (Rewrite.apply block draft (.assignCall index call slot)).tree _ :=
    (Tree.Cuts.alloc _ _).trans (.setStatement hat')
  simpa only [false_or] using hcuts

section Output

variable (hfree : draft.tree.CycleFree) (hblock : draft.tree.InOutput block)
include hfree hblock

theorem spares_of_deadAssignment? (hshaped : draft.tree.Shaped)
    (h : draft.deadAssignment? block = some rewrite) : draft.Spares block rewrite := by
  obtain ⟨statement, index, hat, hrule⟩ := exists_of_findSome?_zipIdx h
  dsimp only at hrule
  split at hrule
  case h_2 => cases hrule
  case h_1 slot value declares hnode =>
  split at hrule
  case isFalse => cases hrule
  case isTrue hdead =>
  have hslot := Tree.kind_of_storage? hdead.1
  cases hrule
  split
  · exact ⟨_, Tree.sheds_of_value hnode (.setStatement hat) (fun _ _ hgone => .inl hgone.2) hslot
      (hfree.inOutput_setStatement hblock hat)⟩
  · next hkept =>
    exact ⟨_, Tree.sheds_of_assignment hnode (.eraseStatement hat) hshaped hslot
      (Bool.eq_false_iff.2 hkept)⟩

theorem spares_of_deferredCall? (h : draft.deferredCall? block = some rewrite) :
    draft.Spares block rewrite := by
  have hin : ∀ {n}, rewrite.collapsed? = some n → draft.tree.InOutput n := fun hn =>
    hblock.trans (Tree.holds_of_descends (reaches_of_deferredCall? h hn))
  obtain ⟨statement, -, h⟩ := List.exists_of_findSome?_eq_some h
  obtain ⟨action, -, h⟩ := List.exists_of_findSome?_eq_some h
  unfold deferredCallAt? at h
  split at h
  case h_2 => cases h
  case h_1 routine arguments hnode =>
  obtain ⟨argument, index, hargument, h⟩ := exists_of_findSome?_zipIdx h
  obtain ⟨call, hcall, rfl⟩ := Option.map_eq_some_iff.1 h
  obtain ⟨ret, hstatements, hret⟩ := Tree.onlyCall?_eq_some hcall
  have hoperand := mem_operands_of_argument hnode hargument
  exact ⟨_, Tree.sheds_of_deferred (.setOperand hoperand) hstatements hret
    (isCall_of_onlyCall? hcall) (hfree.inOutput_setOperand (hin rfl) hoperand)⟩

theorem spares_of_vector? (h : draft.vector? block = some rewrite) : draft.Spares block rewrite := by
  have hin : ∀ {n}, rewrite.collapsed? = some n → draft.tree.InOutput n := fun hn =>
    hblock.trans (Tree.holds_of_descends (reaches_of_vector? h hn))
  obtain ⟨statement, -, h⟩ := List.exists_of_findSome?_eq_some h
  obtain ⟨node, -, h⟩ := List.exists_of_findSome?_eq_some h
  obtain ⟨operand, hoperand, h⟩ := List.exists_of_findSome?_eq_some h
  obtain ⟨source, hsource, rfl⟩ := Option.map_eq_some_iff.1 h
  exact ⟨_, Tree.sheds_of_recomposed (.setOperand hoperand) hsource
    (hfree.inOutput_setOperand (hin rfl) hoperand)⟩

variable (hclosed : draft.tree.Closed)
include hclosed

theorem inOutput_assignCall {index : Nat} {call : NodeId} (slot : NodeId)
    (hat : (draft.tree.statements block)[index]? = some call) :
    (Rewrite.apply block draft (.assignCall index call slot)).tree.InOutput call := by
  have hheld := Tree.holds_of_statement (List.mem_of_getElem? hat)
  have hat' := statement_alloc hat (draft.tree.offset call) slot call
  have hstays : (Rewrite.apply block draft (.assignCall index call slot)).tree.InOutput block := by
    refine hblock.survives ((Rewrite.assignCall index call slot).rewires_apply block hclosed)
      (cuts_assignCall slot hat) ?_
    rintro a b ⟨rfl, rfl⟩
    exact hfree.not_back hblock hheld
  have hne : draft.tree.nextId ≠ block := by
    intro heq
    exact Nat.lt_irrefl _ (heq ▸ Tree.lt_size_of_below hheld)
  have hnode : (Rewrite.apply block draft (.assignCall index call slot)).tree.node
      draft.tree.nextId = .binary .assign slot call false :=
    (Tree.node_modify_of_ne hne).trans Tree.node_alloc_nextId
  exact (hstays.step (Tree.holds_setStatement hat')).step ((Tree.holds_assign hnode).2 (.inr rfl))

theorem spares_of_pendingCall? (h : draft.pendingCall? block = some rewrite) :
    draft.Spares block rewrite := by
  obtain ⟨call, index, hat, hrule⟩ := exists_of_findSome?_zipIdx h
  dsimp only at hrule
  split at hrule
  case isFalse => cases hrule
  case isTrue hkind =>
  obtain ⟨slot, -, rfl⟩ := Option.map_eq_some_iff.1 hrule
  refine ⟨fun _ => False, fun a b hab => ?_, fun _ _ hlost => hlost.elim, fun _ hlost => hlost.elim,
    fun _ hlost => hlost.elim, fun _ hlost => hlost.elim⟩
  rcases cuts_assignCall slot hat a b hab with hkept | ⟨-, rfl⟩
  · exact .inl hkept
  · exact .inr (.inr ⟨inOutput_assignCall hfree hblock hclosed slot hat, hkind⟩)

section Moves

variable {statement : NodeId} {move : Inlining} (hmoves : draft.Moves block statement move)
  (hcurrent : draft.Current routines)
  (hat : (draft.tree.statements block)[move.index]? = some statement)
include hmoves hcurrent hat

omit hfree hblock hclosed in
theorem Moves.cuts : draft.tree.Cuts (draft.inlined block move) fun a b =>
    (a = move.read.node ∧ b = move.slot) ∨ (a = block ∧ b = statement) := by
  apply Tree.Cuts.trans (.setOperand (hmoves.reads hcurrent)) (.eraseStatement _)
  rwa [Tree.statements_setOperand]

omit hfree hblock hclosed in
theorem Moves.holds_value : (draft.inlined block move).Holds move.read.node move.value := by
  have hheld : (draft.tree.setOperand move.read.node move.read.role move.value).Holds
      move.read.node move.value := Tree.holds_setOperand (hmoves.reads hcurrent)
  rwa [Tree.Holds, Tree.below_eq_parts,
    ← Tree.node_modify_of_ne (hmoves.ne_block hcurrent hat), ← Tree.below_eq_parts] at hheld

/-- The block stays, since neither the temporary nor its declaration leads to it. -/
theorem Moves.inOutput_block : (draft.inlined block move).InOutput block := by
  have hslot := Tree.kind_of_storage? hmoves.storage
  refine hblock.survives ((Rewrite.inlineValue move).rewires_apply block hclosed)
    (hmoves.cuts hcurrent hat) ?_
  rintro a b (⟨-, rfl⟩ | ⟨rfl, rfl⟩) hback
  · rcases Relation.ReflTransGen.cases_head hback with heq | ⟨n, hn, -⟩
    · rw [heq, Tree.kind_of_statement (List.mem_of_getElem? hat)] at hslot
      cases hslot
    · rw [Tree.Holds, Tree.below_of_kind_slot hslot] at hn
      cases hn
  · exact hfree.not_back hblock (Tree.holds_of_statement (List.mem_of_getElem? hat)) hback

/-- The node that reads the temporary stays as well: the declaration holds no such node, and the way from
the statement of the use leads past it. -/
theorem Moves.inOutput_read (hlive : draft.facts.isLive block) :
    (draft.inlined block move).InOutput move.read.node := by
  have hcuts := hmoves.cuts hcurrent hat
  obtain ⟨consumer, hconsumer, hread⟩ := hmoves.consumes hcurrent
  have hinner := Tree.inner_of_mem_within hread
  have hapart : ¬Relation.ReflTransGen draft.tree.Inner statement move.read.node := by
    intro hdeclared
    have honce := hmoves.read
    rw [hcurrent] at honce
    have hlt := hclosed.statement (List.mem_of_getElem? hat)
    exact Event.statement_of_read honce (hcurrent.visited hlive) hmoves.later hat hconsumer
      (hclosed.mem_within hlt hdeclared) hread
  have hway : ∀ {n}, Relation.ReflTransGen draft.tree.Inner n move.read.node →
      (draft.inlined block move).InOutput n → (draft.inlined block move).InOutput move.read.node := by
    intro n hn
    induction hn using Relation.ReflTransGen.head_induction_on with
    | refl => exact fun hin => hin
    | head hstep hrest ih =>
      intro hin
      rcases hcuts _ _ hstep.descends.holds with hkept | ⟨rfl, -⟩ | ⟨-, rfl⟩
      · exact ih (hin.step hkept)
      · exact hin
      · exact absurd hrest hapart
  apply hway hinner
  apply (hmoves.inOutput_block hfree hblock hclosed hcurrent hat).step
  rcases hcuts _ _ (Tree.holds_of_statement (List.mem_of_getElem? hconsumer)) with
    hkept | ⟨heq, -⟩ | ⟨-, rfl⟩
  · exact hkept
  · exact absurd heq.symm (hmoves.ne_block hcurrent hat)
  · exact absurd hinner hapart

end Moves

theorem spares_of_inlining? (hcurrent : draft.Current routines) (hlive : draft.facts.isLive block)
    (h : draft.inlining? block = some rewrite) : draft.Spares block rewrite := by
  obtain ⟨statement, index, hat, hrule⟩ := exists_of_findSome?_zipIdx h
  obtain ⟨move, hmove, rfl⟩ := Option.map_eq_some_iff.1 hrule
  obtain ⟨rfl, hmoves⟩ := moves_of_inliningAt? hmove
  have hread := hmoves.inOutput_read hfree hblock hclosed hcurrent hat hlive
  refine ⟨_, Tree.sheds_of_value hmoves.node (hmoves.cuts hcurrent hat) ?_
    (Tree.kind_of_storage? hmoves.storage) (hread.step (hmoves.holds_value hcurrent hat))⟩
  rintro a b (⟨-, rfl⟩ | ⟨-, rfl⟩)
  · exact .inr rfl
  · exact .inl rfl

theorem spares_of_rewrite? (hshaped : draft.tree.Shaped) (hcurrent : draft.Current routines)
    (hlive : draft.facts.isLive block) (h : draft.rewrite? block settings = some rewrite) :
    draft.Spares block rewrite := by
  simp only [rewrite?, Option.orElse_eq_some] at h
  rcases h with h | ⟨-, h | ⟨-, h | ⟨-, h | ⟨-, h | ⟨-, h⟩⟩⟩⟩⟩
  · exact spares_of_declaration? h
  · exact spares_of_deferredCall? hfree hblock h
  · exact spares_of_pendingCall? hfree hblock hclosed h
  · split at h
    · rcases (Option.orElse_eq_some _ _ _).1 h with h | ⟨-, h⟩
      · exact spares_of_inlining? hfree hblock hclosed hcurrent hlive h
      · exact spares_of_vector? hfree hblock h
    · cases h
  · exact spares_of_deadAssignment? hfree hblock hshaped h
  · exact spares_of_unusedLabel? h

end Output

/-- What comes with a rewrite is in the output already, or neither has parts nor does anything. -/
theorem link_inOutput (hclosed : draft.tree.Closed) (hdestined : draft.Destined)
    (hcurrent : draft.Current routines) (hlive : draft.facts.isLive block)
    (hrewrite : draft.rewrite? block settings = some rewrite) {a b : NodeId}
    (hlink : rewrite.Link block draft.tree a b) :
    draft.tree.InOutput b ∨ (draft.tree.below true b = [] ∧
      ((rewrite.apply block draft).tree.kind b).isEffect = false) := by
  have hadmits := admits_of_rewrite? hrewrite
  have hblock := Tree.inOutput_of_visited (hcurrent.visited hlive)
  have hstatement : ∀ {index s}, (draft.tree.statements block)[index]? = some s →
      draft.tree.InOutput s := fun hat =>
    hblock.step (Tree.holds_of_statement (List.mem_of_getElem? hat))
  have hcollapse : ∀ {n}, rewrite.collapsed? = some n → draft.tree.InOutput n := fun hn =>
    hblock.trans (Tree.holds_of_descends (reaches_of_collapsed? hrewrite hn))
  have hshort : rewrite.isShortcut → draft.tree.InOutput a → draft.tree.InOutput b := fun h ha =>
    ha.trans (Tree.holds_of_descends (hadmits.shortens h hlink).to_reflTransGen)
  cases hadmits with
  | dropDeclaration | mergeDeclaration | dropAssignment | dropLabel => cases hlink
  | collapseAction | collapseVector =>
    obtain ⟨rfl, -⟩ := hlink
    exact .inl (hshort rfl (hcollapse rfl))
  | keepValue =>
    obtain ⟨rfl, -⟩ := hlink
    exact .inl (hshort rfl hblock)
  | @assignCall index call slot hat hkind hslot =>
    have hext := ((Rewrite.assignCall index call slot).rewires_apply block hclosed).kinds
    rcases hlink with ⟨-, rfl⟩ | ⟨-, rfl | rfl⟩
    · right
      constructor
      · rw [Tree.below_eq_parts, Tree.node_nextId]
        rfl
      · rw [kind_assignCall]
        rfl
    · right
      have hdest := hdestined.destination hslot
      constructor
      · exact Tree.below_of_kind_slot (Tree.isSlot_iff_kind.1 hdest) true
      · rw [Tree.isSlot_iff_kind.1 (hext.isSlot hdest)]
        rfl
    · exact .inl (hstatement hat)
  | inlineValue hat hmoves =>
    obtain ⟨-, rfl⟩ := hlink
    exact .inl ((hstatement hat).step ((Tree.holds_assign hmoves.node).2 (.inr rfl)))

theorem performs_apply (hclosed : draft.tree.Closed) (hfree : draft.tree.CycleFree)
    (hshaped : draft.tree.Shaped) (hdestined : draft.Destined) (hcurrent : draft.Current routines)
    (hlive : draft.facts.isLive block) (hrewrite : draft.rewrite? block settings = some rewrite)
    (n : NodeId) : (rewrite.apply block draft).tree.Performs n ↔ draft.tree.Performs n := by
  have hrewires := rewrite.rewires_apply block hclosed
  constructor
  · rintro ⟨hin, heffect⟩
    rcases hrewires.inOutput (fun _ _ => link_inOutput hclosed hdestined hcurrent hlive hrewrite)
      (fun _ hfresh => hfresh.1) hin with hold | ⟨-, hidle⟩
    · exact ⟨hold, by rwa [hrewires.kinds.kind n (hclosed.lt_size hold)] at heffect⟩
    · rw [hidle] at heffect
      cases heffect
  · intro hn
    have hblock := Tree.inOutput_of_visited (hcurrent.visited hlive)
    obtain ⟨lost, hsheds⟩ := spares_of_rewrite? hfree hblock hclosed hshaped hcurrent hlive hrewrite
    exact hsheds.performs hrewires hn

/-- Labels that jumps lead to stay, unless the rewrite drops one from the last of its places. -/
theorem keepsLabels_apply_iff (hclosed : draft.tree.Closed) (hfree : draft.tree.CycleFree)
    (hshaped : draft.tree.Shaped) (hcurrent : draft.Current routines)
    (hlive : draft.facts.isLive block) (hrewrite : draft.rewrite? block settings = some rewrite) :
    draft.tree.KeepsLabels (rewrite.apply block draft).tree ↔
      ∀ label, draft.Unlabels block rewrite label → draft.tree.Targets label →
        (rewrite.apply block draft).tree.Places label := by
  have hblock := Tree.inOutput_of_visited (hcurrent.visited hlive)
  constructor
  · rintro hkeeps label ⟨index, -, hat, hkind, -⟩ htargets
    exact hkeeps label hkind htargets ⟨block, hblock, List.mem_of_getElem? hat⟩
  · intro hdropped label hkind htargets hplaces
    by_cases hunlabels : draft.Unlabels block rewrite label
    · exact hdropped label hunlabels htargets
    · obtain ⟨lost, hsheds⟩ :=
        spares_of_rewrite? hfree hblock hclosed hshaped hcurrent hlive hrewrite
      exact hsheds.places (rewrite.rewires_apply block hclosed) hkind hunlabels hplaces

end Draft

/-- A rewrite of a block that is part of the output loses no effect: the same calls, steps, jumps and
branches can be reached afterwards, values keep their shape, and a value that moves changes the counts
of no slot but its own. Labels that jumps lead to keep a place, unless one is dropped from the last of
its places; that never happens if the walk through the output comes to all of it. -/
theorem rewrite_keeps_effects {settings : CompactSettings} {routines : Routines} {draft : Draft}
    {block : NodeId} {rewrite : Rewrite} (hclosed : draft.tree.Closed)
    (hfree : draft.tree.CycleFree) (hshaped : draft.tree.Shaped) (hdestined : draft.Destined)
    (hcurrent : draft.Current routines) (hlive : draft.facts.isLive block)
    (hrewrite : draft.rewrite? block settings = some rewrite) :
    let next := (rewrite.apply block draft).refresh routines
    (∀ n, next.tree.Performs n ↔ draft.tree.Performs n) ∧ next.tree.Shaped ∧
    (∀ move, rewrite = .inlineValue move → ∀ slot, slot ≠ move.slot →
      (next.facts.readsOf slot).length = (draft.facts.readsOf slot).length ∧
      (next.facts.writesOf slot).length = (draft.facts.writesOf slot).length) ∧
    (draft.tree.KeepsLabels next.tree ↔
      ∀ label, draft.Unlabels block rewrite label → draft.tree.Targets label →
        next.tree.Places label) ∧
    (draft.tree.Unnested → draft.tree.Rooted → draft.tree.KeepsLabels next.tree) := by
  intro next
  have hadmits := Draft.admits_of_rewrite? hrewrite
  have hlabels : draft.tree.KeepsLabels next.tree ↔ _ :=
    Draft.keepsLabels_apply_iff hclosed hfree hshaped hcurrent hlive hrewrite
  refine ⟨?_, hadmits.shaped hshaped, ?_, hlabels, ?_⟩
  · exact Draft.performs_apply hclosed hfree hshaped hdestined hcurrent hlive hrewrite
  · rintro move rfl slot hslot
    have hsturdy : draft.Sturdy := ⟨hclosed, fun _ => hfree.grounded hclosed, hdestined⟩
    cases hadmits with
    | inlineValue hat hmoves =>
      exact hmoves.counts_inlined hcurrent hat hlive hsturdy hfree hslot _
  · intro hnested hrooted
    have hwalkable : draft.tree.Walkable := ⟨hclosed, hnested, hrooted⟩
    refine hlabels.2 fun label hdropped htargets => ?_
    obtain ⟨index, -, -, -, hnone⟩ := hdropped
    rw [hcurrent, hwalkable.gotosTo_eq_nil] at hnone
    exact absurd htargets hnone

/-- A loop that prints what a routine answers. -/
def answerLoop : Tree where
  exprs := #[
    ⟨0, .block [⟨1⟩, ⟨4⟩, ⟨5⟩, ⟨6⟩]⟩, ⟨0, .label⟩, ⟨2, .slot { type := .int }⟩, ⟨2, .action 2 []⟩,
    ⟨2, .binary .assign ⟨2⟩ ⟨3⟩ true⟩, ⟨8, .action 1 [⟨2⟩]⟩, ⟨13, .goto ⟨1⟩⟩]
  subroutines := #[{ name := "main", start := 0, stop := 13, root := ⟨0⟩ }]
  order := [⟨0⟩]

/-- The call moves into the one that prints its answer, and the loop stays. -/
theorem rewrite_keeps_effects_answerLoop :
    let draft := Draft.refresh { tree := answerLoop } showRoutines
    let move : Inlining := ⟨1, ⟨2⟩, ⟨3⟩, ⟨⟨5⟩, .actionArgument 0⟩, 2⟩
    let next := ((Rewrite.inlineValue move).apply ⟨0⟩ draft).refresh showRoutines
    draft.tree.Closed ∧ draft.tree.CycleFree ∧ draft.tree.Shaped ∧ draft.Destined ∧
      draft.Current showRoutines ∧ draft.facts.isLive ⟨0⟩ ∧
      draft.rewrite? ⟨0⟩ {} = some (.inlineValue move) ∧
      (∀ n, next.tree.Performs n ↔ draft.tree.Performs n) ∧ next.tree.Shaped ∧
      (∀ slot, slot ≠ ⟨2⟩ →
        (next.facts.readsOf slot).length = (draft.facts.readsOf slot).length ∧
        (next.facts.writesOf slot).length = (draft.facts.writesOf slot).length) ∧
      draft.tree.Targets ⟨1⟩ ∧ draft.tree.Places ⟨1⟩ ∧ draft.tree.KeepsLabels next.tree := by
  intro draft move next
  have hclosed : answerLoop.Closed := by decide +kernel
  have hlayered : answerLoop.isLayered := by decide +kernel
  have hfree := (Tree.acyclic_of_isLayered hlayered).cycleFree
  have hshaped : answerLoop.Shaped := by decide +kernel
  have hdestined : draft.Destined := ⟨by decide +kernel, by decide +kernel⟩
  have hcurrent : draft.Current showRoutines := Draft.current_refresh showRoutines _
  have hlive : draft.facts.isLive ⟨0⟩ := by decide +kernel
  have hrewrite : draft.rewrite? ⟨0⟩ {} = some (.inlineValue move) := by decide +kernel
  obtain ⟨hperforms, hshaped', hcounts, hlabels, -⟩ :=
    rewrite_keeps_effects hclosed hfree hshaped hdestined hcurrent hlive hrewrite
  have hroot : answerLoop.InOutput ⟨0⟩ := ⟨⟨0⟩, by decide, .refl⟩
  have hjump : answerLoop.Holds ⟨0⟩ ⟨6⟩ := by
    unfold Tree.Holds
    decide +kernel
  refine ⟨hclosed, hfree, hshaped, hdestined, hcurrent, hlive, hrewrite, hperforms, hshaped',
    hcounts move rfl, ⟨⟨6⟩, hroot.step hjump, by decide +kernel⟩, ⟨⟨0⟩, hroot, by decide +kernel⟩,
    hlabels.2 ?_⟩
  rintro label ⟨index, hdrop, -⟩
  cases hdrop

/-- A jump in a block that stands as a statement. -/
def nestedJump : Tree where
  exprs := #[⟨0, .block [⟨1⟩, ⟨2⟩]⟩, ⟨0, .label⟩, ⟨0, .block [⟨3⟩]⟩, ⟨0, .goto ⟨1⟩⟩]
  subroutines := #[{ name := "main", start := 0, stop := 0, root := ⟨0⟩ }]
  order := [⟨0⟩]

/-- The walk does not come to it, and its label is dropped. -/
theorem not_forall_rewrite_keepsLabels : ¬∀ (settings : CompactSettings) (routines : Routines)
    (draft : Draft) (block : NodeId) (rewrite : Rewrite), draft.tree.Closed → draft.tree.CycleFree →
      draft.tree.Shaped → draft.Destined → draft.Current routines → draft.facts.isLive block →
      draft.rewrite? block settings = some rewrite →
      draft.tree.KeepsLabels ((rewrite.apply block draft).refresh routines).tree := by
  intro h
  have hclosed : nestedJump.Closed := by decide +kernel
  have hlayered : nestedJump.isLayered := by decide +kernel
  have hfree := (Tree.acyclic_of_isLayered hlayered).cycleFree
  have hroot : nestedJump.InOutput ⟨0⟩ := ⟨⟨0⟩, by decide, .refl⟩
  have hblock : nestedJump.Holds ⟨0⟩ ⟨2⟩ := by
    unfold Tree.Holds
    decide +kernel
  have hjump : nestedJump.Holds ⟨2⟩ ⟨3⟩ := by
    unfold Tree.Holds
    decide +kernel
  have hkeeps := h {} showRoutines (Draft.refresh { tree := nestedJump } showRoutines) ⟨0⟩
    (.dropLabel 0) hclosed hfree (by decide +kernel) ⟨by decide +kernel, by decide +kernel⟩
    (Draft.current_refresh showRoutines _) (by decide +kernel) (by decide +kernel)
  obtain ⟨block, -, hmem⟩ := hkeeps ⟨1⟩ (by decide +kernel)
    ⟨⟨3⟩, (hroot.step hblock).step hjump, by decide +kernel⟩ ⟨⟨0⟩, hroot, by decide +kernel⟩
  have hnone : ∀ i < 4, (⟨1⟩ : NodeId) ∉ (nestedJump.eraseStatement ⟨0⟩ 0).statements ⟨i⟩ := by
    decide +kernel
  exact hnone block.index (Tree.lt_size_of_statement hmem) hmem

end ScriptLift
