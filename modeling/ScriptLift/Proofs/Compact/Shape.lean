import ScriptLift.Proofs.Compact.Rules
import ScriptLift.Proofs.Lift.Blocks
import ScriptLift.Proofs.Tree.Operands

namespace ScriptLift

namespace Node

variable {node next : Node} {role : Role} {id : NodeId}

/-- A component stays a component of what it was, unless its whole is replaced. -/
theorem eq_component_setOperand? {whole : NodeId} {index : Nat}
    (h : node.setOperand? role id = some next) (hnext : next = .component whole index) :
    whole = id ∧ role = .source := by
  subst hnext
  unfold setOperand? at h
  split at h <;> (try split at h) <;> cases h
  exact ⟨rfl, rfl⟩

end Node

namespace Tree

variable {tree : Tree} {id value : NodeId} {role : Role}

theorem kind_setOperand_getD (node : Node) (role : Role) (value : NodeId) :
    ((node.setOperand? role value).getD node).kind = node.kind := by
  cases h : node.setOperand? role value with
  | none => rfl
  | some next => exact Node.kind_setOperand? h

theorem extends_setOperand : tree.Extends (tree.setOperand id role value) :=
  Extends.modify (kind_setOperand_getD _ role value)

theorem WellFormed.setOperand (h : tree.WellFormed) (hvalue : tree.IsValue value)
    (hsource : role = .source → tree.isSlot value) : (tree.setOperand id role value).WellFormed := by
  refine h.modify (kind_setOperand_getD _ role value) fun _ => ?_
  cases hset : (tree.node id).setOperand? role value with
  | none => exact h id
  | some next =>
    have hkind := Node.kind_setOperand? hset
    rw [Option.getD_some]
    refine ⟨fun o ho => ?_, fun whole index hnext => ?_, fun statements hnext => ?_,
      fun statements hnext => ?_⟩
    · rcases Node.mem_operands_setOperand? hset ho with heq | ⟨p, hp, heq⟩
      · exact heq ▸ hvalue
      · exact heq ▸ h.operand hp
    · obtain ⟨rfl, hrole⟩ := Node.eq_component_setOperand? hset hnext
      exact hsource hrole
    · subst hnext
      cases hnode : tree.node id <;> simp_all [Node.kind, Node.setOperand?]
    · subst hnext
      cases hnode : tree.node id <;> simp_all [Node.kind, Node.setOperand?]

theorem extends_setDeclares (declares : Bool) : tree.Extends (tree.setDeclares id declares) :=
  Extends.modify (by unfold Tree.kind; cases tree.node id <;> rfl)

theorem WellFormed.setDeclares (h : tree.WellFormed) (declares : Bool) :
    (tree.setDeclares id declares).WellFormed := by
  refine h.modify (by unfold Tree.kind; cases tree.node id <;> rfl) fun _ => ?_
  cases hnode : tree.node id with
  | binary op left right _ =>
    refine fits_of_operands (by simp [Node.kind]) (by simp [Node.kind]) fun o ho => ?_
    exact (h id).operand o (by rw [hnode]; exact ho)
  | _ =>
    simp only
    exact hnode ▸ h id

theorem extends_modifyStatements (g : List NodeId → List NodeId) :
    tree.Extends (tree.modifyStatements id g) :=
  Extends.modify (by unfold Tree.kind; cases tree.node id <;> rfl)

theorem WellFormed.eraseStatement (h : tree.WellFormed) (index : Nat) :
    (tree.eraseStatement id index).WellFormed :=
  h.shrinkStatements (List.eraseIdx_sublist _ _)

theorem WellFormed.setStatement (h : tree.WellFormed) {statement : NodeId}
    (hblock : tree.kind statement ≠ .block) (hret : tree.kind statement ≠ .ret) (index : Nat) :
    (tree.setStatement id index statement).WellFormed := by
  refine h.modifyStatements (fun s hs => ?_) fun s hs => ?_
  · rcases List.mem_or_eq_of_mem_set hs with hs | rfl
    · exact h.statement hs
    · exact isStatement_of_kind_ne hblock
  · have hset : ((tree.statements id).set index statement).dropLast =
        (tree.statements id).dropLast.set index statement := by
      simp [List.dropLast_eq_take, List.take_set]
    rw [hset] at hs
    rcases List.mem_or_eq_of_mem_set hs with hs | rfl
    · exact h.returns hs
    · exact hret

/-- Nodes are edited in place; subroutines and output are the same. -/
structure Edits (old new : Tree) : Prop where
  size : new.size = old.size
  subroutines : new.subroutines = old.subroutines
  order : new.order = old.order
  diagnostics : new.diagnostics = old.diagnostics

theorem Edits.refl (tree : Tree) : Edits tree tree := ⟨rfl, rfl, rfl, rfl⟩

theorem Edits.trans {old mid new : Tree} (h : Edits old mid) (g : Edits mid new) : Edits old new :=
  ⟨g.size.trans h.size, g.subroutines.trans h.subroutines, g.order.trans h.order,
    g.diagnostics.trans h.diagnostics⟩

theorem Edits.modify (tree : Tree) (id : NodeId) (f : Node → Node) : Edits tree (tree.modify id f) :=
  ⟨size_modify .., rfl, rfl, rfl⟩

theorem subroutines_modifySub_modifySub (tree : Tree) (sub : SubId) (f g : Subroutine → Subroutine) :
    ((tree.modifySub sub f).modifySub sub g).subroutines =
      (tree.modifySub sub fun s => g (f s)).subroutines := by
  apply Array.ext_getElem?
  intro i
  simp only [modifySub, Array.getElem?_modify]
  split
  · cases tree.subroutines[i]? <;> rfl
  · rfl

end Tree

namespace Draft

variable {settings : CompactSettings} {routines : Routines} {draft next : Draft} {block : NodeId}

/-- Every destination is a slot for the result of a call of its own. -/
structure Destined (draft : Draft) : Prop where
  slots : ∀ entry ∈ draft.facts.destinations,
    draft.tree.kind entry.1 = .call ∧ draft.tree.isSlot entry.2
  keys : (draft.facts.destinations.map (·.1)).Nodup

theorem Destined.edit (h : draft.Destined) (hext : draft.tree.Extends next.tree)
    (hsub : next.facts.destinations.Sublist draft.facts.destinations) : next.Destined where
  slots entry hentry := by
    obtain ⟨hcall, hslot⟩ := h.slots entry (hsub.subset hentry)
    exact ⟨by rw [hext.kind_eq (by simp [hcall]), hcall], hext.isSlot hslot⟩
  keys := h.keys.sublist (hsub.map _)

theorem Destined.destination (h : draft.Destined) {call slot : NodeId}
    (hslot : draft.facts.destination? call = some slot) : draft.tree.isSlot slot := by
  obtain ⟨before, behind, heq, -⟩ := List.lookup_eq_some_iff.1 hslot
  exact (h.slots (call, slot) (by rw [heq]; simp)).2

/-- A well-formed tree, with slots for the results of some calls. -/
structure Proper (draft : Draft) : Prop where
  tree : draft.tree.WellFormed
  destinations : ∀ entry ∈ draft.facts.destinations,
    draft.tree.kind entry.1 = .call ∧ draft.tree.isSlot entry.2
  keys : (draft.facts.destinations.map (·.1)).Nodup

namespace Proper

theorem destined (h : draft.Proper) : draft.Destined := ⟨h.destinations, h.keys⟩

theorem of_destined (htree : draft.tree.WellFormed) (h : draft.Destined) : draft.Proper :=
  ⟨htree, h.slots, h.keys⟩

theorem edit (h : draft.Proper) (hext : draft.tree.Extends next.tree) (hnext : next.tree.WellFormed)
    (hsub : next.facts.destinations.Sublist draft.facts.destinations) : next.Proper :=
  of_destined hnext (h.destined.edit hext hsub)

theorem refresh (h : draft.Proper) : (draft.refresh routines).Proper :=
  h.edit (Tree.Extends.refl _) h.tree (by simp [Draft.refresh])

end Proper

theorem isValue_of_isCall {tree : Tree} {id : NodeId} (h : (tree.kind id).isCall) :
    tree.IsValue id := by
  refine ⟨Tree.lt_size_of_kind_ne ?_, ?_⟩
  · intro heq
    rw [heq] at h
    cases h
  · intro heq
    rw [heq] at h
    cases h

theorem fits_assign {tree : Tree} {slot value : NodeId} (hslot : tree.isSlot slot)
    (hvalue : tree.IsValue value) (declares : Bool) :
    tree.Fits (.binary .assign slot value declares) := by
  refine Tree.fits_of_operands (by simp [Node.kind]) (by simp [Node.kind]) fun o ho => ?_
  simp only [Node.operands, List.mem_cons, List.not_mem_nil, or_false] at ho
  rcases ho with rfl | rfl
  · exact Tree.isValue_of_isSlot hslot
  · exact hvalue

theorem isCall_of_onlyCall? {tree : Tree} {block call : NodeId}
    (h : tree.onlyCall? block = some call) : (tree.kind call).isCall := by
  unfold Tree.onlyCall? at h
  split at h
  · split at h
    · next hcond =>
      cases h
      exact hcond.1
    · cases h
  · cases h

/-- The source of a recomposed vector is a slot. -/
theorem isSlot_of_recomposed? {tree : Tree} (htree : tree.WellFormed) {vector source : NodeId}
    (h : tree.recomposed? vector = some source) : tree.isSlot source := by
  unfold Tree.recomposed? at h
  split at h
  · next x y z hnode =>
    split at h
    · next a b c hx hy hz =>
      split at h
      · cases h
        unfold Tree.componentOf? at hx
        split at hx
        · next whole index hcomponent =>
          split at hx
          · cases hx
            exact (htree x).whole _ _ hcomponent
          · cases hx
        · cases hx
      · cases h
    · cases h
  · cases h

theorem kind_of_isKept {tree : Tree} {value : NodeId} (h : tree.isKept value) :
    tree.kind value ≠ .block ∧ tree.kind value ≠ .ret := by
  unfold Tree.isKept at h
  constructor <;> intro heq <;> rw [heq] at h <;> simp [Kind.isCall, Kind.isUnary, Kind.isBinary] at h

theorem Moves.ne_source {statement : NodeId} {move : Inlining} (h : draft.Moves block statement move) :
    move.read.role ≠ .source := by
  intro heq
  have hadmits := h.admits
  simp [Read.admitsValue, heq] at hadmits

theorem Proper.apply {rewrite : Rewrite} (h : draft.Proper) (hadmits : draft.Admits block rewrite) :
    draft.tree.Extends (rewrite.apply block draft).tree ∧ (rewrite.apply block draft).Proper := by
  have herase : ∀ index, draft.tree.Extends (draft.tree.eraseStatement block index) :=
    fun index => Tree.extends_modifyStatements _
  cases hadmits with
  | dropDeclaration | dropAssignment | dropLabel =>
    exact ⟨herase _, h.edit (herase _) (h.tree.eraseStatement _) (List.Sublist.refl _)⟩
  | @mergeDeclaration index statement assign hat hinit =>
    have hext : draft.tree.Extends ((draft.tree.setDeclares assign true).eraseStatement block index) :=
      (Tree.extends_setDeclares true).trans (Tree.extends_modifyStatements _)
    exact ⟨hext, h.edit hext ((h.tree.setDeclares true).eraseStatement _) (List.Sublist.refl _)⟩
  | collapseAction hnode hargument hcall =>
    refine ⟨Tree.extends_setOperand, h.edit Tree.extends_setOperand
      (h.tree.setOperand ?_ (by simp)) (List.Sublist.refl _)⟩
    exact isValue_of_isCall (isCall_of_onlyCall? hcall)
  | @assignCall index call slot hat hkind hslot =>
    have halloc := Tree.Extends.of_grows
      (Tree.Grows.alloc draft.tree (draft.tree.offset call) (.binary .assign slot call false))
    have hext : draft.tree.Extends ((draft.tree.alloc (draft.tree.offset call)
        (.binary .assign slot call false)).setStatement block index draft.tree.nextId) :=
      halloc.trans (Tree.extends_modifyStatements _)
    refine ⟨hext, h.edit hext ?_ List.filter_sublist⟩
    refine Tree.WellFormed.setStatement (h.tree.alloc (fits_assign (h.destined.destination hslot) ?_ false) _)
      ?_ ?_ index
    · exact isValue_of_isCall (by rw [hkind]; rfl)
    · simp [Tree.kind, Node.kind]
    · simp [Tree.kind, Node.kind]
  | @inlineValue statement move hat hmoves =>
    have hext : draft.tree.Extends ((draft.tree.setOperand move.read.node move.read.role
        move.value).eraseStatement block move.index) :=
      Tree.extends_setOperand.trans (Tree.extends_modifyStatements _)
    refine ⟨hext, h.edit hext (Tree.WellFormed.eraseStatement (h.tree.setOperand ?_ fun heq =>
      absurd heq hmoves.ne_source) _) (List.Sublist.refl _)⟩
    exact (h.tree statement).operand (.right, move.value)
      (by rw [hmoves.node]; simp [Node.operands])
  | collapseVector hoperand hsource =>
    have hslot := isSlot_of_recomposed? h.tree hsource
    exact ⟨Tree.extends_setOperand, h.edit Tree.extends_setOperand (h.tree.setOperand
      (Tree.isValue_of_isSlot hslot) fun _ => hslot) (List.Sublist.refl _)⟩
  | keepValue hat hnode hkept =>
    obtain ⟨hblock, hret⟩ := kind_of_isKept hkept
    exact ⟨Tree.extends_modifyStatements _, h.edit (Tree.extends_modifyStatements _)
      (h.tree.setStatement hblock hret _) (List.Sublist.refl _)⟩

theorem extends_answer (tree : Tree) (slot ret : NodeId) : tree.Extends (answer slot tree ret) :=
  Tree.Extends.modify (by unfold Tree.kind; cases tree.node ret <;> rfl)

theorem answer_wellFormed {tree : Tree} (h : tree.WellFormed) {slot : NodeId}
    (hslot : tree.isSlot slot) (ret : NodeId) : (answer slot tree ret).WellFormed := by
  refine h.modify (by unfold Tree.kind; cases tree.node ret <;> rfl) fun _ => ?_
  cases hnode : tree.node ret with
  | ret value =>
    have hvalue : ∀ o ∈ (Node.ret (some slot)).operands, tree.IsValue o.2 := by
      simpa [Node.operands] using Tree.isValue_of_isSlot hslot
    exact Tree.fits_of_operands (by simp [Node.kind]) (by simp [Node.kind]) hvalue
  | _ =>
    simp only
    exact hnode ▸ h ret

theorem foldl_answer {slot : NodeId} (returns : List NodeId) {tree : Tree} (h : tree.WellFormed)
    (hslot : tree.isSlot slot) :
    tree.Extends (returns.foldl (answer slot) tree) ∧ (returns.foldl (answer slot) tree).WellFormed := by
  induction returns generalizing tree with
  | nil => exact ⟨Tree.Extends.refl _, h⟩
  | cons ret returns ih =>
    have hext := extends_answer tree slot ret
    obtain ⟨hext', hwf⟩ := ih (answer_wellFormed h hslot ret) (hext.isSlot hslot)
    exact ⟨hext.trans hext', hwf⟩

theorem mem_setDestination {facts : Facts} {call slot : NodeId} {entry : NodeId × NodeId}
    (h : entry ∈ (facts.setDestination call slot).destinations) :
    entry = (call, slot) ∨ entry ∈ facts.destinations := by
  rcases List.mem_cons.1 h with rfl | h
  · exact .inl rfl
  · exact .inr (List.mem_filter.1 h).1

theorem keys_setDestination {facts : Facts} (call slot : NodeId)
    (h : (facts.destinations.map (·.1)).Nodup) :
    ((facts.setDestination call slot).destinations.map (·.1)).Nodup := by
  refine List.nodup_cons.2 ⟨fun hmem => ?_, h.sublist (List.filter_sublist.map _)⟩
  obtain ⟨entry, hentry, heq⟩ := List.mem_map.1 hmem
  have hne := (List.mem_filter.1 hentry).2
  rw [decide_eq_true_eq] at hne
  exact hne heq

theorem extends_takeArgument (index : Nat) (draft : Draft) (call : NodeId) :
    draft.tree.Extends (takeArgument index draft call).tree := by
  unfold takeArgument
  split
  case h_2 => exact Tree.Extends.refl _
  case h_1 callee arguments hnode =>
  split
  · exact Tree.Extends.modify (f := fun _ => .call callee (arguments.eraseIdx index))
      (by rw [Tree.kind, hnode, Node.kind, Node.kind])
  · exact Tree.Extends.refl _

theorem Destined.takeArgument (h : draft.Destined) (index : Nat) (call : NodeId) :
    (Draft.takeArgument index draft call).Destined := by
  have hext := extends_takeArgument index draft call
  have hsame := h.edit hext
  unfold Draft.takeArgument at hext hsame ⊢
  split
  case h_2 => exact h
  case h_1 callee arguments hnode =>
  split
  case h_2 => exact h
  case h_1 removed hremoved =>
  have hkind : draft.tree.kind call = .call := by rw [Tree.kind, hnode, Node.kind]
  simp only [hnode, hremoved] at hext hsame ⊢
  split
  case isFalse hno =>
    rw [if_neg hno] at hsame
    exact hsame (List.Sublist.refl _)
  case isTrue hslot =>
  refine ⟨fun entry hentry => ?_, keys_setDestination _ _ h.keys⟩
  rcases mem_setDestination hentry with rfl | hentry
  · exact ⟨by rw [hext.kind_eq (by simp [hkind]), hkind], hext.isSlot hslot⟩
  · obtain ⟨hcall, hdest⟩ := h.slots entry hentry
    exact ⟨by rw [hext.kind_eq (by simp [hcall]), hcall], hext.isSlot hdest⟩

theorem Proper.takeArgument (h : draft.Proper) (index : Nat) (call : NodeId) :
    draft.tree.Extends (takeArgument index draft call).tree ∧
      (Draft.takeArgument index draft call).Proper := by
  refine ⟨extends_takeArgument index draft call, of_destined ?_ (h.destined.takeArgument index call)⟩
  unfold Draft.takeArgument
  split
  case h_2 => exact h.tree
  case h_1 callee arguments hnode =>
  split
  case h_2 => exact h.tree
  case h_1 removed hremoved =>
  refine Tree.WellFormed.modify (f := fun _ => .call callee (arguments.eraseIdx index)) h.tree
    (by rw [Tree.kind, hnode, Node.kind, Node.kind]) fun _ => ?_
  refine Tree.fits_of_operands (by simp [Node.kind]) (by simp [Node.kind]) fun o ho => ?_
  have hmem := (List.eraseIdx_sublist _ _).subset (Site.snd_mem_of_mem_mapIdx ho)
  obtain ⟨i, hi, heq⟩ := List.getElem_of_mem hmem
  refine (h.tree call).operand (.callArgument i, o.2) ?_
  rw [hnode]
  exact List.mem_mapIdx.2 ⟨i, hi, by rw [heq]⟩

theorem Proper.takeArguments (h : draft.Proper) (index : Nat) (calls : List NodeId) :
    draft.tree.Extends (calls.foldl (Draft.takeArgument index) draft).tree ∧
      (calls.foldl (Draft.takeArgument index) draft).Proper := by
  induction calls generalizing draft with
  | nil => exact ⟨Tree.Extends.refl _, h⟩
  | cons call calls ih =>
    obtain ⟨hext, hnext⟩ := h.takeArgument index call
    obtain ⟨hext', hlast⟩ := ih hnext
    exact ⟨hext.trans hext', hlast⟩

theorem Proper.makeResult (h : draft.Proper) (sub : SubId) (index : Nat) {formal : Formal}
    (hslot : draft.tree.isSlot formal.slot) :
    draft.tree.Extends (draft.makeResult sub index formal).tree ∧
      (draft.makeResult sub index formal).Proper := by
  -- The body with its declaration, and what the returns answer.
  let narrowed := draft.tree.modifySub sub fun s => { s with formals := s.formals.eraseIdx index }
  let marked := narrowed.modifySlot formal.slot fun s => { s with storage := .result }
  let declared := marked.modifyStatements (marked.sub sub).root (formal.slot :: ·)
  let answered := (draft.facts.returnsOf sub).foldl (answer formal.slot) declared
  have hnarrowed : draft.tree.Extends narrowed := Tree.Extends.of_exprs_eq rfl
  have hmarked : draft.tree.Extends marked :=
    hnarrowed.trans (Tree.Extends.of_grows (Tree.Grows.modifySlot narrowed formal.slot _))
  have hkind : marked.kind formal.slot = .slot := Tree.isSlot_iff_kind.1 (hmarked.isSlot hslot)
  have hnarrowedWf : narrowed.WellFormed := h.tree.of_exprs_eq rfl
  have hmarkedWf : marked.WellFormed := hnarrowedWf.modifySlot _
  have hdeclared : declared.WellFormed := by
    refine hmarkedWf.modifyStatements (fun s hs => ?_) fun s hs => ?_
    · rcases List.mem_cons.1 hs with rfl | hs
      · exact Tree.isStatement_of_kind_ne (by simp [hkind])
      · exact hmarkedWf.statement hs
    · cases hstatements : marked.statements (marked.sub sub).root with
      | nil => simp [hstatements] at hs
      | cons first rest =>
        rw [hstatements, List.dropLast_cons_cons, ← hstatements] at hs
        rcases List.mem_cons.1 hs with rfl | hs
        · simp [hkind]
        · exact hmarkedWf.returns hs
  have hdeclaredExt : draft.tree.Extends declared :=
    hmarked.trans (Tree.extends_modifyStatements _)
  obtain ⟨hansweredExt, hanswered⟩ := foldl_answer (draft.facts.returnsOf sub) hdeclared
    (hdeclaredExt.isSlot hslot)
  have hext := hdeclaredExt.trans hansweredExt
  -- The calls.
  have hproper : Proper { draft with tree := answered } :=
    h.edit hext hanswered (List.Sublist.refl _)
  obtain ⟨hcallsExt, hcalls⟩ := hproper.takeArguments index (draft.facts.callsOf sub)
  refine ⟨(hext.trans hcallsExt).trans (Tree.Extends.of_exprs_eq rfl), ?_⟩
  exact hcalls.edit (Tree.Extends.of_exprs_eq rfl) (hcalls.tree.of_exprs_eq rfl) (List.Sublist.refl _)

theorem edits_answers (slot : NodeId) (returns : List NodeId) (tree : Tree) :
    tree.Edits (returns.foldl (answer slot) tree) := by
  induction returns generalizing tree with
  | nil => exact Tree.Edits.refl tree
  | cons ret returns ih => exact (Tree.Edits.modify tree ret _).trans (ih _)

theorem edits_takeArguments (index : Nat) (calls : List NodeId) (draft : Draft) :
    draft.tree.Edits (calls.foldl (takeArgument index) draft).tree := by
  induction calls generalizing draft with
  | nil => exact Tree.Edits.refl _
  | cons call calls ih =>
    refine Tree.Edits.trans ?_ (ih _)
    unfold takeArgument
    split
    · next callee arguments hnode =>
      split
      · exact Tree.Edits.modify draft.tree call fun _ => .call callee (arguments.eraseIdx index)
      · exact Tree.Edits.refl _
    · exact Tree.Edits.refl _

/-- What becomes of a subroutine that answers one of its arguments. -/
def answering (index : Nat) (formal : Formal) (s : Subroutine) : Subroutine :=
  { s with
    formals := s.formals.eraseIdx index
    result := formal.type
    name := if s.name = mainName then conditionalName else s.name }

theorem edits_makeResult (draft : Draft) (sub : SubId) (index : Nat) (formal : Formal) :
    (draft.tree.modifySub sub (answering index formal)).Edits
      (draft.makeResult sub index formal).tree := by
  let narrowed := draft.tree.modifySub sub fun s => { s with formals := s.formals.eraseIdx index }
  let marked := narrowed.modifySlot formal.slot fun s => { s with storage := .result }
  let declared := marked.modifyStatements (marked.sub sub).root (formal.slot :: ·)
  let answered := (draft.facts.returnsOf sub).foldl (answer formal.slot) declared
  let taken := (draft.facts.callsOf sub).foldl (takeArgument index) { draft with tree := answered }
  have hdeclared : narrowed.Edits declared :=
    (Tree.Edits.modify narrowed _ _).trans (Tree.Edits.modify marked _ _)
  have htaken : narrowed.Edits taken.tree :=
    (hdeclared.trans (edits_answers _ _ declared)).trans
      (edits_takeArguments index _ { draft with tree := answered })
  let named : Subroutine → Subroutine := fun s =>
    { s with
      result := formal.type
      name := if s.name = mainName then conditionalName else s.name }
  have hlast : (draft.makeResult sub index formal).tree.subroutines =
      taken.tree.subroutines.modify sub.index named := rfl
  refine ⟨htaken.size, ?_, htaken.order, htaken.diagnostics⟩
  rw [hlast, htaken.subroutines]
  exact Tree.subroutines_modifySub_modifySub draft.tree sub
    (fun s => { s with formals := s.formals.eraseIdx index }) named

/-- The argument that becomes the result has been written, so it is a slot. -/
theorem isSlot_of_resultIndex? (hcurrent : draft.Current routines) {sub : SubId} {index : Nat}
    {formal : Formal} (hindex : draft.resultIndex? sub = some index)
    (hformal : (draft.tree.sub sub).formals[index]? = some formal) :
    draft.tree.isSlot formal.slot := by
  unfold resultIndex? at hindex
  split at hindex
  · obtain ⟨hlt, hp, -⟩ := List.findIdx?_eq_some_iff_getElem.1 hindex
    rw [List.getElem?_eq_getElem hlt, Option.some.injEq] at hformal
    rw [hformal] at hp
    simp only [ne_eq, decide_eq_true_eq] at hp
    obtain ⟨w, hw⟩ := List.exists_mem_of_ne_nil _ hp.1
    rw [hcurrent] at hw
    have hwrites := Facts.writes_of_mem_writesOf_analyze hw
    simp only [Tree.writes, Bool.and_eq_true] at hwrites
    exact hwrites.1
  · cases hindex

/-- No step loses or changes the kind of a node, and all that is well-formed stays so. -/
theorem Step.proper (h : Step settings routines draft next) (hcurrent : draft.Current routines)
    (hdraft : draft.Proper) : draft.tree.Extends next.tree ∧ next.Proper := by
  cases h with
  | recover hindex hformal =>
    obtain ⟨hext, hnext⟩ := hdraft.makeResult _ _ (isSlot_of_resultIndex? hcurrent hindex hformal)
    exact ⟨hext, hnext.refresh⟩
  | rewrite hlive hrewrite =>
    obtain ⟨hext, hnext⟩ := hdraft.apply (admits_of_rewrite? hrewrite)
    exact ⟨hext, hnext.refresh⟩

theorem Change.proper (h : Change settings routines draft next) (hcurrent : draft.Current routines)
    (hdraft : draft.Proper) : next.Proper := by
  cases h with
  | queue worklist =>
    exact hdraft.edit (Tree.Extends.refl _) hdraft.tree (List.Sublist.refl _)
  | step h => exact (h.proper hcurrent hdraft).2

theorem Changes.proper (h : Changes settings routines draft next) (hcurrent : draft.Current routines)
    (hdraft : draft.Proper) : next.Current routines ∧ next.Proper :=
  h.invariant Proper hcurrent hdraft fun _ _ ha hproper hchange => hchange.proper ha hproper

theorem exprs_dropSub (draft : Draft) (name : String) :
    (draft.dropSub name).1.tree.exprs = draft.tree.exprs := by
  unfold dropSub
  split <;> rfl

theorem facts_dropSub (draft : Draft) (name : String) :
    (draft.dropSub name).1.facts = draft.facts := by
  unfold dropSub
  split <;> rfl

theorem exprs_foldGlobals (draft : Draft) :
    (draft.foldGlobals routines).1.tree.exprs = draft.tree.exprs := by
  simp only [foldGlobals]
  split
  · exact exprs_dropSub _ _
  · exact exprs_dropSub _ _

theorem destinations_foldGlobals (draft : Draft) :
    (draft.foldGlobals routines).1.facts.destinations = draft.facts.destinations := by
  simp only [foldGlobals]
  split
  · rw [refresh, Facts.destinations_analyze, facts_dropSub]
  · rw [facts_dropSub]

/-- All globals are read, and none has a literal to take. -/
def GlobalsFolded (draft : Draft) : Prop :=
  ∀ global ∈ draft.tree.globals, draft.isRead global ∧ draft.foldGlobal global = global

theorem globalsFolded_iff (draft : Draft) : draft.GlobalsFolded ↔
    ¬(draft.tree.globals.map draft.foldGlobal ≠ draft.tree.globals ∨
      ¬draft.tree.globals.all draft.isRead) := by
  rw [not_or, not_not, not_not, List.all_eq_true, GlobalsFolded]
  constructor
  · intro h
    refine ⟨?_, fun global hglobal => (h global hglobal).1⟩
    exact (List.map_congr_left fun global hglobal => (h global hglobal).2).trans (List.map_id _)
  · rintro ⟨hmap, hread⟩ global hglobal
    refine ⟨hread global hglobal, ?_⟩
    have heq : draft.tree.globals.map draft.foldGlobal = draft.tree.globals.map id := by
      rw [hmap, List.map_id]
    exact List.map_inj_left.1 heq global hglobal

theorem dropSub_eq_self {name : String} (h : draft.tree.subNamed? name = none) :
    draft.dropSub name = (draft, false) := by
  rw [dropSub, h]

theorem subNamed?_of_dropSub {name : String} (h : (draft.dropSub name).2 = false) :
    draft.tree.subNamed? name = none := by
  unfold dropSub at h
  split at h
  · cases h
  · assumption

theorem foldGlobals_eq_self (hglobals : draft.GlobalsFolded)
    (hnamed : draft.tree.subNamed? globalsName = none) :
    draft.foldGlobals routines = (draft, false) := by
  have hcond := (globalsFolded_iff draft).1 hglobals
  have hmap : draft.tree.globals.map draft.foldGlobal = draft.tree.globals :=
    not_not.1 (not_or.1 hcond).1
  have hfilter : draft.tree.globals.filter draft.isRead = draft.tree.globals :=
    List.filter_eq_self.2 fun global hglobal => (hglobals global hglobal).1
  have hsame : ({ draft with tree := { draft.tree with
      globals := (draft.tree.globals.map draft.foldGlobal).filter draft.isRead } } : Draft) =
      draft := by
    rw [hmap, hfilter]
  unfold foldGlobals
  dsimp only
  rw [hsame, dropSub_eq_self hnamed, if_neg (by simpa using hcond)]

theorem globalsFolded_of_foldGlobals (h : (draft.foldGlobals routines).2 = false) :
    draft.GlobalsFolded ∧ draft.tree.subNamed? globalsName = none := by
  simp only [foldGlobals] at h
  split at h
  · cases h
  · next hcond =>
    rw [not_or] at hcond
    have hnamed := subNamed?_of_dropSub (Bool.eq_false_iff.2 hcond.2)
    exact ⟨(globalsFolded_iff draft).2 hcond.1, hnamed⟩

theorem foldGlobals_current (h : draft.Current routines) :
    (draft.foldGlobals routines).1.Current routines := by
  by_cases hchanged : (draft.foldGlobals routines).2 = false
  · obtain ⟨hglobals, hnamed⟩ := globalsFolded_of_foldGlobals hchanged
    rw [foldGlobals_eq_self hglobals hnamed]
    exact h
  · simp only [foldGlobals] at hchanged ⊢
    split at hchanged
    · next hcond =>
      rw [if_pos hcond]
      exact current_refresh _ _
    · exact absurd rfl hchanged

theorem prepare_proper (settings : CompactSettings) (routines : Routines) {tree : Tree}
    (h : tree.WellFormed) :
    (prepare settings routines tree).Current routines ∧ (prepare settings routines tree).Proper := by
  have hstarted : (({ tree : Draft }.dropSub startName).1.refresh routines).Proper := by
    refine Proper.refresh ⟨h.of_exprs_eq (exprs_dropSub _ _), ?_, ?_⟩
    · rw [facts_dropSub]
      simp
    · rw [facts_dropSub]
      exact List.nodup_nil
  unfold prepare
  dsimp only
  split
  · refine ⟨foldGlobals_current (current_refresh _ _), hstarted.edit ?_ ?_ ?_⟩
    · exact Tree.Extends.of_exprs_eq (exprs_foldGlobals _)
    · exact hstarted.tree.of_exprs_eq (exprs_foldGlobals _)
    · simp [destinations_foldGlobals]
  · exact ⟨current_refresh _ _, hstarted⟩

theorem admits_of_mem_firings {tree : Tree} (h : tree.WellFormed) {firing : Firing}
    (hfiring : firing ∈ firings settings routines tree) :
    firing.draft.Current routines ∧ firing.draft.Proper ∧ firing.draft.facts.isLive firing.block ∧
      firing.draft.Admits firing.block firing.rewrite := by
  unfold firings at hfiring
  split at hfiring
  · obtain ⟨hcurrent, hproper⟩ := prepare_proper settings routines h
    have hfires := fires_settle _ _ hfiring
    obtain ⟨hcurrent', hproper'⟩ := hfires.changes.proper hcurrent hproper
    exact ⟨hcurrent', hproper', hfires.live, admits_of_rewrite? hfires.rewrite⟩
  · cases hfiring

end Draft

end ScriptLift
