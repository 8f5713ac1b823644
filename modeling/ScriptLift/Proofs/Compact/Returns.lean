import ScriptLift.Proofs.Compact.Normal

namespace ScriptLift

namespace Tree

/-- The same tree, less the bare returns that end some of its blocks. -/
structure Trims (old new : Tree) : Prop where
  size : new.size = old.size
  subroutines : new.subroutines = old.subroutines
  order : new.order = old.order
  globals : new.globals = old.globals
  node : ∀ id, new.node id = old.node id ∨ ∃ statements ret,
    old.node id = .block (statements ++ [ret]) ∧ old.isBareReturn ret ∧
      new.node id = .block statements

theorem isBareReturn_iff {tree : Tree} {id : NodeId} :
    tree.isBareReturn id ↔ tree.node id = .ret none := by
  simp [isBareReturn]

theorem kind_of_isBareReturn {tree : Tree} {id : NodeId} (h : tree.isBareReturn id) :
    tree.kind id = .ret := by
  rw [Tree.kind, isBareReturn_iff.1 h, Node.kind]

namespace Trims

variable {old mid new : Tree} {id n : NodeId}

theorem refl (tree : Tree) : Trims tree tree := ⟨rfl, rfl, rfl, rfl, fun _ => .inl rfl⟩

theorem kind_eq (h : Trims old new) (id : NodeId) : new.kind id = old.kind id := by
  unfold Tree.kind
  rcases h.node id with heq | ⟨statements, ret, hold, -, hnew⟩
  · rw [heq]
  · rw [hold, hnew, Node.kind, Node.kind]

theorem operands_eq (h : Trims old new) (id : NodeId) :
    (new.node id).operands = (old.node id).operands := by
  rcases h.node id with heq | ⟨statements, ret, hold, -, hnew⟩
  · rw [heq]
  · rw [hold, hnew, Node.operands, Node.operands]

theorem isSlot_eq (h : Trims old new) (id : NodeId) : new.isSlot id = old.isSlot id := by
  rw [Bool.eq_iff_iff, isSlot_iff_kind, isSlot_iff_kind, h.kind_eq]

theorem storage?_eq (h : Trims old new) (id : NodeId) : new.storage? id = old.storage? id := by
  unfold storage? slot?
  rcases h.node id with heq | ⟨statements, ret, hold, -, hnew⟩
  · rw [heq]
  · rw [hold, hnew]

theorem isBareReturn_eq (h : Trims old new) (id : NodeId) :
    new.isBareReturn id = old.isBareReturn id := by
  unfold isBareReturn
  rcases h.node id with heq | ⟨statements, ret, hold, -, hnew⟩
  · rw [heq]
  · simp [hold, hnew]

theorem sub_eq (h : Trims old new) (sub : SubId) : new.sub sub = old.sub sub := by
  rw [Tree.sub, Tree.sub, h.subroutines, h.size]

theorem statements (h : Trims old new) (id : NodeId) : new.statements id = old.statements id ∨
    ∃ ret, old.isBareReturn ret ∧ old.statements id = new.statements id ++ [ret] := by
  unfold Tree.statements
  rcases h.node id with heq | ⟨statements, ret, hold, hret, hnew⟩
  · rw [heq]
    exact .inl rfl
  · rw [hold, hnew]
    exact .inr ⟨ret, hret, rfl⟩

theorem initial (h : Trims old new) (id : NodeId) : new.statements id <+: old.statements id := by
  rcases h.statements id with heq | ⟨ret, -, heq⟩
  · exact heq ▸ List.prefix_refl _
  · exact heq ▸ List.prefix_append _ _

theorem trans (h : Trims old mid) (hold : old.WellFormed) (g : Trims mid new) : Trims old new where
  size := g.size.trans h.size
  subroutines := g.subroutines.trans h.subroutines
  order := g.order.trans h.order
  globals := g.globals.trans h.globals
  node id := by
    rcases g.node id with heq | ⟨statements, ret, hmid, hret, hnew⟩
    · rw [heq]
      exact h.node id
    · rcases h.node id with heq | ⟨others, last, hnode, -, hothers⟩
      · rw [h.isBareReturn_eq] at hret
        exact .inr ⟨statements, ret, heq ▸ hmid, hret, hnew⟩
      · rw [hothers] at hmid
        rw [h.isBareReturn_eq] at hret
        have hmem : ret ∈ (old.statements id).dropLast := by
          rw [Tree.statements, hnode, Node.block.inj hmid]
          simp
        exact absurd (kind_of_isBareReturn hret) (hold.returns hmem)

theorem wellFormed (h : Trims old new) (hold : old.WellFormed) : new.WellFormed := by
  have hext : old.Extends new := ⟨Nat.le_of_eq h.size.symm, fun id _ => h.kind_eq id⟩
  intro id
  rcases h.node id with heq | ⟨statements, ret, hnode, -, hnew⟩
  · rw [heq]
    exact hext.fits (hold id)
  · have hfits := hext.fits (hold id)
    rw [hnode] at hfits
    rw [hnew]
    refine fits_block (fun s hs => hfits.statement _ rfl s (List.mem_append_left _ hs)) fun s hs => ?_
    exact hfits.returns _ rfl s (by simpa using List.dropLast_subset _ hs)

theorem not_isBareReturn_of_trimmed (h : Trims old new) (hold : old.WellFormed) {block ret last : NodeId}
    (hret : old.statements block = new.statements block ++ [ret])
    (hlast : (new.statements block).getLast? = some last) : ¬new.isBareReturn last := by
  rw [h.isBareReturn_eq]
  intro hbare
  have hmem : last ∈ (old.statements block).dropLast := by
    rw [hret, List.dropLast_concat]
    exact List.mem_of_getLast? hlast
  exact hold.returns hmem (kind_of_isBareReturn hbare)

theorem innerOperands_eq (h : Trims old new) (id : NodeId) :
    new.innerOperands id = old.innerOperands id := by
  simp only [innerOperands, h.operands_eq, h.kind_eq]

theorem within_eq (h : Trims old new) (depth : Nat) (id : NodeId) :
    new.within depth id = old.within depth id := by
  induction depth generalizing id with
  | zero => rfl
  | succ depth ih =>
    rw [within, within, h.innerOperands_eq]
    congr 1
    exact List.flatMap_congr fun child _ => ih child

theorem within_of_isBareReturn {tree : Tree} {ret : NodeId} (h : tree.isBareReturn ret)
    (depth : Nat) : tree.within depth ret = [ret] := by
  cases depth with
  | zero => rfl
  | succ depth => simp [within, innerOperands, isBareReturn_iff.1 h, Node.operands]

theorem nodesOf (h : Trims old new) (id : NodeId) : new.nodesOf id = old.nodesOf id ∨
    ∃ ret, old.isBareReturn ret ∧ old.nodesOf id = new.nodesOf id ++ [ret] := by
  have hwithin : new.within new.size = old.within old.size := by
    rw [h.size]
    exact funext (h.within_eq old.size)
  unfold Tree.nodesOf
  rw [hwithin]
  rcases h.statements id with heq | ⟨ret, hret, heq⟩
  · exact .inl (by rw [heq])
  · refine .inr ⟨ret, hret, ?_⟩
    rw [heq, List.flatMap_append, List.flatMap_singleton, within_of_isBareReturn hret]

theorem operandBlocks_eq (h : Trims old new) (deferred : Bool) (id : NodeId) :
    new.operandBlocks deferred id = old.operandBlocks deferred id := by
  simp only [operandBlocks, h.operands_eq, h.kind_eq]

theorem nestedBlocks_eq (h : Trims old new) (deferred : Bool) (id : NodeId) :
    new.nestedBlocks deferred id = old.nestedBlocks deferred id := by
  have hblocks : new.operandBlocks deferred = old.operandBlocks deferred :=
    funext (h.operandBlocks_eq deferred)
  unfold nestedBlocks
  rw [hblocks]
  rcases h.nodesOf id with heq | ⟨ret, hret, heq⟩
  · rw [heq]
  · rw [heq, List.flatMap_append, List.flatMap_singleton]
    simp [operandBlocks, isBareReturn_iff.1 hret, Node.operands]

variable {routines : Routines}

theorem ofNode_eq (h : Trims old new) (sub : SubId) (deferred : Bool) (id : NodeId) :
    Event.ofNode new routines sub deferred id = Event.ofNode old routines sub deferred id := by
  have hwrites : Event.writesArgument new routines = Event.writesArgument old routines := by
    funext node index
    cases node <;> simp only [Event.writesArgument, h.sub_eq]
  have hslot : new.isSlot = old.isSlot := funext h.isSlot_eq
  unfold Event.ofNode Event.ofControl Event.ofSlot
  rw [h.operands_eq, hslot, hwrites]
  rcases h.node id with heq | ⟨statements, ret, hold, -, hnew⟩
  · rw [heq]
  · rw [hold, hnew]

end Trims

end Tree

namespace Event

variable {old new : Tree} {routines : Routines}

def isReturn : Event → Bool
  | .ret _ _ => true
  | _ => false

theorem isReturn_of_mem_ofNode {ret : NodeId} (h : old.isBareReturn ret) {sub : SubId}
    {deferred : Bool} {e : Event} (he : e ∈ ofNode old routines sub deferred ret) : e.isReturn := by
  rw [ofNode, Tree.isBareReturn_iff.1 h, ofControl, Tree.isBareReturn_iff.1 h] at he
  cases deferred <;> simp_all [Node.operands, isReturn]

theorem filter_nodesOf (h : old.Trims new) (sub : SubId) (deferred : Bool) (id : NodeId) :
    ((new.nodesOf id).flatMap (ofNode new routines sub deferred)).filter (!·.isReturn) =
      ((old.nodesOf id).flatMap (ofNode old routines sub deferred)).filter (!·.isReturn) := by
  have hnode : ofNode new routines sub deferred = ofNode old routines sub deferred :=
    funext (h.ofNode_eq sub deferred)
  rw [hnode]
  rcases h.nodesOf id with heq | ⟨ret, hret, heq⟩
  · rw [heq]
  · rw [heq, List.flatMap_append, List.flatMap_singleton, List.filter_append]
    have hnil : (ofNode old routines sub deferred ret).filter (!·.isReturn) = [] := by
      rw [List.filter_eq_nil_iff]
      intro e he
      simp [isReturn_of_mem_ofNode hret he]
    rw [hnil, List.append_nil]

theorem walk_trims (routines : Routines) (h : old.Trims new) (sub : SubId) (pending : List (NodeId × Bool))
    (visited : List NodeId) :
    (walk new routines sub pending visited).1.filter (!·.isReturn) =
        (walk old routines sub pending visited).1.filter (!·.isReturn) ∧
      (walk new routines sub pending visited).2 = (walk old routines sub pending visited).2 := by
  fun_induction walk old routines sub pending visited with
  | case1 visited =>
    rw [walk]
    exact ⟨rfl, rfl⟩
  | case2 visited id deferred rest hmem ih =>
    rw [walk, dif_pos hmem]
    exact ih
  | case3 visited id deferred rest hmem later ih =>
    rw [walk, dif_neg hmem, h.nestedBlocks_eq]
    refine ⟨?_, ih.2⟩
    simp only [List.filter_append, List.filter_cons, filter_nodesOf h, ih.1]
    rfl

theorem trace_trims (h : old.Trims new) :
    (trace new routines).filter (!·.isReturn) = (trace old routines).filter (!·.isReturn) := by
  have hfold : ∀ (subs : List SubId) (s t : List Event × List NodeId),
      s.1.filter (!·.isReturn) = t.1.filter (!·.isReturn) → s.2 = t.2 →
      (subs.foldl (extend new routines) s).1.filter (!·.isReturn) =
        (subs.foldl (extend old routines) t).1.filter (!·.isReturn) := by
    intro subs
    induction subs with
    | nil => exact fun _ _ hevents _ => hevents
    | cons sub subs ih =>
      intro s t hevents hvisited
      obtain ⟨hwalk, hnext⟩ := walk_trims routines h sub
        [((old.sub sub).root, false)] t.2
      refine ih _ _ ?_ ?_
      · simp only [extend, List.filter_append, hevents, hvisited, h.sub_eq, hwalk]
      · simp only [extend, hvisited, h.sub_eq, hnext]
  unfold trace
  rw [h.order]
  exact hfold _ _ _ rfl rfl

theorem filterMap_trims (h : old.Trims new) {α : Type} {f : Event → Option α}
    (hf : ∀ e : Event, e.isReturn → f e = none) :
    (trace new routines).filterMap f = (trace old routines).filterMap f := by
  have hskip : ∀ events : List Event,
      (events.filter (!·.isReturn)).filterMap f = events.filterMap f := by
    intro events
    rw [List.filterMap_filter]
    congr 1
    funext e
    cases hreturn : e.isReturn with
    | true => simp [hf e hreturn]
    | false => rfl
  rw [← hskip, trace_trims h, hskip]

end Event

namespace Tree

variable {tree old new : Tree} {sub : SubId}

def Stripped (tree : Tree) (sub : SubId) : Prop :=
  (tree.sub sub).result = .void → ∀ last,
    (tree.statements (tree.sub sub).root).getLast? = some last → ¬tree.isBareReturn last

theorem Stripped.trims (h : old.Stripped sub) (htrims : old.Trims new) (hold : old.WellFormed) :
    new.Stripped sub := by
  intro hvoid last hlast
  rcases htrims.statements (new.sub sub).root with heq | ⟨ret, -, heq⟩
  · rw [heq, htrims.sub_eq] at hlast
    rw [htrims.sub_eq] at hvoid
    rw [htrims.isBareReturn_eq]
    exact h hvoid last hlast
  · exact htrims.not_isBareReturn_of_trimmed hold heq hlast

theorem stripReturn_eq_self (h : tree.Stripped sub) (changed : Bool) :
    stripReturn (tree, changed) sub = (tree, changed) := by
  unfold stripReturn
  dsimp only
  split
  · next last hlast => rw [if_neg fun hcond => h hcond.1 last hlast hcond.2]
  · rfl

/-- One subroutine: the return goes, and no second one comes to light. -/
theorem stripReturn_spec (h : tree.WellFormed) (changed : Bool) (sub : SubId) :
    tree.Trims (stripReturn (tree, changed) sub).1 ∧
      (stripReturn (tree, changed) sub).1.Stripped sub := by
  by_cases hstripped : tree.Stripped sub
  · rw [stripReturn_eq_self hstripped]
    exact ⟨Trims.refl tree, hstripped⟩
  · simp only [Stripped, not_forall, not_not] at hstripped
    obtain ⟨hvoid, last, hlast, hret⟩ := hstripped
    have hrun : (stripReturn (tree, changed) sub).1 =
        tree.modifyStatements (tree.sub sub).root (·.dropLast) := by
      unfold stripReturn
      dsimp only
      rw [hlast]
      dsimp only
      rw [if_pos ⟨hvoid, hret⟩]
    obtain ⟨rest, hrest⟩ := List.getLast?_eq_some_iff.1 hlast
    have hat : (tree.statements (tree.sub sub).root)[rest.length]? = some last := by simp [hrest]
    obtain ⟨hblock, hlt⟩ := node_of_statement hat
    rw [hrest] at hblock
    have htrims : tree.Trims (tree.modifyStatements (tree.sub sub).root (·.dropLast)) := by
      refine ⟨size_modify .., rfl, rfl, rfl, fun id => ?_⟩
      rcases node_modify_cases tree (tree.sub sub).root id _ with heq | ⟨rfl, -, heq⟩
      · exact .inl heq
      · refine .inr ⟨rest, last, hblock, hret, heq.trans ?_⟩
        rw [hblock]
        simp
    rw [hrun]
    refine ⟨htrims, fun _ other hother => ?_⟩
    rw [htrims.sub_eq] at hother
    have hkind : tree.kind (tree.sub sub).root = .block := by rw [Tree.kind, hblock, Node.kind]
    have hlost : tree.statements (tree.sub sub).root =
        (tree.modifyStatements (tree.sub sub).root (·.dropLast)).statements (tree.sub sub).root ++
          [last] := by
      rw [statements_modifyStatements_self _ hkind hlt, hrest, List.dropLast_concat]
    exact htrims.not_isBareReturn_of_trimmed h hlost hother

theorem stripReturns_spec (h : tree.WellFormed) :
    tree.Trims tree.stripReturns.1 ∧ ∀ sub ∈ tree.order, tree.stripReturns.1.Stripped sub := by
  have hfold : ∀ (subs : List SubId) (tree : Tree) (changed : Bool), tree.WellFormed →
      tree.Trims (subs.foldl stripReturn (tree, changed)).1 ∧
        ∀ sub ∈ subs, (subs.foldl stripReturn (tree, changed)).1.Stripped sub := by
    intro subs
    induction subs with
    | nil => exact fun tree _ _ => ⟨Trims.refl tree, by simp⟩
    | cons sub subs ih =>
      intro tree changed h
      obtain ⟨htrims, hstripped⟩ := stripReturn_spec h changed sub
      have hnext := htrims.wellFormed h
      obtain ⟨hrest, hall⟩ := ih (stripReturn (tree, changed) sub).1
        (stripReturn (tree, changed) sub).2 hnext
      refine ⟨htrims.trans h hrest, fun other hother => ?_⟩
      rcases List.mem_cons.1 hother with rfl | hother
      · exact hstripped.trims hrest hnext
      · exact hall other hother
  exact hfold tree.order tree false h

theorem stripReturns_eq_self (h : ∀ sub ∈ tree.order, tree.Stripped sub) :
    tree.stripReturns = (tree, false) := by
  have hfold : ∀ subs : List SubId, (∀ sub ∈ subs, tree.Stripped sub) →
      subs.foldl stripReturn (tree, false) = (tree, false) := by
    intro subs
    induction subs with
    | nil => exact fun _ => rfl
    | cons sub subs ih =>
      intro hall
      rw [List.forall_mem_cons] at hall
      rw [List.foldl_cons, stripReturn_eq_self hall.1]
      exact ih hall.2
  exact hfold tree.order h

end Tree

namespace Tree.Trims

variable {old new : Tree} {id n : NodeId}

theorem subtreeTo_false_eq (h : Trims old new) (depth : Nat) (id : NodeId) :
    new.subtreeTo false depth id = old.subtreeTo false depth id := by
  have hbelow : ∀ id, new.below false id = old.below false id := by
    intro id
    unfold below
    rcases h.node id with heq | ⟨statements, ret, hold, -, hnew⟩
    · rw [heq]
    · rw [hold, hnew]
      simp
  induction depth generalizing id with
  | zero => rfl
  | succ depth ih =>
    rw [subtreeTo, subtreeTo, hbelow]
    congr 1
    exact List.flatMap_congr fun child _ => ih child

theorem subtree_false_eq (h : Trims old new) (id : NodeId) :
    new.subtree false id = old.subtree false id := by
  rw [subtree, subtree, h.size, h.subtreeTo_false_eq]

theorem subtreeTo_of_isBareReturn {tree : Tree} {ret : NodeId} (h : tree.isBareReturn ret)
    (descend : Bool) (depth : Nat) : tree.subtreeTo descend depth ret = [ret] := by
  cases depth with
  | zero => rfl
  | succ depth => simp [subtreeTo, below, isBareReturn_iff.1 h, Node.operands]

/-- A subtree holds the same nodes but for returns. -/
theorem mem_subtreeTo_iff (h : Trims old new) (hn : ¬old.isBareReturn n) (descend : Bool)
    (depth : Nat) (id : NodeId) :
    n ∈ new.subtreeTo descend depth id ↔ n ∈ old.subtreeTo descend depth id := by
  induction depth generalizing id with
  | zero => rfl
  | succ depth ih =>
    have hbelow : new.below descend id = old.below descend id ∨ ∃ ret, old.isBareReturn ret ∧
        old.below descend id = new.below descend id ++ [ret] := by
      unfold below
      rcases h.node id with heq | ⟨statements, ret, hold, hret, hnew⟩
      · rw [heq]
        exact .inl rfl
      · rw [hold, hnew]
        cases descend with
        | true => exact .inr ⟨ret, hret, rfl⟩
        | false => exact .inl rfl
    have hchildren : ∀ children : List NodeId,
        n ∈ children.flatMap (new.subtreeTo descend depth) ↔
          n ∈ children.flatMap (old.subtreeTo descend depth) := by
      intro children
      simp only [List.mem_flatMap, ih]
    rw [subtreeTo, subtreeTo, List.mem_cons, List.mem_cons, hchildren]
    rcases hbelow with heq | ⟨ret, hret, heq⟩
    · rw [heq]
    · have hne : n ≠ ret := fun heq => hn (heq ▸ hret)
      rw [heq, List.flatMap_append, List.flatMap_singleton, subtreeTo_of_isBareReturn hret,
        List.mem_append]
      simp [hne]

theorem mem_subtree_iff (h : Trims old new) (hn : ¬old.isBareReturn n) (descend : Bool)
    (id : NodeId) : n ∈ new.subtree descend id ↔ n ∈ old.subtree descend id := by
  rw [subtree, subtree, h.size]
  exact h.mem_subtreeTo_iff hn descend _ id

theorem statementHolding?_eq (h : Trims old new) (hn : ¬old.isBareReturn n) (block : NodeId)
    (descend : Bool) :
    new.statementHolding? block n descend = old.statementHolding? block n descend := by
  have hholds : (fun s => decide (n ∈ new.subtree descend s)) =
      fun s => decide (n ∈ old.subtree descend s) := by
    funext s
    simp only [h.mem_subtree_iff hn]
  unfold statementHolding?
  rw [hholds]
  rcases h.statements block with heq | ⟨ret, hret, heq⟩
  · rw [heq]
  · have hne : n ≠ ret := fun heq => hn (heq ▸ hret)
    rw [heq, List.findIdx?_append]
    simp [subtree, subtreeTo_of_isBareReturn hret, hne]

theorem onlyCall?_eq_none (h : Trims old new) (hold : old.WellFormed) {block : NodeId}
    (hnone : old.onlyCall? block = none) : new.onlyCall? block = none := by
  rcases h.statements block with heq | ⟨last, -, heq⟩
  · unfold onlyCall? at hnone ⊢
    simpa only [heq, h.kind_eq, h.isBareReturn_eq] using hnone
  · unfold onlyCall?
    split
    · next call ret hstatements =>
      rw [if_neg]
      rintro ⟨-, hret⟩
      rw [h.isBareReturn_eq] at hret
      have hmem : ret ∈ (old.statements block).dropLast := by
        rw [heq, hstatements]
        simp
      exact hold.returns hmem (kind_of_isBareReturn hret)
    · rfl

theorem recomposed?_eq (h : Trims old new) (id : NodeId) : new.recomposed? id = old.recomposed? id := by
  have hcomponent : new.componentOf? = old.componentOf? := by
    funext id index
    unfold componentOf?
    rcases h.node id with heq | ⟨statements, ret, hold, -, hnew⟩
    · rw [heq]
    · rw [hold, hnew]
  unfold recomposed?
  rw [hcomponent]
  rcases h.node id with heq | ⟨statements, ret, hold, -, hnew⟩
  · rw [heq]
  · rw [hold, hnew]

end Tree.Trims

namespace Draft

variable {settings : CompactSettings} {routines : Routines} {old new : Draft} {block slot : NodeId}

/-- Two drafts whose trees differ in returns only, the second with no result pending. -/
structure Trims (routines : Routines) (old new : Draft) : Prop where
  tree : old.tree.Trims new.tree
  current : old.Current routines
  current' : new.Current routines
  destinations : new.facts.destinations = []

namespace Trims

theorem readsOf_eq (h : Trims routines old new) (slot : NodeId) :
    new.facts.readsOf slot = old.facts.readsOf slot := by
  rw [h.current, h.current', Facts.readsOf_analyze, Facts.readsOf_analyze]
  exact Event.filterMap_trims h.tree fun e he => by cases e <;> simp_all [Event.isReturn, Event.readOf]

theorem writesOf_eq (h : Trims routines old new) (slot : NodeId) :
    new.facts.writesOf slot = old.facts.writesOf slot := by
  rw [h.current, h.current', Facts.writesOf_analyze, Facts.writesOf_analyze]
  exact Event.filterMap_trims h.tree fun e he => by cases e <;> simp_all [Event.isReturn, Event.writeOf]

theorem gotosTo_eq (h : Trims routines old new) (label : NodeId) :
    new.facts.gotosTo label = old.facts.gotosTo label := by
  rw [h.current, h.current', Facts.gotosTo_analyze, Facts.gotosTo_analyze]
  exact Event.filterMap_trims h.tree fun e he => by cases e <;> simp_all [Event.isReturn, Event.gotoOf]

theorem isLive_eq (h : Trims routines old new) (block : NodeId) :
    new.facts.isLive block = old.facts.isLive block := by
  rw [h.current, h.current', Facts.isLive, Facts.isLive, Facts.live_analyze, Facts.live_analyze]
  rw [Event.filterMap_trims h.tree fun e he => by
    cases e <;> simp_all [Event.isReturn, Event.liveBlock?]]

theorem not_isBareReturn_of_read (h : Trims routines old new) {r : Read}
    (hr : r ∈ old.facts.readsOf slot) : ¬old.tree.isBareReturn r.node := by
  rw [h.current] at hr
  have hreads := Facts.reads_of_mem_readsOf_analyze hr
  intro hret
  simp [Tree.reads, Tree.isBareReturn_iff.1 hret, Node.operands] at hreads

theorem not_isBareReturn_of_write (h : Trims routines old new) {w : Write}
    (hw : w ∈ old.facts.writesOf slot) : ¬old.tree.isBareReturn w.node := by
  rw [h.current] at hw
  have hwrites := Facts.writes_of_mem_writesOf_analyze hw
  intro hret
  simp [Tree.writes, Tree.isBareReturn_iff.1 hret, Node.operands] at hwrites

theorem resultIndex?_eq (h : Trims routines old new) (sub : SubId) :
    new.resultIndex? sub = old.resultIndex? sub := by
  simp only [resultIndex?, h.tree.sub_eq, h.readsOf_eq, h.writesOf_eq]

theorem readsFollow_eq (h : Trims routines old new) (block slot : NodeId) (index : Nat) :
    new.readsFollow block slot index = old.readsFollow block slot index := by
  unfold readsFollow
  rw [h.readsOf_eq]
  rw [Bool.eq_iff_iff, List.all_eq_true, List.all_eq_true]
  refine forall₂_congr fun r hr => ?_
  rw [h.tree.statementHolding?_eq (h.not_isBareReturn_of_read hr)]

theorem initializer?_eq (h : Trims routines old new) (block slot : NodeId) (index : Nat) :
    new.initializer? block slot index = old.initializer? block slot index := by
  unfold initializer?
  rw [h.writesOf_eq]
  split
  · next assign value hwrites =>
    have hmem : ⟨assign, some value⟩ ∈ old.facts.writesOf slot := by simp [hwrites]
    have hassign := h.not_isBareReturn_of_write hmem
    have hposition : (new.tree.statements block).idxOf? assign =
        (old.tree.statements block).idxOf? assign := by
      rcases h.tree.statements block with heq | ⟨ret, hret, heq⟩
      · rw [heq]
      · have hne : ret ≠ assign := fun heq => hassign (heq ▸ hret)
        unfold List.idxOf?
        rw [heq, List.findIdx?_append]
        simp [hne]
    simp only [hposition, h.readsFollow_eq]
  · rfl

theorem declarationAt?_eq (h : Trims routines old new) (block statement : NodeId) (index : Nat) :
    new.declarationAt? block statement index = old.declarationAt? block statement index := by
  simp only [declarationAt?, h.tree.storage?_eq, h.readsOf_eq, h.writesOf_eq, h.initializer?_eq]

theorem deferredCallAt?_eq_none (h : Trims routines old new) (hold : old.tree.WellFormed)
    {id : NodeId} (hnone : old.deferredCallAt? id = none) : new.deferredCallAt? id = none := by
  unfold deferredCallAt? at hnone ⊢
  rcases h.tree.node id with heq | ⟨statements, ret, -, -, hnew⟩
  · rw [heq]
    cases hnode : old.tree.node id with
    | action routine arguments =>
      rw [hnode] at hnone
      simp only [List.findSome?_eq_none_iff, Option.map_eq_none_iff] at hnone ⊢
      exact fun x hx => h.tree.onlyCall?_eq_none hold (hnone x hx)
    | _ => rfl
  · rw [hnew]

theorem any_kind_eq (h : Trims routines old new) {p : Kind → Bool} (hp : p .ret = false)
    (ids : List NodeId) :
    (ids.flatMap (new.tree.subtree true)).any (fun id => p (new.tree.kind id)) =
      (ids.flatMap (old.tree.subtree true)).any fun id => p (old.tree.kind id) := by
  rw [Bool.eq_iff_iff, List.any_eq_true, List.any_eq_true]
  refine exists_congr fun n => ?_
  rw [h.tree.kind_eq]
  refine and_congr_left fun hn => ?_
  have hret : ¬old.tree.isBareReturn n := by
    intro hret
    rw [Tree.kind_of_isBareReturn hret, hp] at hn
    cases hn
  simp only [List.mem_flatMap, h.tree.mem_subtree_iff hret]

theorem canMove_eq (h : Trims routines old new) (value : NodeId) (between : List NodeId) :
    new.canMove value between = old.canMove value between := by
  have heffect : ∀ ids : List NodeId,
      (ids.flatMap (new.tree.subtree true)).any new.tree.hasEffect =
        (ids.flatMap (old.tree.subtree true)).any old.tree.hasEffect :=
    h.any_kind_eq (p := fun kind => kind.isCall || kind.isStep) rfl
  have hvalue := heffect [value]
  rw [List.flatMap_singleton, List.flatMap_singleton] at hvalue
  have hlabel := h.any_kind_eq (p := fun kind => decide (kind = .label)) rfl between
  have hslots : (((new.tree.subtree true value).filter new.tree.isSlot).all fun slot =>
      (new.facts.writesOf slot).all fun write =>
        !(between.flatMap (new.tree.subtree true)).contains write.node) =
      ((old.tree.subtree true value).filter old.tree.isSlot).all fun slot =>
        (old.facts.writesOf slot).all fun write =>
          !(between.flatMap (old.tree.subtree true)).contains write.node := by
    rw [Bool.eq_iff_iff, List.all_eq_true, List.all_eq_true]
    refine forall_congr' fun slot => imp_congr ?_ ?_
    · rw [List.mem_filter, List.mem_filter, h.tree.isSlot_eq]
      refine and_congr_left fun hslot => h.tree.mem_subtree_iff (fun hret => ?_) true value
      rw [Tree.isSlot_iff_kind, Tree.kind_of_isBareReturn hret] at hslot
      cases hslot
    · rw [h.writesOf_eq, List.all_eq_true, List.all_eq_true]
      refine forall₂_congr fun write hwrite => ?_
      simp only [Bool.not_eq_true', ← Bool.not_eq_true, List.contains_iff_mem, List.mem_flatMap,
        h.tree.mem_subtree_iff (h.not_isBareReturn_of_write hwrite)]
  unfold canMove mayCross
  rw [hlabel, hvalue, heffect, hslots]

theorem take_eq (h : Trims routines old new) {id : NodeId} {descend : Bool} {consumer : Nat}
    (hconsumer : new.tree.statementHolding? block id descend = some consumer) :
    (new.tree.statements block).take consumer = (old.tree.statements block).take consumer := by
  obtain ⟨hlt, -⟩ := List.findIdx?_eq_some_iff_getElem.1 hconsumer
  obtain ⟨rest, hrest⟩ := h.tree.initial block
  rw [← hrest, List.take_append_of_le_length (Nat.le_of_lt hlt)]

theorem temporary?_eq (h : Trims routines old new) (statement : NodeId) :
    new.temporary? statement = old.temporary? statement := by
  unfold temporary?
  rcases h.tree.node statement with heq | ⟨statements, ret, hold, -, hnew⟩
  · simp only [heq, h.tree.storage?_eq, h.writesOf_eq, h.readsOf_eq, h.tree.kind_eq]
  · rw [hold, hnew]

theorem inliningAt?_eq (h : Trims routines old new) (block statement : NodeId) (index : Nat) :
    new.inliningAt? block statement index = old.inliningAt? block statement index := by
  unfold inliningAt?
  rw [h.temporary?_eq]
  split
  case h_2 => rfl
  case h_1 slot value read htemporary =>
  have hmem : read ∈ old.facts.readsOf slot := by simp [(temporary?_eq_some htemporary).2.2.2.1]
  have hread := h.not_isBareReturn_of_read hmem
  cases hconsumer : new.tree.statementHolding? block read.node false with
  | none => rw [← h.tree.statementHolding?_eq hread, hconsumer]
  | some consumer =>
    rw [← h.tree.statementHolding?_eq hread, hconsumer]
    simp only [h.take_eq hconsumer, h.canMove_eq]

theorem vectorAt?_eq (h : Trims routines old new) (id : NodeId) :
    new.vectorAt? id = old.vectorAt? id := by
  simp only [vectorAt?, h.tree.operands_eq, h.tree.recomposed?_eq]

theorem findSome?_eq_none (h : Trims routines old new) {f g : NodeId → Option Rewrite}
    (hfg : ∀ statement, f statement = none → g statement = none)
    (hnone : (old.tree.statements block).findSome? f = none) :
    (new.tree.statements block).findSome? g = none := by
  rw [List.findSome?_eq_none_iff] at hnone ⊢
  exact fun s hs => hfg s (hnone s ((h.tree.initial block).subset hs))

theorem findSome?_zipIdx_eq_none (h : Trims routines old new) {f g : NodeId × Nat → Option Rewrite}
    (hfg : ∀ statement index, f (statement, index) = none → g (statement, index) = none)
    (hnone : (old.tree.statements block).zipIdx.findSome? f = none) :
    (new.tree.statements block).zipIdx.findSome? g = none := by
  rw [List.findSome?_eq_none_iff] at hnone ⊢
  rintro ⟨statement, index⟩ hmem
  rw [List.mk_mem_zipIdx_iff_getElem?] at hmem
  refine hfg statement index (hnone _ (List.mk_mem_zipIdx_iff_getElem?.2 ?_))
  obtain ⟨rest, hrest⟩ := h.tree.initial block
  rw [← hrest, List.getElem?_append_left (List.getElem?_eq_some_iff.1 hmem).1, hmem]

/-- Where no rule finds anything, none does without the returns. -/
theorem rewrite?_eq_none (h : Trims routines old new) (hold : old.tree.WellFormed)
    (hnone : old.rewrite? block settings = none) : new.rewrite? block settings = none := by
  simp only [rewrite?, Option.orElse_eq_none] at hnone ⊢
  obtain ⟨hdeclaration, hdeferred, -, hinlining, hdead, hlabel⟩ := hnone
  refine ⟨?_, ?_, ?_, ?_, ?_, ?_⟩
  · refine h.findSome?_zipIdx_eq_none (fun s i hs => ?_) hdeclaration
    simpa only [h.declarationAt?_eq] using hs
  · refine h.findSome?_eq_none (fun s hs => ?_) hdeferred
    rw [List.findSome?_eq_none_iff] at hs ⊢
    rw [h.tree.subtree_false_eq]
    exact fun n hn => h.deferredCallAt?_eq_none hold (hs n hn)
  · simp [pendingCall?, Facts.destination?, h.destinations]
  · split at hinlining
    case isFalse hoff => rw [if_neg hoff]
    case isTrue hon =>
    rw [Option.orElse_eq_none] at hinlining
    rw [if_pos hon, Option.orElse_eq_none]
    constructor
    · refine h.findSome?_zipIdx_eq_none (fun s i hs => ?_) hinlining.1
      simpa only [h.inliningAt?_eq] using hs
    · refine h.findSome?_eq_none (fun s hs => ?_) hinlining.2
      simpa only [h.tree.subtree_false_eq, funext h.vectorAt?_eq] using hs
  · refine h.findSome?_zipIdx_eq_none (fun s i hs => ?_) hdead
    rcases h.tree.node s with heq | ⟨statements, ret, -, -, hnew⟩
    · dsimp only at hs ⊢
      rw [heq]
      split
      · next slot value declares hnode =>
        rw [h.tree.storage?_eq, h.readsOf_eq, if_neg]
        intro hcond
        simp [hnode, hcond] at hs
      · rfl
    · simp only [hnew]
  · refine h.findSome?_zipIdx_eq_none (fun s i hs => ?_) hlabel
    dsimp only at hs ⊢
    rw [h.tree.kind_eq, h.gotosTo_eq]
    exact hs

theorem normal (h : Trims routines old new) (hold : old.tree.WellFormed)
    (hnormal : old.Normal settings) : new.Normal settings where
  results hrecover sub hsub := by
    rw [h.resultIndex?_eq]
    exact hnormal.results hrecover sub (h.tree.order ▸ hsub)
  blocks block hlive := by
    rw [h.isLive_eq] at hlive
    exact h.rewrite?_eq_none hold (hnormal.blocks block hlive)

end Trims

end Draft

end ScriptLift
