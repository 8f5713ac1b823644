import ScriptLift.Proofs.Compact.Rewiring

/-! No step of compaction closes a cycle.

Most links that come lead where one could go before. The value of a temporary moves to the only node
that reads it; that node lies in a later statement of the block, in no other statement of the output,
so the value does not lead to it. -/
namespace ScriptLift

namespace Rewrite

/-- Whether all links that come lead where one could go before. -/
def isShortcut : Rewrite → Bool
  | .assignCall _ _ _ | .inlineValue _ => false
  | _ => true

def collapsed? : Rewrite → Option NodeId
  | .collapseAction action _ _ => some action
  | .collapseVector node _ _ => some node
  | _ => none

end Rewrite

namespace Tree

variable {tree : Tree} {block node call vector source : NodeId}

theorem descends_of_onlyCall? (h : tree.onlyCall? block = some call) : tree.Descends block call := by
  have hcall := Draft.isCall_of_onlyCall? h
  refine descends_of_statement ?_ ?_
  · unfold onlyCall? at h
    split at h
    case h_2 => cases h
    case h_1 first ret hstatements =>
    split at h
    · cases h
      simp [hstatements]
    · cases h
  · intro hblock
    rw [hblock] at hcall
    cases hcall

theorem descends_of_componentOf? {index : Nat} (h : tree.componentOf? node index = some source) :
    tree.Descends node source := by
  unfold componentOf? at h
  split at h
  case h_2 => cases h
  case h_1 whole i hnode =>
  split at h
  · cases h
    have hoperand : (.source, source) ∈ (tree.node node).operands := by simp [hnode, Node.operands]
    exact descends_of_operand hoperand
  · cases h

theorem reaches_of_recomposed? (h : tree.recomposed? vector = some source) :
    Relation.TransGen tree.Descends vector source := by
  unfold recomposed? at h
  split at h
  case h_2 => cases h
  case h_1 x y z hnode =>
  split at h
  case h_2 => cases h
  case h_1 a b c hx hy hz =>
  split at h
  · cases h
    have hoperand : (.component 0, x) ∈ (tree.node vector).operands := by
      simp [hnode, Node.operands]
    exact .tail (.single (descends_of_operand hoperand)) (descends_of_componentOf? hx)
  · cases h

theorem reaches_of_mem_subtree {statement : NodeId} {operand : Role × NodeId}
    (hstatement : statement ∈ tree.statements block) (hnode : node ∈ tree.subtree false statement)
    (hoperand : operand ∈ (tree.node node).operands) :
    node ∈ tree.nodesOf block ∧ Relation.ReflTransGen tree.Descends block node := by
  have hmem : node ∈ tree.nodesOf block :=
    List.mem_flatMap.2 ⟨statement, hstatement, mem_within_of_mem_subtreeTo hoperand hnode⟩
  exact ⟨hmem, reaches_of_mem_nodesOf hmem hoperand⟩

end Tree

namespace Draft

variable {settings : CompactSettings} {routines : Routines} {draft next : Draft}
  {block node : NodeId} {rewrite : Rewrite}

theorem reaches_of_deferredCall? (h : draft.deferredCall? block = some rewrite)
    (hnode : rewrite.collapsed? = some node) :
    Relation.ReflTransGen draft.tree.Descends block node := by
  obtain ⟨statement, hstatement, h⟩ := List.exists_of_findSome?_eq_some h
  obtain ⟨action, haction, h⟩ := List.exists_of_findSome?_eq_some h
  unfold deferredCallAt? at h
  split at h
  · next routine arguments hargs =>
    obtain ⟨argument, index, hargument, h⟩ := exists_of_findSome?_zipIdx h
    obtain ⟨call, hcall, rfl⟩ := Option.map_eq_some_iff.1 h
    cases hnode
    exact (Tree.reaches_of_mem_subtree hstatement haction
      (mem_operands_of_argument hargs hargument)).2
  · cases h

theorem reaches_of_vector? (h : draft.vector? block = some rewrite)
    (hnode : rewrite.collapsed? = some node) :
    Relation.ReflTransGen draft.tree.Descends block node := by
  obtain ⟨statement, hstatement, h⟩ := List.exists_of_findSome?_eq_some h
  obtain ⟨found, hfound, h⟩ := List.exists_of_findSome?_eq_some h
  obtain ⟨operand, hoperand, h⟩ := List.exists_of_findSome?_eq_some h
  obtain ⟨source, hsource, rfl⟩ := Option.map_eq_some_iff.1 h
  cases hnode
  exact (Tree.reaches_of_mem_subtree hstatement hfound hoperand).2

theorem collapsed?_of_declaration? (h : draft.declaration? block = some rewrite) :
    rewrite.collapsed? = none := by
  obtain ⟨statement, index, -, hrule⟩ := exists_of_findSome?_zipIdx h
  dsimp only [declarationAt?] at hrule
  split at hrule
  · split at hrule
    · cases hrule
      rfl
    · obtain ⟨assign, -, rfl⟩ := Option.map_eq_some_iff.1 hrule
      rfl
  · obtain ⟨assign, -, rfl⟩ := Option.map_eq_some_iff.1 hrule
    rfl
  · cases hrule

theorem collapsed?_of_pendingCall? (h : draft.pendingCall? block = some rewrite) :
    rewrite.collapsed? = none := by
  obtain ⟨statement, index, -, hrule⟩ := exists_of_findSome?_zipIdx h
  dsimp only at hrule
  split at hrule
  · obtain ⟨slot, -, rfl⟩ := Option.map_eq_some_iff.1 hrule
    rfl
  · cases hrule

theorem collapsed?_of_inlining? (h : draft.inlining? block = some rewrite) :
    rewrite.collapsed? = none := by
  obtain ⟨statement, index, -, hrule⟩ := exists_of_findSome?_zipIdx h
  obtain ⟨move, -, rfl⟩ := Option.map_eq_some_iff.1 hrule
  rfl

theorem collapsed?_of_deadAssignment? (h : draft.deadAssignment? block = some rewrite) :
    rewrite.collapsed? = none := by
  obtain ⟨statement, index, -, hrule⟩ := exists_of_findSome?_zipIdx h
  dsimp only at hrule
  split at hrule
  · split at hrule
    · cases hrule
      split <;> rfl
    · cases hrule
  · cases hrule

theorem collapsed?_of_unusedLabel? (h : draft.unusedLabel? block = some rewrite) :
    rewrite.collapsed? = none := by
  obtain ⟨statement, index, -, hrule⟩ := exists_of_findSome?_zipIdx h
  dsimp only at hrule
  split at hrule
  · cases hrule
    rfl
  · cases hrule

theorem reaches_of_collapsed? (h : draft.rewrite? block settings = some rewrite)
    (hnode : rewrite.collapsed? = some node) :
    Relation.ReflTransGen draft.tree.Descends block node := by
  have hother : rewrite.collapsed? ≠ none := by simp [hnode]
  simp only [rewrite?, Option.orElse_eq_some] at h
  rcases h with h | ⟨-, h | ⟨-, h | ⟨-, h | ⟨-, h | ⟨-, h⟩⟩⟩⟩⟩
  · exact absurd (collapsed?_of_declaration? h) hother
  · exact reaches_of_deferredCall? h hnode
  · exact absurd (collapsed?_of_pendingCall? h) hother
  · split at h
    · rcases (Option.orElse_eq_some _ _ _).1 h with h | ⟨-, h⟩
      · exact absurd (collapsed?_of_inlining? h) hother
      · exact reaches_of_vector? h hnode
    · cases h
  · exact absurd (collapsed?_of_deadAssignment? h) hother
  · exact absurd (collapsed?_of_unusedLabel? h) hother

theorem Admits.shortens (h : draft.Admits block rewrite) (hshort : rewrite.isShortcut)
    {a b : NodeId} (hlink : rewrite.Link block draft.tree a b) :
    Relation.TransGen draft.tree.Descends a b := by
  cases h with
  | dropDeclaration | mergeDeclaration | dropAssignment | dropLabel => cases hlink
  | collapseAction hnode hargument hcall =>
    obtain ⟨rfl, rfl⟩ := hlink
    exact .tail (.single (Tree.descends_of_operand (mem_operands_of_argument hnode hargument)))
      (Tree.descends_of_onlyCall? hcall)
  | assignCall | inlineValue => cases hshort
  | collapseVector hoperand hsource =>
    obtain ⟨rfl, rfl⟩ := hlink
    exact .trans (.single (Tree.descends_of_operand hoperand)) (Tree.reaches_of_recomposed? hsource)
  | @keepValue index statement slot value declares hat hnode hkept =>
    obtain ⟨rfl, rfl⟩ := hlink
    have hstatement : draft.tree.kind statement ≠ .block := by simp [Tree.kind, hnode, Node.kind]
    have hoperand : (.right, b) ∈ (draft.tree.node statement).operands := by
      simp [hnode, Node.operands]
    exact .tail (.single (Tree.descends_of_statement (List.mem_of_getElem? hat) hstatement))
      (Tree.descends_of_operand hoperand)

theorem Moves.reads {statement : NodeId} {move : Inlining} (h : draft.Moves block statement move)
    (hcurrent : draft.Current routines) :
    (move.read.role, move.slot) ∈ (draft.tree.node move.read.node).operands := by
  have hread := h.read
  rw [hcurrent] at hread
  exact (Event.read_mem_of_readsOf hread).1

theorem Moves.consumes {statement : NodeId} {move : Inlining} (h : draft.Moves block statement move)
    (hcurrent : draft.Current routines) :
    ∃ consumer, (draft.tree.statements block)[move.consumer]? = some consumer ∧
      move.read.node ∈ draft.tree.within draft.tree.size consumer := by
  obtain ⟨hlt, hmem, -⟩ := List.findIdx?_eq_some_iff_getElem.1 h.holding
  refine ⟨_, List.getElem?_eq_getElem hlt, ?_⟩
  exact Tree.mem_within_of_mem_subtreeTo (h.reads hcurrent) (of_decide_eq_true hmem)

theorem kind_assignCall (draft : Draft) (block call slot : NodeId) (index : Nat) :
    (Rewrite.apply block draft (.assignCall index call slot)).tree.kind draft.tree.nextId =
      .binary .assign := by
  refine (Tree.kind_modifyStatements _).trans ?_
  rw [Tree.kind, Tree.node_alloc_nextId, Node.kind]

/-- No link makes a statement of a block. -/
theorem Admits.unnests (h : draft.Admits block rewrite) (hcurrent : draft.Current routines)
    (hext : draft.tree.Extends (rewrite.apply block draft).tree) {a b : NodeId}
    (hlink : rewrite.Link block draft.tree a b)
    (ha : (rewrite.apply block draft).tree.kind a = .block) :
    (rewrite.apply block draft).tree.kind b ≠ .block := by
  have hoperand : ∀ {role operand}, (role, operand) ∈ (draft.tree.node a).operands → False := by
    intro role operand hmem
    have hkind := (Tree.kind_ne_of_operand hmem).2
    rw [hext.kind_eq hkind] at ha
    exact hkind ha
  cases h with
  | dropDeclaration | mergeDeclaration | dropAssignment | dropLabel => cases hlink
  | collapseAction hnode hargument hcall =>
    obtain ⟨rfl, rfl⟩ := hlink
    exact (hoperand (mem_operands_of_argument hnode hargument)).elim
  | @assignCall index call slot =>
    have hnew := kind_assignCall draft block call slot index
    rcases hlink with ⟨rfl, rfl⟩ | ⟨rfl, -⟩
    · simp [hnew]
    · rw [hnew] at ha
      cases ha
  | inlineValue hat hmoves =>
    obtain ⟨rfl, rfl⟩ := hlink
    exact (hoperand (hmoves.reads hcurrent)).elim
  | collapseVector hmem hsource =>
    obtain ⟨rfl, rfl⟩ := hlink
    exact (hoperand hmem).elim
  | keepValue hat hnode hkept =>
    obtain ⟨rfl, rfl⟩ := hlink
    have hvalue := (kind_of_isKept hkept).1
    rwa [hext.kind_eq hvalue]

/-- All handles lead to nodes, all walks through the output end, and destinations are slots. -/
structure Sturdy (draft : Draft) : Prop where
  closed : draft.tree.Closed
  grounded : ∀ sub ∈ draft.tree.order, draft.tree.Grounded (draft.tree.sub sub).root
  destined : draft.Destined

namespace Sturdy

variable {extra : NodeId → NodeId → Prop}

theorem edit (h : draft.Sturdy) (hrewires : draft.tree.Rewires next.tree extra)
    (hclosed : next.tree.Closed) (hground : ∀ id, draft.tree.Grounded id → next.tree.Grounded id)
    (hdestined : next.Destined) : next.Sturdy where
  closed := hclosed
  grounded sub hsub := by
    rw [hrewires.order] at hsub
    rw [hrewires.root sub hsub]
    exact hground _ (h.grounded sub hsub)
  destined := hdestined

theorem refresh (h : draft.Sturdy) : (draft.refresh routines).Sturdy :=
  ⟨h.closed, h.grounded, h.destined.edit (Tree.Extends.refl _) (by simp [Draft.refresh])⟩

theorem live (h : draft.Sturdy) (hcurrent : draft.Current routines)
    (hlive : draft.facts.isLive block) :
    block ∈ Event.visited draft.tree routines ∧ draft.tree.Grounded block := by
  rw [hcurrent] at hlive
  have hvisited := Facts.isLive_analyze.1 hlive
  obtain ⟨sub, hsub, hreaches⟩ := Tree.exists_reaches_of_visited hvisited
  exact ⟨hvisited, Reach.acc_of_reaches (h.grounded sub hsub) hreaches⟩

/-- The value of a temporary does not lead to the node that reads it. -/
theorem not_reaches_read (h : draft.Sturdy) (hcurrent : draft.Current routines)
    (hlive : draft.facts.isLive block) {statement : NodeId} {move : Inlining}
    (hat : (draft.tree.statements block)[move.index]? = some statement)
    (hmoves : draft.Moves block statement move) :
    ¬Relation.ReflTransGen draft.tree.Descends move.value move.read.node := by
  intro hreaches
  obtain ⟨hvisited, hground⟩ := h.live hcurrent hlive
  obtain ⟨consumer, hconsumer, hread⟩ := hmoves.consumes hcurrent
  have hreads := hmoves.reads hcurrent
  have hkinds := Tree.kind_ne_of_operand hreads
  have honce := hmoves.read
  rw [hcurrent] at honce
  have hmem := List.mem_of_getElem? hat
  have hkind : draft.tree.kind statement ≠ .block := by simp [Tree.kind, hmoves.node, Node.kind]
  have hvalue : (.right, move.value) ∈ (draft.tree.node statement).operands := by
    simp [hmoves.node, Node.operands]
  have hblock : move.read.node ∈ draft.tree.nodesOf block :=
    List.mem_flatMap.2 ⟨consumer, List.mem_of_getElem? hconsumer, hread⟩
  rcases h.closed.reaches_cases hvisited hmem hkind .refl
      (.head (Tree.descends_of_operand hvalue) hreaches) with
    hslot | hinner | ⟨b, hb, hbkind, hto, heq | ⟨t, ht, -, hinner⟩⟩
  · exact hkinds.1 hslot
  -- It would lie in the declaration and in the statement of the use.
  · have hwithin := h.closed.mem_within (h.closed.statement hmem) hinner
    exact Event.statement_of_read honce hvisited hmoves.later hat hconsumer hwithin hread
  · exact hkinds.2 (heq ▸ hbkind)
  -- It would lie in a block below the declaration, which then is the block of the declaration.
  · have hother : move.read.node ∈ draft.tree.nodesOf b :=
      List.mem_flatMap.2 ⟨t, ht, h.closed.mem_within (h.closed.statement ht) hinner⟩
    obtain rfl := Event.block_of_read honce hvisited hb hblock hother
    exact Reach.not_cycle_of_acc hground
      (.head' (Tree.descends_of_statement hmem hkind) hto)

theorem grounded_inlineValue (h : draft.Sturdy) (hcurrent : draft.Current routines)
    (hlive : draft.facts.isLive block) {statement : NodeId} {move : Inlining}
    (hat : (draft.tree.statements block)[move.index]? = some statement)
    (hmoves : draft.Moves block statement move) {id : NodeId} (hid : draft.tree.Grounded id) :
    (Rewrite.apply block draft (.inlineValue move)).tree.Grounded id := by
  have hrewires := (Rewrite.inlineValue move).rewires_apply block h.closed
  have hkind : draft.tree.kind statement ≠ .block := by simp [Tree.kind, hmoves.node, Node.kind]
  have hoperand : (.right, move.value) ∈ (draft.tree.node statement).operands := by
    simp [hmoves.node, Node.operands]
  have hvalue : draft.tree.Grounded move.value := by
    refine Reach.acc_of_reaches (h.live hcurrent hlive).2 ?_
    exact .head (Tree.descends_of_statement (List.mem_of_getElem? hat) hkind)
      (.single (Tree.descends_of_operand hoperand))
  have happart := h.not_reaches_read hcurrent hlive hat hmoves
  refine hrewires.grounded_of_added h.closed (fun a b hlink => ?_) hid
  obtain ⟨rfl, rfl⟩ := hlink
  refine hrewires.grounded_of_apart h.closed (fun a b hlink => ?_) hvalue
  exact hlink.1 ▸ happart

theorem grounded_assignCall (h : draft.Sturdy) (hcurrent : draft.Current routines)
    (hlive : draft.facts.isLive block) {call slot : NodeId} {index : Nat}
    (hat : (draft.tree.statements block)[index]? = some call) (hkind : draft.tree.kind call = .call)
    (hslot : draft.tree.isSlot slot) {id : NodeId} (hid : draft.tree.Grounded id) :
    (Rewrite.apply block draft (.assignCall index call slot)).tree.Grounded id := by
  have hrewires := (Rewrite.assignCall index call slot).rewires_apply block h.closed
  have hground := (h.live hcurrent hlive).2
  have hstatement : draft.tree.Descends block call :=
    Tree.descends_of_statement (List.mem_of_getElem? hat) (by simp [hkind])
  have hin : ∀ {n}, Relation.ReflTransGen draft.tree.Descends call n → n.index < draft.tree.size := by
    intro n hn
    rcases Relation.ReflTransGen.cases_tail hn with rfl | ⟨m, -, hm⟩
    · exact Tree.lt_size_of_kind_ne (by simp [hkind])
    · exact h.closed.descent hm
  have hcall : (Rewrite.apply block draft (.assignCall index call slot)).tree.Grounded call := by
    refine hrewires.grounded_of_apart h.closed (fun a b hlink hreaches => ?_)
      (Reach.acc_of_reaches hground (.single hstatement))
    rcases hlink with ⟨rfl, -⟩ | ⟨rfl, -⟩
    · exact Reach.not_cycle_of_acc hground (.head' hstatement hreaches)
    · exact Nat.lt_irrefl _ (hin hreaches)
  have hdest : (Rewrite.apply block draft (.assignCall index call slot)).tree.Grounded slot :=
    Tree.grounded_of_slot (Tree.isSlot_iff_kind.1 (hrewires.kinds.isSlot hslot))
  have hassign : (Rewrite.apply block draft (.assignCall index call slot)).tree.Grounded
      draft.tree.nextId := by
    refine Acc.intro _ fun n hn => ?_
    rcases hrewires.descends h.closed hn with hold | ⟨heq, -⟩ | ⟨-, rfl | rfl⟩
    · exact absurd (Tree.lt_size_of_below hold.holds) (Nat.lt_irrefl _)
    · have hblock := Tree.lt_size_of_below hstatement.holds
      rw [← heq] at hblock
      exact absurd hblock (Nat.lt_irrefl _)
    · exact hdest
    · exact hcall
  refine hrewires.grounded_of_added h.closed (fun a b hlink => ?_) hid
  rcases hlink with ⟨-, rfl⟩ | ⟨-, rfl | rfl⟩
  · exact hassign
  · exact hdest
  · exact hcall

/-- A rewrite links to nodes of the tree. -/
theorem link_lt (h : draft.Sturdy) (hadmits : draft.Admits block rewrite) {a b : NodeId}
    (hlink : rewrite.Link block draft.tree a b) : b.index < (rewrite.apply block draft).tree.size := by
  have hext := (rewrite.rewires_apply block h.closed).kinds
  have hin : ∀ {n}, b.index < draft.tree.size → n = b →
      n.index < (rewrite.apply block draft).tree.size :=
    fun hlt heq => heq ▸ Nat.lt_of_lt_of_le hlt hext.size
  by_cases hshort : rewrite.isShortcut
  · obtain ⟨m, -, hm⟩ := Relation.TransGen.tail'_iff.1 (hadmits.shortens hshort hlink)
    exact hin (h.closed.descent hm) rfl
  · cases hadmits with
    | @assignCall index call slot hat hkind hslot =>
      rcases hlink with ⟨-, rfl⟩ | ⟨-, rfl | rfl⟩
      · simp [Rewrite.apply]
      · exact hin (Tree.lt_size_of_isSlot (h.destined.destination hslot)) rfl
      · exact hin (Tree.lt_size_of_kind_ne (by simp [hkind])) rfl
    | @inlineValue statement move hat hmoves =>
      obtain ⟨-, rfl⟩ := hlink
      have hoperand : (.right, move.value) ∈ (draft.tree.node statement).operands := by
        simp [hmoves.node, Node.operands]
      exact hin (h.closed.descent (Tree.descends_of_operand hoperand)) rfl
    | _ => exact absurd rfl hshort

theorem apply (h : draft.Sturdy) (hcurrent : draft.Current routines)
    (hlive : draft.facts.isLive block) (hadmits : draft.Admits block rewrite) :
    (rewrite.apply block draft).Sturdy := by
  have hrewires := rewrite.rewires_apply block h.closed
  have hclosed := hrewires.closed h.closed fun _ _ hlink => h.link_lt hadmits hlink
  have hsub : (rewrite.apply block draft).facts.destinations.Sublist draft.facts.destinations := by
    cases rewrite <;> simp [Rewrite.apply, Facts.dropDestination]
  refine h.edit hrewires hclosed (fun id hid => ?_) (h.destined.edit hrewires.kinds hsub)
  by_cases hshort : rewrite.isShortcut
  · exact hrewires.grounded_of_shorter h.closed (fun _ _ => hadmits.shortens hshort) hid
  · cases hadmits with
    | assignCall hat hkind hslot =>
      exact h.grounded_assignCall hcurrent hlive hat hkind (h.destined.destination hslot) hid
    | inlineValue hat hmoves => exact h.grounded_inlineValue hcurrent hlive hat hmoves hid
    | _ => exact absurd rfl hshort

theorem makeResult (h : draft.Sturdy) (sub : SubId) (index : Nat) {formal : Formal}
    (hslot : draft.tree.isSlot formal.slot) : (draft.makeResult sub index formal).Sturdy := by
  have hrecovery := recovery_makeResult draft sub index formal
  have hrewires := hrecovery.rewires
  have hkept := hrewires.kinds.isSlot hslot
  refine h.edit hrewires (hrewires.closed h.closed fun _ _ heq => ?_) (fun id hid => ?_) ?_
  · exact heq ▸ Tree.lt_size_of_isSlot hkept
  · refine hrewires.grounded_of_added h.closed (fun _ _ heq => ?_) hid
    exact heq ▸ Tree.grounded_of_slot (Tree.isSlot_iff_kind.1 hkept)
  · exact hrecovery.destined h.destined

end Sturdy

theorem Step.sturdy (h : Step settings routines draft next) (hcurrent : draft.Current routines)
    (hdraft : draft.Sturdy) : next.Sturdy := by
  cases h with
  | recover hindex hformal =>
    exact (hdraft.makeResult _ _ (isSlot_of_resultIndex? hcurrent hindex hformal)).refresh
  | rewrite hlive hrewrite =>
    exact (hdraft.apply hcurrent hlive (admits_of_rewrite? hrewrite)).refresh

theorem Step.unnested (h : Step settings routines draft next) (hcurrent : draft.Current routines)
    (hdraft : draft.Sturdy) (hnested : draft.tree.Unnested) : next.tree.Unnested := by
  cases h with
  | @recover sub index formal hindex hformal =>
    have hrewires := (recovery_makeResult draft sub index formal).rewires
    have hslot := hrewires.kinds.isSlot (isSlot_of_resultIndex? hcurrent hindex hformal)
    refine hrewires.unnested hdraft.closed hnested fun _ _ heq _ => ?_
    rw [heq, Tree.isSlot_iff_kind.1 hslot]
    simp
  | @rewrite block rewrite hlive hrewrite =>
    have hrewires := rewrite.rewires_apply block hdraft.closed
    exact hrewires.unnested hdraft.closed hnested fun _ _ =>
      (admits_of_rewrite? hrewrite).unnests hcurrent hrewires.kinds

theorem Change.sturdy (h : Change settings routines draft next) (hcurrent : draft.Current routines)
    (hdraft : draft.Sturdy) : next.Sturdy := by
  cases h with
  | queue => exact ⟨hdraft.closed, hdraft.grounded, hdraft.destined.slots, hdraft.destined.keys⟩
  | step h => exact h.sturdy hcurrent hdraft

theorem Changes.sturdy (h : Changes settings routines draft next) (hcurrent : draft.Current routines)
    (hdraft : draft.Sturdy) : next.Current routines ∧ next.Sturdy :=
  h.invariant Sturdy hcurrent hdraft fun _ _ ha hinv hchange => hchange.sturdy ha hinv

end Draft

end ScriptLift
