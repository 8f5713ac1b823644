import ScriptLift.Proofs.Compact.Grounding
import ScriptLift.Proofs.Dataflow.Survey

/-! What it does to each node that a subroutine answers one of its arguments.

No node changes its kind. What a call loses is no longer walked, what a return answers and what comes
to the declarations is a slot. So behind the turn the walk comes to nothing that it did not come to
before, and to no call more often. -/
namespace ScriptLift

def Node.without (index : Nat) : Node → Node
  | .call callee arguments => .call callee (arguments.eraseIdx index)
  | node => node

def Node.answering (slot : NodeId) : Node → Node
  | .ret _ => .ret (some slot)
  | node => node

def Node.onSlot (f : Slot → Slot) : Node → Node
  | .slot s => .slot (f s)
  | node => node

def Node.onStatements (f : List NodeId → List NodeId) : Node → Node
  | .block statements => .block (f statements)
  | node => node

theorem Node.kind_without (index : Nat) (node : Node) : (node.without index).kind = node.kind := by
  cases node <;> rfl

namespace Tree

variable {tree old new : Tree} {routines : Routines} {id n : NodeId} {f : Node → Node}

/-- The nodes that the walk comes to, in order, and as often as it does. -/
def walked (tree : Tree) (routines : Routines) : List NodeId :=
  (Event.visited tree routines).reverse.flatMap tree.nodesOf

def actual? (tree : Tree) (index : Nat) (call : NodeId) : Option NodeId :=
  match tree.node call with
  | .call _ arguments => arguments[index]?
  | _ => none

theorem node_modify (h : id.index < tree.size ∨ f (.block []) = .block []) (n : NodeId) :
    (tree.modify id f).node n = if n = id then f (tree.node n) else tree.node n := by
  split
  case isFalse hne => exact node_modify_of_ne hne
  case isTrue heq =>
    subst heq
    by_cases hlt : n.index < tree.size
    · exact node_modify_self hlt
    · have hnone := node_of_size_le (Nat.le_of_not_lt hlt)
      have hsame : (tree.modify n f).node n = .block [] :=
        node_of_size_le (by rw [size_modify]; exact Nat.le_of_not_lt hlt)
      rw [hsame, hnone, h.resolve_left hlt]

theorem node_modifySlot (f : Slot → Slot) (n : NodeId) :
    (tree.modifySlot id f).node n = if n = id then (tree.node n).onSlot f else tree.node n :=
  node_modify (f := Node.onSlot f) (.inr rfl) n

theorem node_modifyStatements (h : id.index < tree.size) (f : List NodeId → List NodeId)
    (n : NodeId) : (tree.modifyStatements id f).node n =
      if n = id then (tree.node n).onStatements f else tree.node n :=
  node_modify (f := Node.onStatements f) (.inl h) n

theorem node_of_kind_block (h : tree.kind n = .block) :
    tree.node n = .block (tree.statements n) := by
  unfold Tree.kind at h
  rw [Tree.statements]
  cases hnode : tree.node n with
  | block statements => rfl
  | _ =>
    rw [hnode] at h
    cases h

theorem node_of_kind_call (h : tree.kind n = .call) :
    ∃ callee arguments, tree.node n = .call callee arguments := by
  unfold Tree.kind at h
  cases hnode : tree.node n with
  | call callee arguments => exact ⟨callee, arguments, rfl⟩
  | _ =>
    rw [hnode] at h
    cases h

theorem Walkable.mem_walked (h : tree.Walkable) (hn : tree.InOutput n) (hslot : tree.kind n ≠ .slot)
    (hblock : tree.kind n ≠ .block) : n ∈ tree.walked routines := by
  obtain ⟨b, hb, hmem⟩ := (h.met routines hn).mem_nodesOf hslot hblock
  exact List.mem_flatMap.2 ⟨b, List.mem_reverse.2 hb, hmem⟩

theorem isSlot_eq_of_kind (h : new.kind n = old.kind n) : new.isSlot n = old.isSlot n := by
  rw [Bool.eq_iff_iff, isSlot_iff_kind, isSlot_iff_kind, h]

end Tree

namespace Facts

variable {facts : Facts} {tree : Tree} {routines : Routines} {n : NodeId}

theorem filterMap_trace {pick : Event → Option NodeId} {p : NodeId → Bool}
    (hblock : ∀ sub b, pick (.block sub b) = none)
    (hnode : ∀ sub deferred id, (Event.ofNode tree routines sub deferred id).filterMap pick =
      if p id then [id] else []) :
    (Event.trace tree routines).filterMap pick = (tree.walked routines).filter p := by
  obtain ⟨stops, htrace, hvisited, -⟩ := Event.trace_eq tree routines
  rw [htrace, Tree.walked, hvisited, List.reverse_reverse, List.flatMap_map, List.filter_flatMap,
    List.filterMap_flatMap]
  refine List.flatMap_congr fun stop _ => ?_
  rw [Event.ofStop, List.filterMap_cons_none (hblock _ _), List.filterMap_flatMap]
  refine (List.flatMap_congr fun n _ => hnode _ _ n).trans ?_
  exact (filter_map_eq p id (tree.nodesOf stop.block)).symm.trans (by rw [List.map_id])

theorem callsOf_analyze_eq (sub : SubId) : (facts.analyze tree routines).callsOf sub =
    (tree.walked routines).filter (tree.isCallOf sub) := by
  rw [callsOf_analyze]
  exact filterMap_trace (fun _ _ => rfl) fun _ _ _ => Event.filterMap_callOf_ofNode sub

theorem isReturn_of_mem_returnsOf {sub : SubId}
    (h : n ∈ (facts.analyze tree routines).returnsOf sub) : tree.isReturn n := by
  rw [returnsOf_analyze, List.mem_filterMap] at h
  obtain ⟨e, he, hof⟩ := h
  obtain ⟨id, -, owner, deferred, rfl | ⟨m, -, hm⟩⟩ :=
    (Event.covers_trace tree routines).1.origin e he
  · cases hof
  · have hmem : n ∈ (Event.ofNode tree routines owner deferred m).filterMap (Event.returnOf sub) :=
      List.mem_filterMap.2 ⟨e, hm, hof⟩
    rw [Event.filterMap_returnOf_ofNode] at hmem
    split at hmem
    · split at hmem
      · next hret => exact List.mem_singleton.1 hmem ▸ hret
      · cases hmem
    · cases hmem

theorem lookup_filter_ne {l : List (NodeId × NodeId)} {call other : NodeId} (h : other ≠ call) :
    (l.filter (·.1 ≠ call)).lookup other = l.lookup other := by
  induction l with
  | nil => rfl
  | cons entry l ih =>
    obtain ⟨key, value⟩ := entry
    by_cases hkey : key = call
    · subst hkey
      have hne : (other == key) = false := by simpa using h
      simp only [ne_eq, not_true_eq_false, decide_false, Bool.false_eq_true, not_false_eq_true,
        List.filter_cons_of_neg, List.lookup_cons, hne]
      exact ih
    · rw [List.filter_cons_of_pos (by simpa using hkey), List.lookup_cons, List.lookup_cons, ih]

theorem destination?_setDestination (facts : Facts) (call slot other : NodeId) :
    (facts.setDestination call slot).destination? other =
      if other = call then some slot else facts.destination? other := by
  rw [destination?, setDestination, List.lookup_cons]
  by_cases h : other = call
  · simp [h]
  · have hne : (other == call) = false := by simpa using h
    simp only [hne, if_neg h]
    exact lookup_filter_ne h

end Facts

namespace Draft

variable {routines : Routines} {draft : Draft} {sub : SubId} {index : Nat} {formal : Formal}
  {n : NodeId}

theorem node_answer (slot ret : NodeId) (tree : Tree) (n : NodeId) :
    (answer slot tree ret).node n = if n = ret then (tree.node n).answering slot else tree.node n :=
  Tree.node_modify (f := Node.answering slot) (.inr rfl) n

theorem node_answers (slot : NodeId) (returns : List NodeId) (tree : Tree) (n : NodeId) :
    (returns.foldl (answer slot) tree).node n =
      if n ∈ returns then (tree.node n).answering slot else tree.node n := by
  induction returns generalizing tree with
  | nil => simp
  | cons ret returns ih =>
    have htwice : ∀ node : Node, (node.answering slot).answering slot = node.answering slot := by
      intro node
      cases node <;> rfl
    rw [List.foldl_cons, ih, node_answer]
    by_cases hret : n = ret <;> by_cases hmem : n ∈ returns <;> simp [hret, hmem, htwice]

theorem node_takeArgument (index : Nat) (draft : Draft) (call n : NodeId) :
    (takeArgument index draft call).tree.node n =
      if n = call then (draft.tree.node n).without index else draft.tree.node n := by
  unfold takeArgument
  split
  case h_1 callee arguments hnode =>
    have hlt : call.index < draft.tree.size :=
      Tree.lt_size_of_kind_ne (by simp [Tree.kind, hnode, Node.kind])
    split
    case h_1 removed hremoved =>
      rw [Tree.node_modify (.inl hlt)]
      split
      · next heq => rw [heq, hnode, Node.without]
      · rfl
    case h_2 hnone =>
      split
      · next heq =>
        rw [heq, hnode, Node.without, List.eraseIdx_of_length_le (List.getElem?_eq_none_iff.1 hnone)]
      · rfl
  case h_2 hother =>
    split
    · next heq =>
      subst heq
      cases hnode : draft.tree.node n with
      | call callee arguments => exact absurd hnode (hother callee arguments)
      | _ => rfl
    · rfl

theorem node_takeArguments (index : Nat) {calls : List NodeId} (h : calls.Nodup) (draft : Draft)
    (n : NodeId) : (calls.foldl (takeArgument index) draft).tree.node n =
      if n ∈ calls then (draft.tree.node n).without index else draft.tree.node n := by
  induction calls generalizing draft with
  | nil => simp
  | cons call calls ih =>
    rw [List.nodup_cons] at h
    rw [List.foldl_cons, ih h.2, node_takeArgument]
    by_cases hcall : n = call
    · subst hcall
      simp [h.1]
    · simp [hcall]

def taken? (draft : Draft) (index : Nat) (call : NodeId) : Option NodeId :=
  (draft.tree.actual? index call).filter draft.tree.isSlot

theorem destination?_takeArgument (index : Nat) (draft : Draft) (call n : NodeId) :
    (takeArgument index draft call).facts.destination? n =
      if n = call then (draft.taken? index n).or (draft.facts.destination? n)
      else draft.facts.destination? n := by
  by_cases hn : n = call
  · subst hn
    rw [if_pos rfl, taken?, Tree.actual?, takeArgument]
    cases hnode : draft.tree.node n with
    | call callee arguments =>
      dsimp only
      cases hremoved : arguments[index]? with
      | none => rfl
      | some removed =>
        dsimp only
        by_cases hslot : draft.tree.isSlot removed
        · simp [hslot, Facts.destination?_setDestination, Option.filter]
        · simp [hslot, Option.filter]
    | _ => rfl
  · rw [if_neg hn]
    unfold takeArgument
    split
    · split
      · split
        · rw [Facts.destination?_setDestination, if_neg hn]
        · rfl
      · rfl
    · rfl

theorem destination?_takeArguments (index : Nat) {calls : List NodeId} (h : calls.Nodup)
    (draft : Draft) (n : NodeId) :
    (calls.foldl (takeArgument index) draft).facts.destination? n =
      if n ∈ calls then (draft.taken? index n).or (draft.facts.destination? n)
      else draft.facts.destination? n := by
  induction calls generalizing draft with
  | nil => simp
  | cons call calls ih =>
    rw [List.nodup_cons] at h
    rw [List.foldl_cons, ih h.2, destination?_takeArgument]
    by_cases hcall : n = call
    · subst hcall
      simp [h.1]
    · have htaken : (takeArgument index draft call).taken? index n = draft.taken? index n := by
        have hslots : (takeArgument index draft call).tree.isSlot = draft.tree.isSlot := by
          funext m
          refine Tree.isSlot_eq_of_kind ?_
          rw [Tree.kind, node_takeArgument, Tree.kind]
          split
          · exact Node.kind_without _ _
          · rfl
        rw [taken?, taken?, hslots, Tree.actual?, Tree.actual?, node_takeArgument, if_neg hcall]
      simp [hcall, htaken]

/-- A node behind the turn of a subroutine. -/
def recoveredNode (draft : Draft) (sub : SubId) (index : Nat) (formal : Formal) (n : NodeId) : Node :=
  match draft.tree.node n with
  | .slot slot => .slot (if n = formal.slot then { slot with storage := .result } else slot)
  | .block statements =>
    .block (if n = (draft.tree.sub sub).root then formal.slot :: statements else statements)
  | .ret value => .ret (if n ∈ draft.facts.returnsOf sub then some formal.slot else value)
  | .call callee arguments =>
    .call callee (if n ∈ draft.facts.callsOf sub then arguments.eraseIdx index else arguments)
  | node => node

/-- The tree in a turn when only the calls are left. -/
def answered (draft : Draft) (sub : SubId) (index : Nat) (formal : Formal) : Tree :=
  let tree := draft.tree.modifySub sub fun s => { s with formals := s.formals.eraseIdx index }
  let tree := tree.modifySlot formal.slot fun s => { s with storage := .result }
  let tree := tree.modifyStatements (tree.sub sub).root (formal.slot :: ·)
  (draft.facts.returnsOf sub).foldl (answer formal.slot) tree

theorem node_answered (hroot : (draft.tree.sub sub).root.index < draft.tree.size) (n : NodeId) :
    (draft.answered sub index formal).node n =
      match draft.tree.node n with
      | .call callee arguments => .call callee arguments
      | _ => draft.recoveredNode sub index formal n := by
  let narrowed := draft.tree.modifySub sub fun s => { s with formals := s.formals.eraseIdx index }
  let marked := narrowed.modifySlot formal.slot fun s => { s with storage := .result }
  have hnarrowed : narrowed.node n = draft.tree.node n := congrFun (Tree.node_of_exprs_eq rfl) n
  have hsub : (marked.sub sub).root = (draft.tree.sub sub).root := by
    have hmodified : marked.sub sub = narrowed.sub sub := by
      simp [Tree.sub, marked, Tree.modifySlot, Tree.modify, Tree.size]
    rw [hmodified]
    exact root_modifySub draft.tree sub sub fun _ => rfl
  have hsize : marked.size = draft.tree.size := Tree.size_modifySlot _
  have hlt : (marked.sub sub).root.index < marked.size := by
    rw [hsub, hsize]
    exact hroot
  rw [answered, node_answers, Tree.node_modifyStatements hlt, Tree.node_modifySlot, hnarrowed, hsub,
    recoveredNode]
  cases draft.tree.node n <;> simp only [Node.onSlot, Node.onStatements, Node.answering] <;>
    split_ifs <;> rfl

theorem node_makeResult (hcalls : (draft.facts.callsOf sub).Nodup)
    (hroot : (draft.tree.sub sub).root.index < draft.tree.size) (n : NodeId) :
    (draft.makeResult sub index formal).tree.node n = draft.recoveredNode sub index formal n := by
  have hlast : (draft.makeResult sub index formal).tree.node n =
      ((draft.facts.callsOf sub).foldl (takeArgument index)
        { draft with tree := draft.answered sub index formal }).tree.node n :=
    congrFun (Tree.node_of_exprs_eq rfl) n
  rw [hlast, node_takeArguments index hcalls, node_answered hroot, recoveredNode]
  cases draft.tree.node n <;> simp only [Node.without] <;> split_ifs <;> rfl

theorem kind_recoveredNode (draft : Draft) (sub : SubId) (index : Nat) (formal : Formal)
    (n : NodeId) : (draft.recoveredNode sub index formal n).kind = draft.tree.kind n := by
  unfold recoveredNode Tree.kind
  cases draft.tree.node n <;> rfl

/-- A call that passed a slot has it as its destination. -/
theorem destination?_makeResult (hcalls : (draft.facts.callsOf sub).Nodup)
    (hroot : (draft.tree.sub sub).root.index < draft.tree.size) (n : NodeId) :
    (draft.makeResult sub index formal).facts.destination? n =
      if n ∈ draft.facts.callsOf sub then (draft.taken? index n).or (draft.facts.destination? n)
      else draft.facts.destination? n := by
  have hslots : (draft.answered sub index formal).isSlot = draft.tree.isSlot := by
    funext m
    refine Tree.isSlot_eq_of_kind ?_
    rw [Tree.kind, node_answered hroot, ← kind_recoveredNode draft sub index formal m]
    split
    · next hnode => rw [recoveredNode, hnode, Node.kind, Node.kind]
    · rfl
  have hactual : (draft.answered sub index formal).actual? index n = draft.tree.actual? index n := by
    rw [Tree.actual?, Tree.actual?, node_answered hroot, recoveredNode]
    cases draft.tree.node n <;> rfl
  have htaken : taken? { draft with tree := draft.answered sub index formal } index n =
      draft.taken? index n := by
    rw [taken?, taken?, hslots, hactual]
  have hlast : (draft.makeResult sub index formal).facts =
    ((draft.facts.callsOf sub).foldl (takeArgument index)
      { draft with tree := draft.answered sub index formal }).facts := rfl
  rw [hlast, destination?_takeArguments index hcalls, htaken]

end Draft

section Sublists

variable {α β : Type} {xs ys : List α}

theorem flatMap_sublist_flatMap {f g : α → List β} (h : xs.Sublist ys)
    (hfg : ∀ x, (f x).Sublist (g x)) : (xs.flatMap f).Sublist (ys.flatMap g) := by
  refine List.Sublist.trans ?_ (h.flatMap g)
  induction xs with
  | nil => exact List.Sublist.refl _
  | cons x xs ih =>
    rw [List.flatMap_cons, List.flatMap_cons]
    exact (hfg x).append (ih ((List.sublist_cons_self x xs).trans h))

theorem total_le_of_sublist (f : α → Nat) (h : xs.Sublist ys) : total f xs ≤ total f ys := by
  induction h with
  | slnil => exact Nat.le_refl _
  | cons y _ ih => exact Nat.le_trans ih (Nat.le_add_left _ _)
  | cons_cons y _ ih => exact Nat.add_le_add_left ih _

theorem total_le_of_subset (f : α → Nat) (hxs : xs.Nodup) (h : xs ⊆ ys) :
    total f xs ≤ total f ys := by
  obtain ⟨l, hperm, hsub⟩ := List.subperm_of_subset hxs h
  rw [← total_perm hperm]
  exact total_le_of_sublist f hsub

theorem count_flatMap_eq_total [DecidableEq β] (f : α → List β) (b : β) (xs : List α) :
    (xs.flatMap f).count b = total (fun x => (f x).count b) xs := by
  rw [← total_indicator, total_flatMap]
  exact total_congr fun x _ => total_indicator b (f x)

end Sublists

namespace Tree

/-- Nodes lose operands, and what comes is a slot that stands as an operand or a statement. -/
structure Prunes (old new : Tree) (slot : NodeId) : Prop where
  size : new.size = old.size
  kind : ∀ n, new.kind n = old.kind n
  order : new.order = old.order
  root : ∀ sub ∈ old.order, (new.sub sub).root = (old.sub sub).root
  isSlot : old.kind slot = .slot
  inner : ∀ n, (new.innerOperands n).Sublist (old.innerOperands n)
  operands : ∀ n c, new.HasOperand n c → c = slot ∨ old.HasOperand n c
  statements : ∀ block, (new.statements block).Sublist (slot :: old.statements block)

theorem innerOperands_of_slot {tree : Tree} {id : NodeId} (h : tree.kind id = .slot) :
    tree.innerOperands id = [] := by
  unfold Tree.kind at h
  unfold innerOperands
  cases hnode : tree.node id <;> simp_all [Node.kind, Node.operands]

theorem within_of_slot {tree : Tree} {id : NodeId} (h : tree.kind id = .slot) (depth : Nat) :
    tree.within depth id = [id] := by
  cases depth with
  | zero => rfl
  | succ depth => simp [within, innerOperands_of_slot h]

namespace Prunes

variable {old new : Tree} {slot n block : NodeId} {routines : Routines} (h : old.Prunes new slot)
include h

theorem ne_of_kind (hkind : old.kind n ≠ .slot) : n ≠ slot := by
  rintro rfl
  exact hkind h.isSlot

theorem within (depth : Nat) (id : NodeId) :
    (new.within depth id).Sublist (old.within depth id) := by
  induction depth generalizing id with
  | zero => exact List.Sublist.refl _
  | succ depth ih =>
    rw [Tree.within, Tree.within]
    exact (flatMap_sublist_flatMap (h.inner id) ih).cons_cons id

theorem nodesOf (block : NodeId) : (new.nodesOf block).Sublist (slot :: old.nodesOf block) := by
  have hflat := flatMap_sublist_flatMap (h.statements block) (h.within new.size)
  rw [List.flatMap_cons, within_of_slot h.isSlot] at hflat
  rw [Tree.nodesOf, Tree.nodesOf, ← h.size]
  exact hflat

/-- No block is visited that was not before. -/
theorem visited : Event.visited new routines ⊆ Event.visited old routines := by
  obtain ⟨hcovers, hroots⟩ := Event.covers_trace old routines
  refine Event.visited_induction (P := (· ∈ Event.visited old routines)) (fun sub hsub => ?_) ?_
  · rw [h.order] at hsub
    rw [h.root sub hsub]
    exact hroots sub hsub
  · intro b hb p hp
    obtain ⟨n, hn, hp⟩ := List.mem_flatMap.1 hp
    obtain ⟨operand, hoperand, rfl⟩ := List.mem_map.1 hp
    obtain ⟨hmem, hkind⟩ := List.mem_filter.1 hoperand
    have hkind : old.kind operand.2 = .block := by
      rw [← h.kind]
      simpa using hkind
    rcases h.operands n operand.2 (List.mem_map_of_mem hmem) with heq | hold
    · rw [heq, h.isSlot] at hkind
      cases hkind
    · obtain ⟨was, hwas, heq⟩ := List.mem_map.1 hold
      have hnode : n ∈ old.nodesOf b := by
        rcases List.mem_cons.1 ((h.nodesOf b).subset hn) with rfl | hn
        · exact absurd h.isSlot (@kind_ne_of_operand _ _ was.2 was.1 hwas).1
        · exact hn
      have hnested : (was.2, was.1.isDeferring) ∈ old.nestedBlocks false b := by
        refine List.mem_flatMap.2 ⟨n, hnode, List.mem_map.2 ⟨was, ?_, by simp⟩⟩
        exact List.mem_filter.2 ⟨hwas, by simpa [heq] using hkind⟩
      have hvisited := hcovers.nested b hb _ hnested
      rw [heq] at hvisited
      simpa using hvisited

theorem count_walked (hn : n ≠ slot) :
    (new.walked routines).count n ≤ (old.walked routines).count n := by
  obtain ⟨-, -, -, hnodup⟩ := Event.trace_eq new routines
  rw [walked, walked, count_flatMap_eq_total, count_flatMap_eq_total,
    total_perm (List.reverse_perm _), total_perm (List.reverse_perm _)]
  calc
    total (fun b => (new.nodesOf b).count n) (Event.visited new routines) ≤
        total (fun b => (old.nodesOf b).count n) (Event.visited new routines) := by
      refine total_le_total _ fun b => Nat.le_trans ((h.nodesOf b).count_le n) ?_
      rw [List.count_cons_of_ne (Ne.symm hn)]
    _ ≤ total (fun b => (old.nodesOf b).count n) (Event.visited old routines) :=
      total_le_of_subset _ hnodup h.visited

theorem mem_walked (hmem : n ∈ new.walked routines) : n ∈ old.walked routines ∨ n = slot := by
  by_cases hn : n = slot
  · exact .inr hn
  · have hpos := List.count_pos_iff.2 hmem
    exact .inl (List.count_pos_iff.1 (Nat.lt_of_lt_of_le hpos (h.count_walked hn)))

end Prunes

end Tree

namespace Draft

variable {routines : Routines} {draft : Draft} {sub : SubId} {index : Nat} {formal : Formal}
  {n : NodeId}

theorem operands_call (callee : SubId) (arguments : List NodeId) :
    (Node.call callee arguments).operands.map (·.2) = arguments :=
  Node.parts_call callee arguments

/-- The operands of a node behind the turn. -/
theorem operands_recoveredNode (draft : Draft) (sub : SubId) (index : Nat) (formal : Formal)
    (n : NodeId) : (draft.recoveredNode sub index formal n).operands.map (·.2) = [formal.slot] ∨
      ((draft.recoveredNode sub index formal n).operands.map (·.2)).Sublist
        ((draft.tree.node n).operands.map (·.2)) := by
  unfold recoveredNode
  cases hnode : draft.tree.node n with
  | ret value =>
    dsimp only
    split
    · exact .inl rfl
    · exact .inr (List.Sublist.refl _)
  | call callee arguments =>
    refine .inr ?_
    dsimp only
    rw [operands_call, operands_call]
    split
    · exact List.eraseIdx_sublist _ _
    · exact List.Sublist.refl _
  | _ => exact .inr (List.Sublist.refl _)

theorem prunes_makeResult (hcalls : (draft.facts.callsOf sub).Nodup) (hclosed : draft.tree.Closed)
    (hsub : sub ∈ draft.tree.order) (hslot : draft.tree.isSlot formal.slot) :
    draft.tree.Prunes (draft.makeResult sub index formal).tree formal.slot := by
  have hnode : ∀ n, (draft.makeResult sub index formal).tree.node n =
      draft.recoveredNode sub index formal n := node_makeResult hcalls (hclosed.root sub hsub)
  have hkind : ∀ n, (draft.makeResult sub index formal).tree.kind n = draft.tree.kind n := fun n => by
    rw [Tree.kind, hnode, kind_recoveredNode]
  have hrewires := (recovery_makeResult draft sub index formal).rewires
  have hslot := Tree.isSlot_iff_kind.1 hslot
  refine ⟨(edits_makeResult draft sub index formal).size, hkind, hrewires.order, hrewires.root,
    hslot, fun n => ?_, fun n c hc => ?_, fun block => ?_⟩
  · unfold Tree.innerOperands
    simp only [hkind, hnode]
    rcases operands_recoveredNode draft sub index formal n with heq | hless
    · rw [heq]
      simp [hslot]
    · exact hless.filter _
  · rw [Tree.HasOperand, hnode] at hc
    rcases operands_recoveredNode draft sub index formal n with heq | hless
    · rw [heq] at hc
      exact .inl (List.mem_singleton.1 hc)
    · exact .inr (hless.subset hc)
  · unfold Tree.statements
    rw [hnode, recoveredNode]
    cases draft.tree.node block with
    | block statements =>
      dsimp only
      split
      · exact List.Sublist.refl _
      · exact List.sublist_cons_self _ _
    | _ => exact List.nil_sublist _

end Draft

end ScriptLift
