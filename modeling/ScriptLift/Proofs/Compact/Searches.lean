import ScriptLift.Compact.Unbounded
import ScriptLift.Proofs.Compact.Termination
import ScriptLift.Proofs.Lift.Deferral

/-! Compaction as it runs.

A search returns unless it comes to a cycle, and then it has visited what a search of bounded depth
visits. So compaction answers what it answers with bounds, where it returns. It returns from every tree
without cycles in which no block stands as a statement. A block that does may hold the node that a
value moves into, and the value may hold the block: then the move closes a cycle. -/
namespace ScriptLift

namespace Tree

variable {tree : Tree} {descend : Bool} {id n : NodeId} {pending nodes : List NodeId}

/-- All ways down from the node end. -/
def HasEnd (tree : Tree) (descend : Bool) (id : NodeId) : Prop :=
  Acc (fun b a => b ∈ tree.below descend a) id

theorem Acyclic.hasEnd (h : tree.Acyclic) (id : NodeId) : tree.HasEnd true id := by
  obtain ⟨rank, hrank⟩ := h
  exact Subrelation.accessible (fun hstep => hrank _ _ hstep) ((InvImage.wf rank Nat.lt_wfRel.wf).apply id)

theorem below_false_subset : tree.below false id ⊆ tree.below true id := by
  unfold below
  split <;> simp

theorem HasEnd.anyway (h : tree.HasEnd true id) : ∀ descend, tree.HasEnd descend id
  | true => h
  | false => Subrelation.accessible (fun hstep => below_false_subset hstep) h

/-- What a search visits that has `pending` on its stack. -/
inductive Collects (tree : Tree) (descend : Bool) : List NodeId → List NodeId → Prop where
  | done : Collects tree descend [] []
  | visit {id : NodeId} {pending nodes : List NodeId}
    (h : Collects tree descend (tree.below descend id ++ pending) nodes) :
    Collects tree descend (id :: pending) (id :: nodes)

theorem concludes_visitNext_iff {state : Array NodeId × List NodeId} {result : List NodeId} :
    Concludes (fun state => some (tree.visitNext descend state)) state result ↔
      ∃ nodes, tree.Collects descend state.2 nodes ∧ result = state.1.toList ++ nodes := by
  constructor
  · intro h
    induction h with
    | @stop state result h =>
      obtain ⟨seen, _ | ⟨id, pending⟩⟩ := state <;> cases h
      exact ⟨[], .done, (List.append_nil _).symm⟩
    | @next state next result h _ ih =>
      obtain ⟨seen, _ | ⟨id, pending⟩⟩ := state <;> cases h
      obtain ⟨nodes, hnodes, rfl⟩ := ih
      exact ⟨id :: nodes, .visit hnodes, by simp⟩
  · obtain ⟨seen, pending⟩ := state
    rintro ⟨nodes, hnodes, rfl⟩
    dsimp only at hnodes ⊢
    induction hnodes generalizing seen with
    | done => exact .stop (by simp [visitNext])
    | visit _ ih =>
      refine .next rfl ?_
      simpa using ih (seen.push _)

theorem Collects.hasEnd (h : tree.Collects descend pending nodes) :
    ∀ id ∈ pending, tree.HasEnd descend id := by
  induction h with
  | done => exact fun id hid => absurd hid List.not_mem_nil
  | visit _ ih =>
    intro id hid
    rcases List.mem_cons.1 hid with rfl | hid
    · exact Acc.intro _ fun n hn => ih n (List.mem_append_left _ hn)
    · exact ih id (List.mem_append_right _ hid)

/-- Some nodes on the way down to `id`. -/
def Above (tree : Tree) (descend : Bool) (above : Finset NodeId) (id : NodeId) : Prop :=
  ∀ n ∈ above, n.index < tree.size ∧ Relation.TransGen (fun a b => b ∈ tree.below descend a) n id

section Above

variable {above : Finset NodeId}

theorem Above.insert (h : tree.Above descend above id) (hid : id.index < tree.size)
    (hn : n ∈ tree.below descend id) : tree.Above descend (insert id above) n := by
  intro m hm
  rcases Finset.mem_insert.1 hm with rfl | hm
  · exact ⟨hid, .single hn⟩
  · exact ⟨(h m hm).1, (h m hm).2.tail hn⟩

theorem Above.notMem (h : tree.Above descend above id) (hend : tree.HasEnd descend id) :
    id ∉ above :=
  fun hid => Reach.not_cycle_of_acc hend (h id hid).2

theorem Above.card_lt (h : tree.Above descend above id) (hend : tree.HasEnd descend id)
    (hid : id.index < tree.size) : above.card < tree.size := by
  have hsubset : Insert.insert id above ⊆ tree.handles := by
    intro m hm
    rcases Finset.mem_insert.1 hm with rfl | hm
    · exact mem_handles.2 hid
    · exact mem_handles.2 (h m hm).1
  have hle := (Finset.card_le_card hsubset).trans card_handles_le
  rwa [Finset.card_insert_of_notMem (h.notMem hend)] at hle

end Above

theorem below_of_size_le (h : tree.size ≤ id.index) : tree.below descend id = [] := by
  rw [below, node_of_size_le h]
  cases descend <;> rfl

/-- A search has come to the end where it is as deep as there are nodes left. -/
theorem subtreeTo_succ {above : Finset NodeId} {depth : Nat} (hend : tree.HasEnd descend id)
    (habove : tree.Above descend above id) (hdepth : tree.size ≤ above.card + depth) :
    tree.subtreeTo descend (depth + 1) id = tree.subtreeTo descend depth id := by
  induction depth generalizing id above with
  | zero =>
    have hout : tree.size ≤ id.index := by
      by_contra hin
      exact absurd (habove.card_lt hend (Nat.lt_of_not_le hin)) (Nat.not_lt.2 hdepth)
    simp [subtreeTo, below_of_size_le hout]
  | succ depth ih =>
    rw [subtreeTo.eq_2, subtreeTo.eq_2]
    refine congrArg (id :: ·) (List.flatMap_congr fun n hn => ?_)
    have hid : id.index < tree.size := by
      by_contra hout
      rw [below_of_size_le (Nat.le_of_not_lt hout)] at hn
      cases hn
    refine ih (hend.inv hn) (habove.insert hid hn) ?_
    rw [Finset.card_insert_of_notMem (habove.notMem hend)]
    omega

theorem subtree_eq (h : tree.HasEnd descend id) :
    tree.subtree descend id = id :: (tree.below descend id).flatMap (tree.subtree descend) := by
  have habove : tree.Above descend ∅ id := fun n hn => absurd hn (Finset.notMem_empty n)
  rw [subtree, ← subtreeTo_succ h habove (by simp), subtreeTo]
  rfl

theorem Collects.eq_flatMap (h : tree.Collects descend pending nodes) :
    nodes = pending.flatMap (tree.subtree descend) := by
  induction h with
  | done => rfl
  | visit h ih =>
    rw [ih, List.flatMap_cons, subtree_eq ((Collects.visit h).hasEnd _ List.mem_cons_self)]
    simp

theorem HasEnd.collects (h : tree.HasEnd descend id) (hpending : tree.Collects descend pending nodes) :
    tree.Collects descend (id :: pending) (tree.subtree descend id ++ nodes) := by
  induction h generalizing pending nodes with
  | intro id hbelow ih =>
    have hall : ∀ xs ⊆ tree.below descend id, tree.Collects descend (xs ++ pending)
        (xs.flatMap (tree.subtree descend) ++ nodes) := by
      intro xs hxs
      induction xs with
      | nil => exact hpending
      | cons x xs hrest =>
        obtain ⟨hx, hsubset⟩ := List.cons_subset.1 hxs
        rw [List.flatMap_cons, List.append_assoc]
        exact ih x hx (hrest hsubset)
    rw [subtree_eq (Acc.intro id hbelow)]
    exact .visit (hall _ (List.Subset.refl _))

theorem search?_eq_some_iff :
    tree.search? descend id = some nodes ↔
      tree.HasEnd descend id ∧ nodes = tree.subtree descend id := by
  rw [search?, loop_eq_some_iff, concludes_visitNext_iff]
  constructor
  · rintro ⟨nodes, hnodes, rfl⟩
    refine ⟨hnodes.hasEnd id List.mem_cons_self, ?_⟩
    simp [hnodes.eq_flatMap]
  · rintro ⟨hend, rfl⟩
    refine ⟨tree.subtree descend id, ?_, rfl⟩
    have hcollects := hend.collects .done
    rwa [List.append_nil] at hcollects

end Tree

theorem Tree.search?_eq_none_iff {tree : Tree} {descend : Bool} {id : NodeId} :
    tree.search? descend id = none ↔ ¬tree.HasEnd descend id := by
  rw [Option.eq_none_iff_forall_ne_some]
  simp [Tree.search?_eq_some_iff]

/-- What a run may come to: the value, or no end, but that only where `ends` does not hold. -/
def AgreesIf {α : Type} (ends : Prop) (run : Option α) (value : α) : Prop :=
  run = some value ∨ run = none ∧ ¬ends

namespace AgreesIf

variable {α β : Type} {ends : Prop} {run : Option α} {value : α}

theorem eq_some (h : AgreesIf ends run value) (hends : ends) : run = some value := by
  rcases h with h | ⟨-, hnot⟩
  · exact h
  · exact absurd hends hnot

theorem eq_of_some (h : AgreesIf ends run value) {answer : α} (hrun : run = some answer) :
    answer = value := by
  rcases h with h | ⟨h, -⟩
  · exact Option.some.inj (hrun.symm.trans h)
  · cases hrun.symm.trans h

theorem returned (value : α) : AgreesIf ends (some value) value := .inl rfl

theorem bind (h : AgreesIf ends run value) {f : α → Option β} {next : β}
    (hnext : AgreesIf ends (f value) next) : AgreesIf ends (run >>= f) next := by
  rcases h with rfl | ⟨rfl, hnot⟩
  · exact hnext
  · exact .inr ⟨rfl, hnot⟩

theorem map (h : AgreesIf ends run value) (f : α → β) : AgreesIf ends (run.map f) (f value) := by
  rcases h with rfl | ⟨rfl, hnot⟩
  · exact .returned (f value)
  · exact .inr ⟨rfl, hnot⟩

theorem findSomeM?_cons {f : α → Option (Option β)} {x : α} {xs : List α} {first rest : Option β}
    (h : AgreesIf ends (f x) first) (hrest : AgreesIf ends (xs.findSomeM? f) rest) :
    AgreesIf ends ((x :: xs).findSomeM? f) (first <|> rest) := by
  rw [List.findSomeM?_cons]
  refine h.bind ?_
  cases first with
  | some y => exact .returned (some y)
  | none => exact hrest

theorem findSomeM? {xs : List α} {f : α → Option (Option β)} {g : α → Option β}
    (h : ∀ x ∈ xs, AgreesIf ends (f x) (g x)) : AgreesIf ends (xs.findSomeM? f) (xs.findSome? g) := by
  induction xs with
  | nil => exact .returned none
  | cons x xs ih =>
    obtain ⟨hx, hrest⟩ := List.forall_mem_cons.1 h
    have hor : (x :: xs).findSome? g = (g x <|> xs.findSome? g) := by
      rw [List.findSome?_cons]
      cases g x <;> rfl
    rw [hor]
    exact hx.findSomeM?_cons (ih hrest)

theorem allM {xs : List α} {f : α → Option Bool} {g : α → Bool}
    (h : ∀ x ∈ xs, AgreesIf ends (f x) (g x)) : AgreesIf ends (xs.allM f) (xs.all g) := by
  induction xs with
  | nil => exact .returned true
  | cons x xs ih =>
    obtain ⟨hx, hrest⟩ := List.forall_mem_cons.1 h
    rw [List.allM, List.all_cons]
    refine hx.bind ?_
    cases g x with
    | true => exact ih hrest
    | false => exact .returned false

theorem flatMapM {xs : List α} {f : α → Option (List β)} {g : α → List β}
    (h : ∀ x ∈ xs, AgreesIf ends (f x) (g x)) : AgreesIf ends (xs.flatMapM f) (xs.flatMap g) := by
  induction xs with
  | nil => exact .returned []
  | cons x xs ih =>
    obtain ⟨hx, hrest⟩ := List.forall_mem_cons.1 h
    rw [List.flatMapM_cons, List.flatMap_cons]
    exact hx.bind ((ih hrest).bind (.returned _))

theorem foldlM {f : β → α → Option β} {g : β → α → β} {P : β → Prop}
    (h : ∀ state x, P state → AgreesIf ends (f state x) (g state x) ∧ P (g state x))
    (xs : List α) {state : β} (hstate : P state) :
    AgreesIf ends (xs.foldlM f state) (xs.foldl g state) := by
  induction xs generalizing state with
  | nil => exact .returned state
  | cons x xs ih =>
    obtain ⟨hx, hnext⟩ := h state x hstate
    rw [List.foldlM_cons, List.foldl_cons]
    exact hx.bind (ih hnext)

end AgreesIf

/-- On all drafts that a run may come to, the rules for a live block return. -/
def Draft.Searchable (settings : CompactSettings) (routines : Routines) (draft : Draft) : Prop :=
  ∀ next, Draft.Changes settings routines draft next →
    ∀ block, next.facts.isLive block → (Unbounded.rewrite next block settings).isSome

namespace Unbounded

variable {ends : Prop} {draft : Draft} {block slot statement value : NodeId} {descend : Bool}
  {index : Nat}

theorem agreesIf_search {tree : Tree} {id : NodeId} (h : ends → tree.HasEnd descend id) :
    AgreesIf ends (tree.search? descend id) (tree.subtree descend id) := by
  cases hsearch : tree.search? descend id with
  | some nodes => exact .inl (by rw [(Tree.search?_eq_some_iff.1 hsearch).2])
  | none =>
    refine .inr ⟨rfl, fun hends => ?_⟩
    cases hsearch.symm.trans (Tree.search?_eq_some_iff.2 ⟨h hends, rfl⟩)

theorem agreesIf_canMove {between : List NodeId} (hvalue : ends → draft.tree.HasEnd true value)
    (hbetween : ends → ∀ s ∈ between, draft.tree.HasEnd true s) :
    AgreesIf ends (canMove draft value between) (draft.canMove value between) :=
  (agreesIf_search hvalue).bind
    ((AgreesIf.flatMapM fun s hs => agreesIf_search fun hends => hbetween hends s hs).bind
      (.returned _))

theorem agreesIf_holding (h : ends → ∀ s ∈ draft.tree.statements block, draft.tree.HasEnd descend s)
    (target : NodeId) :
    AgreesIf ends (holding draft block target descend)
      (draft.tree.statementHolding? block target descend) := by
  rw [Tree.statementHolding?, List.findIdx?_eq_findSome?_zipIdx]
  simp only [decide_eq_true_eq]
  refine .findSomeM? fun (statement, index) hmem => ?_
  have hs := List.mem_of_getElem? (List.mk_mem_zipIdx_iff_getElem?.1 hmem)
  exact (agreesIf_search fun hends => h hends statement hs).bind (.returned _)

theorem agreesIf_deferredCall
    (h : ends → ∀ s ∈ draft.tree.statements block, draft.tree.HasEnd false s) :
    AgreesIf ends (deferredCall draft block) (draft.deferredCall? block) :=
  .findSomeM? fun s hs => (agreesIf_search fun hends => h hends s hs).bind (.returned _)

theorem agreesIf_vector (h : ends → ∀ s ∈ draft.tree.statements block, draft.tree.HasEnd false s) :
    AgreesIf ends (vector draft block) (draft.vector? block) :=
  .findSomeM? fun s hs => (agreesIf_search fun hends => h hends s hs).bind (.returned _)

section Rules

variable (h : ends → ∀ s ∈ draft.tree.statements block, draft.tree.HasEnd true s)
include h

theorem agreesIf_readsFollow (slot : NodeId) (index : Nat) :
    AgreesIf ends (readsFollow draft block slot index) (draft.readsFollow block slot index) := by
  refine .allM fun read _ => (agreesIf_holding h read.node).bind ?_
  cases draft.tree.statementHolding? block read.node true <;> exact .returned _

theorem agreesIf_initializer (slot : NodeId) (index : Nat) :
    AgreesIf ends (initializer draft block slot index) (draft.initializer? block slot index) := by
  unfold initializer Draft.initializer?
  rcases draft.facts.writesOf slot with _ | ⟨⟨assign, _ | written⟩, _ | ⟨second, rest⟩⟩
  case cons.some.nil =>
    dsimp only
    cases (draft.tree.statements block).idxOf? assign with
    | none => exact .returned none
    | some position =>
      by_cases hlater : index < position
      · simp only [hlater, if_true, true_and]
        exact (agreesIf_readsFollow h slot position).bind (.returned _)
      · simp only [hlater, if_false, false_and]
        exact .returned none
  all_goals exact .returned none

theorem agreesIf_declaration :
    AgreesIf ends (declaration draft block) (draft.declaration? block) := by
  refine .findSomeM? fun (statement, index) _ => ?_
  have hmerger : AgreesIf ends (mergerAt draft block statement index)
      ((draft.initializer? block statement index).map (.mergeDeclaration index)) :=
    (agreesIf_initializer h statement index).bind (.returned _)
  dsimp only
  unfold declarationAt Draft.declarationAt?
  cases draft.tree.storage? statement with
  | none => exact .returned none
  | some storage =>
    cases storage with
    | own =>
      dsimp only
      split
      · exact .returned _
      · exact hmerger
    | result => exact hmerger
    | _ => exact .returned none

theorem agreesIf_inliningAt {statement : NodeId} (hs : statement ∈ draft.tree.statements block)
    (index : Nat) :
    AgreesIf ends (inliningAt draft block statement index)
      (draft.inliningAt? block statement index) := by
  unfold inliningAt Draft.inliningAt?
  cases htemporary : draft.temporary? statement with
  | none => exact .returned none
  | some found =>
    obtain ⟨slot, value, read⟩ := found
    have hvalue : ends → draft.tree.HasEnd true value := fun hends => (h hends statement hs).inv <| by
      rw [Tree.below, (Draft.temporary?_eq_some htemporary).1]
      simp [Node.operands]
    refine (agreesIf_holding (fun hends s hs => (h hends s hs).anyway false) read.node).bind ?_
    dsimp only
    cases draft.tree.statementHolding? block read.node false with
    | none => exact .returned none
    | some consumer =>
      by_cases hlater : index < consumer
      · simp only [hlater, if_true, true_and]
        refine .bind (agreesIf_canMove hvalue fun hends s hmem => h hends s ?_) (.returned _)
        exact List.mem_of_mem_take (List.mem_of_mem_drop hmem)
      · simp only [hlater, if_false, false_and]
        exact .returned none

theorem agreesIf_inlining : AgreesIf ends (inlining draft block) (draft.inlining? block) := by
  refine .findSomeM? fun (statement, index) hmem => ?_
  have hs := List.mem_of_getElem? (List.mk_mem_zipIdx_iff_getElem?.1 hmem)
  exact (agreesIf_inliningAt h hs index).bind (.returned _)

/-- The rule that finds a rewrite is the same, and so is the rewrite. -/
theorem agreesIf_rewrite (settings : CompactSettings) :
    AgreesIf ends (rewrite draft block settings) (draft.rewrite? block settings) := by
  have hclosed : ends → ∀ s ∈ draft.tree.statements block, draft.tree.HasEnd false s :=
    fun hends s hs => (h hends s hs).anyway false
  unfold rewrite rules Draft.rewrite?
  cases settings.inlineTemporaries with
  | true =>
    have hor : ((draft.inlining? block <|> draft.vector? block) <|>
        draft.deadAssignment? block <|> draft.unusedLabel? block) =
        (draft.inlining? block <|> draft.vector? block <|> draft.deadAssignment? block <|>
          draft.unusedLabel? block <|> none) := by
      cases draft.inlining? block <;> cases draft.unusedLabel? block <;> rfl
    simp only [if_true, List.cons_append, List.nil_append]
    rw [hor]
    refine .findSomeM?_cons ?_ (.findSomeM?_cons ?_ (.findSomeM?_cons ?_ (.findSomeM?_cons ?_
      (.findSomeM?_cons ?_ (.findSomeM?_cons ?_ (.findSomeM?_cons ?_ (.returned none)))))))
    exacts [agreesIf_declaration h, agreesIf_deferredCall hclosed, .returned _, agreesIf_inlining h,
      agreesIf_vector hclosed, .returned _, .returned _]
  | false =>
    have hor : (none <|> draft.deadAssignment? block <|> draft.unusedLabel? block) =
        (draft.deadAssignment? block <|> draft.unusedLabel? block <|> none) := by
      cases draft.unusedLabel? block <;> rfl
    simp only [Bool.false_eq_true, if_false, List.cons_append, List.nil_append]
    rw [hor]
    refine .findSomeM?_cons ?_ (.findSomeM?_cons ?_ (.findSomeM?_cons ?_ (.findSomeM?_cons ?_
      (.findSomeM?_cons ?_ (.returned none)))))
    exacts [agreesIf_declaration h, agreesIf_deferredCall hclosed, .returned _, .returned _, .returned _]

end Rules

theorem eq_rewrite? {settings : CompactSettings} {found : Option Rewrite}
    (h : rewrite draft block settings = some found) : found = draft.rewrite? block settings :=
  (agreesIf_rewrite False.elim settings).eq_of_some h

section Rounds

open Draft (Changes Ends Searchable rounds)

variable {settings : CompactSettings} {routines : Routines} {start : Draft}

theorem agreesIf_compactBlock (hstart : Changes settings routines start draft) (block : NodeId)
    (limit : Nat) :
    AgreesIf (start.Searchable settings routines) (compactBlock settings routines block limit draft)
      (Draft.compactBlock settings routines block limit draft) := by
  induction limit generalizing draft with
  | zero => exact .returned _
  | succ limit ih =>
    rw [compactBlock, Draft.compactBlock]
    by_cases hlive : draft.facts.isLive block
    case neg =>
      simp only [hlive]
      exact .returned _
    simp only [hlive, if_true]
    have hfound : AgreesIf (start.Searchable settings routines) (rewrite draft block settings)
        (draft.rewrite? block settings) := by
      cases hsearch : rewrite draft block settings with
      | none => exact .inr ⟨rfl, fun h => by simpa [hsearch] using h draft hstart block hlive⟩
      | some found => exact .inl (congrArg some (eq_rewrite? hsearch))
    refine hfound.bind ?_
    cases hrewrite : draft.rewrite? block settings with
    | none => exact .returned _
    | some rewrite => exact (ih (hstart.tail (.step (.rewrite hlive hrewrite)))).bind (.returned _)

theorem agreesIf_compactBlocks (hstart : Changes settings routines start draft) :
    AgreesIf (start.Searchable settings routines) (compactBlocks settings routines draft)
      (draft.compactBlocks settings routines) := by
  unfold compactBlocks Draft.compactBlocks
  have hqueue : Changes settings routines start draft.enqueueBlocks := by
    rw [Draft.enqueueBlocks_eq]
    exact hstart.tail (.queue _ _)
  refine AgreesIf.foldlM (P := fun state => Changes settings routines start state.1)
    (fun state block hstate => ⟨?_, ?_⟩) _ hqueue
  · exact (agreesIf_compactBlock (hstate.tail (.queue _ _)) block _).bind (.returned _)
  · obtain ⟨next, hnext, heq, -⟩ := Draft.part_compactNext settings routines state block
    rw [heq]
    exact hstate.trans hnext.changes

theorem agreesIf_round (hstart : Changes settings routines start draft) :
    AgreesIf (start.Searchable settings routines) (round settings routines draft)
      (draft.round settings routines) :=
  (agreesIf_compactBlocks (hstart.trans (Draft.runs_recoverResults draft).changes)).bind (.returned _)

theorem ends_of_concludes {state result : Draft × Bool}
    (h : Concludes (nextRound settings routines) state result) :
    ∃ count, Ends settings routines count state.1 ∧
      result = (((rounds settings routines count state.1).round settings routines).1,
        state.2 || decide (0 < count)) := by
  have hround : ∀ {draft : Draft} {next : Draft × Bool}, round settings routines draft = some next →
      next = draft.round settings routines := fun hnext =>
    (agreesIf_round (.refl : Changes settings routines _ _)).eq_of_some hnext
  induction h with
  | @stop state result h =>
    obtain ⟨next, hnext, hresult⟩ := Option.bind_eq_some_iff.1 h
    obtain rfl := hround hnext
    split at hresult <;> cases hresult
    next hbusy =>
      refine ⟨0, ⟨fun k hk => absurd hk (Nat.not_lt_zero k), Bool.eq_false_of_not_eq_true hbusy⟩, ?_⟩
      simp [rounds]
  | @next state _ result h hrest ih =>
    obtain ⟨next, hnext, hresult⟩ := Option.bind_eq_some_iff.1 h
    obtain rfl := hround hnext
    split at hresult <;> cases hresult
    next hbusy =>
      obtain ⟨count, hends, rfl⟩ := ih
      refine ⟨count + 1, ⟨fun k hk => ?_, hends.quiet⟩, by simp [rounds]⟩
      cases k with
      | zero => exact hbusy
      | succ k => exact hends.busy k (by omega)

/-- Rounds that return end, and answer the draft behind the last of them. -/
theorem exists_ends_of_settle {result : Draft × Bool}
    (h : settle settings routines draft = some result) :
    ∃ count, Ends settings routines count draft ∧
      result = (((rounds settings routines count draft).round settings routines).1,
        decide (0 < count)) := by
  simpa using ends_of_concludes (loop_eq_some_iff.1 h)

theorem concludes_of_ends {count : Nat} (hends : Ends settings routines count draft)
    (hsearch : draft.Searchable settings routines) (changed : Bool) :
    ∃ result, Concludes (nextRound settings routines) (draft, changed) result := by
  have hround := (agreesIf_round (.refl : Changes settings routines draft draft)).eq_some hsearch
  induction count generalizing draft changed with
  | zero =>
    refine ⟨((draft.round settings routines).1, changed), .stop ?_⟩
    simp [nextRound, hround, show (draft.round settings routines).2 = false from hends.quiet]
  | succ count ih =>
    have hnext := (Draft.runs_round settings routines draft).changes
    have hrest : Ends settings routines count (draft.round settings routines).1 :=
      ⟨fun k hk => hends.busy (k + 1) (by omega), hends.quiet⟩
    have hlater : (draft.round settings routines).1.Searchable settings routines :=
      fun other hother => hsearch other (hnext.trans hother)
    obtain ⟨result, hresult⟩ := ih hrest hlater true (agreesIf_round .refl |>.eq_some hlater)
    refine ⟨result, .next ?_ hresult⟩
    simp [nextRound, hround, show (draft.round settings routines).2 = true from
      hends.busy 0 (by omega)]

theorem agreesIf_settle (h : draft.EndsInTime settings routines) :
    AgreesIf (draft.Searchable settings routines) (settle settings routines draft)
      (draft.settle settings routines) := by
  obtain ⟨count, hcount, hends⟩ := h
  cases hsettle : settle settings routines draft with
  | none =>
    refine .inr ⟨rfl, fun hsearch => ?_⟩
    obtain ⟨result, hresult⟩ := concludes_of_ends hends hsearch false
    cases hsettle.symm.trans (loop_eq_some_iff.2 hresult)
  | some result =>
    obtain ⟨other, hother, rfl⟩ := exists_ends_of_settle hsettle
    obtain rfl := hother.unique hends
    exact .inl (congrArg some (hends.settleWithin hcount).symm)

/-- What is left to do behind the rounds; `changed` tells of what was done in front of them. -/
def finish (changed : Bool) (settled : Draft × Bool) : Draft × Bool :=
  let stripped := settled.1.tree.stripReturns
  ({ settled.1 with tree := stripped.1 }, changed || settled.2 || stripped.2)

theorem exists_finish (settings : CompactSettings) (routines : Routines) (tree : Tree) :
    ∃ changed,
      compact settings routines { tree } =
        (settle settings routines (.prepare settings routines tree)).map (finish changed) ∧
      Draft.compact settings routines { tree } =
        finish changed ((Draft.prepare settings routines tree).settle settings routines) := by
  let started := ({ tree : Draft }).dropSub startName
  unfold compact Draft.compact Draft.prepare
  cases settings.foldGlobals with
  | true =>
    simp only [if_true, Option.map_eq_bind]
    exact ⟨started.2 || ((started.1.refresh routines).foldGlobals routines).2, rfl, rfl⟩
  | false =>
    simp only [Bool.false_eq_true, if_false, Option.map_eq_bind]
    exact ⟨started.2 || false, rfl, rfl⟩

end Rounds

end Unbounded

/-- Where the rounds end before their limit, compaction without bounds answers what it answers with
them, if it returns; and it returns if all searches do. -/
theorem agreesIf_optimize {settings : CompactSettings} {routines : Routines} {tree : Tree}
    (h : (Draft.prepare settings routines tree).EndsInTime settings routines) :
    AgreesIf ((Draft.prepare settings routines tree).Searchable settings routines)
      (optimize routines settings tree) ((Optimizer.dataFlow routines settings).run tree) := by
  unfold optimize Optimizer.dataFlow
  dsimp only
  cases settings.enabled with
  | false => exact .returned _
  | true =>
    obtain ⟨changed, hrun, hbounded⟩ := Unbounded.exists_finish settings routines tree
    simp only [if_true, hrun, hbounded]
    exact ((Unbounded.agreesIf_settle h).map (Unbounded.finish changed)).bind (.returned _)

namespace Draft

variable {settings : CompactSettings} {routines : Routines} {start draft : Draft}

/-- What lies below a live block ends, unless a cycle can be reached from a subroutine. -/
theorem Sturdy.hasEnd (h : draft.Sturdy) (hcurrent : draft.Current routines)
    (hfree : draft.tree.CycleFree) {block : NodeId} (hlive : draft.facts.isLive block) :
    ∀ s ∈ draft.tree.statements block, draft.tree.HasEnd true s := by
  intro s hs
  obtain ⟨sub, hsub, hreaches⟩ := Tree.exists_reaches_of_visited (h.live hcurrent hlive).1
  have hholds := Relation.ReflTransGen.mono (fun _ _ => Tree.Descends.holds) _ _ hreaches
  refine hfree.acc_of_inOutput h.closed ⟨sub, hsub, hholds.tail ?_⟩
  rwa [Tree.Holds, Tree.below_of_kind_block (Tree.kind_of_statement hs)]

theorem not_cycleFree_of_rewrite (hstart : start.Sturdy) (hcurrent : start.Current routines)
    (hchanges : Changes settings routines start draft) {block : NodeId}
    (hlive : draft.facts.isLive block) (h : Unbounded.rewrite draft block settings = none) :
    ¬draft.tree.CycleFree := by
  intro hfree
  obtain ⟨hdraft, hsturdy, -⟩ := (lowers_load settings routines).changes hchanges hcurrent hstart
  have hfound := (Unbounded.agreesIf_rewrite
    (fun _ : True => hsturdy.hasEnd hdraft hfree hlive) settings).eq_some trivial
  cases h.symm.trans hfound

theorem searchable_prepare (settings : CompactSettings) (routines : Routines) {tree : Tree}
    (hclosed : tree.Closed) (hfree : tree.CycleFree) (hnested : tree.Unnested) :
    (prepare settings routines tree).Searchable settings routines := by
  have hcurrent := prepare_current settings routines tree
  have hsturdy := prepare_sturdy settings routines hclosed hfree
  intro draft hchanges block hlive
  rw [Option.isSome_iff_ne_none]
  intro hnone
  refine not_cycleFree_of_rewrite hsturdy hcurrent hchanges hlive hnone ?_
  exact (hchanges.cycleFree hcurrent hsturdy
    (hnested.of_exprs_eq (prepare_tree settings routines tree).1)).2

end Draft

section Lifted

variable {program : Program} {routines : Routines} {lifting : LiftSettings}
  {settings : CompactSettings} {tree : Tree}

theorem eq_of_optimize (hlift : lift program routines lifting = some (.ok tree)) {result : Tree × Bool}
    (h : optimize routines settings tree = some result) :
    result = (Optimizer.dataFlow routines settings).run tree :=
  (agreesIf_optimize (Draft.prepare_endsInTime_of_wellFormed settings routines
    (lift_wellFormed hlift))).eq_of_some h

theorem optimize_of_cycleFree (hlift : lift program routines lifting = some (.ok tree))
    (hfree : tree.CycleFree) :
    optimize routines settings tree = some ((Optimizer.dataFlow routines settings).run tree) :=
  (agreesIf_optimize (Draft.prepare_endsInTime settings routines (lift_closed hlift) hfree)).eq_some
    (Draft.searchable_prepare settings routines (lift_closed hlift) hfree (lift_unnested hlift))

end Lifted

/-- Compaction of a tree whose output is free of cycles. Where no block stands as a statement it
returns: its rounds come to one that changes nothing, and the answer is the one that it has with bounds.
Any answer is that one, and every step lowers the load. If compaction does not return, then the rules
for a live block do not, in a draft in which a cycle has been closed. -/
theorem optimize_returns (settings : CompactSettings) (routines : Routines) {tree : Tree}
    (hclosed : tree.Closed) (hfree : tree.CycleFree) :
    let start := Draft.prepare settings routines tree
    (tree.Unnested →
      (∃ count, Draft.Ends settings routines count start ∧
        (Draft.rounds settings routines count start).Normal settings ∧
        ((Draft.rounds settings routines count start).round settings routines).1.tree =
          (Draft.rounds settings routines count start).tree ∧
        Unbounded.settle settings routines start =
          some (((Draft.rounds settings routines count start).round settings routines).1,
            decide (0 < count))) ∧
      optimize routines settings tree = some ((Optimizer.dataFlow routines settings).run tree)) ∧
    (∀ result, optimize routines settings tree = some result →
      result = (Optimizer.dataFlow routines settings).run tree) ∧
    (∀ draft next, Draft.Changes settings routines start draft →
      Draft.Step settings routines draft next → next.load < draft.load) ∧
    (optimize routines settings tree = none →
      ∃ draft block, Draft.Changes settings routines start draft ∧ draft.facts.isLive block ∧
        Unbounded.rewrite draft block settings = none ∧ ¬draft.tree.CycleFree) := by
  intro start
  have hcurrent := Draft.prepare_current settings routines tree
  have hsturdy := Draft.prepare_sturdy settings routines hclosed hfree
  have hlowers := Draft.lowers_load settings routines
  have hintime := Draft.prepare_endsInTime settings routines hclosed hfree
  have hagrees := agreesIf_optimize hintime
  refine ⟨fun hnested => ?_, fun result h => hagrees.eq_of_some h, fun draft next hchanges hstep => ?_,
    fun hnone => ?_⟩
  · have hsearch : start.Searchable settings routines :=
      Draft.searchable_prepare settings routines hclosed hfree hnested
    obtain ⟨count, hcount, hends⟩ := hintime
    have hlast := (hlowers.changes (Draft.changes_rounds count start) hcurrent hsturdy).1
    obtain ⟨hnormal, worklist, hqueue⟩ := hends.normal hlast
    refine ⟨⟨count, hends, hnormal, by rw [hqueue]; rfl, ?_⟩, hagrees.eq_some hsearch⟩
    rw [(Unbounded.agreesIf_settle ⟨count, hcount, hends⟩).eq_some hsearch]
    exact congrArg some (hends.settleWithin hcount)
  · obtain ⟨hdraft, hinv, -⟩ := hlowers.changes hchanges hcurrent hsturdy
    exact hstep.load_lt hdraft hinv
  · rcases hagrees with hsome | ⟨-, hsearch⟩
    · cases hnone.symm.trans hsome
    · unfold Draft.Searchable at hsearch
      push Not at hsearch
      obtain ⟨draft, hchanges, block, hlive, hrewrite⟩ := hsearch
      have hrewrite : Unbounded.rewrite draft block settings = none := by simpa using hrewrite
      exact ⟨draft, block, hchanges, hlive, hrewrite,
        Draft.not_cycleFree_of_rewrite hsturdy hcurrent hchanges hlive hrewrite⟩

/-- A main that lets another subroutine fill a slot and prints it. -/
def fillTree : Tree where
  exprs := #[
    ⟨13, .block [⟨1⟩, ⟨2⟩, ⟨3⟩, ⟨4⟩]⟩, ⟨13, .slot { type := .int }⟩, ⟨15, .call ⟨1⟩ [⟨1⟩]⟩,
    ⟨21, .action 1 [⟨1⟩]⟩, ⟨26, .ret none⟩,
    ⟨28, .block [⟨8⟩, ⟨9⟩]⟩, ⟨28, .slot { type := .int, storage := .argument }⟩,
    ⟨28, .literal (.int 7)⟩, ⟨34, .binary .assign ⟨6⟩ ⟨7⟩ false⟩, ⟨42, .ret none⟩]
  subroutines := #[
    { name := "main", start := 13, stop := 26, root := ⟨0⟩ },
    { start := 28, stop := 42, root := ⟨5⟩, formals := [⟨⟨6⟩, .int, -4, true⟩] }]
  order := [⟨0⟩, ⟨1⟩]

/-- Its result is recovered, assigned and moved into the call that prints it. -/
theorem optimize_returns_fillTree :
    let start := Draft.prepare {} showRoutines fillTree
    fillTree.Closed ∧ fillTree.CycleFree ∧ fillTree.Unnested ∧
      (∃ count, 0 < count ∧ Draft.Ends {} showRoutines count start ∧
        (Draft.rounds {} showRoutines count start).Normal {}) ∧
      (∃ result, optimize showRoutines {} fillTree = some result ∧ result.2 = true) ∧
      ∀ draft next, Draft.Changes {} showRoutines start draft →
        Draft.Step {} showRoutines draft next → next.load < draft.load := by
  intro start
  have hclosed : fillTree.Closed := by decide +kernel
  have hlayered : fillTree.isLayered := by decide +kernel
  have hfree := (Tree.acyclic_of_isLayered hlayered).cycleFree
  have hnested : fillTree.Unnested := by decide +kernel
  obtain ⟨hreturns, -, hload, -⟩ := optimize_returns {} showRoutines hclosed hfree
  obtain ⟨⟨count, hends, hnormal, -, -⟩, hresult⟩ := hreturns hnested
  have hbusy : (start.round {} showRoutines).2 = true := by decide +kernel
  refine ⟨hclosed, hfree, hnested, ⟨count, Nat.pos_of_ne_zero fun hzero => ?_, hends, hnormal⟩,
    ⟨_, hresult, by decide +kernel⟩, hload⟩
  have hquiet := hends.quiet
  rw [hzero] at hquiet
  exact Bool.noConfusion (hquiet.symm.trans hbusy)

/-- What `x` is initialized with holds a block, that block holds another one as a statement, and in it
stands the action that reads `x`. Behind `x` the main subroutine declares and prints `y`. -/
def knotTree : Tree where
  exprs := #[
    ⟨0, .block [⟨5⟩, ⟨8⟩, ⟨9⟩, ⟨10⟩]⟩, ⟨0, .slot { type := .int }⟩, ⟨0, .block [⟨3⟩]⟩,
    ⟨0, .block [⟨9⟩]⟩, ⟨0, .action 1 [⟨2⟩]⟩, ⟨0, .binary .assign ⟨1⟩ ⟨4⟩ true⟩,
    ⟨0, .slot { type := .int }⟩, ⟨0, .literal (.int 7)⟩, ⟨0, .binary .assign ⟨6⟩ ⟨7⟩ true⟩,
    ⟨0, .action 2 [⟨1⟩]⟩, ⟨0, .action 3 [⟨6⟩]⟩]
  subroutines := #[{ name := "main", start := 13, stop := 13, root := ⟨0⟩ }]
  order := [⟨0⟩]

/-- The block that holds the action lies below it, once it has taken over the value of `x`. -/
def tiedTree : Tree :=
  { knotTree with
    exprs := (knotTree.exprs.set 0 ⟨0, .block [⟨8⟩, ⟨9⟩, ⟨10⟩]⟩).set 9 ⟨0, .action 2 [⟨4⟩]⟩ }

/-- The draft of the first rewrite. -/
def knotDraft : Draft :=
  let queued := (((Draft.prepare {} {} knotTree).recoverResults {}).1).enqueueBlocks
  { queued with facts := queued.facts.popBlock.2 }

/-- The value of `x` moves into the action that reads it. -/
def knotMove : Inlining where
  index := 0
  slot := ⟨1⟩
  value := ⟨4⟩
  read := { node := ⟨9⟩, role := .actionArgument 0 }
  consumer := 2

def tiedDraft : Draft := ((Rewrite.inlineValue knotMove).apply ⟨0⟩ knotDraft).refresh {}

theorem knotTree_acyclic : knotTree.Acyclic := by
  have hlayered : knotTree.isLayered := by decide +kernel
  exact Tree.acyclic_of_isLayered hlayered

theorem knotDraft_computed : knotDraft.tree = knotTree ∧ knotDraft.facts.isLive ⟨0⟩ ∧
    knotDraft.rewrite? ⟨0⟩ {} = some (.inlineValue knotMove) := by
  decide +kernel

theorem tiedDraft_computed : tiedDraft.tree = tiedTree ∧ tiedDraft.facts.isLive ⟨0⟩ ∧
    Unbounded.declaration tiedDraft ⟨0⟩ = some none ∧ tiedDraft.deferredCall? ⟨0⟩ = none ∧
    tiedDraft.pendingCall? ⟨0⟩ = none ∧
    tiedDraft.temporary? ⟨8⟩ = some (⟨6⟩, ⟨7⟩, { node := ⟨10⟩, role := .actionArgument 0 }) ∧
    tiedDraft.tree.statementHolding? ⟨0⟩ ⟨10⟩ false = some 2 := by
  decide +kernel

theorem statements_tiedTree : tiedTree.statements ⟨0⟩ = [⟨8⟩, ⟨9⟩, ⟨10⟩] := by decide

theorem rewrite_knotDraft :
    Unbounded.rewrite knotDraft ⟨0⟩ {} = some (some (.inlineValue knotMove)) := by
  obtain ⟨htree, -, hfound⟩ := knotDraft_computed
  have hends : ∀ s ∈ knotDraft.tree.statements ⟨0⟩, knotDraft.tree.HasEnd true s := by
    rw [htree]
    exact fun s _ => knotTree_acyclic.hasEnd s
  rw [(Unbounded.agreesIf_rewrite (fun _ : True => hends) {}).eq_some trivial, hfound]

theorem not_hasEnd_tiedTree : ¬tiedTree.HasEnd true ⟨9⟩ := by
  intro hend
  have hcycle : Relation.TransGen (fun a b => b ∈ tiedTree.below true a) ⟨9⟩ ⟨9⟩ :=
    .head (b := ⟨4⟩) (by decide) <| .head (b := ⟨2⟩) (by decide) <| .head (b := ⟨3⟩) (by decide) <|
      .single (by decide)
  exact Reach.not_cycle_of_acc hend hcycle

theorem hasEnd_tiedTree : ∀ s ∈ tiedTree.statements ⟨0⟩, tiedTree.HasEnd false s := by
  have hstep : ∀ {id : NodeId} (ids : List NodeId), tiedTree.below false id = ids →
      (∀ n ∈ ids, tiedTree.HasEnd false n) → tiedTree.HasEnd false id := by
    rintro id ids rfl h
    exact Acc.intro id h
  have hleaf : ∀ {id : NodeId}, tiedTree.below false id = [] → tiedTree.HasEnd false id :=
    fun h => hstep [] h (by simp)
  have hslot : tiedTree.HasEnd false ⟨6⟩ := hleaf (by decide)
  have hvalue : tiedTree.HasEnd false ⟨4⟩ := hstep [⟨2⟩] (by decide) (by simpa using hleaf (by decide))
  rw [statements_tiedTree]
  simp only [List.mem_cons, List.not_mem_nil, or_false, forall_eq_or_imp, forall_eq]
  refine ⟨hstep [⟨6⟩, ⟨7⟩] (by decide) ?_, hstep [⟨4⟩] (by decide) (by simpa using hvalue),
    hstep [⟨6⟩] (by decide) (by simpa using hslot)⟩
  simpa using ⟨hslot, hleaf (by decide)⟩

theorem inliningAt_tiedDraft : Unbounded.inliningAt tiedDraft ⟨0⟩ ⟨8⟩ 0 = none := by
  obtain ⟨htree, -, -, -, -, htemporary, hconsumer⟩ := tiedDraft_computed
  have hends : ∀ s ∈ tiedDraft.tree.statements ⟨0⟩, tiedDraft.tree.HasEnd false s := by
    rw [htree]
    exact hasEnd_tiedTree
  have hholding : Unbounded.holding tiedDraft ⟨0⟩ ⟨10⟩ false = some (some 2) := by
    rw [(Unbounded.agreesIf_holding (fun _ : True => hends) ⟨10⟩).eq_some trivial, hconsumer]
  have hcross : Unbounded.canMove tiedDraft ⟨7⟩ [⟨9⟩] = none := by
    have hsearch := Tree.search?_eq_none_iff.2 not_hasEnd_tiedTree
    rw [Unbounded.canMove, htree, List.flatMapM_cons, hsearch]
    cases tiedTree.search? true ⟨7⟩ <;> rfl
  simp [Unbounded.inliningAt, htemporary, hholding, htree, statements_tiedTree, hcross]

/-- With the cycle closed the next rule that opens blocks does not return: it looks for a way for the
value of `y`, past the action that holds its own block. -/
theorem rewrite_tiedDraft : Unbounded.rewrite tiedDraft ⟨0⟩ {} = none := by
  obtain ⟨htree, -, hdeclaration, hnone, hpending, -, -⟩ := tiedDraft_computed
  have hends : ∀ s ∈ tiedDraft.tree.statements ⟨0⟩, tiedDraft.tree.HasEnd false s := by
    rw [htree]
    exact hasEnd_tiedTree
  have hdeferred : Unbounded.deferredCall tiedDraft ⟨0⟩ = some none := by
    rw [(Unbounded.agreesIf_deferredCall fun _ : True => hends).eq_some trivial, hnone]
  have hinlining : Unbounded.inlining tiedDraft ⟨0⟩ = none := by
    simp [Unbounded.inlining, htree, statements_tiedTree, inliningAt_tiedDraft]
  simp [Unbounded.rewrite, Unbounded.rules, hdeclaration, hdeferred, hpending, hinlining]

theorem compactBlock_knotDraft (limit : Nat) :
    Unbounded.compactBlock {} {} ⟨0⟩ (limit + 2) knotDraft = none := by
  have hnext : Unbounded.compactBlock {} {} ⟨0⟩ (limit + 1) tiedDraft = none := by
    rw [Unbounded.compactBlock, if_pos tiedDraft_computed.2.1, rewrite_tiedDraft]
    rfl
  rw [Unbounded.compactBlock, if_pos knotDraft_computed.2.1, rewrite_knotDraft]
  change (Unbounded.compactBlock {} {} ⟨0⟩ (limit + 1) tiedDraft >>= _) = none
  rw [hnext]
  rfl

theorem settle_knotTree : Unbounded.settle {} {} (.prepare {} {} knotTree) = none := by
  have hround : Unbounded.round {} {} (.prepare {} {} knotTree) = none := by
    have hworklist : ((Draft.prepare {} {} knotTree).recoverResults {}).1.enqueueBlocks.facts.worklist =
      [⟨0⟩, ⟨2⟩] := by decide +kernel
    have hfirst : Unbounded.compactNext {} {}
        (((Draft.prepare {} {} knotTree).recoverResults {}).1.enqueueBlocks, false) ⟨0⟩ = none := by
      change (Unbounded.compactBlock {} {} ⟨0⟩ (9998 + 2) knotDraft >>= _) = none
      rw [compactBlock_knotDraft]
      rfl
    rw [Unbounded.round, if_pos rfl, Unbounded.compactBlocks, hworklist, List.foldlM_cons, hfirst]
    rfl
  rw [Unbounded.settle, loop_eq, Unbounded.nextRound, hround]
  rfl

/-- The tree is acyclic, and compaction does not return from it. -/
theorem not_forall_optimize_returns : ¬∀ (settings : CompactSettings) (routines : Routines)
    (tree : Tree), tree.Closed → tree.Acyclic →
      ∃ result, optimize routines settings tree = some result := by
  intro h
  obtain ⟨result, hresult⟩ := h {} {} knotTree (by decide +kernel) knotTree_acyclic
  obtain ⟨changed, hrun, -⟩ := Unbounded.exists_finish {} {} knotTree
  rw [settle_knotTree, Option.map_none] at hrun
  have hnone : optimize {} {} knotTree = none := by
    rw [optimize, if_pos rfl, hrun]
    rfl
  cases hnone.symm.trans hresult

end ScriptLift
