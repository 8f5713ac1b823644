import ScriptLift.Compact.Draft
import ScriptLift.Proofs.Tree.Shape

namespace ScriptLift

namespace Tree

variable (tree : Tree) (routines : Routines)

/-- Whether a node writes the operand that stands at `role`. -/
def writesAt (node : Node) (role : Role) : Bool :=
  match node, role with
  | .binary .assign _ _ _, .left => true
  | .unary op _, .operand => op.isStep
  | .call callee arguments, .callArgument index =>
    Event.writesArgument tree routines (.call callee arguments) index
  | .action routine arguments, .actionArgument index =>
    Event.writesArgument tree routines (.action routine arguments) index
  | _, _ => false

/-- Only the left side of an assignment is not read. -/
def readsAt (node : Node) (role : Role) : Bool :=
  match node, role with
  | .binary .assign _ _ _, .left => false
  | _, _ => true

/-- Whether executing the node itself writes the slot. -/
def writes (id slot : NodeId) : Bool :=
  tree.isSlot slot && (tree.node id).operands.any fun operand =>
    operand.2 = slot && tree.writesAt routines (tree.node id) operand.1

/-- Whether executing the node itself reads the slot. -/
def reads (id slot : NodeId) : Bool :=
  tree.isSlot slot && (tree.node id).operands.any fun operand =>
    operand.2 = slot && readsAt (tree.node id) operand.1

end Tree

namespace Event

variable {tree : Tree} {routines : Routines} {id slot : NodeId} {role : Role} {sub : SubId}
  {deferred : Bool}

theorem mem_ofSlot_write {target : NodeId} {w : Write} :
    .write target w ∈ ofSlot tree routines id role slot →
      target = slot ∧ w.node = id ∧ tree.writesAt routines (tree.node id) role := by
  unfold ofSlot Tree.writesAt
  split <;> (try split) <;> simp_all

theorem exists_write_mem_ofSlot (slot : NodeId) (h : tree.writesAt routines (tree.node id) role) :
    ∃ w : Write, w.node = id ∧ .write slot w ∈ ofSlot tree routines id role slot := by
  unfold Tree.writesAt at h
  unfold ofSlot
  split at h <;> simp_all

theorem mem_ofSlot_read {target : NodeId} {r : Read} :
    .read target r ∈ ofSlot tree routines id role slot →
      target = slot ∧ r = ⟨id, role⟩ ∧ Tree.readsAt (tree.node id) role := by
  unfold ofSlot Tree.readsAt
  split <;> (try split) <;> simp_all

theorem read_mem_ofSlot (h : Tree.readsAt (tree.node id) role) :
    .read slot ⟨id, role⟩ ∈ ofSlot tree routines id role slot := by
  unfold Tree.readsAt at h
  unfold ofSlot
  split <;> (try split) <;> simp_all

theorem mem_ofControl {e : Event} (h : e ∈ ofControl tree sub deferred id) :
    (∀ slot r, e ≠ .read slot r) ∧ (∀ slot w, e ≠ .write slot w) ∧ ∀ s b, e ≠ .block s b := by
  unfold ofControl at h
  split at h <;> (try split at h) <;> simp_all

theorem mem_ofNode_write {w : Write}
    (h : .write slot w ∈ ofNode tree routines sub deferred id) :
    w.node = id ∧ tree.writes routines id slot := by
  rcases List.mem_append.1 h with hcontrol | hslots
  · exact absurd rfl ((mem_ofControl hcontrol).2.1 slot w)
  · obtain ⟨operand, hoperand, hevent⟩ := List.mem_flatMap.1 hslots
    obtain ⟨hmem, hslot⟩ := List.mem_filter.1 hoperand
    obtain ⟨rfl, hnode, hwrites⟩ := mem_ofSlot_write hevent
    refine ⟨hnode, ?_⟩
    simp only [Tree.writes, hslot, Bool.true_and, List.any_eq_true]
    exact ⟨operand, hmem, by simp [hwrites]⟩

theorem exists_write_mem_ofNode (sub : SubId) (deferred : Bool) (h : tree.writes routines id slot) :
    ∃ w : Write, w.node = id ∧ .write slot w ∈ ofNode tree routines sub deferred id := by
  simp only [Tree.writes, Bool.and_eq_true, List.any_eq_true, decide_eq_true_eq] at h
  obtain ⟨hslot, operand, hmem, rfl, hwrites⟩ := h
  obtain ⟨w, hnode, hevent⟩ := exists_write_mem_ofSlot operand.2 hwrites
  refine ⟨w, hnode, List.mem_append_right _ (List.mem_flatMap.2 ⟨operand, ?_, hevent⟩)⟩
  exact List.mem_filter.2 ⟨hmem, hslot⟩

theorem mem_ofNode_read {r : Read}
    (h : .read slot r ∈ ofNode tree routines sub deferred id) :
    r.node = id ∧ tree.reads id slot := by
  rcases List.mem_append.1 h with hcontrol | hslots
  · exact absurd rfl ((mem_ofControl hcontrol).1 slot r)
  · obtain ⟨operand, hoperand, hevent⟩ := List.mem_flatMap.1 hslots
    obtain ⟨hmem, hslot⟩ := List.mem_filter.1 hoperand
    obtain ⟨rfl, rfl, hreads⟩ := mem_ofSlot_read hevent
    refine ⟨rfl, ?_⟩
    simp only [Tree.reads, hslot, Bool.true_and, List.any_eq_true]
    exact ⟨operand, hmem, by simp [hreads]⟩

theorem exists_read_mem_ofNode (sub : SubId) (deferred : Bool) (h : tree.reads id slot) :
    ∃ r : Read, r.node = id ∧ .read slot r ∈ ofNode tree routines sub deferred id := by
  simp only [Tree.reads, Bool.and_eq_true, List.any_eq_true, decide_eq_true_eq] at h
  obtain ⟨hslot, operand, hmem, rfl, hreads⟩ := h
  refine ⟨⟨id, operand.1⟩, rfl, List.mem_append_right _ (List.mem_flatMap.2 ⟨operand, ?_, ?_⟩)⟩
  · exact List.mem_filter.2 ⟨hmem, hslot⟩
  · exact read_mem_ofSlot hreads

theorem block_notMem_ofNode {s : SubId} {b : NodeId} :
    .block s b ∉ ofNode tree routines sub deferred id := by
  intro h
  rcases List.mem_append.1 h with hcontrol | hslots
  · exact absurd rfl ((mem_ofControl hcontrol).2.2 s b)
  · obtain ⟨operand, -, hevent⟩ := List.mem_flatMap.1 hslots
    unfold ofSlot at hevent
    split at hevent <;> (try split at hevent) <;> simp_all

/-- The events are those of the blocks visited, and blocks found in them are visited or wait. -/
structure Covers (tree : Tree) (routines : Routines) (events : List Event)
    (visited pending : List NodeId) : Prop where
  nested : ∀ id ∈ visited, ∀ b ∈ tree.nestedBlocks false id, b.1 ∈ visited ∨ b.1 ∈ pending
  walked : ∀ id ∈ visited, ∃ sub deferred, .block sub id ∈ events ∧
    ∀ n ∈ tree.nodesOf id, ∀ e ∈ ofNode tree routines sub deferred n, e ∈ events
  origin : ∀ e ∈ events, ∃ id ∈ visited, ∃ sub deferred, e = .block sub id ∨
    ∃ n ∈ tree.nodesOf id, e ∈ ofNode tree routines sub deferred n

theorem map_fst_nestedBlocks (deferred : Bool) (id : NodeId) :
    (tree.nestedBlocks deferred id).map (·.1) = (tree.nestedBlocks false id).map (·.1) := by
  simp [Tree.nestedBlocks, Tree.operandBlocks, List.map_flatMap, Function.comp_def]

namespace Covers

variable {events : List Event} {visited waiting : List NodeId}

theorem wait (h : Covers tree routines events visited waiting) (more : List NodeId)
    (hmore : waiting ⊆ more) : Covers tree routines events visited more :=
  ⟨fun id hid b hb => (h.nested id hid b hb).imp_right fun hw => hmore hw, h.walked, h.origin⟩

/-- One block: its events follow, and the blocks found in it wait. -/
theorem visit (h : Covers tree routines events visited (id :: waiting)) (sub : SubId)
    (deferred : Bool) :
    Covers tree routines (events ++ .block sub id :: (tree.nodesOf id).flatMap
      (ofNode tree routines sub deferred)) (id :: visited)
      ((tree.nestedBlocks false id).map (·.1) ++ waiting) where
  nested b hb c hc := by
    rcases List.mem_cons.1 hb with rfl | hb
    · exact .inr (List.mem_append_left _ (List.mem_map_of_mem hc))
    · rcases h.nested b hb c hc with hv | hw
      · exact .inl (List.mem_cons_of_mem _ hv)
      · rcases List.mem_cons.1 hw with heq | hw
        · exact .inl (heq ▸ List.mem_cons_self)
        · exact .inr (List.mem_append_right _ hw)
  walked b hb := by
    rcases List.mem_cons.1 hb with rfl | hb
    · refine ⟨sub, deferred, List.mem_append_right _ List.mem_cons_self, fun n hn e he => ?_⟩
      exact List.mem_append_right _ (List.mem_cons_of_mem _ (List.mem_flatMap.2 ⟨n, hn, he⟩))
    · obtain ⟨s, d, hblock, hnodes⟩ := h.walked b hb
      exact ⟨s, d, List.mem_append_left _ hblock,
        fun n hn e he => List.mem_append_left _ (hnodes n hn e he)⟩
  origin e he := by
    rcases List.mem_append.1 he with he | he
    · obtain ⟨b, hb, s, d, hor⟩ := h.origin e he
      exact ⟨b, List.mem_cons_of_mem _ hb, s, d, hor⟩
    · refine ⟨id, List.mem_cons_self, sub, deferred, ?_⟩
      rcases List.mem_cons.1 he with rfl | he
      · exact .inl rfl
      · obtain ⟨n, hn, he⟩ := List.mem_flatMap.1 he
        exact .inr ⟨n, hn, he⟩

theorem walk (sub : SubId) (pending : List (NodeId × Bool))
    (h : Covers tree routines events visited (pending.map (·.1))) :
    Covers tree routines (events ++ (walk tree routines sub pending visited).1)
        (walk tree routines sub pending visited).2 [] ∧
      visited ⊆ (Event.walk tree routines sub pending visited).2 ∧
      pending.map (·.1) ⊆ (Event.walk tree routines sub pending visited).2 := by
  fun_induction Event.walk tree routines sub pending visited generalizing events with
  | case1 visited => simpa using h
  | case2 visited id deferred rest hmem ih =>
    have hrest : Covers tree routines events visited (rest.map (·.1)) := by
      refine ⟨fun b hb c hc => ?_, h.walked, h.origin⟩
      rcases h.nested b hb c hc with hv | hw
      · exact .inl hv
      · rcases List.mem_cons.1 hw with heq | hw
        · exact .inl (heq ▸ hmem)
        · exact .inr hw
    obtain ⟨hcovers, hvisited, hpending⟩ := ih hrest
    refine ⟨hcovers, hvisited, ?_⟩
    rw [List.map_cons]
    exact List.cons_subset.2 ⟨hvisited hmem, hpending⟩
  | case3 visited id deferred rest hmem later =>
    rename_i ih
    have hnext := (h.visit sub deferred).wait
      (((tree.nestedBlocks deferred id).reverse ++ rest).map (·.1)) (fun b hb => by
        rw [List.map_append, List.map_reverse, List.mem_append, List.mem_reverse,
          map_fst_nestedBlocks]
        exact List.mem_append.1 hb)
    obtain ⟨hcovers, hvisited, hpending⟩ := ih hnext
    refine ⟨by simpa using hcovers, fun b hb => hvisited (List.mem_cons_of_mem _ hb), ?_⟩
    rw [List.map_cons]
    refine List.cons_subset.2 ⟨hvisited List.mem_cons_self, fun b hb => hpending ?_⟩
    rw [List.map_append]
    exact List.mem_append_right _ hb

theorem extend (h : Covers tree routines events visited []) (sub : SubId) :
    Covers tree routines (extend tree routines (events, visited) sub).1
        (extend tree routines (events, visited) sub).2 [] ∧
      visited ⊆ (Event.extend tree routines (events, visited) sub).2 ∧
      (tree.sub sub).root ∈ (Event.extend tree routines (events, visited) sub).2 := by
  obtain ⟨hcovers, hvisited, hroot⟩ :=
    (h.wait _ (List.nil_subset _)).walk sub [((tree.sub sub).root, false)]
  exact ⟨hcovers, hvisited, hroot (by simp)⟩

end Covers

/-- The blocks that a walk through the output visits. -/
def visited (tree : Tree) (routines : Routines) : List NodeId :=
  (tree.order.foldl (extend tree routines) ([], [])).2

theorem covers_trace (tree : Tree) (routines : Routines) :
    Covers tree routines (trace tree routines) (visited tree routines) [] ∧
      ∀ sub ∈ tree.order, (tree.sub sub).root ∈ visited tree routines := by
  have hfold : ∀ (subs : List SubId) (state : List Event × List NodeId),
      Covers tree routines state.1 state.2 [] →
      Covers tree routines (subs.foldl (extend tree routines) state).1
          (subs.foldl (extend tree routines) state).2 [] ∧
        state.2 ⊆ (subs.foldl (extend tree routines) state).2 ∧
        ∀ sub ∈ subs, (tree.sub sub).root ∈ (subs.foldl (extend tree routines) state).2 := by
    intro subs
    induction subs with
    | nil => exact fun state h => ⟨h, List.Subset.refl _, by simp⟩
    | cons sub subs ih =>
      intro state h
      obtain ⟨hnext, hsub, hroot⟩ := h.extend sub
      obtain ⟨hcovers, hvisited, hroots⟩ := ih _ hnext
      refine ⟨hcovers, List.Subset.trans hsub hvisited, fun other hother => ?_⟩
      rcases List.mem_cons.1 hother with rfl | hother
      · exact hvisited hroot
      · exact hroots other hother
  obtain ⟨hcovers, -, hroots⟩ := hfold tree.order ([], []) ⟨by simp, by simp, by simp⟩
  exact ⟨hcovers, hroots⟩

end Event

namespace Event

def readOf (slot : NodeId) : Event → Option Read
  | .read s r => if s = slot then some r else none
  | _ => none

def writeOf (slot : NodeId) : Event → Option Write
  | .write s w => if s = slot then some w else none
  | _ => none

def gotoOf (label : NodeId) : Event → Option NodeId
  | .goto l node => if l = label then some node else none
  | _ => none

def blockOf (sub : SubId) : Event → Option NodeId
  | .block s node => if s = sub then some node else none
  | _ => none

def liveBlock? : Event → Option NodeId
  | .block _ node => some node
  | _ => none

end Event

namespace Facts

variable {facts : Facts} {tree : Tree} {routines : Routines} {slot block : NodeId}

theorem index_eq_iff {a b : NodeId} : a.index = b.index ↔ a = b :=
  ⟨fun h => by cases a; cases b; simp_all, fun h => h ▸ rfl⟩

theorem sub_index_eq_iff {a b : SubId} : a.index = b.index ↔ a = b :=
  ⟨fun h => by cases a; cases b; simp_all, fun h => h ▸ rfl⟩

theorem readsOf_record (e : Event) :
    (facts.record e).readsOf slot = facts.readsOf slot ++ (e.readOf slot).toList := by
  cases e <;> simp [record, readsOf, Event.readOf, Index.get_add, index_eq_iff]
  split <;> rfl

theorem writesOf_record (e : Event) :
    (facts.record e).writesOf slot = facts.writesOf slot ++ (e.writeOf slot).toList := by
  cases e <;> simp [record, writesOf, Event.writeOf, Index.get_add, index_eq_iff]
  split <;> rfl

theorem gotosTo_record (e : Event) :
    (facts.record e).gotosTo slot = facts.gotosTo slot ++ (e.gotoOf slot).toList := by
  cases e <;> simp [record, gotosTo, Event.gotoOf, Index.get_add, index_eq_iff]
  split <;> rfl

theorem blocksOf_record (e : Event) (sub : SubId) :
    (facts.record e).blocksOf sub = facts.blocksOf sub ++ (e.blockOf sub).toList := by
  cases e <;> simp [record, blocksOf, Event.blockOf, Index.get_add, sub_index_eq_iff]
  split <;> rfl

theorem foldl_record {α : Type} (view : Facts → List α) {of : Event → Option α}
    (h : ∀ facts e, view (record facts e) = view facts ++ (of e).toList) (events : List Event)
    (facts : Facts) : view (events.foldl record facts) = view facts ++ events.filterMap of := by
  induction events generalizing facts with
  | nil => simp
  | cons e events ih =>
    rw [List.foldl_cons, ih, h, List.filterMap_cons]
    cases of e <;> simp

theorem readsOf_analyze : (facts.analyze tree routines).readsOf slot =
    (Event.trace tree routines).filterMap (Event.readOf slot) := by
  have hclear : facts.clear.readsOf slot = [] := Index.get_empty _
  rw [analyze, foldl_record (readsOf · slot) (fun _ e => readsOf_record e), hclear,
    List.nil_append]

theorem writesOf_analyze : (facts.analyze tree routines).writesOf slot =
    (Event.trace tree routines).filterMap (Event.writeOf slot) := by
  have hclear : facts.clear.writesOf slot = [] := Index.get_empty _
  rw [analyze, foldl_record (writesOf · slot) (fun _ e => writesOf_record e), hclear,
    List.nil_append]

theorem gotosTo_analyze : (facts.analyze tree routines).gotosTo slot =
    (Event.trace tree routines).filterMap (Event.gotoOf slot) := by
  have hclear : facts.clear.gotosTo slot = [] := Index.get_empty _
  rw [analyze, foldl_record (gotosTo · slot) (fun _ e => gotosTo_record e), hclear,
    List.nil_append]

theorem blocksOf_analyze (sub : SubId) : (facts.analyze tree routines).blocksOf sub =
    (Event.trace tree routines).filterMap (Event.blockOf sub) := by
  have hclear : facts.clear.blocksOf sub = [] := Index.get_empty _
  rw [analyze, foldl_record (blocksOf · sub) (fun _ e => blocksOf_record e sub), hclear,
    List.nil_append]

theorem live_analyze : (facts.analyze tree routines).live =
    ((Event.trace tree routines).filterMap Event.liveBlock?).reverse := by
  have hview : ∀ (facts : Facts) e,
      (facts.record e).live.reverse = facts.live.reverse ++ e.liveBlock?.toList := by
    intro facts e
    cases e <;> simp [record, Event.liveBlock?]
  have hfold := foldl_record (·.live.reverse) hview (Event.trace tree routines) facts.clear
  simpa [analyze, clear] using congrArg List.reverse hfold

end Facts

namespace Tree

variable {tree : Tree} {id n : NodeId}

theorem self_mem_within (depth : Nat) : id ∈ tree.within depth id := by
  cases depth <;> simp [within]

theorem mem_within_succ {depth : Nat} {statement : NodeId} (h : id ∈ tree.within depth statement)
    (hn : n ∈ tree.innerOperands id) : n ∈ tree.within (depth + 1) statement := by
  induction depth generalizing statement with
  | zero =>
    obtain rfl : id = statement := by simpa [within] using h
    exact List.mem_cons_of_mem _ (List.mem_flatMap.2 ⟨n, hn, self_mem_within 0⟩)
  | succ depth ih =>
    rcases List.mem_cons.1 h with rfl | h
    · exact List.mem_cons_of_mem _ (List.mem_flatMap.2 ⟨n, hn, self_mem_within _⟩)
    · obtain ⟨child, hchild, h⟩ := List.mem_flatMap.1 h
      exact List.mem_cons_of_mem _ (List.mem_flatMap.2 ⟨child, hchild, ih h⟩)

theorem within_mono {depth more : Nat} (h : depth ≤ more) :
    tree.within depth id ⊆ tree.within more id := by
  induction depth generalizing more id with
  | zero =>
    intro n hn
    obtain rfl : n = id := by simpa [within] using hn
    exact self_mem_within more
  | succ depth ih =>
    obtain ⟨more, rfl⟩ : ∃ k, more = k + 1 := ⟨more - 1, by omega⟩
    intro n hn
    rcases List.mem_cons.1 hn with rfl | hn
    · exact List.mem_cons_self
    · obtain ⟨child, hchild, hn⟩ := List.mem_flatMap.1 hn
      exact List.mem_cons_of_mem _ (List.mem_flatMap.2 ⟨child, hchild, ih (by omega) hn⟩)

/-- Where a walk through the output meets a node: slots go with what holds them, blocks are visited,
and all else lies at most `depth` levels below a statement of a block that is visited. -/
def Met (tree : Tree) (routines : Routines) (depth : Nat) (id : NodeId) : Prop :=
  tree.kind id = .slot ∨ (tree.kind id = .block ∧ id ∈ Event.visited tree routines) ∨
    (tree.kind id ≠ .block ∧ ∃ block ∈ Event.visited tree routines,
      ∃ statement ∈ tree.statements block, id ∈ tree.within depth statement)

theorem below_of_kind_slot (h : tree.kind id = .slot) (descend : Bool) :
    tree.below descend id = [] := by
  unfold kind at h
  unfold below
  cases hnode : tree.node id <;> simp_all [Node.kind, Node.operands]

theorem below_of_kind_block (h : tree.kind id = .block) :
    tree.below true id = tree.statements id := by
  unfold kind at h
  unfold below statements
  cases hnode : tree.node id <;> simp_all [Node.kind]

theorem below_of_kind_ne_block (h : tree.kind id ≠ .block) (descend : Bool) :
    tree.below descend id = (tree.node id).operands.map (·.2) := by
  unfold kind at h
  unfold below
  cases hnode : tree.node id <;> simp_all [Node.kind]

namespace Met

variable {routines : Routines} {depth : Nat}

theorem mono (h : tree.Met routines depth id) {more : Nat} (hle : depth ≤ more) :
    tree.Met routines more id := by
  rcases h with hslot | hblock | ⟨hkind, block, hblock, statement, hstatement, hmem⟩
  · exact .inl hslot
  · exact .inr (.inl hblock)
  · exact .inr (.inr ⟨hkind, block, hblock, statement, hstatement, within_mono hle hmem⟩)

/-- One step down. Blocks that are operands are visited in their turn. -/
theorem below (htree : tree.WellFormed) (h : tree.Met routines depth id)
    (hdepth : depth < tree.size) (hn : n ∈ tree.below true id) :
    tree.Met routines (depth + 1) n := by
  rcases h with hslot | ⟨hkind, hvisited⟩ | ⟨hkind, block, hblock, statement, hstatement, hmem⟩
  · rw [below_of_kind_slot hslot] at hn
    cases hn
  · rw [below_of_kind_block hkind] at hn
    exact .inr (.inr ⟨(htree.statement hn).kind, id, hvisited, n, hn, self_mem_within _⟩)
  · rw [below_of_kind_ne_block hkind] at hn
    by_cases hslot : tree.kind n = .slot
    · exact .inl hslot
    · by_cases hb : tree.kind n = .block
      · refine .inr (.inl ⟨hb, ?_⟩)
        obtain ⟨operand, hoperand, rfl⟩ := List.mem_map.1 hn
        have hnested : (operand.2, operand.1.isDeferring) ∈ tree.nestedBlocks false block := by
          refine List.mem_flatMap.2 ⟨id, List.mem_flatMap.2 ⟨statement, hstatement,
            within_mono (Nat.le_of_lt hdepth) hmem⟩, List.mem_map.2 ⟨operand, ?_, by simp⟩⟩
          exact List.mem_filter.2 ⟨hoperand, by simpa using hb⟩
        simpa using (Event.covers_trace tree routines).1.nested block hblock _ hnested
      · refine .inr (.inr ⟨hb, block, hblock, statement, hstatement, mem_within_succ hmem ?_⟩)
        exact List.mem_filter.2 ⟨hn, by simp [hslot, hb]⟩

theorem subtreeTo (htree : tree.WellFormed) {levels : Nat}
    (h : tree.Met routines depth id) (hdepth : depth + levels ≤ tree.size)
    (hn : n ∈ tree.subtreeTo true levels id) : tree.Met routines tree.size n := by
  induction levels generalizing depth id with
  | zero =>
    obtain rfl : n = id := by simpa [Tree.subtreeTo] using hn
    exact h.mono hdepth
  | succ levels ih =>
    rcases List.mem_cons.1 hn with rfl | hn
    · exact h.mono (by omega)
    · obtain ⟨child, hchild, hn⟩ := List.mem_flatMap.1 hn
      exact ih (h.below htree (by omega) hchild) (by omega) hn

theorem exists_nodesOf (h : tree.Met routines tree.size id) (hoperands : (tree.node id).operands ≠ []) :
    ∃ block ∈ Event.visited tree routines, id ∈ tree.nodesOf block := by
  rcases h with hslot | ⟨hkind, -⟩ | ⟨-, block, hblock, statement, hstatement, hmem⟩
  · exact absurd (by simpa [below_of_kind_ne_block (by simp [hslot] : tree.kind id ≠ .block)]
      using below_of_kind_slot hslot false) hoperands
  · unfold kind at hkind
    cases hnode : tree.node id <;> simp_all [Node.kind, Node.operands]
  · exact ⟨block, hblock, List.mem_flatMap.2 ⟨statement, hstatement, hmem⟩⟩

end Met

theorem met_of_mem_subtree {routines : Routines} (htree : tree.WellFormed) {block : NodeId}
    (hblock : block ∈ Event.visited tree routines) {statement : NodeId}
    (hstatement : statement ∈ tree.statements block) (hn : n ∈ tree.subtree true statement) :
    tree.Met routines tree.size n :=
  Met.subtreeTo htree (.inr (.inr ⟨(htree.statement hstatement).kind, block, hblock, statement,
    hstatement, self_mem_within 0⟩)) (by omega) hn

end Tree

namespace Facts

variable {facts : Facts} {tree : Tree} {routines : Routines} {slot block : NodeId}

theorem mem_readsOf_analyze {r : Read} :
    r ∈ (facts.analyze tree routines).readsOf slot ↔ .read slot r ∈ Event.trace tree routines := by
  rw [readsOf_analyze, List.mem_filterMap]
  constructor
  · rintro ⟨e, he, hof⟩
    cases e <;> simp_all [Event.readOf]
  · exact fun h => ⟨_, h, by simp [Event.readOf]⟩

theorem mem_writesOf_analyze {w : Write} :
    w ∈ (facts.analyze tree routines).writesOf slot ↔ .write slot w ∈ Event.trace tree routines := by
  rw [writesOf_analyze, List.mem_filterMap]
  constructor
  · rintro ⟨e, he, hof⟩
    cases e <;> simp_all [Event.writeOf]
  · exact fun h => ⟨_, h, by simp [Event.writeOf]⟩

theorem isLive_analyze : (facts.analyze tree routines).isLive block ↔
    block ∈ Event.visited tree routines := by
  have hcovers := (Event.covers_trace tree routines).1
  rw [isLive, live_analyze, List.contains_iff_mem, List.mem_reverse, List.mem_filterMap]
  constructor
  · rintro ⟨e, he, hlive⟩
    obtain ⟨id, hid, sub, deferred, rfl | ⟨n, -, hn⟩⟩ := hcovers.origin e he
    · simp_all [Event.liveBlock?]
    · cases e with
      | block s b => exact absurd hn Event.block_notMem_ofNode
      | _ => simp [Event.liveBlock?] at hlive
  · intro h
    obtain ⟨sub, -, hmem, -⟩ := hcovers.walked block h
    exact ⟨_, hmem, rfl⟩

theorem exists_mem_writesOf_analyze (facts : Facts) {n : NodeId} (hmet : tree.Met routines tree.size n)
    (h : tree.writes routines n slot) :
    ∃ w ∈ (facts.analyze tree routines).writesOf slot, w.node = n := by
  have hoperands : (tree.node n).operands ≠ [] := by
    rintro hnil
    simp [Tree.writes, hnil] at h
  obtain ⟨b, hb, hmem⟩ := hmet.exists_nodesOf hoperands
  obtain ⟨sub, deferred, -, hevents⟩ := (Event.covers_trace tree routines).1.walked b hb
  obtain ⟨w, hw, hevent⟩ := Event.exists_write_mem_ofNode sub deferred h
  exact ⟨w, mem_writesOf_analyze.2 (hevents n hmem _ hevent), hw⟩

theorem exists_mem_readsOf_analyze (facts : Facts) {n : NodeId} (hmet : tree.Met routines tree.size n)
    (h : tree.reads n slot) :
    ∃ r ∈ (facts.analyze tree routines).readsOf slot, r.node = n := by
  have hoperands : (tree.node n).operands ≠ [] := by
    rintro hnil
    simp [Tree.reads, hnil] at h
  obtain ⟨b, hb, hmem⟩ := hmet.exists_nodesOf hoperands
  obtain ⟨sub, deferred, -, hevents⟩ := (Event.covers_trace tree routines).1.walked b hb
  obtain ⟨r, hr, hevent⟩ := Event.exists_read_mem_ofNode sub deferred h
  exact ⟨r, mem_readsOf_analyze.2 (hevents n hmem _ hevent), hr⟩

theorem writes_of_mem_writesOf_analyze {w : Write}
    (h : w ∈ (facts.analyze tree routines).writesOf slot) : tree.writes routines w.node slot := by
  obtain ⟨id, -, sub, deferred, hor⟩ :=
    (Event.covers_trace tree routines).1.origin _ (mem_writesOf_analyze.1 h)
  rcases hor with hor | ⟨n, -, hn⟩
  · cases hor
  · obtain ⟨hnode, hwrites⟩ := Event.mem_ofNode_write hn
    exact hnode ▸ hwrites

theorem reads_of_mem_readsOf_analyze {r : Read}
    (h : r ∈ (facts.analyze tree routines).readsOf slot) : tree.reads r.node slot := by
  obtain ⟨id, -, sub, deferred, hor⟩ :=
    (Event.covers_trace tree routines).1.origin _ (mem_readsOf_analyze.1 h)
  rcases hor with hor | ⟨n, -, hn⟩
  · cases hor
  · obtain ⟨hnode, hreads⟩ := Event.mem_ofNode_read hn
    exact hnode ▸ hreads

end Facts

end ScriptLift
