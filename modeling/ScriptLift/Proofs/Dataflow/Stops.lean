import Mathlib.Data.List.Flatten
import ScriptLift.Proofs.Tree.Cycles

/-! The walk through the output, stop by stop.

Every block that is reached is visited once. So if a slot is read once, the node that reads it lies in
one block only, and in one statement of it. -/
namespace ScriptLift

section Pairs

variable {α β : Type} {l : List α} {x y : α}

theorem pair_sublist_flatMap {f : α → List β} {b : β} (h : [x, y].Sublist l) (hx : b ∈ f x)
    (hy : b ∈ f y) : [b, b].Sublist (l.flatMap f) := by
  have hpair : [b, b].Sublist (f x ++ f y) :=
    (List.singleton_sublist.2 hx).append (List.singleton_sublist.2 hy)
  have hflat := h.flatMap f
  rw [List.flatMap_cons, List.flatMap_singleton] at hflat
  exact hpair.trans hflat

theorem pair_sublist_of_ne (hx : x ∈ l) (hy : y ∈ l) (hne : x ≠ y) :
    [x, y].Sublist l ∨ [y, x].Sublist l := by
  obtain ⟨before, behind, rfl⟩ := List.append_of_mem hx
  rcases List.mem_append.1 hy with hy | hy
  · refine .inr ((List.singleton_sublist.2 hy).append ?_)
    exact List.singleton_sublist.2 List.mem_cons_self
  · rcases List.mem_cons.1 hy with rfl | hy
    · exact absurd rfl hne
    · refine .inl (List.Sublist.trans ?_ (List.sublist_append_right before _))
      exact List.Sublist.cons_cons x (List.singleton_sublist.2 hy)

theorem pair_sublist_of_lt {i j : Nat} (hlt : i < j) (hi : l[i]? = some x)
    (hj : l[j]? = some y) : [x, y].Sublist l := by
  have hx : x ∈ l.take j := List.mem_of_getElem? (by rw [List.getElem?_take_of_lt hlt, hi])
  have hy : y ∈ l.drop j := List.mem_of_getElem? (i := 0) (by rw [List.getElem?_drop, Nat.add_zero, hj])
  have happend := (List.singleton_sublist.2 hx).append (List.singleton_sublist.2 hy)
  rwa [List.take_append_drop] at happend

end Pairs

namespace Tree

variable {tree : Tree} {id n s : NodeId}

/-- Within a statement: the operand is neither a slot nor a block. -/
def Inner (tree : Tree) (a b : NodeId) : Prop := b ∈ tree.innerOperands a

theorem Inner.kind (h : tree.Inner id n) : tree.kind n ≠ .slot ∧ tree.kind n ≠ .block := by
  simpa using (List.mem_filter.1 h).2

theorem kind_ne_of_operand {role : Role} (h : (role, n) ∈ (tree.node id).operands) :
    tree.kind id ≠ .slot ∧ tree.kind id ≠ .block := by
  unfold Tree.kind
  cases hnode : tree.node id <;> simp_all [Node.kind, Node.operands]

theorem descends_of_operand {role : Role} (h : (role, n) ∈ (tree.node id).operands) :
    tree.Descends id n := by
  have hkind := (kind_ne_of_operand h).2
  refine mem_descents.2 ⟨?_, .inl hkind⟩
  rw [below_of_kind_ne_block hkind]
  exact List.mem_map.2 ⟨_, h, rfl⟩

theorem Inner.descends (h : tree.Inner id n) : tree.Descends id n := by
  obtain ⟨⟨role, operand⟩, hmem, rfl⟩ := List.mem_map.1 (List.mem_filter.1 h).1
  exact descends_of_operand hmem

theorem descends_of_statement (hs : s ∈ tree.statements id) (hkind : tree.kind s ≠ .block) :
    tree.Descends id s :=
  mem_descents.2 ⟨by rw [below_of_kind_block (kind_of_statement hs)]; exact hs, .inr hkind⟩

theorem reaches_of_inner (h : Relation.ReflTransGen tree.Inner id n) :
    Relation.ReflTransGen tree.Descends id n :=
  Relation.ReflTransGen.mono (fun _ _ => Inner.descends) _ _ h

theorem kind_of_inner (h : Relation.ReflTransGen tree.Inner id n) (hid : tree.kind id ≠ .block) :
    tree.kind n ≠ .block := by
  cases h with
  | refl => exact hid
  | tail _ hstep => exact hstep.kind.2

theorem inner_of_mem_within {depth : Nat} (h : n ∈ tree.within depth s) :
    Relation.ReflTransGen tree.Inner s n := by
  induction depth generalizing s with
  | zero =>
    obtain rfl : n = s := by simpa [within] using h
    exact .refl
  | succ depth ih =>
    rcases List.mem_cons.1 h with rfl | h
    · exact .refl
    · obtain ⟨child, hchild, h⟩ := List.mem_flatMap.1 h
      exact .head hchild (ih h)

theorem mem_within_of_mem_iterate {steps : Nat}
    (h : n ∈ (Reach.widen fun a => (tree.innerOperands a).toFinset)^[steps] {s}) :
    n ∈ tree.within steps s := by
  induction steps generalizing n with
  | zero => simpa [within] using h
  | succ steps ih =>
    rw [Function.iterate_succ_apply', Reach.widen, Finset.mem_union, Finset.mem_biUnion] at h
    rcases h with h | ⟨mid, hmid, hn⟩
    · exact within_mono (Nat.le_succ _) (ih h)
    · exact mem_within_succ (ih hmid) (List.mem_toFinset.1 hn)

theorem Closed.statement (hclosed : tree.Closed) (hs : s ∈ tree.statements id) :
    s.index < tree.size :=
  hclosed.below id s (by rw [below_of_kind_block (kind_of_statement hs)]; exact hs)

theorem Closed.mem_within (hclosed : tree.Closed) (hs : s.index < tree.size)
    (h : Relation.ReflTransGen tree.Inner s n) : n ∈ tree.within tree.size s := by
  apply mem_within_of_mem_iterate
  refine (Reach.mem_iterate_iff (mem_handles.2 hs) (fun a _ b hb => mem_handles.2 ?_)
    card_handles_le).2 ?_
  · exact hclosed.descent (Inner.descends (List.mem_toFinset.1 hb))
  · exact Relation.ReflTransGen.mono (fun a b hb => List.mem_toFinset.2 hb) _ _ h

/-- What a search without blocks finds is a node of the statement if it has operands. -/
theorem mem_within_of_mem_subtreeTo {depth : Nat} {operand : Role × NodeId}
    (hn : operand ∈ (tree.node n).operands) (h : n ∈ tree.subtreeTo false depth s) :
    n ∈ tree.within depth s := by
  have hinner : ∀ {c d}, n ∈ tree.subtreeTo false d c →
      tree.kind c ≠ .slot ∧ tree.kind c ≠ .block := by
    intro c d hc
    have hself := @kind_ne_of_operand _ _ operand.2 operand.1 hn
    cases d with
    | zero =>
      obtain rfl : n = c := by simpa [subtreeTo] using hc
      exact hself
    | succ d =>
      rcases List.mem_cons.1 hc with rfl | hc
      · exact hself
      · obtain ⟨below, hbelow, -⟩ := List.mem_flatMap.1 hc
        unfold Tree.below at hbelow
        unfold Tree.kind
        cases hnode : tree.node c <;> simp_all [Node.kind, Node.operands]
  induction depth generalizing s with
  | zero => simpa [within, subtreeTo] using h
  | succ depth ih =>
    rcases List.mem_cons.1 h with rfl | h
    · exact List.mem_cons_self
    · obtain ⟨child, hchild, h⟩ := List.mem_flatMap.1 h
      refine List.mem_cons_of_mem _ (List.mem_flatMap.2 ⟨child, ?_, ih h⟩)
      have hkind := hinner h
      have hs : tree.kind s ≠ .block := by
        intro hblock
        unfold Tree.kind at hblock
        unfold Tree.below at hchild
        cases hnode : tree.node s <;> simp_all [Node.kind]
      rw [below_of_kind_ne_block hs] at hchild
      exact List.mem_filter.2 ⟨hchild, by simp [hkind]⟩

end Tree

namespace Event

variable {tree : Tree} {routines : Routines} {slot block : NodeId} {read : Read}

/-- A visit to a block: for which subroutine, and whether the block runs later. -/
structure Stop where
  sub : SubId
  deferred : Bool
  block : NodeId

def ofStop (tree : Tree) (routines : Routines) (stop : Stop) : List Event :=
  .block stop.sub stop.block ::
    (tree.nodesOf stop.block).flatMap (ofNode tree routines stop.sub stop.deferred)

theorem walk_eq (sub : SubId) (pending : List (NodeId × Bool)) (visited : List NodeId) :
    ∃ stops : List Stop,
      (walk tree routines sub pending visited).1 = stops.flatMap (ofStop tree routines) ∧
      (walk tree routines sub pending visited).2 = (stops.map (·.block)).reverse ++ visited ∧
      (visited.Nodup → (walk tree routines sub pending visited).2.Nodup) := by
  fun_induction walk tree routines sub pending visited with
  | case1 visited => exact ⟨[], rfl, rfl, fun h => h⟩
  | case2 visited id deferred rest hmem ih => exact ih
  | case3 visited id deferred rest hmem later ih =>
    obtain ⟨stops, hevents, hvisited, hnodup⟩ := ih
    refine ⟨⟨sub, deferred, id⟩ :: stops, ?_, ?_, fun h => ?_⟩
    · rw [List.flatMap_cons, ← hevents]
      rfl
    · simpa using hvisited
    · exact hnodup (List.nodup_cons.2 ⟨hmem, h⟩)

/-- The events are those of the stops, one after the other. -/
theorem trace_eq (tree : Tree) (routines : Routines) : ∃ stops : List Stop,
    trace tree routines = stops.flatMap (ofStop tree routines) ∧
      visited tree routines = (stops.map (·.block)).reverse ∧ (visited tree routines).Nodup := by
  have hfold : ∀ (subs : List SubId) (state : List Event × List NodeId), state.2.Nodup →
      ∃ stops : List Stop,
        (subs.foldl (extend tree routines) state).1 =
          state.1 ++ stops.flatMap (ofStop tree routines) ∧
        (subs.foldl (extend tree routines) state).2 =
          (stops.map (·.block)).reverse ++ state.2 ∧
        (subs.foldl (extend tree routines) state).2.Nodup := by
    intro subs
    induction subs with
    | nil => exact fun state h => ⟨[], by simp, by simp, h⟩
    | cons sub subs ih =>
      intro state h
      obtain ⟨first, hfirst, hvisited, hnodup⟩ := @walk_eq tree routines sub
        [((tree.sub sub).root, false)] state.2
      obtain ⟨stops, hevents, hmore, hlast⟩ := ih (extend tree routines state sub) (hnodup h)
      refine ⟨first ++ stops, ?_, ?_, hlast⟩
      · rw [List.foldl_cons, hevents, extend, hfirst, List.flatMap_append, List.append_assoc]
      · rw [List.foldl_cons, hmore, extend, hvisited]
        simp
  obtain ⟨stops, hevents, hvisited, hnodup⟩ := hfold tree.order ([], []) List.nodup_nil
  exact ⟨stops, by simpa [trace] using hevents, by simpa [visited] using hvisited, hnodup⟩

/-- What holds of the roots, and of the blocks found in a block of which it holds, holds of all that
are visited. -/
theorem visited_induction {P : NodeId → Prop}
    (hroot : ∀ sub ∈ tree.order, P (tree.sub sub).root)
    (hnested : ∀ b, P b → ∀ c ∈ tree.nestedBlocks false b, P c.1) :
    ∀ b ∈ visited tree routines, P b := by
  have hfound : ∀ {deferred b}, P b → ∀ c ∈ tree.nestedBlocks deferred b, P c.1 := by
    intro deferred b hb c hc
    have hmem := List.mem_map_of_mem (f := (·.1)) hc
    rw [map_fst_nestedBlocks] at hmem
    obtain ⟨d, hd, heq⟩ := List.mem_map.1 hmem
    exact heq ▸ hnested b hb d hd
  have hwalk : ∀ (sub : SubId) (pending : List (NodeId × Bool)) (visited : List NodeId),
      (∀ p ∈ pending, P p.1) → (∀ b ∈ visited, P b) →
        ∀ b ∈ (walk tree routines sub pending visited).2, P b := by
    intro sub pending visited
    fun_induction walk tree routines sub pending visited with
    | case1 visited => exact fun _ hvisited => hvisited
    | case2 visited id deferred rest hmem ih =>
      exact fun hpending hvisited => ih (fun p hp => hpending p (List.mem_cons_of_mem _ hp)) hvisited
    | case3 visited id deferred rest hmem later ih =>
      intro hpending hvisited
      have hid := hpending _ List.mem_cons_self
      apply ih
      · intro p hp
        rcases List.mem_append.1 hp with hp | hp
        · exact hfound hid p (List.mem_reverse.1 hp)
        · exact hpending p (List.mem_cons_of_mem _ hp)
      · intro b hb
        rcases List.mem_cons.1 hb with rfl | hb
        · exact hid
        · exact hvisited b hb
  have hfold : ∀ (subs : List SubId) (state : List Event × List NodeId), subs ⊆ tree.order →
      (∀ b ∈ state.2, P b) → ∀ b ∈ (subs.foldl (extend tree routines) state).2, P b := by
    intro subs
    induction subs with
    | nil => exact fun _ _ hstate => hstate
    | cons sub subs ih =>
      intro state hsubs hstate
      refine ih _ (List.subset_of_cons_subset hsubs) (hwalk sub _ state.2 (fun p hp => ?_) hstate)
      obtain rfl := List.mem_singleton.1 hp
      exact hroot sub (hsubs List.mem_cons_self)
  exact hfold tree.order ([], []) (List.Subset.refl _) (by simp)

theorem read_mem_ofNode (h : .read slot read ∈ trace tree routines) :
    (read.role, slot) ∈ (tree.node read.node).operands ∧ tree.isSlot slot ∧
      ∀ sub deferred, .read slot read ∈ ofNode tree routines sub deferred read.node := by
  obtain ⟨id, -, sub, deferred, heq | ⟨n, -, hn⟩⟩ := (covers_trace tree routines).1.origin _ h
  · cases heq
  · rcases List.mem_append.1 hn with hcontrol | hslots
    · exact absurd rfl ((mem_ofControl hcontrol).1 slot read)
    · obtain ⟨operand, hoperand, hevent⟩ := List.mem_flatMap.1 hslots
      obtain ⟨rfl, rfl, -⟩ := mem_ofSlot_read hevent
      obtain ⟨hmem, hslot⟩ := List.mem_filter.1 hoperand
      exact ⟨hmem, hslot, fun _ _ => List.mem_append_right _ hslots⟩

theorem not_pair_sublist_trace {facts : Facts}
    (h : (facts.analyze tree routines).readsOf slot = [read]) :
    ¬[.read slot read, .read slot read].Sublist (trace tree routines) := by
  intro hpair
  have hreads := hpair.filterMap (readOf slot)
  rw [← @Facts.readsOf_analyze facts, h] at hreads
  have hlength := hreads.length_le
  simp [readOf] at hlength

section Once

variable {facts : Facts} (h : (facts.analyze tree routines).readsOf slot = [read])
include h

theorem read_mem_of_readsOf : (read.role, slot) ∈ (tree.node read.node).operands ∧
    tree.isSlot slot ∧
      ∀ sub deferred, .read slot read ∈ ofNode tree routines sub deferred read.node :=
  read_mem_ofNode (Facts.mem_readsOf_analyze.1 (by rw [h]; exact List.mem_singleton_self _))

theorem block_of_read {other : NodeId} (hblock : block ∈ visited tree routines)
    (hother : other ∈ visited tree routines) (hmem : read.node ∈ tree.nodesOf block)
    (hmem' : read.node ∈ tree.nodesOf other) : block = other := by
  obtain ⟨-, -, hevent⟩ := read_mem_of_readsOf h
  obtain ⟨stops, htrace, hvisited, -⟩ := trace_eq tree routines
  rw [hvisited, List.mem_reverse, List.mem_map] at hblock hother
  obtain ⟨first, hfirst, rfl⟩ := hblock
  obtain ⟨second, hsecond, rfl⟩ := hother
  have hof : ∀ stop : Stop, read.node ∈ tree.nodesOf stop.block →
      .read slot read ∈ ofStop tree routines stop := fun stop hnode =>
    List.mem_cons_of_mem _ (List.mem_flatMap.2 ⟨read.node, hnode, hevent _ _⟩)
  by_contra hne
  refine not_pair_sublist_trace h (htrace ▸ ?_)
  rcases pair_sublist_of_ne hfirst hsecond (fun heq => hne (congrArg _ heq)) with hpair | hpair
  · exact pair_sublist_flatMap hpair (hof first hmem) (hof second hmem')
  · exact pair_sublist_flatMap hpair (hof second hmem') (hof first hmem)

theorem not_pair_sublist_nodesOf (hblock : block ∈ visited tree routines) :
    ¬[read.node, read.node].Sublist (tree.nodesOf block) := by
  intro hnodes
  obtain ⟨-, -, hevent⟩ := read_mem_of_readsOf h
  obtain ⟨stops, htrace, hvisited, -⟩ := trace_eq tree routines
  rw [hvisited, List.mem_reverse, List.mem_map] at hblock
  obtain ⟨stop, hstop, rfl⟩ := hblock
  refine not_pair_sublist_trace h (htrace ▸ ?_)
  have hevents : [.read slot read, .read slot read].Sublist (ofStop tree routines stop) :=
    (pair_sublist_flatMap hnodes (hevent _ _) (hevent _ _)).cons _
  have hsingle := (List.singleton_sublist.2 hstop).flatMap (ofStop tree routines)
  rw [List.flatMap_singleton] at hsingle
  exact hevents.trans hsingle

theorem statement_of_read (hblock : block ∈ visited tree routines) {i j : Nat} {s t : NodeId}
    (hlt : i < j) (hi : (tree.statements block)[i]? = some s)
    (hj : (tree.statements block)[j]? = some t) (hs : read.node ∈ tree.within tree.size s) :
    read.node ∉ tree.within tree.size t := by
  intro ht
  exact not_pair_sublist_nodesOf h hblock (pair_sublist_flatMap (pair_sublist_of_lt hlt hi hj) hs ht)

end Once

end Event

namespace Tree

variable {tree : Tree} {routines : Routines} {block x n : NodeId}

/-- A node of a block is reached from it; a block among the statements has no operands, so nothing is
found in it. -/
theorem reaches_of_mem_nodesOf {operand : Role × NodeId} (h : n ∈ tree.nodesOf block)
    (hn : operand ∈ (tree.node n).operands) : Relation.ReflTransGen tree.Descends block n := by
  obtain ⟨s, hs, hwithin⟩ := List.mem_flatMap.1 h
  have hinner := inner_of_mem_within hwithin
  have hkind : tree.kind s ≠ .block := by
    intro hblock
    have hnone : tree.innerOperands s = [] := by
      unfold Tree.kind at hblock
      unfold innerOperands
      cases hnode : tree.node s <;> simp_all [Node.kind, Node.operands]
    rcases Relation.ReflTransGen.cases_head hinner with rfl | ⟨c, hc, -⟩
    · exact (@kind_ne_of_operand _ _ operand.2 operand.1 hn).2 hblock
    · rw [Inner, hnone] at hc
      cases hc
  exact .head (descends_of_statement hs hkind) (reaches_of_inner hinner)

theorem reaches_of_nestedBlocks {deferred : Bool} {b : NodeId × Bool}
    (h : b ∈ tree.nestedBlocks deferred block) :
    Relation.ReflTransGen tree.Descends block b.1 := by
  obtain ⟨n, hn, hb⟩ := List.mem_flatMap.1 h
  obtain ⟨operand, hoperand, rfl⟩ := List.mem_map.1 hb
  have hmem := (List.mem_filter.1 hoperand).1
  exact (reaches_of_mem_nodesOf hn hmem).tail (descends_of_operand hmem)

theorem exists_reaches_of_visited (h : block ∈ Event.visited tree routines) :
    ∃ sub ∈ tree.order, Relation.ReflTransGen tree.Descends (tree.sub sub).root block := by
  refine Event.visited_induction
    (P := fun b => ∃ sub ∈ tree.order, Relation.ReflTransGen tree.Descends (tree.sub sub).root b)
    (fun sub hsub => ⟨sub, hsub, .refl⟩) (fun b hb c hc => ?_) block h
  obtain ⟨sub, hsub, hreaches⟩ := hb
  exact ⟨sub, hsub, hreaches.trans (reaches_of_nestedBlocks hc)⟩

/-- Where a walk that starts within a statement of the output comes to: a slot, another node of the
statement, or a block that is visited and a node of one of its statements. -/
theorem Closed.reaches_cases (hclosed : tree.Closed) (hblock : block ∈ Event.visited tree routines)
    {s : NodeId} (hs : s ∈ tree.statements block) (hkind : tree.kind x ≠ .block)
    (hx : Relation.ReflTransGen tree.Inner s x) (h : Relation.ReflTransGen tree.Descends x n) :
    tree.kind n = .slot ∨ Relation.ReflTransGen tree.Inner x n ∨
      ∃ b ∈ Event.visited tree routines, tree.kind b = .block ∧
        Relation.ReflTransGen tree.Descends x b ∧
        (n = b ∨ ∃ t ∈ tree.statements b, tree.kind t ≠ .block ∧
          Relation.ReflTransGen tree.Inner t n) := by
  have hcovers := (Event.covers_trace tree routines).1
  -- One step down from a node of a statement.
  have hstep : ∀ {b t y m}, b ∈ Event.visited tree routines → t ∈ tree.statements b →
      Relation.ReflTransGen tree.Inner t y → tree.kind y ≠ .block → tree.Descends y m →
      tree.kind m = .slot ∨ tree.Inner y m ∨
        (m ∈ Event.visited tree routines ∧ tree.kind m = .block) := by
    intro b t y m hb ht hy hykind hm
    have hoperand := hm.holds
    rw [Holds, below_of_kind_ne_block hykind] at hoperand
    by_cases hslot : tree.kind m = .slot
    · exact .inl hslot
    · by_cases hmblock : tree.kind m = .block
      · obtain ⟨operand, hmem, rfl⟩ := List.mem_map.1 hoperand
        have hlt : t.index < tree.size := hclosed.statement ht
        have hnested : (operand.2, operand.1.isDeferring) ∈ tree.nestedBlocks false b := by
          refine List.mem_flatMap.2 ⟨y, List.mem_flatMap.2 ⟨t, ht, hclosed.mem_within hlt hy⟩,
            List.mem_map.2 ⟨operand, ?_, by simp⟩⟩
          exact List.mem_filter.2 ⟨hmem, by simpa using hmblock⟩
        exact .inr (.inr ⟨by simpa using hcovers.nested b hb _ hnested, hmblock⟩)
      · exact .inr (.inl (List.mem_filter.2 ⟨hoperand, by simp [hslot, hmblock]⟩))
  induction h with
  | refl => exact .inr (.inl .refl)
  | @tail y m hy hm ih =>
    rcases ih with hslot | hinner | ⟨b, hb, hbkind, hxb, rfl | ⟨t, ht, htkind, hty⟩⟩
    · have hnone := hm.holds
      rw [Holds, below_of_kind_slot hslot] at hnone
      cases hnone
    · rcases hstep hblock hs (hx.trans hinner) (kind_of_inner hinner hkind) hm with
        hslot | hnext | ⟨hvisited, hmkind⟩
      · exact .inl hslot
      · exact .inr (.inl (hinner.tail hnext))
      · exact .inr (.inr ⟨m, hvisited, hmkind, hy.tail hm, .inl rfl⟩)
    · obtain ⟨hholds, hkinds⟩ := mem_descents.1 hm
      rw [below_of_kind_block hbkind] at hholds
      have hmkind : tree.kind m ≠ .block := hkinds.resolve_left (by simp [hbkind])
      exact .inr (.inr ⟨y, hb, hbkind, hxb, .inr ⟨m, hholds, hmkind, .refl⟩⟩)
    · rcases hstep hb ht hty (kind_of_inner hty htkind) hm with
        hslot | hnext | ⟨hvisited, hmkind⟩
      · exact .inl hslot
      · exact .inr (.inr ⟨b, hb, hbkind, hxb, .inr ⟨t, ht, htkind, hty.tail hnext⟩⟩)
      · exact .inr (.inr ⟨m, hvisited, hmkind, hy.tail hm, .inl rfl⟩)

end Tree

end ScriptLift
