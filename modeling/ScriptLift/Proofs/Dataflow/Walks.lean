import ScriptLift.Proofs.Dataflow.Stops

/-! What the walk through the output meets.

The walk opens a block where it is the root of a subroutine or an operand, and not where it is a
statement. So it meets all that descents lead to; and in a tree where no block stands as a statement,
the facts say what the nodes of the output do, and nothing else. -/
namespace ScriptLift

namespace Tree

variable {tree : Tree} {routines : Routines} {facts : Facts} {block slot n : NodeId}

/-- Every subroutine of the output starts with a block. -/
def Rooted (tree : Tree) : Prop := ∀ sub ∈ tree.order, tree.kind (tree.sub sub).root = .block

instance (tree : Tree) : Decidable tree.Rooted := inferInstanceAs (Decidable (∀ sub ∈ tree.order, _))

/-- Descents lead to the node from a subroutine that starts with a block. -/
def Traversed (tree : Tree) (id : NodeId) : Prop :=
  ∃ sub ∈ tree.order, tree.kind (tree.sub sub).root = .block ∧
    Relation.ReflTransGen tree.Descends (tree.sub sub).root id

/-- All of the output lies open to a walk. -/
structure Walkable (tree : Tree) : Prop where
  closed : tree.Closed
  unnested : tree.Unnested
  rooted : tree.Rooted

theorem holds_of_descends {a b : NodeId} (h : Relation.ReflTransGen tree.Descends a b) :
    Relation.ReflTransGen tree.Holds a b :=
  Relation.ReflTransGen.mono (fun _ _ => Descends.holds) _ _ h

theorem holds_of_statement {s : NodeId} (h : s ∈ tree.statements block) : tree.Holds block s := by
  rw [Holds, below_of_kind_block (kind_of_statement h)]
  exact h

theorem holds_of_mem_nodesOf (h : n ∈ tree.nodesOf block) :
    Relation.ReflTransGen tree.Holds block n := by
  obtain ⟨s, hs, hwithin⟩ := List.mem_flatMap.1 h
  exact .head (holds_of_statement hs)
    (holds_of_descends (reaches_of_inner (inner_of_mem_within hwithin)))

theorem InOutput.trans (h : tree.InOutput block) (hn : Relation.ReflTransGen tree.Holds block n) :
    tree.InOutput n := by
  obtain ⟨sub, hsub, hblock⟩ := h
  exact ⟨sub, hsub, hblock.trans hn⟩

theorem InOutput.step (h : tree.InOutput block) (hn : tree.Holds block n) : tree.InOutput n :=
  h.trans (.single hn)

theorem inOutput_of_visited (h : block ∈ Event.visited tree routines) : tree.InOutput block := by
  obtain ⟨sub, hsub, hreaches⟩ := exists_reaches_of_visited h
  exact ⟨sub, hsub, holds_of_descends hreaches⟩

theorem inOutput_of_mem_nodesOf (hblock : block ∈ Event.visited tree routines)
    (h : n ∈ tree.nodesOf block) : tree.InOutput n :=
  (inOutput_of_visited hblock).trans (holds_of_mem_nodesOf h)

theorem Closed.met_of_traversed (hclosed : tree.Closed) (h : tree.Traversed n) :
    tree.Met routines tree.size n := by
  obtain ⟨sub, hsub, hroot, hreaches⟩ := h
  have hvisited := (Event.covers_trace tree routines).2 sub hsub
  rcases Relation.ReflTransGen.cases_head hreaches with rfl | ⟨s, hs, hreaches⟩
  · exact .inr (.inl ⟨hroot, hvisited⟩)
  · obtain ⟨hbelow, hkinds⟩ := mem_descents.1 hs
    rw [below_of_kind_block hroot] at hbelow
    have hkind : tree.kind s ≠ .block := hkinds.resolve_left (by simp [hroot])
    have hwithin : ∀ {b t}, t ∈ tree.statements b → Relation.ReflTransGen tree.Inner t n →
        n ∈ tree.within tree.size t := fun ht => hclosed.mem_within (hclosed.statement ht)
    rcases hclosed.reaches_cases hvisited hbelow hkind .refl hreaches with
      hslot | hinner | ⟨b, hb, hbkind, -, rfl | ⟨t, ht, htkind, hinner⟩⟩
    · exact .inl hslot
    · exact .inr (.inr ⟨kind_of_inner hinner hkind, _, hvisited, s, hbelow, hwithin hbelow hinner⟩)
    · exact .inr (.inl ⟨hbkind, hb⟩)
    · exact .inr (.inr ⟨kind_of_inner hinner htkind, b, hb, t, ht, hwithin ht hinner⟩)

theorem Met.mem_nodesOf (h : tree.Met routines tree.size n) (hslot : tree.kind n ≠ .slot)
    (hblock : tree.kind n ≠ .block) : ∃ b ∈ Event.visited tree routines, n ∈ tree.nodesOf b := by
  rcases h with hs | ⟨hb, -⟩ | ⟨-, b, hb, s, hs, hwithin⟩
  · exact absurd hs hslot
  · exact absurd hb hblock
  · exact ⟨b, hb, List.mem_flatMap.2 ⟨s, hs, hwithin⟩⟩

theorem Met.mem_gotosTo {label : NodeId} (h : tree.Met routines tree.size n) (facts : Facts)
    (hnode : tree.node n = .goto label) : n ∈ (facts.analyze tree routines).gotosTo label := by
  have hkind : tree.kind n = .goto := by rw [Tree.kind, hnode, Node.kind]
  obtain ⟨b, hb, hmem⟩ := h.mem_nodesOf (by simp [hkind]) (by simp [hkind])
  obtain ⟨sub, deferred, -, hevents⟩ := (Event.covers_trace tree routines).1.walked b hb
  have hevent : .goto label n ∈ Event.ofNode tree routines sub deferred n := by
    apply List.mem_append_left
    simp [Event.ofControl, hnode]
  rw [Facts.gotosTo_analyze, List.mem_filterMap]
  exact ⟨_, hevents n hmem _ hevent, by simp [Event.gotoOf]⟩

theorem goto_of_mem_gotosTo {label : NodeId}
    (h : n ∈ (facts.analyze tree routines).gotosTo label) :
    tree.InOutput n ∧ tree.node n = .goto label := by
  rw [Facts.gotosTo_analyze, List.mem_filterMap] at h
  obtain ⟨e, he, hof⟩ := h
  cases e with
  | goto l node =>
    simp only [Event.gotoOf, Option.ite_none_right_eq_some, Option.some.injEq] at hof
    obtain ⟨rfl, rfl⟩ := hof
    obtain ⟨b, hb, sub, deferred, heq | ⟨m, hm, hevent⟩⟩ :=
      (Event.covers_trace tree routines).1.origin _ he
    · cases heq
    · rcases List.mem_append.1 hevent with hcontrol | hslots
      · unfold Event.ofControl at hcontrol
        split at hcontrol
        case h_1 => split at hcontrol <;> simp at hcontrol
        case h_2 => simp at hcontrol
        case h_3 label hnode =>
          simp only [List.mem_singleton, Event.goto.injEq] at hcontrol
          obtain ⟨rfl, rfl⟩ := hcontrol
          exact ⟨inOutput_of_mem_nodesOf hb hm, hnode⟩
        case h_4 => cases hcontrol
      · obtain ⟨operand, -, hslot⟩ := List.mem_flatMap.1 hslots
        unfold Event.ofSlot at hslot
        split at hslot <;> (try split at hslot) <;> simp at hslot
  | _ => cases hof

theorem inOutput_of_read {r : Read} (h : r ∈ (facts.analyze tree routines).readsOf slot) :
    tree.InOutput r.node ∧ tree.reads r.node slot := by
  obtain ⟨b, hb, sub, deferred, heq | ⟨m, hm, hevent⟩⟩ :=
    (Event.covers_trace tree routines).1.origin _ (Facts.mem_readsOf_analyze.1 h)
  · cases heq
  · obtain ⟨rfl, hreads⟩ := Event.mem_ofNode_read hevent
    exact ⟨inOutput_of_mem_nodesOf hb hm, hreads⟩

theorem inOutput_of_write {w : Write} (h : w ∈ (facts.analyze tree routines).writesOf slot) :
    tree.InOutput w.node ∧ tree.writes routines w.node slot := by
  obtain ⟨b, hb, sub, deferred, heq | ⟨m, hm, hevent⟩⟩ :=
    (Event.covers_trace tree routines).1.origin _ (Facts.mem_writesOf_analyze.1 h)
  · cases heq
  · obtain ⟨rfl, hwrites⟩ := Event.mem_ofNode_write hevent
    exact ⟨inOutput_of_mem_nodesOf hb hm, hwrites⟩

namespace Walkable

variable (h : tree.Walkable)
include h

theorem traversed (hn : tree.InOutput n) : tree.Traversed n := by
  obtain ⟨sub, hsub, hreaches⟩ := hn
  refine ⟨sub, hsub, h.rooted sub hsub, ?_⟩
  exact Relation.ReflTransGen.mono (fun _ _ => h.unnested.descends_iff.2) _ _ hreaches

theorem met (routines : Routines) (hn : tree.InOutput n) : tree.Met routines tree.size n :=
  h.closed.met_of_traversed (h.traversed hn)

theorem isLive (hn : tree.InOutput block) (hkind : tree.kind block = .block) :
    (facts.analyze tree routines).isLive block := by
  rw [Facts.isLive_analyze]
  rcases h.met routines hn with hslot | ⟨-, hvisited⟩ | ⟨hne, -⟩
  · simp [hkind] at hslot
  · exact hvisited
  · exact absurd hkind hne

theorem readsOf_eq_nil : (facts.analyze tree routines).readsOf slot = [] ↔
    ¬∃ n, tree.InOutput n ∧ tree.reads n slot := by
  constructor
  · rintro hnone ⟨n, hn, hreads⟩
    obtain ⟨r, hr, -⟩ := Facts.exists_mem_readsOf_analyze facts (h.met routines hn) hreads
    rw [hnone] at hr
    cases hr
  · intro hnone
    apply List.eq_nil_iff_forall_not_mem.2
    exact fun r hr => hnone ⟨r.node, inOutput_of_read hr⟩

theorem writesOf_eq_nil : (facts.analyze tree routines).writesOf slot = [] ↔
    ¬∃ n, tree.InOutput n ∧ tree.writes routines n slot := by
  constructor
  · rintro hnone ⟨n, hn, hwrites⟩
    obtain ⟨w, hw, -⟩ := Facts.exists_mem_writesOf_analyze facts (h.met routines hn) hwrites
    rw [hnone] at hw
    cases hw
  · intro hnone
    apply List.eq_nil_iff_forall_not_mem.2
    exact fun w hw => hnone ⟨w.node, inOutput_of_write hw⟩

theorem gotosTo_eq_nil {label : NodeId} : (facts.analyze tree routines).gotosTo label = [] ↔
    ¬∃ n, tree.InOutput n ∧ tree.node n = .goto label := by
  constructor
  · rintro hnone ⟨n, hn, hnode⟩
    have hmem := (h.met routines hn).mem_gotosTo facts hnode
    rw [hnone] at hmem
    cases hmem
  · intro hnone
    apply List.eq_nil_iff_forall_not_mem.2
    exact fun n hn => hnone ⟨n, goto_of_mem_gotosTo hn⟩

end Walkable

end Tree

end ScriptLift
