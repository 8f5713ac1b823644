import Mathlib.Data.List.Nodup
import ScriptLift.Proofs.Lift.Moves
import ScriptLift.Proofs.Semantics.Statements

namespace ScriptLift

namespace Context

variable {ctx ctx' : Context}

def slots (ctx : Context) : List NodeId := ctx.stack.reverse.map (·.slot)

@[simp] theorem length_slots (ctx : Context) : ctx.slots.length = ctx.depth := by
  simp [slots, depth]

@[simp] theorem slots_push (ctx : Context) (slot : NodeId) :
    (ctx.push slot).slots = ctx.slots ++ [slot] := by
  simp [slots, push]

theorem slots_popMany {count : Nat} {words : List Word}
    (h : ctx.popMany count = .ok (words, ctx')) :
    ctx.slots = ctx'.slots ++ words.map (·.slot) ∧ words.length = count := by
  obtain ⟨hle, rfl, rfl⟩ := popMany_eq_ok h
  have hsplit : ctx.stack = ctx.stack.take count ++ ctx.stack.drop count :=
    (List.take_append_drop _ _).symm
  constructor
  · unfold slots
    conv_lhs => rw [hsplit]
    rw [List.reverse_append, List.map_append]
  · rw [List.length_reverse, List.length_take]
    exact Nat.min_eq_left hle

theorem slots_pop {word : Word} (h : ctx.pop = .ok (word, ctx')) :
    ctx.slots = ctx'.slots ++ [word.slot] := by
  unfold slots
  rw [(pop_eq_ok h).1]
  simp

theorem slots_word {index : Nat} {word : Word} (h : ctx.word index = .ok word) :
    ctx.slots[index]? = some word.slot ∧ word ∈ ctx.stack := by
  unfold Context.word at h
  split at h
  · next hget =>
    cases h
    refine ⟨by rw [slots, List.getElem?_map, hget]; rfl, ?_⟩
    simpa using List.mem_of_getElem? hget
  · cases h

end Context

namespace Meaning

variable {W : Type} (M : Meaning W) (routines : Routines)

/-- The store that the statements of a block lead to, also once the tree has grown. -/
def Runs (tree : Tree) (block : NodeId) (s : Store W) : Prop :=
  ∀ later, tree.Grows later → M.executeAll routines later (tree.statements block) {} = some s

/-- Evaluating the node gives this content and leaves this store, also once the tree has grown. -/
structure Leads (tree : Tree) (id : NodeId) (s : Store W) (c : Content W) (s' : Store W) : Prop where
  inTree : id.index < tree.size
  gives : ∀ later, tree.Grows later → M.Gives routines later id s c s'

variable {M routines} {tree later : Tree} {id x y z block : NodeId} {s s' s₁ s₂ s₃ : Store W}
  {a b c : Content W} {offset : Nat}

theorem Leads.grow (h : M.Leads routines tree id s c s') (hg : tree.Grows later) :
    M.Leads routines later id s c s' :=
  ⟨Nat.lt_of_lt_of_le h.inTree hg.size, fun last hl => h.gives last (hg.trans hl)⟩

theorem leads_slot (hs : tree.isSlot id) (hc : s.content id = some c) :
    M.Leads routines tree id s c s :=
  ⟨Tree.lt_size_of_isSlot hs, fun _ hg => gives_slot (hg.isSlot hs) hc⟩

section Alloc

theorem node_of_grows_alloc {node : Node} (hs : node.kind ≠ .slot) (hb : node.kind ≠ .block)
    (hg : (tree.alloc offset node).Grows later) : later.node tree.nextId = node :=
  hg.node_of_eq Tree.node_alloc_nextId hs hb

theorem leads_literal (value : Literal) :
    M.Leads routines (tree.alloc offset (.literal value)) tree.nextId s
      (.word (M.literal value)) s := by
  refine ⟨by simp, fun later hg => gives_literal ?_⟩
  exact node_of_grows_alloc (by simp [Node.kind]) (by simp [Node.kind]) hg

theorem leads_vector {u v w : W} (hx : M.Leads routines tree x s (.word u) s)
    (hy : M.Leads routines tree y s (.word v) s) (hz : M.Leads routines tree z s (.word w) s) :
    M.Leads routines (tree.alloc offset (.vector x y z)) tree.nextId s (.vector (u, v, w)) s := by
  refine ⟨by simp, fun later hg => ?_⟩
  have hlater := (Tree.Grows.alloc tree offset _).trans hg
  exact gives_vector (node_of_grows_alloc (by simp [Node.kind]) (by simp [Node.kind]) hg)
    hx.inTree hy.inTree hz.inTree (hx.gives later hlater) (hy.gives later hlater)
    (hz.gives later hlater)

theorem leads_component {index : Nat} {w : W} (hx : M.Leads routines tree x s a s)
    (hw : a.component? index = some w) :
    M.Leads routines (tree.alloc offset (.component x index)) tree.nextId s (.word w) s := by
  refine ⟨by simp, fun later hg => ?_⟩
  exact gives_component (node_of_grows_alloc (by simp [Node.kind]) (by simp [Node.kind]) hg)
    hx.inTree (hx.gives later ((Tree.Grows.alloc tree offset _).trans hg)) hw

theorem leads_unary {op : UnaryOp} {w : W} (hop : op.isStep = false)
    (hx : M.Leads routines tree x s (.word w) s) :
    M.Leads routines (tree.alloc offset (.unary op x)) tree.nextId s (.word (M.unary op w)) s := by
  refine ⟨by simp, fun later hg => ?_⟩
  exact gives_unary (node_of_grows_alloc (by simp [Node.kind]) (by simp [Node.kind]) hg)
    hx.inTree hop (hx.gives later ((Tree.Grows.alloc tree offset _).trans hg))

theorem leads_step {op : UnaryOp} {w : W} (hop : op.isStep = true)
    (hx : M.Leads routines tree x s (.word w) s) :
    M.Leads routines (tree.alloc offset (.unary op x)) tree.nextId s (.word (M.unary op w))
      (s.assign x (.word (M.unary op w))) := by
  refine ⟨by simp, fun later hg => ?_⟩
  exact gives_step (node_of_grows_alloc (by simp [Node.kind]) (by simp [Node.kind]) hg)
    hx.inTree hop (hx.gives later ((Tree.Grows.alloc tree offset _).trans hg))

theorem leads_binary {op : BinaryOp} (hop : op ≠ .assign) (hx : M.Leads routines tree x s a s)
    (hy : M.Leads routines tree y s b s) :
    M.Leads routines (tree.alloc offset (.binary op x y false)) tree.nextId s
      (M.apply op a b) s := by
  refine ⟨by simp, fun later hg => ?_⟩
  have hlater := (Tree.Grows.alloc tree offset _).trans hg
  exact gives_binary (node_of_grows_alloc (by simp [Node.kind]) (by simp [Node.kind]) hg) hop
    hx.inTree hy.inTree (hx.gives later hlater) (hy.gives later hlater)

theorem leads_assign (declares : Bool) (hy : M.Leads routines tree y s c s₁) :
    M.Leads routines (tree.alloc offset (.binary .assign x y declares)) tree.nextId s c
      (s₁.assign x c) := by
  refine ⟨by simp, fun later hg => ?_⟩
  exact gives_assign (node_of_grows_alloc (by simp [Node.kind]) (by simp [Node.kind]) hg)
    hy.inTree (hy.gives later ((Tree.Grows.alloc tree offset _).trans hg))

theorem leads_action {routine : UInt16} {arguments : List NodeId} {contents : List (Content W)}
    (h : List.Forall₂ (fun id c => M.Leads routines tree id s c s) arguments contents) :
    M.Leads routines (tree.alloc offset (.action routine arguments)) tree.nextId s
      (M.reply routines s.calls ⟨routine, contents⟩)
      { s with calls := s.calls ++ [⟨routine, contents⟩] } := by
  refine ⟨by simp, fun later hg => ?_⟩
  have hlater := (Tree.Grows.alloc tree offset (.action routine arguments)).trans hg
  refine gives_action (node_of_grows_alloc (by simp [Node.kind]) (by simp [Node.kind]) hg)
    (fun a ha => ?_) (h.imp fun a c hl => hl.gives later hlater)
  obtain ⟨i, hi, rfl⟩ := List.getElem_of_mem ha
  exact (h.get hi (h.length_eq ▸ hi)).inTree

end Alloc

theorem Runs.emit (h : M.Runs routines tree block s) (hk : tree.kind block = .block)
    (hb : block.index < tree.size) (hl : ∀ later, (tree.pushStatement block id).Grows later →
      M.execute routines later id s = some s') :
    M.Runs routines (tree.pushStatement block id) block s' := by
  intro later hg
  have hstatements : (tree.pushStatement block id).statements block =
      tree.statements block ++ [id] := Tree.statements_modifyStatements_self _ hk hb
  rw [hstatements, executeAll_append,
    h later ((Tree.Grows.pushStatement tree block id).trans hg)]
  simp [executeAll, hl later hg]

end Meaning

/-- The slot holds the word. -/
structure Store.Holds {W : Type} (s : Store W) (tree : Tree) (id : NodeId) (a : W) : Prop where
  isSlot : tree.isSlot id
  content : s.content id = some (.word a)

namespace Store.Holds

variable {W : Type} {M : Meaning W} {routines : Routines} {s : Store W} {tree later : Tree}
  {id : NodeId} {a : W}

theorem grow (h : s.Holds tree id a) (hg : tree.Grows later) : s.Holds later id a :=
  ⟨hg.isSlot h.isSlot, h.content⟩

theorem ne_nextId (h : s.Holds tree id a) : id ≠ tree.nextId := by
  rintro rfl
  exact Nat.lt_irrefl _ (Tree.lt_size_of_isSlot h.isSlot)

theorem assign_of_ne (h : s.Holds tree id a) {slot : NodeId} (hne : id ≠ slot) (c : Content W) :
    (s.assign slot c).Holds tree id a :=
  ⟨h.isSlot, by rw [Store.content_assign_of_ne _ _ hne, h.content]⟩

theorem leads (h : s.Holds tree id a) : M.Leads routines tree id s (.word a) s :=
  Meaning.leads_slot h.isSlot h.content

end Store.Holds

/-- The simulated stack stands for the words of the machine: every word has a slot of its own, which
holds what the machine holds once the statements of the block have run. -/
structure Mirrors {W : Type} (M : Meaning W) (routines : Routines) (block : NodeId)
    (ws : Workspace) (s : Store W) (w : Words W) : Prop where
  kind : ws.tree.kind block = .block
  inTree : block.index < ws.tree.size
  runs : M.Runs routines ws.tree block s
  own : ∀ word ∈ ws.context.stack, word.owner = ws.context.current
  distinct : ws.context.slots.Nodup
  holds : List.Forall₂ (s.Holds ws.tree) ws.context.slots w.stack
  calls : s.calls = w.calls
  /-- No other block was asked for. -/
  idle : ws.spawned = none

namespace Mirrors

variable {W : Type} {M : Meaning W} {routines : Routines} {block id : NodeId}
  {ws ws' : Workspace} {s s' s₁ : Store W} {w w' : Words W} {c : Content W}

theorem length_eq (h : Mirrors M routines block ws s w) : ws.context.depth = w.stack.length := by
  rw [← h.holds.length_eq, Context.length_slots]

theorem isSlot (h : Mirrors M routines block ws s w) (hid : id ∈ ws.context.slots) :
    ws.tree.isSlot id := by
  obtain ⟨i, hi, rfl⟩ := List.getElem_of_mem hid
  exact (h.holds.get hi (h.holds.length_eq ▸ hi)).isSlot

theorem contents (h : Mirrors M routines block ws s w) :
    ws.context.slots.map s.content = w.stack.map fun a => some (.word a) := by
  have hall : ∀ ids words, List.Forall₂ (s.Holds ws.tree) ids words →
      ids.map s.content = words.map fun a => some (.word a) := by
    intro ids words hids
    induction hids with
    | nil => rfl
    | cons hid _ ih => rw [List.map_cons, List.map_cons, hid.content, ih]
  exact hall _ _ h.holds

theorem holds_at (h : Mirrors M routines block ws s w) {index : Nat} {a : W}
    (hid : ws.context.slots[index]? = some id) (ha : w.stack[index]? = some a) :
    s.Holds ws.tree id a := by
  obtain ⟨hi, rfl⟩ := List.getElem?_eq_some_iff.1 hid
  obtain ⟨hj, rfl⟩ := List.getElem?_eq_some_iff.1 ha
  exact h.holds.get hi hj

/-- A tree that grows elsewhere changes nothing. -/
theorem grow (h : Mirrors M routines block ws s w) (hg : ws.tree.Grows ws'.tree)
    (hb : ws'.tree.statements block = ws.tree.statements block)
    (hc : ws'.context = ws.context) (hs : ws'.spawned = ws.spawned) :
    Mirrors M routines block ws' s w where
  kind := by rw [hg.kind_eq h.inTree, h.kind]
  inTree := Nat.lt_of_lt_of_le h.inTree hg.size
  runs later hl := by
    rw [hb]
    exact h.runs later (hg.trans hl)
  own := by
    rw [hc]
    exact h.own
  distinct := by
    rw [hc]
    exact h.distinct
  holds := by
    rw [hc]
    exact h.holds.imp fun id a hid => hid.grow hg
  calls := h.calls
  idle := by rw [hs, h.idle]

theorem alloc (h : Mirrors M routines block ws s w) (offset : Nat) (node : Node) :
    Mirrors M routines block { ws with tree := ws.tree.alloc offset node } s w :=
  h.grow (Tree.Grows.alloc ws.tree offset node)
    (by simp only [Tree.statements, Tree.node_alloc_of_lt h.inTree]) rfl rfl

theorem modifySlot (h : Mirrors M routines block ws s w) (slot : NodeId) (f : Slot → Slot) :
    Mirrors M routines block { ws with tree := ws.tree.modifySlot slot f } s w :=
  h.grow (Tree.Grows.modifySlot ws.tree slot f) (Tree.statements_modifySlot f) rfl rfl

theorem emit (h : Mirrors M routines block ws s w)
    (hl : ∀ later, (ws.tree.pushStatement block id).Grows later →
      M.execute routines later id s = some s')
    (hw : List.Forall₂ (fun id a => s'.content id = some (.word a)) ws.context.slots w'.stack)
    (hcalls : s'.calls = w'.calls) :
    Mirrors M routines block { ws with tree := ws.tree.pushStatement block id } s' w' where
  kind := by
    rw [(Tree.Grows.pushStatement ws.tree block id).kind_eq h.inTree, h.kind]
  inTree := by simpa using h.inTree
  runs := h.runs.emit h.kind h.inTree hl
  own := h.own
  distinct := h.distinct
  holds := by
    refine List.forall₂_iff_get.2 ⟨hw.length_eq, fun i hi hj => ⟨?_, hw.get hi hj⟩⟩
    exact (Tree.Grows.pushStatement ws.tree block id).isSlot (h.isSlot (List.get_mem _ _))
  calls := hcalls
  idle := h.idle

theorem emit_leads (h : Mirrors M routines block ws s w) (hl : M.Leads routines ws.tree id s c s')
    (hk : ws.tree.kind id ≠ .slot ∧ ws.tree.kind id ≠ .block ∧ ws.tree.kind id ≠ .label ∧
      ws.tree.kind id ≠ .ret)
    (hw : List.Forall₂ (fun id a => s'.content id = some (.word a)) ws.context.slots w'.stack)
    (hcalls : s'.calls = w'.calls) :
    Mirrors M routines block { ws with tree := ws.tree.pushStatement block id } s' w' := by
  refine h.emit (fun later hg => ?_) hw hcalls
  have hgrow := (Tree.Grows.pushStatement ws.tree block id).trans hg
  have hkind : later.kind id = ws.tree.kind id := hgrow.kind_eq hl.inTree
  refine Meaning.execute_of_gives (Nat.lt_of_lt_of_le hl.inTree hgrow.size) (hkind ▸ hk.1)
    (hl.gives later hgrow) ?_ ?_
  · intro hn
    exact hk.2.2.1 (by rw [← hkind, Tree.kind, hn, Node.kind])
  · intro hn
    exact hk.2.2.2 (by rw [← hkind, Tree.kind, hn, Node.kind])

theorem content_assign (h : Mirrors M routines block ws s w) (hc : s₁.content = s.content)
    {slot : NodeId} (hslot : slot ∉ ws.context.slots) (c : Content W) :
    List.Forall₂ (fun id a => (s₁.assign slot c).content id = some (.word a)) ws.context.slots
      w.stack := by
  refine List.forall₂_iff_get.2 ⟨h.holds.length_eq, fun i hi hj => ?_⟩
  have hne : ws.context.slots.get ⟨i, hi⟩ ≠ slot := fun he => hslot (he ▸ List.get_mem _ _)
  rw [Store.content_assign_of_ne _ _ hne, hc]
  exact (h.holds.get hi hj).content

theorem content_set (h : Mirrors M routines block ws s w) {index : Nat} {slot : NodeId}
    (hid : ws.context.slots[index]? = some slot) (a : W) :
    List.Forall₂ (fun id b => (s.assign slot (.word a)).content id = some (.word b))
      ws.context.slots (w.stack.set index a) := by
  refine List.forall₂_iff_get.2 ⟨by simpa using h.holds.length_eq, fun i hi hj => ?_⟩
  obtain ⟨hlt, hslot⟩ := List.getElem?_eq_some_iff.1 hid
  by_cases he : i = index
  · subst he
    simp [hslot]
  · have hne : ws.context.slots.get ⟨i, hi⟩ ≠ slot := by
      intro heq
      exact he ((List.Nodup.getElem_inj_iff h.distinct).1 (heq.trans hslot.symm))
    rw [Store.content_assign_of_ne _ _ hne]
    have hget := (h.holds.get hi (by simpa using hj)).content
    rw [hget]
    simp [List.getElem_set_of_ne (Ne.symm he)]

theorem nextId_notMem (h : Mirrors M routines block ws s w) :
    ws.tree.nextId ∉ ws.context.slots := by
  intro hmem
  exact Nat.lt_irrefl _ (Tree.lt_size_of_isSlot (h.isSlot hmem))

/-- Pushes a slot that is not on the stack yet. -/
theorem push (h : Mirrors M routines block ws s w) {a : W} (ha : s.Holds ws.tree id a)
    (hid : id ∉ ws.context.slots) :
    Mirrors M routines block { ws with context := ws.context.push id } s
      ⟨w.stack ++ [a], w.calls⟩ where
  kind := h.kind
  inTree := h.inTree
  runs := h.runs
  own := by
    intro word hword
    rcases List.mem_cons.1 hword with rfl | hword
    · rfl
    · exact h.own word hword
  distinct := by
    rw [Context.slots_push]
    exact List.nodup_append.2 ⟨h.distinct, List.nodup_singleton id, fun x hx y hy => by
      rintro rfl
      exact hid (List.mem_singleton.1 hy ▸ hx)⟩
  holds := by
    rw [Context.slots_push]
    exact List.rel_append h.holds (.cons ha .nil)
  calls := h.calls
  idle := h.idle

theorem shrink (h : Mirrors M routines block ws s w) {context : Context} {stack : List W}
    (hcalls : context.calls = ws.context.calls)
    (hsub : context.stack.Sublist ws.context.stack)
    (hholds : List.Forall₂ (s.Holds ws.tree) context.slots stack) :
    Mirrors M routines block { ws with context } s ⟨stack, w.calls⟩ where
  kind := h.kind
  inTree := h.inTree
  runs := h.runs
  own := by
    intro word hword
    rw [h.own word (hsub.subset hword), Context.current, Context.current, Context.top, Context.top,
      hcalls]
  distinct := h.distinct.sublist ((hsub.reverse).map _)
  holds := hholds
  calls := h.calls
  idle := h.idle

end Mirrors

end ScriptLift
