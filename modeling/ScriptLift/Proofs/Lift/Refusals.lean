import ScriptLift.Proofs.Lift.Frames

/-! Instructions that fail.

An instruction takes what it needs first, and fails if it is not there. Only then it records, and
nothing that it does from there on can fail. A copy of several words records one after the other; but
if the first can be copied, all can. So whatever fails has recorded nothing, and neither has a
subroutine that was lifted on the way: it has blocks of its own. -/
namespace ScriptLift

/-- All that was recorded went to blocks from `below` on, and so does what is asked for. -/
def Workspace.Confined (below : Nat) (a b : Workspace) : Prop :=
  below ≤ a.tree.size → below ≤ b.tree.size ∧
    (∀ id : NodeId, id.index < below → b.tree.statements id = a.tree.statements id) ∧
    ∀ job, b.spawned = some job → a.spawned = some job ∨ below ≤ job.block.index

namespace Workspace

variable {below : Nat} {ws a b c : Workspace}

theorem confined_of_tree {tree : Tree} (hsize : ws.tree.size ≤ tree.size)
    (h : below ≤ ws.tree.size → ∀ id : NodeId, id.index < below →
      tree.statements id = ws.tree.statements id) : Confined below ws { ws with tree } :=
  fun hle => ⟨Nat.le_trans hle hsize, h hle, fun _ => .inl⟩

theorem Confined.refl (ws : Workspace) : Confined below ws ws :=
  confined_of_tree (Nat.le_refl _) fun _ _ _ => rfl

theorem Confined.trans (h : Confined below a b) (g : Confined below b c) : Confined below a c := by
  intro hle
  obtain ⟨hmid, hstatements, hjobs⟩ := h hle
  obtain ⟨hlast, hstatements', hjobs'⟩ := g hmid
  refine ⟨hlast, fun id hid => (hstatements' id hid).trans (hstatements id hid), fun job hjob => ?_⟩
  rcases hjobs' job hjob with hold | hnew
  · exact hjobs job hold
  · exact .inr hnew

theorem Confined.alloc (ws : Workspace) (offset : Nat) {node : Node}
    (hnode : ∀ statements, node = .block statements → statements = []) :
    Confined below ws { ws with tree := ws.tree.alloc offset node } :=
  confined_of_tree (by simp) fun _ _ _ => Tree.statements_alloc hnode

theorem Confined.pushStatement (ws : Workspace) {block : NodeId} (s : NodeId)
    (h : below ≤ ws.tree.size → below ≤ block.index) :
    Confined below ws { ws with tree := ws.tree.pushStatement block s } :=
  confined_of_tree (by simp) fun hle id hid =>
    Tree.statements_modifyStatements_of_ne _ (by
      rintro rfl
      exact absurd hid (Nat.not_lt.2 (h hle)))

end Workspace

theorem Node.statements_of_isOrdinary {node : Node} (h : node.kind.isOrdinary)
    (statements : List NodeId) : node = .block statements → statements = [] :=
  statements_eq_nil fun hblock => by
    rw [hblock] at h
    cases h

namespace Site

open Workspace

/-- An instruction records to the block of its site only. -/
theorem closed_confined {site : Site} {below : Nat} (hblock : below ≤ site.block.index)
    (script : Script) : site.Closed script (Confined below) where
  refl := .refl
  trans h g := h.trans g
  alloc ws _ hn := .alloc ws _ (Node.statements_of_isOrdinary hn)
  record ws _ hn :=
    (Confined.alloc ws site.ins.offset (Node.statements_of_isOrdinary hn)).trans
      (.pushStatement _ _ fun _ => hblock)
  label ws _ label _ := .pushStatement ws label fun _ => hblock
  jump ws label := confined_of_tree (by simp; omega) fun hle id hid => by
    rw [Tree.pushStatement, Tree.statements_modifyStatements_of_ne _ (by
        rintro rfl
        exact absurd hid (Nat.not_lt.2 hle)),
      Tree.statements_alloc (by simp), Tree.statements_alloc (by simp)]
  schedule ws offset _ := by
    intro hle
    refine ⟨?_, fun id _ => Tree.statements_alloc ?_, ?_⟩
    · simpa using Nat.le_succ_of_le hle
    · rintro statements ⟨⟩
      rfl
    · rintro job ⟨⟩
      exact .inr hle
  slot ws id f := confined_of_tree (by simp) fun _ _ _ => Tree.statements_modifySlot f
  outer _ _ := fun hle => ⟨hle, fun _ _ => rfl, fun _ => .inl⟩
  context _ _ _ := fun hle => ⟨hle, fun _ _ => rfl, fun _ => .inl⟩
  warn ws _ := confined_of_tree (Nat.le_refl _) fun _ _ _ => rfl

end Site

namespace Lift

variable {α β : Type}

def Succeeds (x : Lift α) : Prop := ∀ ws, ∃ a ws', x ws = .ok a ws'

/-- Where `x` fails, it has recorded nothing to blocks below this one. -/
def Silent (below : Nat) (x : Lift α) : Prop :=
  ∀ ws cause ws', x ws = .error cause ws' → Workspace.Confined below ws ws'

theorem bind_of_ok {x : Lift α} {f : α → Lift β} {ws mid : Workspace} {a : α}
    (h : x ws = .ok a mid) : (x >>= f) ws = f a mid := by
  change EStateM.bind x f ws = _
  rw [EStateM.bind, h]

theorem bind_of_error {x : Lift α} {f : α → Lift β} {ws mid : Workspace} {cause : Error}
    (h : x ws = .error cause mid) : (x >>= f) ws = .error cause mid := by
  change EStateM.bind x f ws = _
  rw [EStateM.bind, h]

theorem bind_eq_error {x : Lift α} {f : α → Lift β} {ws ws' : Workspace} {cause : Error}
    (h : (x >>= f) ws = .error cause ws') :
    x ws = .error cause ws' ∨ ∃ a mid, x ws = .ok a mid ∧ f a mid = .error cause ws' := by
  change EStateM.bind x f ws = _ at h
  unfold EStateM.bind at h
  split at h
  · next a mid hx => exact .inr ⟨a, mid, hx, h⟩
  · next hx =>
    cases h
    exact .inl hx

namespace Succeeds

theorem ne_error {x : Lift α} (h : Succeeds x) {ws ws' : Workspace} {cause : Error} :
    x ws ≠ .error cause ws' := by
  intro hrun
  obtain ⟨a, mid, hok⟩ := h ws
  cases hok.symm.trans hrun

theorem pure (a : α) : Succeeds (Pure.pure a : Lift α) := fun ws => ⟨a, ws, rfl⟩

theorem get : Succeeds (MonadState.get : Lift Workspace) := fun ws => ⟨ws, ws, rfl⟩

theorem modify (f : Workspace → Workspace) : Succeeds (modify f : Lift Unit) :=
  fun ws => ⟨(), f ws, rfl⟩

theorem bind {x : Lift α} {f : α → Lift β} (hx : Succeeds x) (hf : ∀ a, Succeeds (f a)) :
    Succeeds (x >>= f) := by
  intro ws
  obtain ⟨a, mid, hrun⟩ := hx ws
  rw [bind_of_ok hrun]
  exact hf a mid

theorem forM {f : α → Lift Unit} (hf : ∀ a, Succeeds (f a)) (xs : List α) :
    Succeeds (xs.forM f) := by
  induction xs with
  | nil => exact pure ()
  | cons a xs ih => exact bind (hf a) fun _ => ih

theorem alloc (site : Site) (node : Node) : Succeeds (site.alloc node) :=
  fun ws => ⟨ws.tree.nextId, _, rfl⟩

theorem push (slot : NodeId) : Succeeds (Lift.push slot) := modify _

theorem emit (site : Site) (s : NodeId) : Succeeds (site.emit s) := modify _

end Succeeds

namespace Silent

variable {below : Nat} {x : Lift α} {f : α → Lift β}

theorem of_keeps (h : Keeps (Workspace.Confined below) x) : Silent below x :=
  fun _ _ _ hrun => h.error hrun

theorem of_succeeds (h : Succeeds x) : Silent below x := fun _ _ _ hrun => absurd hrun h.ne_error

theorem throw (cause : Error) : Silent below (MonadExcept.throw cause : Lift α) := by
  intro ws cause ws' hrun
  cases hrun
  exact .refl ws

theorem behind (hx : Keeps (Workspace.Confined below) x) (hf : ∀ a, Silent below (f a)) :
    Silent below (x >>= f) := by
  intro ws cause ws' hrun
  rcases bind_eq_error hrun with hfirst | ⟨a, mid, hfirst, hrest⟩
  · exact hx.error hfirst
  · exact (hx.ok hfirst).trans (hf a mid cause ws' hrest)

theorem andThen (hx : Silent below x) (hf : ∀ a, Succeeds (f a)) : Silent below (x >>= f) := by
  intro ws cause ws' hrun
  rcases bind_eq_error hrun with hfirst | ⟨a, mid, -, hrest⟩
  · exact hx ws cause ws' hfirst
  · exact absurd hrest (hf a).ne_error

end Silent

end Lift

namespace Site

open Lift

variable (site : Site)

section Records

theorem succeeds_bindSlot (slot : Slot) (value : NodeId) : Succeeds (site.bindSlot slot value) :=
  .bind (.alloc site _) fun target => .bind (.alloc site _) fun assign =>
    .bind (.emit site assign) fun _ => .pure target

theorem succeeds_declare (type : ValueType) (value : NodeId) : Succeeds (site.declare type value) :=
  .bind (site.succeeds_bindSlot _ value) fun slot => .push slot

theorem succeeds_pushComponent (vector : NodeId) (name : String) (index : Nat) :
    Succeeds (site.pushComponent vector name index) :=
  .bind (.alloc site _) fun component => .bind (.alloc site _) fun _ =>
    .bind (.alloc site _) fun assign => .bind (.emit site assign) fun _ => .push component

theorem succeeds_produce (type : ValueType) (value : NodeId) : Succeeds (site.produce type value) := by
  unfold produce
  split
  · exact .bind (site.succeeds_bindSlot _ value) fun result =>
      .bind (site.succeeds_pushComponent result _ _) fun _ =>
        .bind (site.succeeds_pushComponent result _ _) fun _ => site.succeeds_pushComponent result _ _
  · exact site.succeeds_declare type value

theorem succeeds_record (node : Node) :
    Succeeds (site.alloc node >>= fun id => site.emit id) :=
  .bind (.alloc site node) fun id => .emit site id

theorem succeeds_compareWord (relation join : BinaryOp) (result : NodeId) (index : Nat)
    (words : NodeId × NodeId) : Succeeds (site.compareWord relation join result index words) := by
  refine .bind (.alloc site _) fun word => ?_
  split
  · exact site.succeeds_record _
  · exact .bind (.alloc site _) fun _ => site.succeeds_record _

end Records

theorem closed_aside (script : Script) (below : Nat) :
    Site.Closed { site with block := ⟨below⟩ } script (Workspace.Confined below) :=
  closed_confined (Nat.le_refl below) script

theorem aside (below : Nat) :
    Site.Closed { site with block := ⟨below⟩ } { program := {}, routines := {} }
      (Workspace.Confined below) :=
  site.closed_aside _ below

variable (below : Nat)

theorem silent_onward {handler : Lift Unit} (h : Silent below handler) :
    Silent below (site.onward handler) :=
  h.andThen fun _ => .pure _

theorem silent_jump (labels : List (Nat × NodeId)) : Silent below (site.jump labels) := by
  unfold jump
  split
  · exact .of_succeeds (.pure _)
  · refine .andThen ?_ fun _ => .pure _
    have hgoto : Silent below (site.targetLabel labels >>= fun label =>
        site.alloc (.goto label) >>= fun goto => site.emit goto) :=
      .behind ((site.aside below).keeps_targetLabel labels) fun label =>
        .of_succeeds (site.succeeds_record _)
    unfold jumpBack
    dsimp only
    split
    · exact .behind (Closed.keeps_modify fun ws => (site.aside below).warn ws _) fun _ => hgoto
    · exact hgoto

theorem silent_call (callee : SubId) : Silent below (site.call callee) :=
  .behind (site.aside below).keeps_get fun _ =>
    .behind ((site.aside below).keeps_actuals _) fun _ => .of_succeeds (site.succeeds_record _)

theorem silent_branch (labels : List (Nat × NodeId)) (hop : site.ins.opcode.operation = .branch) :
    Silent below (site.branch labels) :=
  .behind (site.aside below).keeps_pop fun _ =>
    .behind ((site.aside below).keeps_alloc rfl) fun _ =>
      .behind ((site.aside below).keeps_alloc rfl) fun _ =>
        .behind ((site.aside below).keeps_branchBlock labels hop) fun _ =>
          .of_succeeds (site.succeeds_record _)

theorem silent_load : Silent below site.load := by
  unfold load
  split
  · exact .of_succeeds (.bind (.alloc site _) fun _ => site.succeeds_declare _ _)
  · exact .throw _

theorem silent_action (routines : Routines) : Silent below (site.action routines) := by
  unfold action
  split
  · exact .throw _
  · next routine _ =>
    refine .behind ((site.aside below).keeps_mapM (fun index =>
      (site.aside below).keeps_actionArgument routine index) _) fun arguments => ?_
    refine .of_succeeds (.bind (.alloc site _) fun action => ?_)
    split
    · exact .emit site action
    · exact site.succeeds_produce _ _

theorem silent_reserve : Silent below site.reserve :=
  .behind ((site.aside below).keeps_consult _) fun _ =>
    .of_succeeds (.bind (.alloc site _) fun slot => .bind (.emit site slot) fun _ => .push slot)

theorem silent_step : Silent below site.step :=
  .behind ((site.aside below).keeps_consult _) fun _ =>
    .behind (site.aside below).keeps_addressed fun _ =>
      .behind ((site.aside below).keeps_access _ _) fun _ => .of_succeeds (site.succeeds_record _)

theorem silent_unary : Silent below site.unary :=
  .behind ((site.aside below).keeps_consult _) fun _ =>
    .behind (site.aside below).keeps_pop fun _ =>
      .of_succeeds (.bind .get fun _ => .bind (.alloc site _) fun _ => site.succeeds_declare _ _)

theorem silent_binary : Silent below site.binary :=
  .behind ((site.aside below).keeps_consult _) fun _ =>
    .behind ((site.aside below).keeps_popPair _) fun _ =>
      .of_succeeds (.bind (.alloc site _) fun _ => site.succeeds_produce _ _)

theorem silent_compare : Silent below site.compare :=
  .behind ((site.aside below).keeps_require _ _) fun _ =>
    .behind ((site.aside below).keeps_popMany _) fun _ =>
      .behind ((site.aside below).keeps_popMany _) fun _ =>
        .of_succeeds (.bind (.alloc site _) fun result =>
          .bind (.forM (fun _ => site.succeeds_compareWord _ _ _ _ _) _) fun _ => .push result)

end Site

namespace Tree

/-- So many assignments were added to a block. -/
structure Assigns (block : NodeId) (count : Nat) (old new : Tree) : Prop where
  grows : old.Grows new
  added : ∃ added : List NodeId, added.length = count ∧
    new.statements block = old.statements block ++ added ∧
    ∀ s ∈ added, s.index < new.size ∧ new.kind s = .binary .assign

namespace Assigns

variable {block : NodeId} {count more : Nat} {tree old mid new : Tree}

theorem trans (h : Assigns block count old mid) (g : Assigns block more mid new) :
    Assigns block (count + more) old new := by
  obtain ⟨added, rfl, hadded, hold⟩ := h.added
  obtain ⟨others, rfl, hothers, hnew⟩ := g.added
  refine ⟨h.grows.trans g.grows, added ++ others, List.length_append,
    by rw [hothers, hadded, List.append_assoc], fun s hs => ?_⟩
  rcases List.mem_append.1 hs with hs | hs
  · obtain ⟨hlt, hkind⟩ := hold s hs
    exact ⟨Nat.lt_of_lt_of_le hlt g.grows.size, by rw [g.grows.kind_eq hlt, hkind]⟩
  · exact hnew s hs

theorem of_statements_eq (hgrow : old.Grows new)
    (h : new.statements block = old.statements block) : Assigns block 0 old new :=
  ⟨hgrow, [], rfl, by rw [h, List.append_nil], by simp⟩

theorem refl (tree : Tree) : Assigns block 0 tree tree := of_statements_eq (.refl _) rfl

theorem alloc (tree : Tree) (offset : Nat) {node : Node} (hnode : node.kind.isOrdinary) :
    Assigns block 0 tree (tree.alloc offset node) :=
  of_statements_eq (.alloc _ _ _) (statements_alloc (Node.statements_of_isOrdinary hnode))

theorem record (hblock : tree.IsBlock block) (offset : Nat) (left right : NodeId)
    (declares : Bool) : Assigns block 1 tree
      ((tree.alloc offset (.binary .assign left right declares)).pushStatement block tree.nextId) := by
  have hgrow := Grows.alloc tree offset (.binary .assign left right declares)
  have hlater := hblock.mono hgrow
  have hlt : tree.nextId.index <
      (tree.alloc offset (.binary .assign left right declares)).size := by
    rw [size_alloc]
    exact Nat.lt_succ_self _
  have hpush := Grows.pushStatement
    (tree.alloc offset (.binary .assign left right declares)) block tree.nextId
  refine ⟨hgrow.trans hpush, [tree.nextId], rfl, ?_, fun s hs => ?_⟩
  · rw [pushStatement, statements_modifyStatements_self _ hlater.kind hlater.lt,
      statements_alloc (by simp)]
  · obtain rfl := List.mem_singleton.1 hs
    refine ⟨Nat.lt_of_lt_of_le hlt hpush.size, ?_⟩
    rw [hpush.kind_eq hlt, kind, node_alloc_nextId, Node.kind]

end Assigns

end Tree

namespace Workspace

variable {block : NodeId} {count : Nat} {ws : Workspace}

/-- Either all assignments are recorded or, if that fails, none. -/
def AllOrNone (ws : Workspace) (block : NodeId) (count : Nat) :
    EStateM.Result Error Workspace Unit → Prop
  | .ok _ ws' => Tree.Assigns block count ws.tree ws'.tree
  | .error _ ws' => ∀ below, Confined below ws ws'

theorem AllOrNone.behind {α : Type} {x : Lift α} {f : α → Lift Unit}
    (hx : ∀ below, Lift.Silent below x)
    (hf : ∀ a mid, x ws = .ok a mid → mid = ws ∧ AllOrNone ws block count (f a ws)) :
    AllOrNone ws block count ((x >>= f) ws) := by
  change AllOrNone ws block count (EStateM.bind x f ws)
  unfold EStateM.bind
  cases hrun : x ws with
  | error cause mid => exact fun below => hx below ws cause mid hrun
  | ok a mid =>
    obtain ⟨rfl, hrest⟩ := hf a mid hrun
    exact hrest

theorem allOrNone_forM {f : Nat → Lift Unit} (hsilent : ∀ below, Lift.Silent below (f 0))
    (hall : (∃ mid, f 0 ws = .ok () mid) → ∃ ws', (List.range count).forM f ws = .ok () ws' ∧
      Tree.Assigns block count ws.tree ws'.tree) :
    AllOrNone ws block count ((List.range count).forM f ws) := by
  cases count with
  | zero => exact Tree.Assigns.refl ws.tree
  | succ count =>
    cases hrun : f 0 ws with
    | ok _ mid =>
      obtain ⟨ws', hloop, hassigns⟩ := hall ⟨mid, hrun⟩
      rw [hloop]
      exact hassigns
    | error cause mid =>
      have hloop : (List.range (count + 1)).forM f ws = .error cause mid := by
        rw [List.range_succ_eq_map]
        exact Lift.bind_of_error hrun
      rw [hloop]
      exact fun below => hsilent below ws cause mid hrun

end Workspace

theorem Lift.forM_range_succeeds {P : Nat → Workspace → Prop} {f : Nat → Lift Unit}
    {start count : Nat} {ws : Workspace} (hstart : P start ws)
    (hstep : ∀ i mid, P i mid → ∃ next, f i mid = .ok () next ∧ P (i + 1) next) :
    ∃ ws', (List.range' start count).forM f ws = .ok () ws' ∧ P (start + count) ws' := by
  induction count generalizing start ws with
  | zero => exact ⟨ws, rfl, hstart⟩
  | succ count ih =>
    obtain ⟨mid, hfirst, hmid⟩ := hstep start ws hstart
    obtain ⟨ws', hrest, hlast⟩ := ih hmid
    refine ⟨ws', ?_, by rwa [Nat.add_right_comm, Nat.add_assoc] at hlast⟩
    rw [List.range'_succ]
    exact (bind_of_ok hfirst).trans hrest

namespace Context

variable {ctx : Context} {index : Nat}

theorem exists_word (h : index < ctx.depth) : ∃ word, ctx.word index = .ok word := by
  have hlt : index < ctx.stack.reverse.length := by simpa [depth] using h
  exact ⟨ctx.stack.reverse[index], by rw [word, List.getElem?_eq_getElem hlt]⟩

theorem lt_depth_of_word {word : Word} (h : ctx.word index = .ok word) : index < ctx.depth := by
  obtain ⟨hlt, -⟩ := List.getElem?_eq_some_iff.1 (getElem?_of_word h)
  simpa [depth] using hlt

theorem OwnsAbove.push (h : ctx.OwnsAbove) (slot : NodeId) : (ctx.push slot).OwnsAbove := by
  intro index word hword hle
  have hget := getElem?_of_word hword
  rw [Context.push, List.reverse_cons] at hget
  by_cases hlt : index < ctx.stack.reverse.length
  · rw [List.getElem?_append_left hlt] at hget
    exact h index word (by rw [Context.word, hget]) hle
  · rw [List.getElem?_append_right (Nat.le_of_not_lt hlt)] at hget
    obtain ⟨-, rfl⟩ := List.getElem?_eq_some_iff.1 hget
    simp [Context.current, Context.push, Context.top]

/-- Every word of a caller lies where it has a position as an argument. -/
structure Positioned (ctx : Context) : Prop where
  owns : ctx.OwnsAbove
  entered : ctx.top.entered ≤ 2 ^ 29

theorem Positioned.push (h : ctx.Positioned) (slot : NodeId) : (ctx.push slot).Positioned :=
  ⟨h.owns.push slot, h.entered⟩

theorem Positioned.lt_entered (h : ctx.Positioned) {word : Word} (hword : ctx.word index = .ok word)
    (howner : word.owner ≠ ctx.current) : index < ctx.top.entered := by
  by_contra hle
  exact howner (h.owns index word hword (Nat.le_of_not_lt hle))

end Context

namespace Site

open Lift Workspace

variable {site : Site} {ws ws' : Workspace} {index : Nat} {how : Access}

theorem addressed_eq_ok (h : site.addressed ws = .ok index ws') : ws' = ws := by
  obtain ⟨position, _, hbelow, hafter⟩ := bind_eq_ok h
  obtain ⟨-, -, rfl⟩ := below_eq_ok hbelow
  obtain ⟨_, _, hget, hcheck⟩ := bind_eq_ok hafter
  cases hget
  exact (check_eq_ok hcheck).2

/-- Where all words of callers have positions, every word that is there can be used. -/
theorem exists_access (hctx : ws.context.Positioned) (hindex : index < ws.context.depth)
    (how : Access) :
    ∃ slot ws', site.access index how ws = .ok slot ws' ∧ ws'.context = ws.context := by
  obtain ⟨word, hword⟩ := Context.exists_word hindex
  unfold access
  rw [get_bind, hword, check, pure_bind]
  split
  · next houter =>
    have howner : word.owner ≠ ws.context.current := by
      simp only [Context.isOuter, Bool.and_eq_true, decide_eq_true_eq] at houter
      exact houter.1
    have hbelow := hctx.lt_entered hword howner
    have hentered := hctx.entered
    dsimp only
    rw [if_pos (by omega)]
    unfold argument
    split
    · exact ⟨_, _, rfl, rfl⟩
    · exact ⟨_, _, rfl, rfl⟩
  · exact ⟨_, _, rfl, rfl⟩

theorem lt_of_access {slot : NodeId} (h : site.access index how ws = .ok slot ws') :
    index < ws.context.depth := by
  obtain ⟨_, _, hget, hafter⟩ := bind_eq_ok h
  cases hget
  obtain ⟨word, _, hcheck, -⟩ := bind_eq_ok hafter
  exact Context.lt_depth_of_word (check_eq_ok hcheck).1

theorem assigns_access {slot : NodeId} (hblock : ws.tree.IsBlock site.block)
    (h : site.access index how ws = .ok slot ws') :
    Tree.Assigns site.block 0 ws.tree ws'.tree := by
  have hgrow : ws.tree.Grows ws'.tree :=
    ((site.closed_grows { program := {}, routines := {} }).keeps_access _ _).ok h
  have hconfined : Confined (site.block.index + 1) ws ws' :=
    ((site.aside _).keeps_access index how).ok h
  exact .of_statements_eq hgrow ((hconfined hblock.lt).2.1 _ (Nat.lt_succ_self _))

theorem silent_copyWordDown (site : Site) (below start count i : Nat) :
    Silent below (site.copyWordDown start count i) :=
  .behind (site.aside below).keeps_get fun _ =>
    .behind ((site.aside below).keeps_check _) fun _ =>
      .behind ((site.aside below).keeps_access _ _) fun _ =>
        .of_succeeds (.bind (.modify _) fun _ => site.succeeds_record _)

theorem exists_copyWordDown (hctx : ws.context.Positioned)
    (hblock : ws.tree.IsBlock site.block) {start count i : Nat}
    (hindex : start + count - 1 - i < ws.context.depth) :
    ∃ ws', site.copyWordDown start count i ws = .ok () ws' ∧ ws'.context = ws.context ∧
      Tree.Assigns site.block 1 ws.tree ws'.tree := by
  have hlast : ws.context.depth - 1 - i < ws.context.depth := by omega
  obtain ⟨right, hright⟩ := Context.exists_word hlast
  obtain ⟨left, mid, haccess, hcontext⟩ := exists_access hctx hindex .modify
  have hfirst := assigns_access hblock haccess
  -- Whether the type follows or not, the statements stay as they are.
  obtain ⟨typed, hretype, htyped, hsecond⟩ : ∃ typed, Lift.retype left right.slot mid = .ok () typed ∧
      typed.context = mid.context ∧ Tree.Assigns site.block 0 mid.tree typed.tree := by
    refine ⟨_, rfl, ?_, ?_⟩
    · dsimp only
      split <;> rfl
    · dsimp only
      split
      · exact .of_statements_eq (.modifySlot _ _ _) (Tree.statements_modifySlot _)
      · exact .refl mid.tree
  have hthird := Tree.Assigns.record ((hblock.mono hfirst.grows).mono hsecond.grows) site.ins.offset
    left right.slot false
  let assigned := (typed.tree.alloc site.ins.offset
    (.binary .assign left right.slot false)).pushStatement site.block typed.tree.nextId
  refine ⟨{ typed with tree := assigned }, ?_, htyped.trans hcontext,
    (hfirst.trans hsecond).trans hthird⟩
  rw [copyWordDown, get_bind, hright, check, pure_bind, bind_of_ok haccess, bind_of_ok hretype]
  rfl

theorem lt_of_copyWordDown {start count i : Nat}
    (h : site.copyWordDown start count i ws = .ok () ws') :
    start + count - 1 - i < ws.context.depth := by
  obtain ⟨_, _, hget, hafter⟩ := bind_eq_ok h
  cases hget
  obtain ⟨right, _, hcheck, hleft⟩ := bind_eq_ok hafter
  obtain ⟨-, rfl⟩ := check_eq_ok hcheck
  obtain ⟨left, _, haccess, -⟩ := bind_eq_ok hleft
  exact lt_of_access haccess

/-- The word that is assigned first has the highest index. -/
theorem copyDown_allOrNone (hctx : ws.context.Positioned)
    (hblock : ws.tree.IsBlock site.block) :
    ws.AllOrNone site.block (site.ins.size.toNat / 4) (site.copyDown ws) := by
  refine .behind (fun below => .of_keeps (site.aside below).keeps_addressed)
    fun start mid haddressed => ⟨addressed_eq_ok haddressed, ?_⟩
  refine .behind (fun below => .of_keeps (site.aside below).keeps_get) fun _ mid hget => ?_
  cases hget
  refine ⟨rfl, .behind (fun below => .of_keeps ((site.aside below).keeps_require _ _))
    fun _ mid hrequire => ⟨(require_eq_ok hrequire).2, ?_⟩⟩
  refine allOrNone_forM (fun below => site.silent_copyWordDown below _ _ 0) ?_
  rintro ⟨mid, hfirst⟩
  have hhighest := lt_of_copyWordDown hfirst
  have hall : ∀ i mid, mid.context = ws.context ∧ Tree.Assigns site.block i ws.tree mid.tree →
      ∃ next, site.copyWordDown start (site.ins.size.toNat / 4) i mid = .ok () next ∧
        next.context = ws.context ∧ Tree.Assigns site.block (i + 1) ws.tree next.tree := by
    rintro i mid ⟨hcontext, hassigns⟩
    rw [← hcontext] at hctx hhighest
    obtain ⟨next, hrun, hsame, hone⟩ := exists_copyWordDown hctx
      (hblock.mono hassigns.grows) (show start + site.ins.size.toNat / 4 - 1 - i < _ by omega)
    exact ⟨next, hrun, hsame.trans hcontext, hassigns.trans hone⟩
  obtain ⟨ws', hloop, -, hassigns⟩ := Lift.forM_range_succeeds ⟨rfl, .refl ws.tree⟩ hall
  rw [Nat.zero_add] at hassigns
  exact ⟨ws', by rwa [List.range_eq_range'], hassigns⟩

theorem silent_copyWordTop (site : Site) (below start count i : Nat) :
    Silent below (site.copyWordTop start count i) :=
  .behind ((site.aside below).keeps_access _ _) fun _ =>
    .of_succeeds (.bind .get fun _ => .bind (site.succeeds_bindSlot _ _) fun copy => .push copy)

theorem exists_copyWordTop (hctx : ws.context.Positioned)
    (hblock : ws.tree.IsBlock site.block) {start count i : Nat}
    (hindex : start + i < ws.context.depth) :
    ∃ ws' slot, site.copyWordTop start count i ws = .ok () ws' ∧
      ws'.context = ws.context.push slot ∧ Tree.Assigns site.block 1 ws.tree ws'.tree := by
  obtain ⟨source, mid, haccess, hcontext⟩ := exists_access hctx hindex .read
  have hfirst := assigns_access hblock haccess
  let suffix := if 1 < count then some (toString i) else none
  let copy : Node := .slot { type := mid.tree.type source, suffix }
  have hsecond : Tree.Assigns site.block 0 mid.tree (mid.tree.alloc site.ins.offset copy) :=
    .alloc mid.tree site.ins.offset rfl
  have hthird := Tree.Assigns.record ((hblock.mono hfirst.grows).mono hsecond.grows) site.ins.offset
    mid.tree.nextId source true
  refine ⟨{ mid with tree := _, context := mid.context.push mid.tree.nextId }, mid.tree.nextId, ?_,
    congrArg (·.push mid.tree.nextId) hcontext, (hfirst.trans hsecond).trans hthird⟩
  rw [copyWordTop, bind_of_ok haccess]
  rfl

theorem lt_of_copyWordTop {start count i : Nat}
    (h : site.copyWordTop start count i ws = .ok () ws') : start + i < ws.context.depth := by
  obtain ⟨source, _, haccess, -⟩ := bind_eq_ok h
  exact lt_of_access haccess

/-- The stack grows as fast as the index of the word to be copied. -/
theorem copyTop_allOrNone (hctx : ws.context.Positioned)
    (hblock : ws.tree.IsBlock site.block) :
    ws.AllOrNone site.block (site.ins.size.toNat / 4) (site.copyTop ws) := by
  refine .behind (fun below => .of_keeps (site.aside below).keeps_addressed)
    fun start mid haddressed => ⟨addressed_eq_ok haddressed, ?_⟩
  refine allOrNone_forM (fun below => site.silent_copyWordTop below _ _ 0) ?_
  rintro ⟨mid, hfirst⟩
  have hlowest := lt_of_copyWordTop hfirst
  have hall : ∀ i mid, (mid.context.Positioned ∧ mid.context.depth = ws.context.depth + i ∧
        Tree.Assigns site.block i ws.tree mid.tree) →
      ∃ next, site.copyWordTop start (site.ins.size.toNat / 4) i mid = .ok () next ∧
        next.context.Positioned ∧ next.context.depth = ws.context.depth + (i + 1) ∧
        Tree.Assigns site.block (i + 1) ws.tree next.tree := by
    rintro i mid ⟨hmid, hdepth, hassigns⟩
    obtain ⟨next, slot, hrun, hpush, hone⟩ := exists_copyWordTop hmid
      (hblock.mono hassigns.grows) (show start + i < mid.context.depth by omega)
    refine ⟨next, hrun, hpush ▸ hmid.push slot, ?_, hassigns.trans hone⟩
    rw [hpush, Context.depth, Context.push, List.length_cons, ← Context.depth, hdepth]
    rfl
  obtain ⟨ws', hloop, -, -, hassigns⟩ := Lift.forM_range_succeeds ⟨hctx, rfl, .refl ws.tree⟩ hall
  rw [Nat.zero_add] at hassigns
  exact ⟨ws', by rwa [List.range_eq_range'], hassigns⟩

theorem silent_execute (script : Script) (callees : List (Nat × SubId)) (below : Nat)
    (hdown : site.ins.opcode.operation ≠ .copyDown) (htop : site.ins.opcode.operation ≠ .copyTop) :
    Silent below (site.execute script callees) := by
  have hkeeps := site.closed_aside script below
  unfold execute
  split
  · exact site.silent_onward below (.of_succeeds (.pure _))
  · exact .of_succeeds (.bind (site.succeeds_record _) fun _ => .pure _)
  · exact site.silent_jump below _
  · split
    · exact site.silent_onward below (site.silent_call below _)
    · exact .of_succeeds (.pure _)
  · next hop => exact site.silent_onward below (site.silent_branch below _ hop)
  · exact site.silent_onward below (site.silent_reserve below)
  · exact site.silent_onward below (site.silent_load below)
  · exact site.silent_onward below (site.silent_action below _)
  · next hop => exact absurd hop hdown
  · next hop => exact absurd hop htop
  · exact site.silent_onward below (.of_keeps hkeeps.keeps_release)
  · exact site.silent_onward below (.of_keeps hkeeps.keeps_destruct)
  · exact site.silent_onward below (site.silent_step below)
  · exact site.silent_onward below (site.silent_unary below)
  · exact site.silent_onward below (site.silent_compare below)
  · next hop => exact site.silent_onward below (.of_keeps (hkeeps.keeps_storeState hop))
  · exact site.silent_onward below (.of_keeps hkeeps.keeps_saveBase)
  · exact site.silent_onward below (.of_keeps hkeeps.keeps_restoreBase)
  · exact site.silent_onward below (site.silent_binary below)

theorem allOrNone_onward {block : NodeId} {count : Nat} {handler : Lift Unit}
    (h : ws.AllOrNone block count (handler ws)) :
    (∃ flow ws', site.onward handler ws = .ok flow ws' ∧
      Tree.Assigns block count ws.tree ws'.tree) ∨
    ∃ cause ws', site.onward handler ws = .error cause ws' ∧ ∀ below, Confined below ws ws' := by
  cases hrun : handler ws with
  | ok _ ws' =>
    rw [hrun] at h
    exact .inl ⟨_, ws', bind_of_ok hrun, h⟩
  | error cause ws' =>
    rw [hrun] at h
    exact .inr ⟨cause, ws', bind_of_error hrun, h⟩

theorem execute_copy (script : Script) (callees : List (Nat × SubId))
    (hctx : ws.context.Positioned) (hblock : ws.tree.IsBlock site.block)
    (hop : site.ins.opcode.operation = .copyDown ∨ site.ins.opcode.operation = .copyTop) :
    (∃ flow ws', site.execute script callees ws = .ok flow ws' ∧
      Tree.Assigns site.block (site.ins.size.toNat / 4) ws.tree ws'.tree) ∨
    ∃ cause ws', site.execute script callees ws = .error cause ws' ∧
      ∀ below, Confined below ws ws' := by
  rcases hop with hop | hop
  · simp only [execute, hop]
    exact allOrNone_onward (copyDown_allOrNone hctx hblock)
  · simp only [execute, hop]
    exact allOrNone_onward (copyTop_allOrNone hctx hblock)

theorem execute_confined {script : Script} {callees : List (Nat × SubId)} {cause : Error}
    (hctx : ws.context.Positioned) (hblock : ws.tree.IsBlock site.block)
    (hrun : site.execute script callees ws = .error cause ws') (below : Nat) :
    Confined below ws ws' := by
  by_cases hop : site.ins.opcode.operation = .copyDown ∨ site.ins.opcode.operation = .copyTop
  · rcases execute_copy script callees hctx hblock hop with
      ⟨_, _, hok, -⟩ | ⟨_, _, herror, hconfined⟩
    · cases hok.symm.trans hrun
    · cases herror.symm.trans hrun
      exact hconfined below
  · obtain ⟨hdown, htop⟩ := not_or.1 hop
    exact site.silent_execute script callees below hdown htop ws cause ws' hrun

theorem keeps_confined_visit {below : Nat} (hblock : below ≤ site.block.index) (script : Script)
    (callees : List (Nat × SubId)) : Keeps (Confined below) (site.visit script callees) := by
  have hrecord : ∀ (ws : Workspace) {node : Node}, node.kind ≠ .block → Confined below ws { ws with
      tree := (ws.tree.alloc site.ins.offset node).pushStatement site.block ws.tree.nextId } :=
    fun ws _ hnode => (Confined.alloc ws site.ins.offset fun _ => Node.statements_eq_nil hnode).trans
      (.pushStatement _ _ fun _ => hblock)
  have hclosed := closed_confined hblock script
  exact hclosed.keeps_visit callees
    (fun _ callee _ => hclosed.keeps_call callee fun ws _ => hrecord ws (by simp [Node.kind]))
    fun _ ws => hrecord ws (by simp [Node.kind])

theorem context_placeLabel (labels : List (Nat × NodeId)) :
    (left (site.placeLabel labels ws)).context = ws.context := by
  unfold placeLabel
  cases labels.lookup site.ins.offset <;> rfl

theorem size_placeLabel (labels : List (Nat × NodeId)) :
    (left (site.placeLabel labels ws)).tree.size = ws.tree.size := by
  unfold placeLabel
  cases labels.lookup site.ins.offset with
  | none => rfl
  | some label => exact Tree.size_modifyStatements _

theorem statements_placeLabel (site : Site) (ws : Workspace) (labels : List (Nat × NodeId))
    (hblock : ws.tree.IsBlock site.block) (id : NodeId) :
    (left (site.placeLabel labels ws)).tree.statements id =
      if id = site.block then ws.tree.statements id ++ (labels.lookup site.ins.offset).toList
      else ws.tree.statements id := by
  unfold placeLabel
  cases labels.lookup site.ins.offset with
  | none =>
    change ws.tree.statements id = _
    simp
  | some label =>
    change (ws.tree.pushStatement site.block label).statements id = _
    split
    · next heq =>
      rw [heq, Tree.pushStatement,
        Tree.statements_modifyStatements_self _ hblock.kind hblock.lt]
      rfl
    · next hne => exact Tree.statements_modifyStatements_of_ne _ hne

end Site

namespace Machine

/-- Moves while more than so many subroutines are in progress. -/
def Above (script : Script) (settings : LiftSettings) (depth : Nat) : Machine → Machine → Prop :=
  Relation.ReflTransGen fun m m' =>
    depth < m.active.length ∧ m.tick script settings = .ok (some m')

/-- The subroutines in front of `callers` record to blocks that were not there in `base`. -/
structure Apart (callers : List Activation) (base : Tree) (m : Machine) : Prop where
  active : ∃ inner, m.active = inner ++ callers ∧
    ∀ act ∈ inner, ∀ p ∈ act.pending, base.size ≤ p.1.index
  grows : base.Grows m.tree
  statements : ∀ id : NodeId, id.index < base.size → m.tree.statements id = base.statements id

variable {script : Script} {settings : LiftSettings} {m m' : Machine}
  {callers : List Activation} {base : Tree}

namespace Apart

theorem exists_inner (h : m.Apart callers base) {act : Activation} {rest : List Activation}
    (hactive : m.active = act :: rest) (hlt : callers.length < m.active.length) :
    ∃ inner, rest = inner ++ callers ∧ (∀ p ∈ act.pending, base.size ≤ p.1.index) ∧
      ∀ other ∈ inner, ∀ p ∈ other.pending, base.size ≤ p.1.index := by
  obtain ⟨inner, heq, hinner⟩ := h.active
  cases inner with
  | nil =>
    rw [heq] at hlt
    exact absurd hlt (Nat.lt_irrefl _)
  | cons first inner =>
    obtain ⟨rfl, rfl⟩ := List.cons.inj (hactive.symm.trans heq)
    exact ⟨inner, rfl, hinner _ List.mem_cons_self,
      fun other hother => hinner other (List.mem_cons_of_mem _ hother)⟩

theorem outcome (h : m.Apart callers base) (hlt : callers.length < m.active.length) {visit : Visit}
    (hvisit : m.visit? script.program = some visit) :
    (visit.start m).Confined base.size (visit.outcome script m) := by
  obtain ⟨hactive, hwalk, -, -⟩ := visit?_eq_some.1 hvisit
  obtain ⟨-, -, hpending, -⟩ := h.exists_inner hactive hlt
  exact Site.keeps_confined_visit (hpending _ (Visit.mem_pending hwalk)) script m.callees _

theorem tick (h : m.Apart callers base) (hlt : callers.length < m.active.length)
    (htick : m.tick script settings = .ok (some m')) : m'.Apart callers base := by
  have hgrows := h.grows.trans (move_of_tick htick).grows
  have hcons : ∀ {act : Activation} {inner : List Activation},
      (∀ p ∈ act.pending, base.size ≤ p.1.index) →
      (∀ other ∈ inner, ∀ p ∈ other.pending, base.size ≤ p.1.index) →
      ∀ other ∈ act :: inner, ∀ p ∈ other.pending, base.size ≤ p.1.index := by
    intro act inner hact hinner other hother
    rcases List.mem_cons.1 hother with rfl | hother
    · exact hact
    · exact hinner other hother
  cases turn_of_tick htick with
  | ended _ hactive hexprs =>
    obtain ⟨inner, hrest, -, hinner⟩ := h.exists_inner hactive hlt
    exact ⟨⟨inner, hrest, hinner⟩, hgrows, fun id hid =>
      (Tree.statements_of_exprs_eq hexprs).trans (h.statements id hid)⟩
  | @shifted act act' rest _ hactive hactive' hgoes hexprs =>
    obtain ⟨inner, rfl, hact, hinner⟩ := h.exists_inner hactive hlt
    exact ⟨⟨act' :: inner, hactive', hcons (fun p hp => hact p (hgoes.pending hp)) hinner⟩, hgrows,
      fun id hid => (Tree.statements_of_exprs_eq hexprs).trans (h.statements id hid)⟩
  | @visited visit act' hvisit _ hactive' hleads hexprs =>
    obtain ⟨inner, hrest, hact, hinner⟩ := h.exists_inner (visit?_eq_some.1 hvisit).1 hlt
    obtain ⟨-, hsame, hjobs⟩ := h.outcome hlt hvisit h.grows.size
    rw [hrest] at hactive'
    refine ⟨⟨act' :: inner, hactive', hcons (fun p hp => ?_) hinner⟩, hgrows, fun id hid => ?_⟩
    · rcases hleads.pending_cases hp with rfl | ⟨job, hjob, rfl⟩ | hp
      · exact hact (visit.walk.block, visit.walk.context)
          (Visit.mem_pending (walk_of_visit? hvisit))
      · exact (hjobs job hjob).resolve_left (by simp [Visit.start, workspace])
      · exact hact p hp
    · exact (Tree.statements_of_exprs_eq hexprs).trans ((hsame id hid).trans (h.statements id hid))
  | @entered visit act' target ws hvisit _ hactive' hgoes hexprs =>
    obtain ⟨inner, hrest, hact, hinner⟩ := h.exists_inner (visit?_eq_some.1 hvisit).1 hlt
    rw [hrest] at hactive'
    refine ⟨⟨_ :: act' :: inner, hactive', hcons (fun p hp => ?_)
      (hcons (fun p hp => hact p (hgoes.pending hp)) hinner)⟩, hgrows, fun id hid => ?_⟩
    · obtain rfl := List.mem_singleton.1 hp
      exact h.grows.size
    · refine (Tree.statements_of_exprs_eq hexprs).trans ((Tree.statements_alloc ?_).trans
        (h.statements id hid))
      simp

theorem above (h : m.Apart callers base) (habove : Above script settings callers.length m m') :
    m'.Apart callers base := by
  induction habove with
  | refl => exact h
  | tail _ hstep ih => exact ih.tick hstep.1 hstep.2

end Apart

theorem apart_begin (m : Machine) (name : String) (entry : Nat) (context : SubId → Context) :
    (m.begin name entry context).Apart m.active m.tree where
  active := by
    refine ⟨[_], rfl, fun act hact p hp => ?_⟩
    obtain rfl := List.mem_singleton.1 hact
    obtain rfl := List.mem_singleton.1 hp
    exact Nat.le_refl _
  grows := (Tree.Grows.alloc m.tree entry _).trans (.of_exprs_eq rfl)
  statements id _ := by
    have hsame : (m.begin name entry context).tree.statements id =
        (m.tree.alloc entry (.block [])).statements id := Tree.statements_of_exprs_eq rfl
    exact hsame.trans (Tree.statements_alloc (by simp))

/-- The tree as the next move leaves it, failing or not. -/
def leaves (script : Script) (m : Machine) : Tree :=
  match m.visit? script.program with
  | some visit => (visit.outcome script m).tree
  | none => m.tree

theorem Apart.leaves (h : m.Apart callers base) (hlt : callers.length < m.active.length)
    {id : NodeId} (hid : id.index < base.size) :
    (m.leaves script).statements id = base.statements id := by
  unfold Machine.leaves
  split
  · next visit hvisit =>
    exact ((h.outcome hlt hvisit h.grows.size).2.1 id hid).trans (h.statements id hid)
  · exact h.statements id hid

end Machine

namespace Visit

variable (visit : Visit) (script : Script) (settings : LiftSettings) (m : Machine)

/-- What the instruction finds: its label, if it has one, stands in front of it already. -/
def found : Workspace := Lift.left (visit.site.placeLabel script.labels (visit.start m))

/-- The subroutine at `target` is begun for the instruction. -/
def begun (target : Nat) : Machine :=
  let act := { visit.act with last := max visit.act.last visit.walk.offset }
  Machine.begin { m with active := act :: visit.callers } "" target visit.walk.context.enter

/-- An instruction that fails, with the trees in front of it and behind it. It may call a subroutine
that is lifted first. -/
inductive Fails : Tree → Tree → Prop
  | refused {cause ws} :
    visit.site.execute script m.callees (visit.found script m) = .error cause ws →
    Fails (visit.found script m).tree ws.tree
  /-- No subroutine may be begun any more. -/
  | nested {target ws} :
    visit.site.execute script m.callees (visit.found script m) = .ok (.enter target) ws →
    settings.maxDepth < (visit.act :: visit.callers).length →
    Fails m.tree (visit.begun m target).tree
  /-- The subroutine cannot be lifted. -/
  | within {target ws later cause} :
    visit.site.execute script m.callees (visit.found script m) = .ok (.enter target) ws →
    Machine.Above script settings (visit.act :: visit.callers).length (visit.begun m target) later →
    (visit.act :: visit.callers).length < later.active.length →
    later.tick script settings = .error cause →
    Fails m.tree (later.leaves script)
  /-- The subroutine is lifted, and the call is refused for what it needs. -/
  | behind {target ws later cause ws'} :
    visit.site.execute script m.callees (visit.found script m) = .ok (.enter target) ws →
    Machine.Above script settings (visit.act :: visit.callers).length (visit.begun m target) later →
    later.active.length = (visit.act :: visit.callers).length →
    visit.site.execute script later.callees (visit.found script later) = .error cause ws' →
    Fails (visit.found script m).tree ws'.tree

variable {visit script settings m} {later : Machine} {base : Tree}

theorem apart_begun (target : Nat) : (visit.begun m target).Apart
    ({ visit.act with last := max visit.act.last visit.walk.offset } :: visit.callers) m.tree :=
  Machine.apart_begin { m with
    active := { visit.act with last := max visit.act.last visit.walk.offset } :: visit.callers }
    "" target visit.walk.context.enter

theorem found_grows : m.tree.Grows (visit.found script m).tree :=
  (visit.site.closed_grows script).keeps_placeLabel (visit.start m)

/-- Where the statements are the same, so they are behind the label. -/
theorem statements_found (hblock : m.tree.IsBlock visit.walk.block)
    (hlater : later.tree.IsBlock visit.walk.block) {id : NodeId}
    (h : later.tree.statements id = m.tree.statements id) :
    (visit.found script later).tree.statements id = (visit.found script m).tree.statements id := by
  have hplaced : ∀ {m : Machine}, m.tree.IsBlock visit.walk.block →
      (visit.found script m).tree.statements id = if id = visit.walk.block then
        m.tree.statements id ++ (script.labels.lookup visit.ins.offset).toList
      else m.tree.statements id :=
    fun {m} hblock => visit.site.statements_placeLabel (visit.start m) script.labels hblock id
  rw [hplaced hblock, hplaced hlater, h]

/-- A step that fails has recorded nothing. -/
theorem Fails.statements_eq {before after : Tree} (h : visit.Fails script settings m before after)
    (hblock : m.tree.IsBlock visit.walk.block) (hctx : visit.walk.context.Positioned) {id : NodeId}
    (hid : id.index < before.size) : after.statements id = before.statements id := by
  have hcontext : (visit.found script m).context = visit.walk.context :=
    Site.context_placeLabel script.labels
  have hsize : (visit.found script m).tree.size = m.tree.size := Site.size_placeLabel script.labels
  cases h with
  | refused hrun =>
    have hconfined := Site.execute_confined (hcontext ▸ hctx) (hblock.mono found_grows) hrun
      (visit.found script m).tree.size
    exact (hconfined (Nat.le_refl _)).2.1 id hid
  | nested => exact (apart_begun _).statements id hid
  | within _ habove hlt =>
    exact ((apart_begun _).above habove).leaves hlt hid
  | @behind target ws later cause ws' henter habove _ hrun =>
    have hapart := (apart_begun target).above habove
    rw [hsize] at hid
    have hcall := (Site.execute_enter henter).1
    have hsilent := visit.site.silent_execute script later.callees later.tree.size
      (by simp [hcall]) (by simp [hcall]) _ _ _ hrun
    have hle : later.tree.size ≤ (visit.found script later).tree.size := found_grows.size
    have hlt : id.index < later.tree.size := Nat.lt_of_lt_of_le hid hapart.grows.size
    exact ((hsilent hle).2.1 id hlt).trans
      (statements_found hblock (hblock.mono hapart.grows) (hapart.statements id hid))

end Visit

namespace Lift

variable {program : Program} {routines : Routines} {settings : LiftSettings} {ctx : Context}

theorem Reached.positioned (h : Reached program routines settings ctx)
    (hshallow : ∀ ctx, Reached program routines settings ctx → ctx.depth < 2 ^ 29) :
    ctx.Positioned := by
  obtain ⟨caller, hcaller, heq⟩ := h.exists_entry
  refine ⟨h.ownsAbove, ?_⟩
  rw [heq]
  exact Nat.le_of_lt (hshallow caller hcaller)

end Lift

/-- Where the stack stays below 2^29 words, an instruction that fails has recorded nothing, whatever
instruction it is and in whatever context of the run. That holds as well if it calls a subroutine that
is lifted first. A copy of several words records an assignment for each of them or none at all. -/
theorem failing_instruction_records_nothing (program : Program) (routines : Routines)
    (settings : LiftSettings)
    (hshallow : ∀ ctx, Lift.Reached program routines settings ctx → ctx.depth < 2 ^ 29) :
    (∀ (site : Site) (script : Script) (callees : List (Nat × SubId)) (ws : Workspace),
      Lift.Reached program routines settings ws.context → ws.tree.IsBlock site.block →
      ∀ cause ws', site.execute script callees ws = .error cause ws' →
        ∀ id : NodeId, id.index < ws.tree.size → ws'.tree.statements id = ws.tree.statements id) ∧
    (∀ (count : Nat) (m : Machine) (visit : Visit),
      Lift.stage program routines settings count = some m →
      m.active = visit.act :: visit.callers → visit.act.walk = some visit.walk →
      ∀ before after, visit.Fails (Lift.script program routines) settings m before after →
        ∀ id : NodeId, id.index < before.size → after.statements id = before.statements id) ∧
    ∀ (site : Site) (script : Script) (callees : List (Nat × SubId)) (ws : Workspace),
      Lift.Reached program routines settings ws.context → ws.tree.IsBlock site.block →
      site.ins.opcode.operation = .copyDown ∨ site.ins.opcode.operation = .copyTop →
      (∃ flow ws' added, site.execute script callees ws = .ok flow ws' ∧
        ws'.tree.statements site.block = ws.tree.statements site.block ++ added ∧
        added.length = site.ins.size.toNat / 4 ∧
        ∀ s ∈ added, ws'.tree.kind s = .binary .assign) ∨
      ∃ cause ws', site.execute script callees ws = .error cause ws' ∧
        ws'.tree.statements site.block = ws.tree.statements site.block := by
  refine ⟨?_, ?_, ?_⟩
  · intro site script callees ws hreached hblock cause ws' hrun id hid
    have hconfined := Site.execute_confined (hreached.positioned hshallow) hblock hrun ws.tree.size
    exact (hconfined (Nat.le_refl _)).2.1 id hid
  · intro count m visit hstage hactive hwalk before after hfails id hid
    have hact : visit.act ∈ m.active := Machine.first_mem hactive
    have hpending := Visit.mem_pending hwalk
    have hreached : Lift.Reached program routines settings visit.walk.context :=
      .pending hstage hact hpending
    exact hfails.statements_eq ((Lift.stage_fills hstage _ hact).pending _ hpending)
      (hreached.positioned hshallow) hid
  · intro site script callees ws hreached hblock hop
    rcases Site.execute_copy script callees (hreached.positioned hshallow) hblock hop with
      ⟨flow, ws', hrun, hassigns⟩ | ⟨cause, ws', hrun, hconfined⟩
    · obtain ⟨added, hlength, hadded, hkind⟩ := hassigns.added
      exact .inl ⟨flow, ws', added, hrun, hadded, hlength, fun s hs => (hkind s hs).2⟩
    · exact .inr ⟨cause, ws', hrun, (hconfined ws.tree.size (Nat.le_refl _)).2.1 _ hblock.lt⟩

/-- Two words are copied to where only one is left. -/
def shortScript : Program := .ofList "" [
  { opcode := .jsr, jump := 8 },
  { opcode := .retn },
  { opcode := .rsaddi },
  { opcode := .rsaddi },
  { opcode := .cpdownsp, stack := -4, size := 8 },
  { opcode := .retn }
]

/-- Whether a copy is refused behind `count` moves, in a block with `size` statements. -/
def Lift.refusesAt (program : Program) (routines : Routines) (settings : LiftSettings)
    (count size : Nat) : Bool :=
  let script := script program routines
  (stage program routines settings count).any fun m =>
    (m.visit? program).any fun visit =>
      let found := visit.found script m
      let refused := match visit.site.execute script m.callees found with
        | .error _ _ => true
        | .ok _ _ => false
      refused && decide (visit.ins.opcode = .cpdownsp ∧
        visit.walk.block.index < found.tree.size ∧
        (found.tree.statements visit.walk.block).length = size)

/-- The two declarations stay, and none of the words is assigned. -/
theorem shortScript_records_nothing :
    (∀ ctx, Lift.Reached shortScript {} .strictly ctx → ctx.depth < 2 ^ 29) ∧
    ∃ m visit cause ws, Lift.stage shortScript {} .strictly 5 = some m ∧
      m.visit? shortScript = some visit ∧ visit.ins.opcode = .cpdownsp ∧
      visit.site.execute (Lift.script shortScript {}) m.callees
        (visit.found (Lift.script shortScript {}) m) = .error cause ws ∧
      (ws.tree.statements visit.walk.block).length = 2 := by
  have hshallow : ∀ ctx, Lift.Reached shortScript {} .strictly ctx → ctx.depth < 2 ^ 29 := by
    intro ctx hreached
    have hend : Lift.stage shortScript {} .strictly 6 = none := by decide +kernel
    have hall : ∀ count < 6, ∀ ctx ∈ Lift.contextsAt shortScript {} .strictly count,
        ctx.depth < 3 := by decide +kernel
    obtain ⟨count, hlt, hmem⟩ := hreached.exists_lt hend
    have hdepth := hall count hlt ctx hmem
    omega
  obtain ⟨-, hfails, -⟩ := failing_instruction_records_nothing shortScript {} .strictly hshallow
  have hrefused : Lift.refusesAt shortScript {} .strictly 5 2 := by decide +kernel
  simp only [Lift.refusesAt, Option.any_eq_true, Bool.and_eq_true, decide_eq_true_eq] at hrefused
  obtain ⟨m, hstage, visit, hvisit, herror, hop, hlt, hlength⟩ := hrefused
  obtain ⟨hactive, hwalk, -⟩ := Machine.visit?_eq_some.1 hvisit
  split at herror
  · next cause ws hrun =>
    have hsame := hfails 5 m visit hstage hactive hwalk _ _ (.refused hrun) _ hlt
    exact ⟨hshallow, m, visit, cause, ws, hstage, hvisit, hop, hrun, by rw [hsame, hlength]⟩
  · cases herror

end ScriptLift
