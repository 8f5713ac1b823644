import ScriptLift.Proofs.Lift.Ownership

namespace ScriptLift

namespace Tree

def IsTest (tree : Tree) (id : NodeId) : Prop :=
  ∃ relation operand zero, tree.node id = .binary relation operand zero false ∧
    (relation = .equal ∨ relation = .notEqual) ∧ tree.isSlot operand ∧
    tree.node zero = .literal (.int 0)

/-- The operands of assignments and conditionals are what their places ask for. -/
structure Apt (tree : Tree) (node : Node) : Prop where
  target : ∀ left right declares, node = .binary .assign left right declares → tree.isSlot left
  test : ∀ test branch, node = .conditional test branch → tree.IsTest test
  branch : ∀ test branch, node = .conditional test branch → tree.IsBlock branch

variable {tree old new : Tree} {node : Node} {id : NodeId}

theorem Grows.isTest (h : old.Grows new) (hid : old.IsTest id) : new.IsTest id := by
  obtain ⟨relation, operand, zero, hnode, hrelation, hoperand, hzero⟩ := hid
  exact ⟨relation, operand, zero, h.node_of_eq hnode (by simp [Node.kind]) (by simp [Node.kind]),
    hrelation, h.isSlot hoperand, h.node_of_eq hzero (by simp [Node.kind]) (by simp [Node.kind])⟩

theorem Grows.apt (h : old.Grows new) (hnode : old.Apt node) : new.Apt node where
  target left right declares heq := h.isSlot (hnode.target left right declares heq)
  test test branch heq := h.isTest (hnode.test test branch heq)
  branch test branch heq := (hnode.branch test branch heq).mono h

theorem apt_of_kind (hassign : node.kind ≠ .binary .assign) (hconditional : node.kind ≠ .conditional) :
    tree.Apt node := by
  constructor <;> rintro _ _ <;> intros <;> subst_vars <;> simp [Node.kind] at hassign hconditional

theorem apt_assign {left right : NodeId} {declares : Bool} (h : tree.isSlot left) :
    tree.Apt (.binary .assign left right declares) where
  target := by
    rintro _ _ _ ⟨⟩
    exact h
  test := by simp
  branch := by simp

/-- Slots may change and blocks may grow; what they hold is no concern here. -/
theorem Apt.of_form {node' : Node} (h : tree.Apt node) (heq : node'.form = node.form) :
    tree.Apt node' := by
  by_cases hsame : node' = node
  · exact hsame ▸ h
  · have hkind : node'.kind = .slot ∨ node'.kind = .block := by
      cases node' <;> cases node <;> simp_all [Node.form, Node.kind]
    exact apt_of_kind (by rcases hkind with hk | hk <;> simp [hk])
      (by rcases hkind with hk | hk <;> simp [hk])

theorem Grows.all_apt (h : old.Grows new) (hold : ∀ id, old.Apt (old.node id))
    (hnew : ∀ id : NodeId, old.size ≤ id.index → id.index < new.size → new.Apt (new.node id))
    (id : NodeId) : new.Apt (new.node id) := by
  by_cases hlt : id.index < old.size
  · exact (h.apt (hold id)).of_form (h.form id hlt)
  · by_cases hlt' : id.index < new.size
    · exact hnew id (Nat.le_of_not_lt hlt) hlt'
    · rw [node_of_size_le (Nat.le_of_not_lt hlt')]
      exact apt_of_kind (by simp [Node.kind]) (by simp [Node.kind])

end Tree

/-- The word at `index` was pushed by another subroutine, and its position at the entry is no
negative 32-bit number. -/
structure Context.Unplaced (ctx : Context) (index entered : Nat) : Prop where
  outer : ∃ word, ctx.word index = .ok word ∧ word.owner ≠ ctx.current
  frame : entered = ctx.top.entered
  position : ¬(-0x80000000 ≤ ((index : Int) - entered) * 4 ∧ ((index : Int) - entered) * 4 < 0)

/-- Of all causes of a fault, one concerns whose words are where. -/
def Inconsistency.blamesOwner : Inconsistency → Bool
  | .outerAboveEntry _ _ => true
  | _ => false

def Error.blamesOwner : Error → Bool
  | .inconsistent _ _ cause => cause.blamesOwner
  | _ => false

/-- A word is refused for its owner only if it has no position. -/
def Context.Explains (ctx : Context) (cause : Error) : Prop :=
  ∀ offset opcode index entered,
    cause = .inconsistent offset opcode (.outerAboveEntry index entered) →
      ctx.Unplaced index entered

theorem Context.explains_of_blameless {ctx : Context} {cause : Error}
    (h : cause.blamesOwner = false) : ctx.Explains cause := by
  rintro offset opcode index entered rfl
  cases h

/-- The nodes are apt, and the workspace names slots and blocks as such. -/
structure Workspace.Apt (ws : Workspace) : Prop where
  tree : ∀ id, ws.tree.Apt (ws.tree.node id)
  words : ∀ word ∈ ws.context.stack, ws.tree.isSlot word.slot
  outer : ∀ argument ∈ ws.outer, ws.tree.isSlot argument.2
  blocks : ∀ entry ∈ ws.blocks, ws.tree.IsBlock entry.2

namespace Workspace.Apt

variable {ws : Workspace}

theorem setTree (h : ws.Apt) {tree : Tree} (hgrow : ws.tree.Grows tree)
    (hnew : ∀ id : NodeId, ws.tree.size ≤ id.index → id.index < tree.size →
      tree.Apt (tree.node id)) : { ws with tree }.Apt where
  tree := hgrow.all_apt h.tree hnew
  words word hword := hgrow.isSlot (h.words word hword)
  outer argument hargument := hgrow.isSlot (h.outer argument hargument)
  blocks entry hentry := (h.blocks entry hentry).mono hgrow

theorem alloc (h : ws.Apt) {offset : Nat} {node : Node} (hnode : ws.tree.Apt node) :
    { ws with tree := ws.tree.alloc offset node }.Apt := by
  have hgrow := Tree.Grows.alloc ws.tree offset node
  refine h.setTree hgrow fun id hle hlt => ?_
  rw [Tree.eq_nextId_of_alloc hle hlt, Tree.node_alloc_nextId]
  exact hgrow.apt hnode

theorem of_size_eq (h : ws.Apt) {tree : Tree} (hgrow : ws.tree.Grows tree)
    (hsize : tree.size = ws.tree.size) : { ws with tree }.Apt :=
  h.setTree hgrow fun id hle hlt => by omega

theorem modifySlot (h : ws.Apt) (id : NodeId) (f : Slot → Slot) :
    { ws with tree := ws.tree.modifySlot id f }.Apt :=
  h.of_size_eq (.modifySlot ws.tree id f) (by simp)

theorem setContext (h : ws.Apt) {context : Context}
    (hwords : ∀ word ∈ context.stack, ws.tree.isSlot word.slot) : { ws with context }.Apt :=
  ⟨h.tree, hwords, h.outer, h.blocks⟩

end Workspace.Apt

namespace Lift

variable {α β : Type} {site : Site} {base : Tree}

/-- A result has the property `Q`, a fault is explained. -/
def Ends (Q : Tree → α → Prop) : EStateM.Result Error Workspace α → Prop
  | .ok a ws => Q ws.tree a
  | .error cause ws => ws.context.Explains cause

/-- Run on an apt workspace whose tree has grown from `base`, `x` leaves an apt workspace, failing or
not. -/
def Crafts (base : Tree) (Q : Tree → α → Prop) (x : Lift α) : Prop :=
  ∀ ws, base.Grows ws.tree → ws.Apt →
    ws.tree.Grows (left (x ws)).tree ∧ (left (x ws)).Apt ∧ Ends Q (x ws)

namespace Crafts

variable {Q : Tree → α → Prop} {Q' : Tree → β → Prop}

theorem pure {a : α} (h : ∀ tree, base.Grows tree → Q tree a) :
    Crafts base Q (Pure.pure a : Lift α) :=
  fun ws hbase hws => ⟨.refl _, hws, h ws.tree hbase⟩

theorem throw {cause : Error} (h : cause.blamesOwner = false) :
    Crafts base Q (MonadExcept.throw cause : Lift α) :=
  fun _ _ hws => ⟨.refl _, hws, Context.explains_of_blameless h⟩

theorem bind {x : Lift α} {f : α → Lift β} (hx : Crafts base Q x)
    (hf : ∀ a tree, base.Grows tree → Q tree a → Crafts tree Q' (f a)) :
    Crafts base Q' (x >>= f) := by
  intro ws hbase hws
  obtain ⟨hgrow, hapt, hends⟩ := hx ws hbase hws
  change ws.tree.Grows (left (EStateM.bind x f ws)).tree ∧ (left (EStateM.bind x f ws)).Apt ∧
    Ends Q' (EStateM.bind x f ws)
  unfold EStateM.bind
  cases hrun : x ws with
  | error cause mid =>
    rw [hrun] at hgrow hapt hends
    exact ⟨hgrow, hapt, hends⟩
  | ok a mid =>
    rw [hrun] at hgrow hapt hends
    obtain ⟨hgrow', hapt', hends'⟩ := hf a mid.tree (hbase.trans hgrow) hends mid (.refl _) hapt
    exact ⟨hgrow.trans hgrow', hapt', hends'⟩

theorem get : Crafts base (fun tree ws => ws.tree = tree ∧ ws.Apt)
    (MonadState.get : Lift Workspace) :=
  fun _ _ hws => ⟨.refl _, hws, rfl, hws⟩

theorem update {f : Workspace → Workspace}
    (h : ∀ ws, base.Grows ws.tree → ws.Apt → ws.tree.Grows (f ws).tree ∧ (f ws).Apt) :
    Crafts base (fun _ _ => True) (modify f : Lift Unit) :=
  fun ws hbase hws => ⟨(h ws hbase hws).1, (h ws hbase hws).2, trivial⟩

theorem mono {x : Lift α} {R : Tree → α → Prop} (h : Crafts base Q x)
    (hQ : ∀ a tree, Q tree a → R tree a) : Crafts base R x := by
  intro ws hbase hws
  obtain ⟨hgrow, hapt, hends⟩ := h ws hbase hws
  refine ⟨hgrow, hapt, ?_⟩
  cases hrun : x ws with
  | error cause mid =>
    rw [hrun] at hends
    exact hends
  | ok a mid =>
    rw [hrun] at hends
    exact hQ a mid.tree hends

theorem forM {f : α → Lift Unit} {xs : List α}
    (h : ∀ a ∈ xs, ∀ tree, base.Grows tree → Crafts tree (fun _ _ => True) (f a)) :
    Crafts base (fun _ _ => True) (xs.forM f) := by
  induction xs generalizing base with
  | nil => exact pure fun _ _ => trivial
  | cons a xs ih =>
    refine bind (h a List.mem_cons_self base (.refl _)) fun _ tree hgrow _ => ih ?_
    exact fun b hb later hlater => h b (List.mem_cons_of_mem _ hb) later (hgrow.trans hlater)

theorem mapM {f : α → Lift β} {xs : List α}
    (h : ∀ a ∈ xs, ∀ tree, base.Grows tree → Crafts tree (fun _ _ => True) (f a)) :
    Crafts base (fun _ _ => True) (xs.mapM f) := by
  induction xs generalizing base with
  | nil => exact pure fun _ _ => trivial
  | cons a xs ih =>
    rw [List.mapM_cons]
    refine bind (h a List.mem_cons_self base (.refl _)) fun b tree hgrow _ => ?_
    refine bind (ih fun c hc later hlater =>
      h c (List.mem_cons_of_mem _ hc) later (hgrow.trans hlater)) fun bs _ _ _ => ?_
    exact pure fun _ _ => trivial

theorem require (condition : Bool) {cause : Inconsistency} (h : cause.blamesOwner = false) :
    Crafts base (fun _ _ => True) (site.require condition cause) := by
  unfold Site.require
  split
  · exact pure fun _ _ => trivial
  · exact throw h

theorem check {result : Except Inconsistency α}
    (h : ∀ cause, result = .error cause → cause.blamesOwner = false) :
    Crafts base (fun _ a => result = .ok a) (site.check result) := by
  cases result with
  | ok a => exact pure fun _ _ => rfl
  | error cause => exact throw (h cause rfl)

theorem alloc {node : Node} (h : base.Apt node) :
    Crafts base (fun tree id => tree.node id = node) (site.alloc node) :=
  fun ws hbase hws => ⟨.alloc ws.tree _ node, hws.alloc (hbase.apt h), Tree.node_alloc_nextId⟩

theorem plain {node : Node} (hassign : node.kind ≠ .binary .assign)
    (hconditional : node.kind ≠ .conditional) :
    Crafts base (fun tree id => tree.node id = node) (site.alloc node) :=
  alloc (Tree.apt_of_kind hassign hconditional)

theorem slot (slot : Slot) :
    Crafts base (fun tree id => tree.isSlot id) (site.alloc (.slot slot)) :=
  (plain (by simp [Node.kind]) (by simp [Node.kind])).mono fun _ _ => Tree.isSlot_of_node

theorem pushStatement (block s : NodeId) :
    Crafts base (fun _ _ => True) (Lift.pushStatement block s) :=
  update fun ws _ hws =>
    ⟨.pushStatement ws.tree block s, hws.of_size_eq (.pushStatement ws.tree block s) (by simp)⟩

theorem emit (s : NodeId) : Crafts base (fun _ _ => True) (site.emit s) := pushStatement _ s

theorem record {node : Node} (h : base.Apt node) :
    Crafts base (fun _ _ => True) (site.alloc node >>= fun id => site.emit id) :=
  (alloc h).bind fun id _ _ _ => emit id

theorem push {slot : NodeId} (h : base.isSlot slot) :
    Crafts base (fun _ _ => True) (Lift.push slot) := by
  refine update fun ws hbase hws => ⟨.refl _, hws.setContext fun word hword => ?_⟩
  rcases List.mem_cons.1 hword with rfl | hword
  · exact hbase.isSlot h
  · exact hws.words word hword

theorem popMany (count : Nat) : Crafts base (fun _ _ => True) (site.popMany count) := by
  intro ws _ hws
  rw [Site.popMany_eq]
  cases hpop : ws.context.popMany count with
  | error cause =>
    refine ⟨.refl _, hws, Context.explains_of_blameless ?_⟩
    unfold Context.popMany at hpop
    split at hpop <;> cases hpop
    rfl
  | ok popped =>
    obtain ⟨-, -, hcontext⟩ := Context.popMany_eq_ok hpop
    refine ⟨.refl _, hws.setContext fun word hword => hws.words word ?_, trivial⟩
    rw [hcontext] at hword
    exact List.mem_of_mem_drop hword

theorem pop : Crafts base (fun tree slot => tree.isSlot slot) site.pop := by
  intro ws _ hws
  rw [Site.pop_eq]
  cases hpop : ws.context.pop with
  | error cause =>
    refine ⟨.refl _, hws, Context.explains_of_blameless ?_⟩
    unfold Context.pop at hpop
    split at hpop <;> cases hpop
    rfl
  | ok popped =>
    obtain ⟨hstack, hcontext⟩ := Context.pop_eq_ok hpop
    refine ⟨.refl _, hws.setContext fun word hword => hws.words word ?_, hws.words popped.1 ?_⟩
    · rw [hstack]
      exact List.mem_cons_of_mem _ hword
    · rw [hstack]
      exact List.mem_cons_self

end Crafts

end Lift

namespace Site

open Lift

variable {site : Site} {base : Tree}

theorem crafts_bindSlot (slot : Slot) (value : NodeId) :
    Crafts base (fun tree target => tree.isSlot target) (site.bindSlot slot value) :=
  .bind (.slot slot) fun _ _ _ htarget =>
    .bind (.alloc (Tree.apt_assign htarget)) fun assign _ hassign _ =>
      .bind (.emit assign) fun _ _ hemit _ =>
        .pure fun _ hlast => ((hassign.trans hemit).trans hlast).isSlot htarget

theorem crafts_declare (type : ValueType) (value : NodeId) :
    Crafts base (fun _ _ => True) (site.declare type value) :=
  .bind (crafts_bindSlot _ value) fun _ _ _ hslot => .push hslot

theorem crafts_below : Crafts base (fun _ _ => True) site.below := by
  unfold below
  split
  · exact .pure fun _ _ => trivial
  · exact .throw rfl

theorem blameless_of_relativeIndex {size : Nat} {position : Int} {cause : Inconsistency}
    (h : Context.relativeIndex size position = .error cause) : cause.blamesOwner = false := by
  unfold Context.relativeIndex at h
  dsimp only at h
  split at h <;> cases h
  rfl

theorem blameless_of_word {ctx : Context} {index : Nat} {cause : Inconsistency}
    (h : ctx.word index = .error cause) : cause.blamesOwner = false := by
  unfold Context.word at h
  split at h <;> cases h
  rfl

theorem crafts_addressed : Crafts base (fun _ _ => True) site.addressed :=
  .bind crafts_below fun _ _ _ _ => .bind .get fun _ _ _ _ =>
    (Crafts.check fun _ => blameless_of_relativeIndex).mono fun _ _ _ => trivial

theorem crafts_argument (position : Int) (type : ValueType) (how : Access) :
    Crafts base (fun tree slot => tree.isSlot slot) (site.argument position type how) := by
  intro ws _ hws
  unfold argument
  cases hlookup : ws.outer.lookup position with
  | some slot =>
    have hgrow := Tree.Grows.modifySlot ws.tree slot (·.mark how)
    exact ⟨hgrow, hws.modifySlot slot _, hgrow.isSlot (hws.outer _ (mem_of_lookup hlookup))⟩
  | none =>
    let fresh : Slot := { type, storage := .argument, position := some position }
    have hgrow := Tree.Grows.alloc ws.tree site.ins.offset (.slot (fresh.mark how))
    have halloc : Workspace.Apt
        { ws with tree := ws.tree.alloc site.ins.offset (.slot (fresh.mark how)) } :=
      hws.alloc (Tree.apt_of_kind (by simp [Node.kind]) (by simp [Node.kind]))
    have hslot : (ws.tree.alloc site.ins.offset (.slot (fresh.mark how))).isSlot ws.tree.nextId :=
      Tree.isSlot_of_node Tree.node_alloc_nextId
    refine ⟨hgrow, ⟨halloc.tree, halloc.words, fun entry hentry => ?_, halloc.blocks⟩, hslot⟩
    rcases mem_insert hentry with rfl | hentry
    · exact hslot
    · exact halloc.outer entry hentry

/-- The one place where a word is refused for its owner. -/
theorem crafts_access (index : Nat) (how : Access) :
    Crafts base (fun tree slot => tree.isSlot slot) (site.access index how) := by
  intro ws hbase hws
  change ws.tree.Grows (left (EStateM.bind (site.check (ws.context.word index)) _ ws)).tree ∧
    (left (EStateM.bind (site.check (ws.context.word index)) _ ws)).Apt ∧
    Ends _ (EStateM.bind (site.check (ws.context.word index)) _ ws)
  unfold EStateM.bind
  cases hword : ws.context.word index with
  | error cause =>
    exact ⟨.refl _, hws, Context.explains_of_blameless (blameless_of_word hword)⟩
  | ok word =>
    simp only [check, Pure.pure, EStateM.pure]
    by_cases houter : ws.context.isOuter word (ws.tree.storage? word.slot = some .global)
    · simp only [houter, if_true]
      split
      · exact crafts_argument _ _ _ ws hbase hws
      · next hposition =>
        refine ⟨.refl _, hws, ?_⟩
        rintro offset opcode i entered heq
        cases heq
        simp only [Context.isOuter, Bool.and_eq_true, decide_eq_true_eq] at houter
        exact ⟨⟨word, hword, houter.1⟩, rfl, hposition⟩
    · simp only [houter]
      exact ⟨.refl _, hws, hws.words word (mem_of_word hword)⟩

theorem crafts_retype (left right : NodeId) :
    Crafts base (fun _ _ => True) (Lift.retype left right) := by
  refine .update fun ws _ hws => ?_
  split
  · exact ⟨.modifySlot ws.tree left _, hws.modifySlot left _⟩
  · exact ⟨.refl _, hws⟩

theorem crafts_copyDown : Crafts base (fun _ _ => True) site.copyDown := by
  refine .bind crafts_addressed fun start _ _ _ => .bind .get fun ws _ _ _ =>
    .bind (.require _ rfl) fun _ _ _ _ => .forM fun i _ tree _ => ?_
  refine .bind .get fun ws _ _ _ => .bind (.check fun _ => blameless_of_word) fun right _ _ _ =>
    .bind (crafts_access _ _) fun left _ _ hleft => .bind (crafts_retype _ _) fun _ _ hgrow _ => ?_
  exact .record (Tree.apt_assign (hgrow.isSlot hleft))

theorem crafts_copyTop : Crafts base (fun _ _ => True) site.copyTop := by
  refine .bind crafts_addressed fun start _ _ _ => .forM fun i _ tree _ => ?_
  exact .bind (crafts_access _ _) fun source _ _ _ => .bind .get fun ws _ _ _ =>
    .bind (crafts_bindSlot _ source) fun copy _ _ hcopy => .push hcopy

theorem crafts_release : Crafts base (fun _ _ => True) site.release :=
  .bind crafts_below fun _ _ _ _ => .bind (.popMany _) fun _ _ _ _ => .pure fun _ _ => trivial

theorem crafts_destruct : Crafts base (fun _ _ => True) site.destruct := by
  unfold destruct
  split
  · exact .throw rfl
  · intro ws _ hws
    dsimp only
    rw [destructWords_eq]
    split
    · cases hpop : ws.context.popMany (site.ins.size.toNat / 4) with
      | error cause =>
        refine ⟨.refl _, hws, Context.explains_of_blameless ?_⟩
        unfold Context.popMany at hpop
        split at hpop <;> cases hpop
        rfl
      | ok popped =>
        obtain ⟨-, hwords, hcontext⟩ := Context.popMany_eq_ok hpop
        refine ⟨.refl _, hws.setContext fun word hword => hws.words word ?_, trivial⟩
        rw [hwords, hcontext] at hword
        exact (sublist_kept ws.context.stack _ _ _).subset hword
    · exact ⟨.refl _, hws, Context.explains_of_blameless rfl⟩

theorem crafts_applyStep (op : UnaryOp) :
    Crafts base (fun _ _ => True) (site.applyStep op) :=
  .bind crafts_addressed fun _ _ _ _ => .bind (crafts_access _ _) fun _ _ _ _ =>
    .record (Tree.apt_of_kind (by simp [Node.kind]) (by simp [Node.kind]))

theorem crafts_popVector : Crafts base (fun _ _ => True) site.popVector := by
  refine .bind (.popMany 3) fun words tree _ _ => ?_
  have hfloat : ∀ {t : Tree} name slot,
      Crafts t (fun _ _ => True) (site.requireFloat name slot) := fun name slot =>
    .bind .get fun ws _ _ _ => .require _ rfl
  split
  · exact .bind (hfloat _ _) fun _ _ _ _ => .bind (hfloat _ _) fun _ _ _ _ =>
      .bind (hfloat _ _) fun _ _ _ _ =>
        (Crafts.plain (by simp [Node.kind]) (by simp [Node.kind])).mono fun _ _ _ => trivial
  · exact .throw rfl

theorem crafts_pushComponent (vector : NodeId) (name : String) (index : Nat) :
    Crafts base (fun _ _ => True) (site.pushComponent vector name index) := by
  refine .bind (.slot _) fun component _ _ hcomponent => ?_
  refine .bind (.plain (by simp [Node.kind]) (by simp [Node.kind])) fun value _ hvalue _ => ?_
  have hslot := hvalue.isSlot hcomponent
  exact .bind (.alloc (Tree.apt_assign hslot)) fun assign _ hassign _ =>
    .bind (.emit assign) fun _ _ hemit _ => .push ((hassign.trans hemit).isSlot hslot)

theorem crafts_produce (type : ValueType) (value : NodeId) :
    Crafts base (fun _ _ => True) (site.produce type value) := by
  unfold produce
  split
  · exact .bind (crafts_bindSlot _ value) fun result _ _ _ =>
      .bind (crafts_pushComponent result _ _) fun _ _ _ _ =>
        .bind (crafts_pushComponent result _ _) fun _ _ _ _ => crafts_pushComponent result _ _
  · exact crafts_declare type value

theorem crafts_declareBare (type : ValueType) :
    Crafts base (fun _ _ => True) (site.declareBare type) :=
  .bind (.slot _) fun slot _ _ hslot => .bind (.emit slot) fun _ _ hemit _ =>
    .push (hemit.isSlot hslot)

theorem crafts_load : Crafts base (fun _ _ => True) site.load := by
  unfold load
  split
  · exact .bind (.plain (by simp [Node.kind]) (by simp [Node.kind])) fun literal _ _ _ =>
      crafts_declare _ literal
  · exact .throw rfl

theorem crafts_applyUnary (op : UnaryOp) :
    Crafts base (fun _ _ => True) (site.applyUnary op) :=
  .bind .pop fun _ _ _ _ => .bind .get fun _ _ _ _ =>
    .bind (.plain (by simp [Node.kind]) (by simp [Node.kind])) fun value _ _ _ =>
      crafts_declare _ value

theorem crafts_popPair (shape : Shape) : Crafts base (fun _ _ => True) (site.popPair shape) := by
  have hpair : ∀ {x y : Lift NodeId} {Q R : Tree → NodeId → Prop}, (∀ t, Crafts t Q x) →
      (∀ t, Crafts t R y) →
      Crafts base (fun _ _ => True) (do let right ← x; let left ← y; return (left, right)) :=
    fun hx hy => .bind (hx base) fun _ _ _ _ => .bind (hy _) fun _ _ _ _ => .pure fun _ _ => trivial
  cases shape with
  | scalar => exact hpair (fun _ => .pop) fun _ => .pop
  | vectorVector => exact hpair (fun _ => crafts_popVector) fun _ => crafts_popVector
  | floatVector => exact hpair (fun _ => crafts_popVector) fun _ => .pop
  | vectorFloat => exact hpair (fun _ => .pop) fun _ => crafts_popVector

theorem crafts_applyBinary {operation : BinaryOperation} (hop : operation.op ≠ .assign) :
    Crafts base (fun _ _ => True) (site.applyBinary operation) :=
  .bind (crafts_popPair _) fun _ _ _ _ =>
    .bind (.plain (by simpa [Node.kind] using hop) (by simp [Node.kind])) fun value _ _ _ =>
      crafts_produce _ value

theorem crafts_compareWord {relation join : BinaryOp} (hrelation : relation ≠ .assign)
    (hjoin : join ≠ .assign) {result : NodeId} (hresult : base.isSlot result) (index : Nat)
    (words : NodeId × NodeId) :
    Crafts base (fun _ _ => True) (site.compareWord relation join result index words) := by
  refine .bind (.plain (by simpa [Node.kind] using hrelation) (by simp [Node.kind]))
    fun word _ hword _ => ?_
  split
  · exact .record (Tree.apt_assign (hword.isSlot hresult))
  · exact .bind (.plain (by simpa [Node.kind] using hjoin) (by simp [Node.kind]))
      fun joined _ hjoined _ => .record (Tree.apt_assign ((hword.trans hjoined).isSlot hresult))

theorem crafts_compareWith {relation join : BinaryOp} (hrelation : relation ≠ .assign)
    (hjoin : join ≠ .assign) :
    Crafts base (fun _ _ => True) (site.compareWith relation join) := by
  refine .bind (.require _ rfl) fun _ _ _ _ => .bind (.popMany _) fun right _ _ _ =>
    .bind (.popMany _) fun left _ _ _ => .bind (.slot _) fun result _ _ hresult => ?_
  exact .bind (.forM fun words _ _ hlater =>
    crafts_compareWord hrelation hjoin (hlater.isSlot hresult) _ _) fun _ _ hlast _ =>
      .push (hlast.isSlot hresult)

theorem crafts_actionArgument (routine : Routine) (index : Nat) :
    Crafts base (fun _ _ => True) (site.actionArgument routine index) := by
  unfold actionArgument
  split
  · exact .throw rfl
  · exact crafts_popVector
  · refine .bind .get fun ws _ _ _ => ?_
    split
    · exact .pure fun _ _ => trivial
    · exact .throw rfl
  · exact Crafts.pop.mono fun _ _ _ => trivial

theorem crafts_action (routines : Routines) :
    Crafts base (fun _ _ => True) (site.action routines) := by
  unfold action
  split
  · exact .throw rfl
  · next routine _ =>
    refine .bind (.mapM fun i _ _ _ => crafts_actionArgument routine i) fun arguments _ _ _ => ?_
    refine .bind (.plain (by simp [Node.kind]) (by simp [Node.kind])) fun made _ _ _ => ?_
    split
    · exact .emit made
    · exact crafts_produce _ made

theorem crafts_targetLabel (labels : List (Nat × NodeId)) :
    Crafts base (fun _ _ => True) (site.targetLabel labels) := by
  unfold targetLabel
  split
  · exact .pure fun _ _ => trivial
  · exact .throw rfl

theorem crafts_jump (labels : List (Nat × NodeId)) :
    Crafts base (fun _ _ => True) (site.jump labels) := by
  have hgoto : ∀ {t : Tree}, Crafts t (fun _ _ => True) (site.targetLabel labels >>= fun label =>
      site.alloc (.goto label) >>= fun goto => site.emit goto) := fun {t} =>
    .bind (crafts_targetLabel labels) fun label _ _ _ =>
      .record (Tree.apt_of_kind (by simp [Node.kind]) (by simp [Node.kind]))
  unfold jump
  split
  · exact .pure fun _ _ => trivial
  · refine .bind (Q := fun _ _ => True) ?_ fun _ _ _ _ => .pure fun _ _ => trivial
    unfold jumpBack
    dsimp only
    split
    · refine .bind (.update fun ws _ hws => ?_) fun _ _ _ _ => hgoto
      exact ⟨.of_exprs_eq rfl, hws.of_size_eq (.of_exprs_eq rfl) rfl⟩
    · exact hgoto

theorem crafts_schedule (offset : Nat) :
    Crafts base (fun tree block => tree.IsBlock block) (Lift.schedule offset) := by
  intro ws _ hws
  unfold Lift.schedule
  dsimp only
  cases hlookup : ws.blocks.lookup (offset, ws.context.depth) with
  | some block => exact ⟨.refl _, hws, hws.blocks _ (mem_of_lookup hlookup)⟩
  | none =>
    have halloc : Workspace.Apt { ws with tree := ws.tree.alloc offset (.block []) } :=
      hws.alloc (Tree.apt_of_kind (by simp [Node.kind]) (by simp [Node.kind]))
    have hblock : (ws.tree.alloc offset (.block [])).IsBlock ws.tree.nextId :=
      Tree.isBlock_alloc rfl
    refine ⟨.alloc ws.tree offset _, ⟨halloc.tree, halloc.words, halloc.outer, ?_⟩, hblock⟩
    intro entry hentry
    rcases List.mem_cons.1 hentry with rfl | hentry
    · exact hblock
    · exact halloc.blocks entry hentry

theorem crafts_branchBlock (labels : List (Nat × NodeId)) :
    Crafts base (fun tree block => tree.IsBlock block) (site.branchBlock labels) := by
  unfold branchBlock
  split
  · exact crafts_schedule _
  · refine .bind (crafts_targetLabel labels) fun label _ _ _ => ?_
    have hblock : ∀ {t : Tree},
        Crafts t (fun tree block => tree.IsBlock block) (site.alloc (.block [])) :=
      fun ws _ hws => ⟨.alloc ws.tree _ _,
        hws.alloc (Tree.apt_of_kind (by simp [Node.kind]) (by simp [Node.kind])),
        Tree.isBlock_alloc rfl⟩
    exact .bind hblock fun block _ _ hmade =>
      .bind (.plain (by simp [Node.kind]) (by simp [Node.kind])) fun goto _ hgoto _ =>
        .bind (.pushStatement block goto) fun _ _ hpush _ =>
          .pure fun _ hlast => hmade.mono ((hgoto.trans hpush).trans hlast)

theorem crafts_branch (labels : List (Nat × NodeId)) :
    Crafts base (fun _ _ => True) (site.branch labels) := by
  have hrelation := site.ins.opcode.relation_cases
  have hassign : site.ins.opcode.relation ≠ .assign := by
    rcases hrelation with heq | heq <;> simp [heq]
  refine .bind .pop fun operand _ _ hoperand => ?_
  refine .bind (.plain (by simp [Node.kind]) (by simp [Node.kind])) fun zero _ hzeroGrow hzero => ?_
  refine .bind (.plain (by simpa [Node.kind] using hassign) (by simp [Node.kind]))
    fun test tree htestGrow htest => ?_
  have hisTest : tree.IsTest test :=
    ⟨_, operand, zero, htest, hrelation, (hzeroGrow.trans htestGrow).isSlot hoperand,
      htestGrow.node_of_eq hzero (by simp [Node.kind]) (by simp [Node.kind])⟩
  refine .bind (crafts_branchBlock labels) fun block later hgrow hblock => .record ⟨?_, ?_, ?_⟩
  · simp
  · rintro _ _ ⟨⟩
    exact hgrow.isTest hisTest
  · rintro _ _ ⟨⟩
    exact hblock

theorem crafts_storeState (program : Program) :
    Crafts base (fun _ _ => True) (site.storeState program) := by
  have hjump : Crafts base (fun _ _ => True) (site.followingJump program) := by
    unfold followingJump
    split
    · exact .pure fun _ _ => trivial
    · exact .throw rfl
  refine .bind hjump fun jump _ _ _ => .bind (crafts_schedule _) fun block _ _ _ => ?_
  exact .update fun ws _ hws => ⟨.refl _, hws.setContext hws.words⟩

theorem crafts_call (callee : SubId) : Crafts base (fun _ _ => True) (site.call callee) := by
  refine .bind .get fun ws _ _ _ => .bind (.mapM fun formal _ _ _ => ?_) fun arguments _ _ _ =>
    .record (Tree.apt_of_kind (by simp [Node.kind]) (by simp [Node.kind]))
  exact .bind .get fun ws _ _ _ => .bind (.check fun _ => blameless_of_relativeIndex)
    fun _ _ _ _ => (crafts_access _ _).mono fun _ _ _ => trivial

theorem crafts_saveBase : Crafts base (fun _ _ => True) Lift.saveBase := by
  let globalize (tree : Tree) (word : Word) : Tree :=
    tree.modifySlot word.slot fun s => { s with storage := .global }
  have hfold : ∀ (words : List Word) (tree : Tree), tree.Grows (words.foldl globalize tree) ∧
      (words.foldl globalize tree).size = tree.size := by
    intro words
    induction words with
    | nil => exact fun tree => ⟨.refl _, rfl⟩
    | cons word words ih =>
      intro tree
      obtain ⟨hgrow, hsize⟩ := ih (globalize tree word)
      exact ⟨(Tree.Grows.modifySlot tree word.slot _).trans hgrow, hsize.trans (by simp [globalize])⟩
  refine .update fun ws _ hws => ?_
  obtain ⟨hgrow, hsize⟩ := hfold ws.context.stack ws.tree
  have hmarked := hws.of_size_eq hgrow hsize
  exact ⟨hgrow, hmarked.setContext hmarked.words⟩

theorem crafts_restoreBase : Crafts base (fun _ _ => True) Lift.restoreBase :=
  .update fun _ _ hws => ⟨.refl _, hws.setContext hws.words⟩

theorem crafts_onward {handler : Lift Unit} (h : Crafts base (fun _ _ => True) handler) :
    Crafts base (fun _ _ => True) (site.onward handler) :=
  .bind h fun _ _ _ _ => .pure fun _ _ => trivial

theorem crafts_execute (script : Script) (callees : List (Nat × SubId)) :
    Crafts base (fun _ _ => True) (site.execute script callees) := by
  unfold execute
  cases hop : site.ins.opcode.operation with
  | nop => exact crafts_onward (.pure fun _ _ => trivial)
  | ret =>
    exact .bind (.record (Tree.apt_of_kind (by simp [Node.kind]) (by simp [Node.kind])))
      fun _ _ _ _ => .pure fun _ _ => trivial
  | jump => exact crafts_jump _
  | call =>
    dsimp only
    split
    · exact crafts_onward (crafts_call _)
    · exact .pure fun _ _ => trivial
  | branch => exact crafts_onward (crafts_branch _)
  | reserve =>
    obtain ⟨type, -, heq⟩ := reserve_eq hop
    exact crafts_onward (heq ▸ crafts_declareBare type)
  | load => exact crafts_onward crafts_load
  | action => exact crafts_onward (crafts_action _)
  | copyDown => exact crafts_onward crafts_copyDown
  | copyTop => exact crafts_onward crafts_copyTop
  | release => exact crafts_onward crafts_release
  | destruct => exact crafts_onward crafts_destruct
  | step =>
    obtain ⟨op, -, heq⟩ := step_eq hop
    exact crafts_onward (heq ▸ crafts_applyStep op)
  | unary =>
    obtain ⟨op, -, heq⟩ := unary_eq hop
    exact crafts_onward (heq ▸ crafts_applyUnary op)
  | binary =>
    obtain ⟨operation, hrow, heq⟩ := binary_eq hop
    exact crafts_onward (heq ▸ crafts_applyBinary (Instruction.binaryOperation_ne_assign hrow))
  | compare =>
    obtain ⟨hrelation, hjoin⟩ := site.ins.opcode.comparison_ne_assign
    exact crafts_onward (crafts_compareWith hrelation hjoin)
  | storeState => exact crafts_onward (crafts_storeState _)
  | saveBase => exact crafts_onward crafts_saveBase
  | restoreBase => exact crafts_onward crafts_restoreBase

theorem crafts_visit (script : Script) (callees : List (Nat × SubId)) :
    Crafts base (fun _ _ => True) (site.visit script callees) := by
  refine .bind (Q := fun _ _ => True) ?_ fun _ _ _ _ => crafts_execute script callees
  unfold placeLabel
  split
  · exact .emit _
  · exact .pure fun _ _ => trivial

end Site

namespace Lift

variable {program : Program} {routines : Routines} {settings : LiftSettings} {count : Nat}
  {m : Machine} {visit : Visit}

theorem apt_start (h : stage program routines settings count = some m)
    (htree : ∀ id, m.tree.Apt (m.tree.node id)) (hvisit : m.visit? program = some visit) :
    (visit.start m).Apt := by
  have hact := Machine.act_mem_of_visit? hvisit
  have hsound := (stage_sound h).active _ hact
  exact ⟨htree, (hsound.walk _ (Machine.walk_of_visit? hvisit)).words, hsound.outer,
    (stage_fills h _ hact).blocks⟩

/-- All nodes of a run are apt. -/
theorem stage_apt (h : stage program routines settings count = some m) (id : NodeId) :
    m.tree.Apt (m.tree.node id) := by
  have hblank : ∀ {tree : Tree} {node : Node}, node = .label ∨ node = .block [] →
      tree.Apt node := by
    rintro tree node (rfl | rfl) <;>
      exact Tree.apt_of_kind (by simp [Node.kind]) (by simp [Node.kind])
  have hsame : ∀ {old new : Tree}, new.exprs = old.exprs → (∀ id, old.Apt (old.node id)) →
      ∀ id, new.Apt (new.node id) := by
    intro old new heq hold
    refine (Tree.Grows.of_exprs_eq heq).all_apt hold fun id hle hlt => ?_
    rw [Tree.size, heq] at hlt
    exact absurd hlt (Nat.not_lt.2 hle)
  refine stage_induction (P := fun _ m => ∀ id, m.tree.Apt (m.tree.node id)) ?_ ?_ h id
  · exact fun id => hblank (start_node program id)
  · intro count m m' hstep hm
    cases hstep.turn with
    | ended _ _ htree => exact hsame htree hm
    | shifted _ _ _ _ htree => exact hsame htree hm
    | visited hvisit _ _ _ htree =>
      obtain ⟨-, hapt, -⟩ :=
        Site.crafts_visit _ _ _ (.refl _) (apt_start hstep.before hm hvisit)
      exact hsame htree hapt.tree
    | entered _ _ _ _ htree =>
      refine hsame htree ((Tree.Grows.alloc _ _ _).all_apt hm fun id hle hlt => ?_)
      rw [Tree.eq_nextId_of_alloc hle hlt, Tree.node_alloc_nextId]
      exact hblank (.inr rfl)

theorem visit_explains (h : stage program routines settings count = some m)
    (hvisit : m.visit? program = some visit) {cause : Error} {ws : Workspace}
    (hrun : visit.site.visit (script program routines) m.callees (visit.start m) =
      .error cause ws) : ws.context.Explains cause := by
  obtain ⟨-, -, hends⟩ := Site.crafts_visit (script program routines) m.callees (visit.start m)
    (.refl _) (apt_start h (stage_apt h) hvisit)
  rw [hrun] at hends
  exact hends

end Lift

end ScriptLift
