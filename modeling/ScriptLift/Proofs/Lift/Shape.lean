import ScriptLift.Proofs.Lift.Moves
import ScriptLift.Proofs.Tree.Shape

namespace ScriptLift

/-- The stack holds slots of the tree. -/
structure Context.Sound (tree : Tree) (ctx : Context) : Prop where
  words : ∀ word ∈ ctx.stack, tree.isSlot word.slot
  saved : ∀ block, ctx.savedAction = some block → tree.IsValue block

/-- The tree is well-formed, and all that the workspace names is in it. -/
structure Workspace.Proper (ws : Workspace) : Prop where
  tree : ws.tree.Built
  context : ws.context.Sound ws.tree
  outer : ∀ argument ∈ ws.outer, ws.tree.isSlot argument.2
  blocks : ∀ block ∈ ws.blocks, ws.tree.IsValue block.2
  spawned : ∀ job, ws.spawned = some job → job.context.Sound ws.tree

/-- What holds before and after each instruction of a block that goes on. -/
structure Workspace.Sound (site : Site) (ws : Workspace) : Prop extends ws.Proper where
  unended : ∀ s ∈ ws.tree.statements site.block, ws.tree.kind s ≠ .ret

theorem Context.Sound.mono {old new : Tree} {ctx : Context} (h : ctx.Sound old)
    (hext : old.Extends new) : ctx.Sound new where
  words word hword := hext.isSlot (h.words word hword)
  saved block hblock := hext.isValue (h.saved block hblock)

theorem Workspace.Proper.setTree {ws : Workspace} (h : ws.Proper) {tree : Tree}
    (hext : ws.tree.Extends tree) (htree : tree.Built) : { ws with tree }.Proper where
  tree := htree
  context := h.context.mono hext
  outer argument hargument := hext.isSlot (h.outer argument hargument)
  blocks block hblock := hext.isValue (h.blocks block hblock)
  spawned job hjob := (h.spawned job hjob).mono hext

namespace Workspace.Sound

variable {site : Site} {ws : Workspace}

theorem setTree (h : ws.Sound site) {tree : Tree} (hext : ws.tree.Extends tree)
    (htree : tree.Built) (hopen : ∀ s ∈ tree.statements site.block, tree.kind s ≠ .ret) :
    { ws with tree }.Sound site :=
  ⟨h.toProper.setTree hext htree, hopen⟩

theorem setContext (h : ws.Sound site) {context : Context} (hcontext : context.Sound ws.tree) :
    { ws with context }.Sound site :=
  ⟨⟨h.tree, hcontext, h.outer, h.blocks, h.spawned⟩, h.unended⟩

theorem alloc (h : ws.Sound site) (node : Node) (hnode : ws.tree.Fits node)
    (hempty : ∀ statements, node = .block statements → statements = []) (offset : Nat) :
    { ws with tree := ws.tree.alloc offset node }.Sound site := by
  have hext := Tree.Extends.of_grows (Tree.Grows.alloc ws.tree offset node)
  refine h.setTree hext (h.tree.alloc hnode offset) ?_
  intro s hs
  rw [Tree.statements_alloc hempty] at hs
  rw [hext.kind s (h.tree.wellFormed.statement hs).lt]
  exact h.unended s hs

theorem modifySlot (h : ws.Sound site) (id : NodeId) (f : Slot → Slot) :
    { ws with tree := ws.tree.modifySlot id f }.Sound site := by
  refine h.setTree (Tree.Extends.of_grows (Tree.Grows.modifySlot ws.tree id f))
    (h.tree.modifySlot f) ?_
  intro s hs
  rw [Tree.statements_modifySlot] at hs
  rw [Tree.kind_modifySlot]
  exact h.unended s hs

end Workspace.Sound

namespace Lift

variable {α β : Type} {site : Site} {base : Tree}

/-- Run on a sound workspace whose tree has the nodes of `base`, `x` leaves a sound workspace, failing
or not, and what it yields has the property `Q`. -/
def Yields (site : Site) (base : Tree) (Q : Tree → α → Prop) (x : Lift α) : Prop :=
  ∀ ws, base.Extends ws.tree → ws.Sound site →
    ws.tree.Extends (left (x ws)).tree ∧ (left (x ws)).Sound site ∧
      ∀ a ws', x ws = .ok a ws' → Q ws'.tree a

/-- Nothing is asked of the result. -/
abbrev Safe (site : Site) (base : Tree) (x : Lift α) : Prop := Yields site base (fun _ _ => True) x

namespace Yields

variable {Q : Tree → α → Prop} {Q' : Tree → β → Prop}

theorem pure {a : α} (h : ∀ tree, base.Extends tree → Q tree a) :
    Yields site base Q (Pure.pure a : Lift α) := by
  intro ws hbase hws
  refine ⟨Tree.Extends.refl _, hws, ?_⟩
  rintro b ws' hrun
  cases hrun
  exact h ws.tree hbase

theorem throw (fault : Error) : Yields site base Q (MonadExcept.throw fault : Lift α) := by
  intro ws _ hws
  refine ⟨Tree.Extends.refl _, hws, ?_⟩
  rintro b ws' hrun
  cases hrun

theorem bind {x : Lift α} {f : α → Lift β} (hx : Yields site base Q x)
    (hf : ∀ a tree, base.Extends tree → Q tree a → Yields site tree Q' (f a)) :
    Yields site base Q' (x >>= f) := by
  intro ws hbase hws
  obtain ⟨hext, hsound, hresult⟩ := hx ws hbase hws
  change ws.tree.Extends (left (EStateM.bind x f ws)).tree ∧ (left (EStateM.bind x f ws)).Sound site ∧
    ∀ b ws', EStateM.bind x f ws = .ok b ws' → Q' ws'.tree b
  unfold EStateM.bind
  cases hrun : x ws with
  | error fault ws₁ =>
    rw [hrun] at hext hsound
    exact ⟨hext, hsound, by rintro b ws' h; cases h⟩
  | ok a ws₁ =>
    rw [hrun] at hext hsound
    obtain ⟨hext', hsound', hresult'⟩ :=
      hf a ws₁.tree (hbase.trans hext) (hresult a ws₁ hrun) ws₁ (Tree.Extends.refl _) hsound
    exact ⟨hext.trans hext', hsound', hresult'⟩

theorem get : Yields site base (fun tree ws => ws.tree = tree ∧ ws.Sound site)
    (MonadState.get : Lift Workspace) := by
  intro ws _ hws
  refine ⟨Tree.Extends.refl _, hws, ?_⟩
  rintro a ws' hrun
  cases hrun
  exact ⟨rfl, hws⟩

theorem update {f : Workspace → Workspace}
    (h : ∀ ws, base.Extends ws.tree → ws.Sound site →
      ws.tree.Extends (f ws).tree ∧ (f ws).Sound site) :
    Safe site base (modify f : Lift Unit) :=
  fun ws hbase hws => ⟨(h ws hbase hws).1, (h ws hbase hws).2, fun _ _ _ => trivial⟩

theorem mono {x : Lift α} {R : Tree → α → Prop} (h : Yields site base Q x)
    (hQ : ∀ a tree, Q tree a → R tree a) : Yields site base R x := by
  intro ws hbase hws
  obtain ⟨hext, hsound, hresult⟩ := h ws hbase hws
  exact ⟨hext, hsound, fun a ws' hrun => hQ a ws'.tree (hresult a ws' hrun)⟩

theorem forM {f : α → Lift Unit} {xs : List α}
    (h : ∀ a ∈ xs, ∀ tree, base.Extends tree → Safe site tree (f a)) :
    Safe site base (xs.forM f) := by
  induction xs generalizing base with
  | nil => exact pure fun _ _ => trivial
  | cons a xs ih =>
    refine bind (h a List.mem_cons_self base (Tree.Extends.refl _)) fun _ tree hext _ => ih ?_
    exact fun b hb later hlater => h b (List.mem_cons_of_mem _ hb) later (hext.trans hlater)

theorem mapM {f : α → Lift β} {xs : List α} (Q' : Tree → β → Prop)
    (hlast : ∀ b old new, Tree.Extends old new → Q' old b → Q' new b)
    (h : ∀ a ∈ xs, ∀ tree, base.Extends tree → Yields site tree Q' (f a)) :
    Yields site base (fun tree bs => ∀ b ∈ bs, Q' tree b) (xs.mapM f) := by
  induction xs generalizing base with
  | nil => exact pure fun _ _ => by simp
  | cons a xs ih =>
    rw [List.mapM_cons]
    refine bind (h a List.mem_cons_self base (Tree.Extends.refl _)) fun b tree hext hb => ?_
    refine bind (ih fun c hc later hlater =>
      h c (List.mem_cons_of_mem _ hc) later (hext.trans hlater)) fun bs later hlater hbs => ?_
    refine pure fun last hlast' => ?_
    intro c hc
    rcases List.mem_cons.1 hc with rfl | hc
    · exact hlast c tree last (hlater.trans hlast') hb
    · exact hlast c later last hlast' (hbs c hc)

theorem require (condition : Bool) (cause : Inconsistency) :
    Safe site base (site.require condition cause) := by
  unfold Site.require
  split
  · exact pure fun _ _ => trivial
  · exact throw _

theorem check (result : Except Inconsistency α) :
    Yields site base (fun _ a => result = .ok a) (site.check result) := by
  cases result with
  | ok a => exact pure fun _ _ => rfl
  | error cause => exact throw _

/-- A new node; what it holds has to be there. -/
theorem alloc {node : Node} (hnode : base.Fits node)
    (hempty : ∀ statements, node = .block statements → statements = []) :
    Yields site base (fun tree id => id.index < tree.size ∧ tree.kind id = node.kind)
      (site.alloc node) := by
  intro ws hbase hws
  refine ⟨Tree.Extends.of_grows (Tree.Grows.alloc ws.tree _ node),
    hws.alloc node (hbase.fits hnode) hempty _, ?_⟩
  rintro id ws' hrun
  cases hrun
  refine ⟨by simp, ?_⟩
  rw [Tree.kind, Tree.node_alloc_nextId]

theorem value {node : Node} (hoperands : ∀ o ∈ node.operands, base.IsValue o.2)
    (hblock : node.kind ≠ .block) (hcomponent : node.kind ≠ .component)
    (hassign : node.kind ≠ .binary .assign) :
    Yields site base Tree.IsValue (site.alloc node) := by
  refine (alloc (Tree.fits_of_operands hblock hcomponent hoperands) ?_).mono ?_
  · rintro statements rfl
    exact absurd rfl hblock
  · rintro id tree ⟨hlt, hkind⟩
    exact ⟨hlt, by rw [hkind]; exact hassign⟩

theorem slot (slot : Slot) : Yields site base (fun tree id => tree.isSlot id)
    (site.alloc (.slot slot)) := by
  refine (alloc (Tree.fits_of_operands (by simp [Node.kind]) (by simp [Node.kind])
    (by simp [Node.operands])) (by simp)).mono ?_
  rintro id tree ⟨-, hkind⟩
  exact Tree.isSlot_iff_kind.2 hkind

theorem emit {s : NodeId} (hblock : base.kind s ≠ .block) (hret : base.kind s ≠ .ret) :
    Safe site base (site.emit s) := by
  refine update fun ws hbase hws => ?_
  have hext := Tree.Extends.of_grows (Tree.Grows.pushStatement ws.tree site.block s)
  have hkind : ws.tree.kind s = base.kind s := hbase.kind_eq hblock
  refine ⟨hext, hws.setTree hext (hws.tree.pushStatement
    (Tree.isStatement_of_kind_ne (by rw [hkind]; exact hblock)) hws.unended) ?_⟩
  intro t ht
  rw [Tree.pushStatement, Tree.kind_modifyStatements]
  rcases Tree.mem_statements_pushStatement ht with ht | rfl
  · exact hws.unended t ht
  · rw [hkind]
    exact hret

theorem record {node : Node} (hoperands : ∀ o ∈ node.operands, base.IsValue o.2)
    (hblock : node.kind ≠ .block) (hcomponent : node.kind ≠ .component) (hret : node.kind ≠ .ret) :
    Safe site base (site.alloc node >>= fun id => site.emit id) := by
  refine bind (alloc (Tree.fits_of_operands hblock hcomponent hoperands) ?_) ?_
  · rintro statements rfl
    exact absurd rfl hblock
  · rintro id tree - ⟨-, hkind⟩
    exact emit (by rw [hkind]; exact hblock) (by rw [hkind]; exact hret)

theorem push {slot : NodeId} (h : base.isSlot slot) : Safe site base (Lift.push slot) := by
  refine update fun ws hbase hws => ⟨Tree.Extends.refl _, hws.setContext ⟨?_, ?_⟩⟩
  · intro word hword
    rcases List.mem_cons.1 hword with rfl | hword
    · exact hbase.isSlot h
    · exact hws.context.words word hword
  · exact hws.context.saved

theorem popMany (count : Nat) : Yields site base (fun tree slots => ∀ s ∈ slots, tree.isSlot s)
    (site.popMany count) := by
  intro ws _ hws
  rw [Site.popMany_eq]
  cases hpop : ws.context.popMany count with
  | error cause => exact ⟨Tree.Extends.refl _, hws, by rintro a ws' hrun; cases hrun⟩
  | ok popped =>
    obtain ⟨words, context⟩ := popped
    obtain ⟨-, hwords, hcontext⟩ := Context.popMany_eq_ok hpop
    refine ⟨Tree.Extends.refl _, hws.setContext ?_, ?_⟩
    · rw [hcontext]
      exact ⟨fun word hword => hws.context.words word (List.mem_of_mem_drop hword),
        hws.context.saved⟩
    · rintro slots ws' hrun s hs
      cases hrun
      obtain ⟨word, hword, rfl⟩ := List.mem_map.1 hs
      rw [hwords, List.mem_reverse] at hword
      exact hws.context.words word (List.mem_of_mem_take hword)

theorem pop : Yields site base (fun tree slot => tree.isSlot slot) site.pop := by
  intro ws _ hws
  rw [Site.pop_eq]
  cases hpop : ws.context.pop with
  | error cause => exact ⟨Tree.Extends.refl _, hws, by rintro a ws' hrun; cases hrun⟩
  | ok popped =>
    obtain ⟨word, context⟩ := popped
    obtain ⟨hstack, hcontext⟩ := Context.pop_eq_ok hpop
    refine ⟨Tree.Extends.refl _, hws.setContext ?_, ?_⟩
    · rw [hcontext]
      refine ⟨fun other hother => hws.context.words other ?_, hws.context.saved⟩
      rw [hstack]
      exact List.mem_cons_of_mem _ hother
    · rintro slot ws' hrun
      cases hrun
      exact hws.context.words word (by rw [hstack]; exact List.mem_cons_self)

end Yields

end Lift

namespace Site

open Lift

variable {site : Site} {base : Tree}

theorem safe_assign {left right : NodeId} (declares : Bool) (hleft : base.isSlot left)
    (hright : base.IsValue right) :
    Safe site base (site.alloc (.binary .assign left right declares) >>= fun id => site.emit id) := by
  refine .record ?_ (by simp [Node.kind]) (by simp [Node.kind]) (by simp [Node.kind])
  simp only [Node.operands, List.mem_cons, List.not_mem_nil, or_false]
  rintro o (rfl | rfl)
  · exact Tree.isValue_of_isSlot hleft
  · exact hright

theorem yields_bindSlot (slot : Slot) {value : NodeId} (h : base.IsValue value) :
    Yields site base (fun tree target => tree.isSlot target) (site.bindSlot slot value) := by
  refine .bind (.slot slot) fun target tree hext htarget => ?_
  have hassign : Safe site tree _ := safe_assign true htarget (hext.isValue h)
  intro ws hbase hws
  obtain ⟨hgrow, hsound, -⟩ := hassign ws hbase hws
  refine ⟨hgrow, hsound, ?_⟩
  rintro a ws' hrun
  cases hrun
  exact (hbase.trans hgrow).isSlot htarget

theorem safe_declare (type : ValueType) {value : NodeId} (h : base.IsValue value) :
    Safe site base (site.declare type value) :=
  .bind (yields_bindSlot _ h) fun _ _ _ hslot => .push hslot

theorem safe_below : Safe site base site.below := by
  unfold below
  split
  · exact .pure fun _ _ => trivial
  · exact .throw _

theorem safe_addressed : Safe site base site.addressed :=
  .bind safe_below fun _ _ _ _ => .bind .get fun _ _ _ _ => (Yields.check _).mono fun _ _ _ => trivial

theorem mem_insert {position : Int} {slot : NodeId} {outer : Outer} {entry : Int × NodeId}
    (h : entry ∈ Outer.insert position slot outer) : entry = (position, slot) ∨ entry ∈ outer := by
  induction outer with
  | nil => simpa [Outer.insert] using h
  | cons first rest ih =>
    unfold Outer.insert at h
    split at h
    · simpa using h
    · rcases List.mem_cons.1 h with rfl | h
      · exact .inr List.mem_cons_self
      · exact (ih h).imp_right (List.mem_cons_of_mem _)

theorem mem_of_lookup {α β : Type} [BEq α] [LawfulBEq α] {key : α} {value : β}
    {entries : List (α × β)} (h : entries.lookup key = some value) : (key, value) ∈ entries := by
  obtain ⟨before, behind, rfl, -⟩ := List.lookup_eq_some_iff.1 h
  simp

theorem lookup_eq_none_iff {α β : Type} [BEq α] [LawfulBEq α] {key : α} {entries : List (α × β)} :
    entries.lookup key = none ↔ key ∉ entries.map Prod.fst := by
  simp only [List.lookup_eq_none_iff, bne_iff_ne, List.mem_map, not_exists, not_and]
  exact forall₂_congr fun _ _ => ne_comm

theorem yields_argument (position : Int) (type : ValueType) (how : Access) :
    Yields site base (fun tree slot => tree.isSlot slot) (site.argument position type how) := by
  intro ws _ hws
  unfold argument
  cases hlookup : ws.outer.lookup position with
  | some slot =>
    have hext := Tree.Extends.of_grows (Tree.Grows.modifySlot ws.tree slot (·.mark how))
    refine ⟨hext, hws.modifySlot slot _, ?_⟩
    rintro a ws' hrun
    cases hrun
    exact hext.isSlot (hws.outer _ (mem_of_lookup hlookup))
  | none =>
    let fresh : Slot := { type, storage := .argument, position := some position }
    have hext := Tree.Extends.of_grows
      (Tree.Grows.alloc ws.tree site.ins.offset (.slot (fresh.mark how)))
    have halloc := hws.alloc (.slot (fresh.mark how)) (Tree.fits_of_operands
      (by simp [Node.kind]) (by simp [Node.kind]) (by simp [Node.operands])) (by simp)
      site.ins.offset
    have hslot : (ws.tree.alloc site.ins.offset (.slot (fresh.mark how))).isSlot ws.tree.nextId := by
      simp [Tree.isSlot, Tree.slot?]
    refine ⟨hext, ⟨⟨halloc.tree, halloc.context, ?_, halloc.blocks, halloc.spawned⟩,
      halloc.unended⟩, ?_⟩
    · intro entry hentry
      rcases mem_insert hentry with rfl | hentry
      · exact hslot
      · exact halloc.outer entry hentry
    · rintro a ws' hrun
      cases hrun
      exact hslot

theorem mem_of_word {ctx : Context} {index : Nat} {word : Word} (h : ctx.word index = .ok word) :
    word ∈ ctx.stack := by
  unfold Context.word at h
  split at h
  · next hget =>
    cases h
    exact List.mem_reverse.1 (List.mem_of_getElem? hget)
  · cases h

theorem yields_access (index : Nat) (how : Access) :
    Yields site base (fun tree slot => tree.isSlot slot) (site.access index how) := by
  refine .bind .get fun ws tree _ hws => ?_
  obtain ⟨rfl, hws⟩ := hws
  refine .bind (.check _) fun word tree hext hword => ?_
  split
  · dsimp only
    split
    · exact yields_argument _ _ _
    · exact .throw _
  · exact .pure fun later hlater =>
      (hext.trans hlater).isSlot (hws.context.words word (mem_of_word hword))

theorem safe_retype (left right : NodeId) : Safe site base (Lift.retype left right) := by
  refine .update fun ws _ hws => ?_
  split
  · exact ⟨Tree.Extends.of_grows (Tree.Grows.modifySlot ws.tree left _), hws.modifySlot left _⟩
  · exact ⟨Tree.Extends.refl _, hws⟩

theorem safe_copyDown : Safe site base site.copyDown := by
  refine .bind safe_addressed fun start _ _ _ => .bind .get fun ws _ _ _ =>
    .bind (.require _ _) fun _ _ _ _ => .forM fun i _ tree _ => ?_
  refine .bind .get fun ws tree _ hws => ?_
  obtain ⟨rfl, hws⟩ := hws
  refine .bind (.check _) fun right tree hext hright => ?_
  refine .bind (yields_access _ _) fun left tree' hext' hleft => ?_
  refine .bind (safe_retype _ _) fun _ tree'' hext'' _ => ?_
  have hslot := hws.context.words right (mem_of_word hright)
  exact safe_assign false (hext''.isSlot hleft) (Tree.isValue_of_isSlot
    (((hext.trans hext').trans hext'').isSlot hslot))

theorem safe_copyTop : Safe site base site.copyTop := by
  refine .bind safe_addressed fun start _ _ _ => .forM fun i _ tree _ => ?_
  refine .bind (yields_access _ _) fun source tree _ hsource => ?_
  refine .bind .get fun ws tree' hext _ => ?_
  exact .bind (yields_bindSlot _ (Tree.isValue_of_isSlot (hext.isSlot hsource)))
    fun copy _ _ hcopy => .push hcopy

theorem safe_release : Safe site base site.release :=
  .bind safe_below fun _ _ _ _ => .bind (.popMany _) fun _ _ _ _ => .pure fun _ _ => trivial

theorem safe_destruct : Safe site base site.destruct := by
  unfold destruct
  split
  · exact .throw _
  · intro ws _ hws
    dsimp only
    rw [destructWords_eq]
    split
    · cases hpop : ws.context.popMany (site.ins.size.toNat / 4) with
      | error cause => exact ⟨Tree.Extends.refl _, hws, fun _ _ _ => trivial⟩
      | ok popped =>
        obtain ⟨words, context⟩ := popped
        obtain ⟨-, hwords, hcontext⟩ := Context.popMany_eq_ok hpop
        refine ⟨Tree.Extends.refl _, hws.setContext ⟨fun word hword => ?_, ?_⟩,
          fun _ _ _ => trivial⟩
        · rw [hcontext, hwords] at hword
          rcases List.mem_append.1 hword with hword | hword
          · have hkept := List.mem_of_mem_take (List.mem_of_mem_drop (List.mem_reverse.1 hword))
            exact hws.context.words word (List.mem_of_mem_take (List.mem_reverse.1 hkept))
          · exact hws.context.words word (List.mem_of_mem_drop hword)
        · rw [hcontext]
          exact hws.context.saved
    · exact ⟨Tree.Extends.refl _, hws, fun _ _ _ => trivial⟩

theorem safe_applyStep (op : UnaryOp) : Safe site base (site.applyStep op) := by
  refine .bind safe_addressed fun index _ _ _ => .bind (yields_access _ _)
    fun target tree _ htarget => ?_
  refine .record ?_ (by simp [Node.kind]) (by simp [Node.kind]) (by simp [Node.kind])
  simpa [Node.operands] using Tree.isValue_of_isSlot htarget

theorem yields_popVector : Yields site base Tree.IsValue site.popVector := by
  refine .bind (.popMany 3) fun words tree _ hwords => ?_
  have hfloat : ∀ {t : Tree} name slot, Safe site t (site.requireFloat name slot) := fun name slot =>
    .bind .get fun ws _ _ _ => .require _ _
  split
  · next x y z =>
    refine .bind (hfloat _ _) fun _ _ hx _ => .bind (hfloat _ _) fun _ _ hy _ =>
      .bind (hfloat _ _) fun _ later hz _ => ?_
    have hext := (hx.trans hy).trans hz
    refine .value ?_ (by simp [Node.kind]) (by simp [Node.kind]) (by simp [Node.kind])
    simp only [Node.operands, List.mem_cons, List.not_mem_nil, or_false]
    rintro o (rfl | rfl | rfl) <;>
      exact Tree.isValue_of_isSlot (hext.isSlot (hwords _ (by simp)))
  · exact .throw _

theorem safe_pushComponent {vector : NodeId} (h : base.isSlot vector) (name : String) (index : Nat) :
    Safe site base (site.pushComponent vector name index) := by
  refine .bind (.slot _) fun component tree hext hcomponent => ?_
  refine .bind ((Yields.alloc (Tree.fits_component (hext.isSlot h) index) (by simp)).mono
    (R := Tree.IsValue) fun id t hid => ⟨hid.1, by simp [hid.2, Node.kind]⟩)
    fun value later hlater hvalue => ?_
  have hslot := hlater.isSlot hcomponent
  intro ws hbase hws
  have hassign : Safe site _ _ := safe_assign true hslot hvalue
  obtain ⟨hgrow, hsound, -⟩ := hassign ws hbase hws
  have hpush : Safe site _ _ := .push ((hbase.trans hgrow).isSlot hslot)
  obtain ⟨hgrow', hsound', -⟩ := hpush _ (Tree.Extends.refl _) hsound
  exact ⟨hgrow.trans hgrow', hsound', fun _ _ _ => trivial⟩

theorem safe_produce (type : ValueType) {value : NodeId} (h : base.IsValue value) :
    Safe site base (site.produce type value) := by
  unfold produce
  split
  · refine .bind (yields_bindSlot _ h) fun result _ _ hresult => ?_
    refine .bind (safe_pushComponent hresult _ _) fun _ _ hx _ => ?_
    refine .bind (safe_pushComponent (hx.isSlot hresult) _ _) fun _ _ hy _ => ?_
    exact safe_pushComponent ((hx.trans hy).isSlot hresult) _ _
  · exact safe_declare type h

theorem safe_declareBare (type : ValueType) : Safe site base (site.declareBare type) := by
  refine .bind (.slot _) fun slot tree _ hslot => ?_
  have hkind := Tree.isSlot_iff_kind.1 hslot
  exact .bind (.emit (by simp [hkind]) (by simp [hkind])) fun _ _ hext _ => .push (hext.isSlot hslot)

theorem safe_load : Safe site base site.load := by
  unfold load
  split
  · exact .bind (.value (by simp [Node.operands]) (by simp [Node.kind]) (by simp [Node.kind])
      (by simp [Node.kind])) fun _ _ _ hliteral => safe_declare _ hliteral
  · exact .throw _

theorem safe_applyUnary (op : UnaryOp) : Safe site base (site.applyUnary op) := by
  refine .bind .pop fun operand tree _ hoperand => .bind .get fun ws later hext _ => ?_
  refine .bind (.value ?_ (by simp [Node.kind]) (by simp [Node.kind]) (by simp [Node.kind]))
    fun _ _ _ hvalue => safe_declare _ hvalue
  simpa [Node.operands] using Tree.isValue_of_isSlot (hext.isSlot hoperand)

theorem yields_binary {op : BinaryOp} (hop : op ≠ .assign) {left right : NodeId}
    (hleft : base.IsValue left) (hright : base.IsValue right) :
    Yields site base Tree.IsValue (site.alloc (.binary op left right false)) := by
  refine .value ?_ (by simp [Node.kind]) (by simp [Node.kind]) (by simpa [Node.kind] using hop)
  simp only [Node.operands, List.mem_cons, List.not_mem_nil, or_false]
  rintro o (rfl | rfl)
  · exact hleft
  · exact hright

theorem yields_popPair (shape : Shape) :
    Yields site base (fun tree pair => tree.IsValue pair.1 ∧ tree.IsValue pair.2)
      (site.popPair shape) := by
  have hpop : ∀ {t : Tree}, Yields site t Tree.IsValue site.pop := fun {t} =>
    Yields.pop.mono fun _ _ hslot => Tree.isValue_of_isSlot hslot
  have hpair : ∀ {x y : Lift NodeId}, (∀ t, Yields site t Tree.IsValue x) →
      (∀ t, Yields site t Tree.IsValue y) →
      Yields site base (fun tree pair => tree.IsValue pair.1 ∧ tree.IsValue pair.2)
        (do let right ← x; let left ← y; return (left, right)) := fun hx hy =>
    .bind (hx base) fun right _ _ hright => .bind (hy _) fun left _ hext hleft =>
      .pure fun _ hlast => ⟨hlast.isValue hleft, (hext.trans hlast).isValue hright⟩
  cases shape with
  | scalar => exact hpair (fun _ => hpop) fun _ => hpop
  | vectorVector => exact hpair (fun _ => yields_popVector) fun _ => yields_popVector
  | floatVector => exact hpair (fun _ => yields_popVector) fun _ => hpop
  | vectorFloat => exact hpair (fun _ => hpop) fun _ => yields_popVector

theorem safe_applyBinary {operation : BinaryOperation} (hop : operation.op ≠ .assign) :
    Safe site base (site.applyBinary operation) :=
  .bind (yields_popPair _) fun _ _ _ hpair =>
    .bind (yields_binary hop hpair.1 hpair.2) fun _ _ _ hvalue => safe_produce _ hvalue

theorem safe_compareWord {relation join : BinaryOp} (hrelation : relation ≠ .assign)
    (hjoin : join ≠ .assign) {result : NodeId} (hresult : base.isSlot result) (index : Nat)
    {words : NodeId × NodeId} (hleft : base.isSlot words.1) (hright : base.isSlot words.2) :
    Safe site base (site.compareWord relation join result index words) := by
  refine .bind (yields_binary hrelation (Tree.isValue_of_isSlot hleft)
    (Tree.isValue_of_isSlot hright)) fun word tree hext hword => ?_
  have hslot := hext.isSlot hresult
  split
  · exact safe_assign true hslot hword
  · exact .bind (yields_binary hjoin (Tree.isValue_of_isSlot hslot) hword)
      fun joined later hlater hjoined => safe_assign false (hlater.isSlot hslot) hjoined

theorem safe_compareWith {relation join : BinaryOp} (hrelation : relation ≠ .assign)
    (hjoin : join ≠ .assign) : Safe site base (site.compareWith relation join) := by
  refine .bind (.require _ _) fun _ _ _ _ => .bind (.popMany _) fun right _ _ hright =>
    .bind (.popMany _) fun left _ hext hleft => .bind (.slot _) fun result tree hnext hresult => ?_
  refine .bind (.forM fun words hwords later hlater => ?_) fun _ _ hlast _ =>
    .push (hlast.isSlot hresult)
  obtain ⟨hl, hr⟩ := List.of_mem_zip (List.fst_mem_of_mem_zipIdx hwords)
  exact safe_compareWord hrelation hjoin (hlater.isSlot hresult) _
    ((hnext.trans hlater).isSlot (hleft _ hl))
    (((hext.trans hnext).trans hlater).isSlot (hright _ hr))

theorem yields_actionArgument (routine : Routine) (index : Nat) :
    Yields site base Tree.IsValue (site.actionArgument routine index) := by
  unfold actionArgument
  split
  · exact .throw _
  · exact yields_popVector
  · refine .bind .get fun ws tree _ hws => ?_
    obtain ⟨rfl, hws⟩ := hws
    split
    · next block hblock =>
      exact .pure fun later hlater => hlater.isValue (hws.context.saved block hblock)
    · exact .throw _
  · exact Yields.pop.mono fun _ _ hslot => Tree.isValue_of_isSlot hslot

theorem snd_mem_of_mem_mapIdx {arguments : List NodeId} {role : Nat → Role} {o : Role × NodeId}
    (h : o ∈ arguments.mapIdx fun i a => (role i, a)) : o.2 ∈ arguments := by
  obtain ⟨i, hi, rfl⟩ := List.mem_mapIdx.1 h
  exact List.getElem_mem hi

theorem safe_action (routines : Routines) : Safe site base (site.action routines) := by
  unfold action
  split
  · exact .throw _
  · next routine _ =>
    refine .bind (.mapM Tree.IsValue (fun _ _ _ hext hvalue => hext.isValue hvalue)
      fun i _ _ _ => yields_actionArgument routine i) fun arguments tree _ harguments => ?_
    have hoperands : ∀ o ∈ (Node.action site.ins.routine arguments).operands, tree.IsValue o.2 :=
      fun o ho => harguments _ (snd_mem_of_mem_mapIdx ho)
    by_cases hvoid : routine.result = .void
    · simp only [hvoid, if_true]
      exact .record hoperands (by simp [Node.kind]) (by simp [Node.kind]) (by simp [Node.kind])
    · simp only [hvoid, if_false]
      exact .bind (.value hoperands (by simp [Node.kind]) (by simp [Node.kind])
        (by simp [Node.kind])) fun _ _ _ hvalue => safe_produce _ hvalue

theorem safe_targetLabel (labels : List (Nat × NodeId)) : Safe site base (site.targetLabel labels) := by
  unfold targetLabel
  split
  · exact .pure fun _ _ => trivial
  · exact .throw _

theorem safe_goto (label : NodeId) :
    Safe site base (site.alloc (.goto label) >>= fun goto => site.emit goto) :=
  .record (by simp [Node.operands]) (by simp [Node.kind]) (by simp [Node.kind]) (by simp [Node.kind])

theorem safe_jump (labels : List (Nat × NodeId)) : Safe site base (site.jump labels) := by
  unfold jump
  split
  · exact .pure fun _ _ => trivial
  · refine .bind (Q := fun _ _ => True) ?_ fun _ _ _ _ => .pure fun _ _ => trivial
    have hwarn : ∀ {t : Tree}, Safe site t site.warnSelfJump := fun {t} =>
      .update fun ws _ hws => ⟨Tree.Extends.of_exprs_eq rfl,
        hws.setTree (Tree.Extends.of_exprs_eq rfl) (hws.tree.of_exprs_eq rfl) hws.unended⟩
    unfold jumpBack
    dsimp only
    split
    · exact .bind hwarn fun _ _ _ _ => .bind (safe_targetLabel labels) fun _ _ _ _ => safe_goto _
    · exact .bind (safe_targetLabel labels) fun _ _ _ _ => safe_goto _

theorem fits_empty {tree : Tree} : tree.Fits (.block []) := Tree.fits_block (by simp) (by simp)

theorem yields_schedule (offset : Nat) :
    Yields site base Tree.IsValue (Lift.schedule offset) := by
  intro ws _ hws
  unfold Lift.schedule
  dsimp only
  cases hlookup : ws.blocks.lookup (offset, ws.context.depth) with
  | some block =>
    refine ⟨Tree.Extends.refl _, hws, ?_⟩
    rintro a ws' hrun
    cases hrun
    exact hws.blocks _ (mem_of_lookup hlookup)
  | none =>
    have hext := Tree.Extends.of_grows (Tree.Grows.alloc ws.tree offset (.block []))
    have halloc := hws.alloc (.block []) fits_empty (by simp) offset
    have hvalue : (ws.tree.alloc offset (.block [])).IsValue ws.tree.nextId :=
      ⟨by simp, by simp [Tree.kind, Node.kind]⟩
    refine ⟨hext, ⟨⟨halloc.tree, halloc.context, halloc.outer, ?_, ?_⟩, halloc.unended⟩, ?_⟩
    · intro block hblock
      rcases List.mem_cons.1 hblock with rfl | hblock
      · exact hvalue
      · exact halloc.blocks block hblock
    · intro job hjob
      cases hjob
      exact halloc.context
    · rintro a ws' hrun
      cases hrun
      exact hvalue

/-- A block of its own that holds a goto. -/
theorem yields_jumpBlock (label : NodeId) : Yields site base Tree.IsValue (do
    let block ← site.alloc (.block [])
    let goto ← site.alloc (.goto label)
    Lift.pushStatement block goto
    return block) := by
  intro ws _ hws
  let first := ws.tree.alloc site.ins.offset (.block [])
  let second := first.alloc site.ins.offset (.goto label)
  have hfirst := hws.alloc (.block []) fits_empty (by simp) site.ins.offset
  have hsecond := hfirst.alloc (.goto label) (Tree.fits_of_operands (by simp [Node.kind])
    (by simp [Node.kind]) (by simp [Node.operands])) (by simp) site.ins.offset
  have hpush := Tree.Extends.of_grows (Tree.Grows.pushStatement second ws.tree.nextId first.nextId)
  have hext : ws.tree.Extends (second.pushStatement ws.tree.nextId first.nextId) :=
    ((Tree.Extends.of_grows (Tree.Grows.alloc ws.tree _ _)).trans
      (Tree.Extends.of_grows (Tree.Grows.alloc first _ _))).trans hpush
  have hgoto : second.kind first.nextId = .goto := by
    simp only [second, Tree.kind, Tree.node_alloc_nextId, Node.kind]
  refine ⟨hext, hsecond.setTree hpush (hsecond.tree.pushStatement
    (Tree.isStatement_of_kind_ne (by rw [hgoto]; simp)) ?_) ?_, ?_⟩
  · intro t ht
    rw [Tree.statements_alloc (by simp), Tree.statements_alloc (by simp), Tree.statements,
      Tree.node_nextId] at ht
    cases ht
  · intro t ht
    rw [Tree.pushStatement, Tree.kind_modifyStatements]
    rcases Tree.mem_statements_pushStatement ht with ht | rfl
    · exact hsecond.unended t ht
    · rw [hgoto]
      simp
  · rintro a ws' hrun
    cases hrun
    have hkind : first.kind ws.tree.nextId = .block := by
      simp only [first, Tree.kind, Tree.node_alloc_nextId, Node.kind]
    have hvalue : first.IsValue ws.tree.nextId := ⟨by simp [first], by rw [hkind]; simp⟩
    exact ((Tree.Extends.of_grows (Tree.Grows.alloc first _ _)).trans hpush).isValue hvalue

theorem safe_branch (labels : List (Nat × NodeId)) : Safe site base (site.branch labels) := by
  have hrelation : site.ins.opcode.relation ≠ .assign := by
    rcases site.ins.opcode.relation_cases with h | h <;> simp [h]
  refine .bind .pop fun operand _ _ hoperand => ?_
  refine .bind (.value (by simp [Node.operands]) (by simp [Node.kind]) (by simp [Node.kind])
    (by simp [Node.kind])) fun zero _ hzeroExt hzero => ?_
  refine .bind (yields_binary hrelation (Tree.isValue_of_isSlot (hzeroExt.isSlot hoperand)) hzero)
    fun test tree _ htest => ?_
  have hblock : Yields site tree Tree.IsValue (site.branchBlock labels) := by
    unfold branchBlock
    split
    · exact yields_schedule _
    · exact .bind (safe_targetLabel labels) fun label _ _ _ => yields_jumpBlock label
  refine .bind hblock fun block later hext hvalue => ?_
  refine .record ?_ (by simp [Node.kind]) (by simp [Node.kind]) (by simp [Node.kind])
  simp only [Node.operands, List.mem_cons, List.not_mem_nil, or_false]
  rintro o (rfl | rfl)
  · exact hext.isValue htest
  · exact hvalue

theorem safe_storeState (program : Program) : Safe site base (site.storeState program) := by
  have hjump : Safe site base (site.followingJump program) := by
    unfold followingJump
    split
    · exact .pure fun _ _ => trivial
    · exact .throw _
  refine .bind hjump fun jump _ _ _ => .bind (yields_schedule _) fun block tree _ hblock => ?_
  refine .update fun ws hbase hws => ⟨Tree.Extends.refl _, hws.setContext ⟨hws.context.words, ?_⟩⟩
  intro other hother
  cases hother
  exact hbase.isValue hblock

theorem safe_call (callee : SubId) : Safe site base (site.call callee) := by
  refine .bind .get fun ws _ _ _ => ?_
  refine .bind (.mapM (fun tree slot => tree.isSlot slot) (fun _ _ _ hext h => hext.isSlot h)
    fun formal _ _ _ => .bind .get fun ws _ _ _ => .bind (.check _) fun _ _ _ _ =>
      yields_access _ _) fun arguments tree _ harguments => ?_
  refine .record ?_ (by simp [Node.kind]) (by simp [Node.kind]) (by simp [Node.kind])
  exact fun o ho => Tree.isValue_of_isSlot (harguments _ (snd_mem_of_mem_mapIdx ho))

theorem safe_saveBase : Safe site base Lift.saveBase := by
  let globalize (tree : Tree) (word : Word) : Tree :=
    tree.modifySlot word.slot fun s => { s with storage := .global }
  have hfold : ∀ (words : List Word) (ws : Workspace), ws.Sound site →
      ws.tree.Extends (words.foldl globalize ws.tree) ∧
        Workspace.Sound site { ws with tree := words.foldl globalize ws.tree } := by
    intro words
    induction words with
    | nil => exact fun ws hws => ⟨Tree.Extends.refl _, hws⟩
    | cons word words ih =>
      intro ws hws
      obtain ⟨hext, hsound⟩ := ih _ (hws.modifySlot word.slot fun s => { s with storage := .global })
      exact ⟨(Tree.Extends.of_grows (Tree.Grows.modifySlot ws.tree word.slot _)).trans hext, hsound⟩
  refine .update fun ws _ hws => ?_
  obtain ⟨hext, hsound⟩ := hfold ws.context.stack ws hws
  exact ⟨hext, hsound.setContext ⟨hsound.context.words, hsound.context.saved⟩⟩

theorem safe_restoreBase : Safe site base Lift.restoreBase :=
  .update fun _ _ hws =>
    ⟨Tree.Extends.refl _, hws.setContext ⟨hws.context.words, hws.context.saved⟩⟩

theorem safe_onward {handler : Lift Unit} (h : Safe site base handler) :
    Safe site base (site.onward handler) :=
  .bind h fun _ _ _ _ => .pure fun _ _ => trivial

/-- Every operation but a return goes on with a sound workspace. -/
theorem safe_execute (script : Script) (callees : List (Nat × SubId))
    (hret : site.ins.opcode.operation ≠ .ret) : Safe site base (site.execute script callees) := by
  unfold execute
  cases hop : site.ins.opcode.operation with
  | ret => exact absurd hop hret
  | nop => exact safe_onward (.pure fun _ _ => trivial)
  | jump => exact safe_jump _
  | call =>
    dsimp only
    split
    · exact safe_onward (safe_call _)
    · exact .pure fun _ _ => trivial
  | branch => exact safe_onward (safe_branch _)
  | reserve =>
    obtain ⟨type, -, hrun⟩ := reserve_eq hop
    exact safe_onward (hrun ▸ safe_declareBare type)
  | load => exact safe_onward safe_load
  | action => exact safe_onward (safe_action _)
  | copyDown => exact safe_onward safe_copyDown
  | copyTop => exact safe_onward safe_copyTop
  | release => exact safe_onward safe_release
  | destruct => exact safe_onward safe_destruct
  | step =>
    obtain ⟨op, -, hrun⟩ := step_eq hop
    exact safe_onward (hrun ▸ safe_applyStep op)
  | unary =>
    obtain ⟨op, -, hrun⟩ := unary_eq hop
    exact safe_onward (hrun ▸ safe_applyUnary op)
  | compare =>
    refine safe_onward ?_
    rw [compare]
    rcases site.ins.opcode.comparison_cases with h | h <;> rw [h] <;>
      exact safe_compareWith (by simp) (by simp)
  | storeState => exact safe_onward (safe_storeState _)
  | saveBase => exact safe_onward safe_saveBase
  | restoreBase => exact safe_onward safe_restoreBase
  | binary =>
    obtain ⟨operation, hrow, hrun⟩ := binary_eq hop
    exact safe_onward (hrun ▸ safe_applyBinary (Instruction.binaryOperation_ne_assign hrow))

theorem safe_placeLabel {labels : List (Nat × NodeId)}
    (hlabels : ∀ entry ∈ labels, base.kind entry.2 = .label) :
    Safe site base (site.placeLabel labels) := by
  unfold placeLabel
  split
  · next label hlookup =>
    have hkind := hlabels _ (mem_of_lookup hlookup)
    exact .emit (by simp [hkind]) (by simp [hkind])
  · exact .pure fun _ _ => trivial

theorem safe_visit {script : Script} (callees : List (Nat × SubId))
    (hlabels : ∀ entry ∈ script.labels, base.kind entry.2 = .label)
    (hret : site.ins.opcode.operation ≠ .ret) : Safe site base (site.visit script callees) :=
  .bind (safe_placeLabel hlabels) fun _ _ _ _ => safe_execute script callees hret

theorem placeLabel_eq_ok (labels : List (Nat × NodeId)) (ws : Workspace) :
    site.placeLabel labels ws = .ok () (left (site.placeLabel labels ws)) := by
  unfold placeLabel
  cases labels.lookup site.ins.offset <;> rfl

theorem visit_eq (site : Site) (script : Script) (callees : List (Nat × SubId)) (ws : Workspace) :
    site.visit script callees ws =
      site.execute script callees (left (site.placeLabel script.labels ws)) := by
  simp only [visit, bind, EStateM.bind]
  rw [placeLabel_eq_ok]
  rfl

theorem visit_eq_of_unknown {site : Site} {callees : List (Nat × SubId)}
    (hop : site.ins.opcode.operation = .call) (hnone : callees.lookup site.ins.target = none)
    (script : Script) (ws : Workspace) : site.visit script callees ws =
      .ok (.enter site.ins.target) (left (site.placeLabel script.labels ws)) := by
  rw [visit_eq]
  simp only [execute, hop, hnone]
  rfl

theorem visit_eq_of_ret (site : Site) (script : Script) (callees : List (Nat × SubId))
    (hret : site.ins.opcode.operation = .ret) (ws : Workspace) :
    let placed := left (site.placeLabel script.labels ws)
    site.visit script callees ws = .ok .stop { placed with
      tree := (placed.tree.alloc site.ins.offset (.ret none)).pushStatement site.block
        placed.tree.nextId } := by
  simp only [visit, bind, EStateM.bind]
  rw [placeLabel_eq_ok]
  simp only [execute, hret]
  rfl

/-- Any operation keeps the workspace proper; only a return ends the block. -/
theorem visit_proper {script : Script} (callees : List (Nat × SubId)) {ws : Workspace}
    (hlabels : ∀ entry ∈ script.labels, ws.tree.kind entry.2 = .label) (hws : ws.Sound site) :
    (left (site.visit script callees ws)).Proper ∧
      (site.ins.opcode.operation ≠ .ret → (left (site.visit script callees ws)).Sound site) := by
  by_cases hret : site.ins.opcode.operation = .ret
  · refine ⟨?_, fun hne => absurd hret hne⟩
    have hplace : Safe site _ _ := safe_placeLabel hlabels
    obtain ⟨-, hplaced, -⟩ := hplace ws (Tree.Extends.refl _) hws
    rw [visit_eq_of_ret site script callees hret]
    have halloc := hplaced.alloc (.ret none) (Tree.fits_of_operands (by simp [Node.kind])
      (by simp [Node.kind]) (by simp [Node.operands])) (by simp) site.ins.offset
    refine halloc.toProper.setTree (Tree.Extends.of_grows (Tree.Grows.pushStatement _ _ _))
      (halloc.tree.pushStatement ?_ halloc.unended)
    exact Tree.isStatement_of_kind_ne (by simp [Tree.kind, Node.kind])
  · obtain ⟨-, hsound, -⟩ := safe_visit callees hlabels hret ws (Tree.Extends.refl _) hws
    exact ⟨hsound.toProper, fun _ => hsound⟩

end Site

end ScriptLift
