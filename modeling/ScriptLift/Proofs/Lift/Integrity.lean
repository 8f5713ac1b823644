import ScriptLift.Proofs.Lift.Arguments
import ScriptLift.Proofs.Lift.Deferral
import ScriptLift.Proofs.Lift.Forms

/-! The handles of a lifted tree.

Nodes are only ever added, and each names nodes that are there already. What a handle stands for
follows from where it is stored: targets of assignments, formal arguments and globals are slots,
gotos name labels, roots are blocks. -/
namespace ScriptLift

def Node.handles : Node → List NodeId
  | .block statements => statements
  | .goto target => [target]
  | node => node.operands.map Prod.snd

def Node.callee? : Node → Option SubId
  | .call callee _ => some callee
  | _ => none

namespace Tree

variable (tree : Tree)

/-- All node handles that a tree stores: those of nodes, subroutines and globals. -/
def stored : List NodeId :=
  tree.exprs.toList.flatMap (·.node.handles) ++
    tree.subroutines.toList.flatMap (fun sub => sub.root :: sub.formals.map (·.slot)) ++
    tree.globals.map (·.slot)

def storedSubs : List SubId := tree.order ++ tree.exprs.toList.filterMap (·.node.callee?)

/-- Every handle is in range and stands for what its place asks for. -/
structure Integral : Prop where
  stored : ∀ id ∈ tree.stored, id.index < tree.size
  subs : ∀ sub ∈ tree.storedSubs, tree.HasSub sub
  before : ∀ id, ∀ o ∈ (tree.node id).operands, o.2.index < id.index
  apt : ∀ id, tree.Apt (tree.node id)
  goto : ∀ id label, tree.node id = .goto label →
    tree.node label = .label ∧ label.index < id.index
  root : ∀ sub, tree.HasSub sub → tree.IsBlock (tree.sub sub).root ∧
    tree.offset (tree.sub sub).root = (tree.sub sub).start
  formal : ∀ sub, tree.HasSub sub → ∀ formal ∈ (tree.sub sub).formals, tree.isSlot formal.slot
  global : ∀ global ∈ tree.globals, tree.isSlot global.slot

variable {tree}

theorem exists_node_of_mem {e : Expr} (h : e ∈ tree.exprs.toList) :
    ∃ id : NodeId, id.index < tree.size ∧ tree.node id = e.node := by
  obtain ⟨i, hi, rfl⟩ := List.mem_iff_getElem.1 h
  have hlt : i < tree.exprs.size := by simpa using hi
  exact ⟨⟨i⟩, hlt, by simp [node, get, get?, hlt]⟩

theorem exists_sub_of_mem {s : Subroutine} (h : s ∈ tree.subroutines.toList) :
    ∃ sub, tree.HasSub sub ∧ tree.sub sub = s := by
  obtain ⟨i, hi, rfl⟩ := List.mem_iff_getElem.1 h
  have hlt : i < tree.subroutines.size := by simpa using hi
  exact ⟨⟨i⟩, hlt, by simp [sub, hlt]⟩

/-- That handles are in range follows from what they stand for. -/
theorem Integral.of_places (hwell : tree.WellFormed)
    (horder : ∀ sub ∈ tree.order, tree.HasSub sub)
    (hcallee : ∀ id callee arguments, tree.node id = .call callee arguments → tree.HasSub callee)
    (hbefore : ∀ id, ∀ o ∈ (tree.node id).operands, o.2.index < id.index)
    (hapt : ∀ id, tree.Apt (tree.node id))
    (hgoto : ∀ id label, tree.node id = .goto label →
      tree.node label = .label ∧ label.index < id.index)
    (hroot : ∀ sub, tree.HasSub sub → tree.IsBlock (tree.sub sub).root ∧
      tree.offset (tree.sub sub).root = (tree.sub sub).start)
    (hformal : ∀ sub, tree.HasSub sub → ∀ formal ∈ (tree.sub sub).formals,
      tree.isSlot formal.slot)
    (hglobal : ∀ global ∈ tree.globals, tree.isSlot global.slot) : tree.Integral := by
  have hnode : ∀ (id : NodeId), id.index < tree.size → ∀ handle ∈ (tree.node id).handles,
      handle.index < tree.size := by
    intro id hid handle hhandle
    have hoperand : ∀ o ∈ (tree.node id).operands, o.2.index < tree.size :=
      fun o ho => Nat.lt_trans (hbefore id o ho) hid
    cases hn : tree.node id with
    | block body =>
      rw [hn] at hhandle
      have hstatement : handle ∈ tree.statements id := by
        rw [statements, hn]
        exact hhandle
      exact (hwell.statement hstatement).lt
    | goto label =>
      rw [hn] at hhandle
      obtain rfl := List.mem_singleton.1 hhandle
      exact Nat.lt_trans (hgoto id handle hn).2 hid
    | _ =>
      rw [hn] at hhandle hoperand
      obtain ⟨o, ho, rfl⟩ := List.mem_map.1 hhandle
      exact hoperand o ho
  refine ⟨fun id hid => ?_, fun sub hsub => ?_, hbefore, hapt, hgoto, hroot, hformal, hglobal⟩
  · rcases List.mem_append.1 hid with hid | hid
    · rcases List.mem_append.1 hid with hid | hid
      · obtain ⟨e, he, hid⟩ := List.mem_flatMap.1 hid
        obtain ⟨owner, howner, heq⟩ := exists_node_of_mem he
        exact hnode owner howner id (heq ▸ hid)
      · obtain ⟨s, hs, hid⟩ := List.mem_flatMap.1 hid
        obtain ⟨sub, hsub, rfl⟩ := exists_sub_of_mem hs
        rcases List.mem_cons.1 hid with rfl | hid
        · exact (hroot sub hsub).1.lt
        · obtain ⟨formal, hmem, rfl⟩ := List.mem_map.1 hid
          exact lt_size_of_isSlot (hformal sub hsub formal hmem)
    · obtain ⟨global, hmem, rfl⟩ := List.mem_map.1 hid
      exact lt_size_of_isSlot (hglobal global hmem)
  · rcases List.mem_append.1 hsub with hsub | hsub
    · exact horder sub hsub
    · obtain ⟨e, he, hcalls⟩ := List.mem_filterMap.1 hsub
      obtain ⟨id, -, heq⟩ := exists_node_of_mem he
      rw [← heq] at hcalls
      cases hn : tree.node id with
      | call callee arguments =>
        rw [hn] at hcalls
        cases hcalls
        exact hcallee id _ _ hn
      | _ =>
        rw [hn] at hcalls
        cases hcalls

end Tree

namespace Lift

variable {program : Program} {routines : Routines} {settings : LiftSettings} {count : Nat}
  {m m' : Machine} {id label : NodeId} {sub : SubId}

/-- The node is made by an instruction, in the move behind `count` others. -/
inductive MadeOn (program : Program) (routines : Routines) (settings : LiftSettings) (count : Nat)
    (visit : Visit) (id : NodeId) : Prop
  | step {n n'} : Step program routines settings count n n' → n.visit? program = some visit →
    n'.tree.exprs = (visit.outcome (script program routines) n).tree.exprs →
    n.tree.size ≤ id.index → id.index < n'.tree.size → MadeOn program routines settings count visit id

theorem exists_madeOn (h : stage program routines settings count = some m)
    (hlate : (labels program).1.size < id.index) (hlt : id.index < m.tree.size)
    (hblock : m.tree.kind id ≠ .block) :
    ∃ earlier visit, earlier < count ∧ MadeOn program routines settings earlier visit id := by
  obtain ⟨earlier, n, n', hstep, hcount, hnew, hmade⟩ := exists_made h hlate hlt
  cases hstep.turn with
  | ended _ _ htree | shifted _ _ _ _ htree =>
    rw [Tree.size, htree] at hmade
    exact absurd hmade (Nat.not_lt.2 hnew)
  | @visited visit act' hvisit _ _ _ htree =>
    exact ⟨earlier, visit, hcount, .step hstep hvisit htree hnew hmade⟩
  | @entered visit act' target ws _ _ _ _ htree =>
    have hsize : n'.tree.size = n.tree.size + 1 := by
      rw [Tree.size, htree, ← Tree.size, Tree.size_alloc]
    obtain rfl : id = n.tree.nextId := Tree.eq_nextId_of_index (by omega)
    have hroot := (Tree.isBlock_alloc htree).mono (stage_grows hstep.behind h hcount)
    exact absurd hroot.kind hblock

theorem MadeOn.leadsBackTo {earlier : Nat} {visit : Visit}
    (hmade : MadeOn program routines settings earlier visit id)
    (h : stage program routines settings count = some m) (hlt : earlier < count)
    (hgoto : m.tree.node id = .goto label) :
    visit.site.LeadsBackTo (script program routines) label := by
  obtain ⟨hstep, hvisit, htree, hnew, hmade⟩ := hmade
  have hgrow := stage_grows hstep.behind h hlt
  have hkind := hgrow.kind_eq hmade
  rw [Tree.kind, hgoto, Node.kind] at hkind
  refine ((visit_trail hstep.before hvisit).tree.made id hnew ?_).goto label ?_
  · rwa [Tree.size, ← htree]
  · rw [← Tree.node_of_exprs_eq htree, ← hgrow.node_eq (by simp [← hkind]) (by simp [← hkind]),
      hgoto]

theorem late_of_goto (h : stage program routines settings count = some m)
    (hgoto : m.tree.node id = .goto label) : (labels program).1.size < id.index := by
  by_contra hle
  have hgrow := stage_grows (m := start (labels program).1) rfl h (Nat.zero_le _)
  have hform := hgrow.form id (by rw [start_size]; omega)
  rw [hgoto] at hform
  rcases start_node program id with hnode | hnode <;> rw [hnode] at hform <;> cases hform

theorem exists_madeOn_of_goto (h : stage program routines settings count = some m)
    (hgoto : m.tree.node id = .goto label) :
    ∃ earlier visit, earlier < count ∧ MadeOn program routines settings earlier visit id ∧
      visit.site.LeadsBackTo (script program routines) label := by
  obtain ⟨earlier, visit, hcount, hmade⟩ := exists_madeOn h (late_of_goto h hgoto)
    (Tree.lt_size_of_node_ne (by simp [hgoto])) (by simp [Tree.kind, hgoto, Node.kind])
  exact ⟨earlier, visit, hcount, hmade, hmade.leadsBackTo h hcount hgoto⟩

theorem stage_goto (h : stage program routines settings count = some m)
    (hgoto : m.tree.node id = .goto label) :
    m.tree.node label = .label ∧ label.index < id.index := by
  obtain ⟨_, _, -, -, -, hlabel⟩ := exists_madeOn_of_goto h hgoto
  have hlabelKind := (stage_sound h).labels _ (Site.mem_of_lookup hlabel)
  refine ⟨?_, Nat.lt_trans (labels_lookup hlabel).1 (late_of_goto h hgoto)⟩
  unfold Tree.kind at hlabelKind
  cases hn : m.tree.node label with
  | label => rfl
  | _ => simp [hn, Node.kind] at hlabelKind

/-- The root of a subroutine stands at its start, and its formal arguments are slots. -/
theorem stage_sub (h : stage program routines settings count = some m)
    (hsub : m.tree.HasSub sub) :
    m.tree.offset (m.tree.sub sub).root = (m.tree.sub sub).start ∧
      ∀ formal ∈ (m.tree.sub sub).formals, m.tree.isSlot formal.slot := by
  refine stage_induction (P := fun _ m => ∀ sub, m.tree.HasSub sub →
    m.tree.offset (m.tree.sub sub).root = (m.tree.sub sub).start ∧
      ∀ formal ∈ (m.tree.sub sub).formals, m.tree.isSlot formal.slot) ?_ ?_ h sub hsub
  · intro sub hsub
    rw [(start_sub hsub).2]
    exact ⟨congrArg Expr.offset Tree.get_alloc_nextId, by simp⟩
  · intro count m m' hstep hm sub hsub
    have hgrow := hstep.grows
    cases hstep.accounts hsub with
    | kept hold heq =>
      obtain ⟨hroot, hformal⟩ := hm sub hold
      rw [heq]
      exact ⟨(hgrow.offset _ (stage_root_isBlock hstep.before hold).lt).trans hroot,
        fun formal hmem => hgrow.isSlot (hformal formal hmem)⟩
    | completed hact _ hold heq =>
      obtain ⟨hroot, -⟩ := hm sub hold
      rw [heq]
      refine ⟨(hgrow.offset _ (stage_root_isBlock hstep.before hold).lt).trans hroot, ?_⟩
      intro formal hmem
      obtain ⟨argument, hargument, rfl⟩ := List.mem_map.1 hmem
      exact hgrow.isSlot (((stage_sound hstep.before).active _ hact).outer argument hargument)
    | begun _ _ _ _ htree heq =>
      rw [heq]
      refine ⟨?_, by simp⟩
      rw [Tree.offset, Tree.get, Tree.get?, htree]
      exact congrArg Expr.offset Tree.get_alloc_nextId

variable {tree : Tree} {node : Node}

theorem node_of_complete (h : (complete tree).node id = node) (hblock : node.kind ≠ .block) :
    tree.node id = node := by
  obtain ⟨-, hkind, hnode⟩ := node_complete tree id
  rw [← hnode (by rw [← hkind, Tree.kind, h]; exact hblock), h]

theorem isSlot_complete (h : tree.isSlot id) : (complete tree).isSlot id := by
  rw [Tree.isSlot_iff_kind, (node_complete tree id).2.1]
  exact Tree.isSlot_iff_kind.1 h

theorem isBlock_complete (h : tree.IsBlock id) : (complete tree).IsBlock id :=
  ⟨by rw [size_complete]; exact h.lt, by rw [(node_complete tree id).2.1]; exact h.kind⟩

theorem node_complete_of_eq (h : tree.node id = node) (hblock : node.kind ≠ .block) :
    (complete tree).node id = node := by
  rw [(node_complete tree id).2.2 (by rw [Tree.kind, h]; exact hblock), h]

theorem apt_complete (h : ∀ id, tree.Apt (tree.node id)) (id : NodeId) :
    (complete tree).Apt ((complete tree).node id) := by
  constructor
  · intro left right declares heq
    exact isSlot_complete ((h id).target _ _ _ (node_of_complete heq (by simp [Node.kind])))
  · intro test branch heq
    obtain ⟨relation, operand, zero, htest, hrelation, hoperand, hzero⟩ :=
      (h id).test _ _ (node_of_complete heq (by simp [Node.kind]))
    exact ⟨relation, operand, zero, node_complete_of_eq htest (by simp [Node.kind]), hrelation,
      isSlot_complete hoperand, node_complete_of_eq hzero (by simp [Node.kind])⟩
  · intro test branch heq
    exact isBlock_complete ((h id).branch _ _ (node_of_complete heq (by simp [Node.kind])))

theorem hasSub_complete : (complete tree).HasSub sub ↔ tree.HasSub sub := by
  have hglobals : ∀ globals, (nameGlobals (collectGlobals tree) globals).HasSub sub ↔
      tree.HasSub sub := fun _ => Tree.hasSub_modifySub
  unfold complete nameSubroutines
  split
  · exact Tree.hasSub_modifySub
  · exact Tree.hasSub_modifySub.trans (hglobals _)
  · exact hglobals _
  · exact Iff.rfl

theorem mem_globals_complete {global : Global} (h : global ∈ (complete tree).globals) :
    tree.storage? global.slot = some .global := by
  rw [globals_complete] at h
  obtain ⟨slot, hslot, rfl⟩ := List.mem_map.1 h
  simpa using (List.mem_filter.1 hslot).2

end Lift

/-- Lifting gives a tree whose handles are all in range. Operands come before the nodes that hold
them; assignments go to slots, and formal arguments and globals are slots; gotos name labels;
conditionals compare a slot with zero and guard a block; the root of each subroutine is a block at
its start. -/
theorem lift_integral {program : Program} {routines : Routines} {settings : LiftSettings}
    {tree : Tree} (h : lift program routines settings = some (.ok tree)) : tree.Integral := by
  have hwell := lift_wellFormed h
  obtain ⟨lifted, hrun, rfl⟩ := lift_eq_ok h
  obtain ⟨count, last, hstage, -, rfl⟩ := Lift.exists_stage hrun
  have hkept : ∀ {id : NodeId} {node : Node}, (Lift.complete last.tree).node id = node →
      node.kind ≠ .block → last.tree.node id = node := Lift.node_of_complete
  refine Tree.Integral.of_places hwell ?_ ?_ ?_ (Lift.apt_complete (Lift.stage_apt hstage))
    ?_ ?_ ?_ ?_
  · intro sub hsub
    exact Lift.hasSub_complete.2
      (((Lift.stage_entered hstage).order sub).1 (Lift.order_complete last.tree ▸ hsub))
  · intro id callee arguments hcall
    have hold := hkept hcall (by simp [Node.kind])
    exact Lift.hasSub_complete.2 ((Lift.stage_matched hstage).calls id callee arguments hold).1
  · intro id o ho
    have hkind := (Tree.kind_of_operand ho).2.2
    exact (Lift.stage_sound hstage).tree.before id o (by rw [hkept rfl hkind]; exact ho)
  · intro id label hgoto
    obtain ⟨hlabel, hlt⟩ := Lift.stage_goto hstage (hkept hgoto (by simp [Node.kind]))
    exact ⟨Lift.node_complete_of_eq hlabel (by simp [Node.kind]), hlt⟩
  · intro sub hsub
    have hold := Lift.hasSub_complete.1 hsub
    have hroot : ((Lift.complete last.tree).sub sub).root = (last.tree.sub sub).root :=
      Lift.field_complete (·.root) (fun _ _ => rfl) last.tree sub
    have hstart : ((Lift.complete last.tree).sub sub).start = (last.tree.sub sub).start :=
      Lift.field_complete (·.start) (fun _ _ => rfl) last.tree sub
    change (Lift.complete last.tree).IsBlock ((Lift.complete last.tree).sub sub).root ∧
      (Lift.complete last.tree).offset ((Lift.complete last.tree).sub sub).root =
        ((Lift.complete last.tree).sub sub).start
    rw [hroot, hstart, (Lift.node_complete last.tree _).1]
    exact ⟨Lift.isBlock_complete (Lift.stage_root_isBlock hstage hold),
      (Lift.stage_sub hstage hold).1⟩
  · intro sub hsub formal hmem
    have hformals : ((Lift.complete last.tree).sub sub).formals = (last.tree.sub sub).formals :=
      Lift.field_complete (·.formals) (fun _ _ => rfl) last.tree sub
    have hold : formal ∈ (last.tree.sub sub).formals := hformals ▸ hmem
    exact Lift.isSlot_complete
      ((Lift.stage_sub hstage (Lift.hasSub_complete.1 hsub)).2 formal hold)
  · intro global hmem
    obtain ⟨slot, hslot, -⟩ := Option.map_eq_some_iff.1 (Lift.mem_globals_complete hmem)
    have hisSlot : last.tree.isSlot global.slot := by rw [Tree.isSlot, hslot, Option.isSome_some]
    exact Lift.isSlot_complete hisSlot

/-- A script with a global, a formal argument, a conditional and a jump back. -/
def linkedScript : Program := .ofList "" [
  { opcode := .jsr, jump := 8 },
  { opcode := .retn },
  { opcode := .consti, value := some (.int 5) },
  { opcode := .savebp },
  { opcode := .jsr, jump := 16 },
  { opcode := .restorebp },
  { opcode := .movsp, stack := -4 },
  { opcode := .retn },
  { opcode := .consti, value := some (.int 1) },
  { opcode := .jsr, jump := 20 },
  { opcode := .jz, jump := 12 },
  { opcode := .jmp, jump := -18 },
  { opcode := .retn },
  { opcode := .cptopsp, stack := -4, size := 4 },
  { opcode := .movsp, stack := -4 },
  { opcode := .retn }
]

/-- Whether a tree has handles of all sorts. -/
def Tree.isLinked (tree : Tree) : Bool :=
  tree.globals ≠ [] && tree.order.any (fun sub => (tree.sub sub).formals ≠ []) &&
    [Kind.goto, .conditional, .call, .binary .assign].all fun kind =>
      (List.range tree.size).any fun i => tree.kind ⟨i⟩ = kind

theorem lift_integral_linkedScript : ∃ tree, lift linkedScript {} .strictly = some (.ok tree) ∧
    tree.isLinked ∧ tree.Integral := by
  obtain ⟨tree, hlift, hlinked⟩ := exists_of_lift linkedScript {} .strictly Tree.isLinked
    (by decide +kernel)
  exact ⟨tree, hlift, hlinked, lift_integral hlift⟩

end ScriptLift
