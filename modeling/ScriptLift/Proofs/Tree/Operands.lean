import Mathlib.Data.List.Nodup
import ScriptLift.Proofs.Tree.Growth

/-! The operands of a node, by role.

There are two tables of all nodes: one lists the operands with their roles, the other one finds the place
of an operand by its role. They agree: a place is found for the roles that are listed and for no others,
it holds what is listed, and what is put there is listed from then on, where nothing else changes. -/
namespace ScriptLift

/-- The place of an operand: the handle that it holds, and what comes of putting another one there. -/
structure Cell (α : Type) where
  held : NodeId
  put : NodeId → α

namespace Node

/-- The place of the operand at `role`, if there is one. -/
def cell? : Node → Role → Option (Cell Node)
  | .ret (some value), .value => some ⟨value, fun id => .ret (some id)⟩
  | .conditional test branch, .test => some ⟨test, fun id => .conditional id branch⟩
  | .conditional test branch, .branch => some ⟨branch, fun id => .conditional test id⟩
  | .action routine arguments, .actionArgument i =>
    arguments[i]?.map fun a => ⟨a, fun id => .action routine (arguments.set i id)⟩
  | .call callee arguments, .callArgument i =>
    arguments[i]?.map fun a => ⟨a, fun id => .call callee (arguments.set i id)⟩
  | .vector x y z, .component 0 => some ⟨x, fun id => .vector id y z⟩
  | .vector x y z, .component 1 => some ⟨y, fun id => .vector x id z⟩
  | .vector x y z, .component 2 => some ⟨z, fun id => .vector x y id⟩
  | .component whole index, .source => some ⟨whole, fun id => .component id index⟩
  | .unary op operand, .operand => some ⟨operand, fun id => .unary op id⟩
  | .binary op left right declares, .left => some ⟨left, fun id => .binary op id right declares⟩
  | .binary op left right declares, .right => some ⟨right, fun id => .binary op left id declares⟩
  | _, _ => none

def roles (node : Node) : List Role := node.operands.map (·.1)

/-- Every operand replaced by what `f` makes of its role and of itself. -/
def mapOperands (f : Role → NodeId → NodeId) : Node → Node
  | .ret value => .ret (value.map (f .value))
  | .conditional test branch => .conditional (f .test test) (f .branch branch)
  | .action routine arguments => .action routine (arguments.mapIdx fun i => f (.actionArgument i))
  | .call callee arguments => .call callee (arguments.mapIdx fun i => f (.callArgument i))
  | .vector x y z => .vector (f (.component 0) x) (f (.component 1) y) (f (.component 2) z)
  | .component whole index => .component (f .source whole) index
  | .unary op operand => .unary op (f .operand operand)
  | .binary op left right declares => .binary op (f .left left) (f .right right) declares
  | node => node

/-- The node without its operands: all its fields but these, and how many there are. -/
def frame (node : Node) : Node := node.mapOperands fun _ _ => ⟨0⟩

def replacing (role : Role) (id : NodeId) : Role → NodeId → NodeId :=
  fun r a => if r = role then id else a

section Arguments

variable {f : Nat → Role} {role : Role}

theorem lookup_mapIdx (hf : Function.Injective f) (arguments : List NodeId) (i : Nat) :
    (arguments.mapIdx fun j a => (f j, a)).lookup (f i) = arguments[i]? := by
  induction arguments generalizing f i with
  | nil => rfl
  | cons argument arguments ih =>
    rw [List.mapIdx_cons, List.lookup_cons]
    cases i with
    | zero => simp
    | succ i =>
      have hne : f (i + 1) ≠ f 0 := fun heq => Nat.succ_ne_zero i (hf heq)
      rw [beq_false_of_ne hne]
      exact ih (fun a b heq => Nat.succ.inj (hf heq)) i

theorem lookup_mapIdx_of_ne (h : ∀ i, role ≠ f i) (arguments : List NodeId) :
    (arguments.mapIdx fun j a => (f j, a)).lookup role = none := by
  refine List.lookup_eq_none_iff.2 fun o ho => ?_
  obtain ⟨i, hi, rfl⟩ := List.mem_mapIdx.1 ho
  exact bne_iff_ne.2 (h i)

theorem mapIdx_replacing (hf : Function.Injective f) (arguments : List NodeId) (i : Nat) (id : NodeId) :
    (arguments.mapIdx fun j => replacing (f i) id (f j)) = arguments.set i id := by
  refine List.ext_getElem (by simp) fun j hj _ => ?_
  simp only [List.getElem_mapIdx, List.getElem_set, replacing, hf.eq_iff, eq_comm]

theorem nodup_mapIdx (hf : Function.Injective f) (arguments : List NodeId) :
    ((arguments.mapIdx fun j a => (f j, a)).map (·.1)).Nodup := by
  have heq : (arguments.mapIdx fun j a => (f j, a)).map (·.1) =
      (List.range arguments.length).map f :=
    List.ext_getElem (by simp) fun i _ _ => by simp
  rw [heq]
  exact List.nodup_range.map hf

theorem cell_arguments (hf : Function.Injective f) (call : List NodeId → Node)
    (arguments : List NodeId) (i : Nat) :
    (arguments[i]?.map fun a => (⟨a, fun id => call (arguments.set i id)⟩ : Cell Node)) =
      ((arguments.mapIdx fun j a => (f j, a)).lookup (f i)).map fun a =>
        ⟨a, fun id => call (arguments.mapIdx fun j => replacing (f i) id (f j))⟩ := by
  rw [lookup_mapIdx hf]
  simp only [mapIdx_replacing hf]

end Arguments

variable {node next : Node} {role : Role} {id old : NodeId} {f g : Role → NodeId → NodeId}

theorem kind_mapOperands (f : Role → NodeId → NodeId) (node : Node) :
    (node.mapOperands f).kind = node.kind := by
  cases node <;> rfl

theorem operands_mapOperands (f : Role → NodeId → NodeId) (node : Node) :
    (node.mapOperands f).operands = node.operands.map fun o => (o.1, f o.1 o.2) := by
  cases node with
  | action | call =>
    refine List.ext_getElem (by simp [mapOperands, operands]) fun i _ _ => ?_
    simp [mapOperands, operands]
  | ret value => cases value <;> rfl
  | _ => rfl

theorem mapOperands_mapOperands (f g : Role → NodeId → NodeId) (node : Node) :
    (node.mapOperands f).mapOperands g = node.mapOperands fun r a => g r (f r a) := by
  cases node with
  | action | call => simp [mapOperands, Function.comp_def]
  | ret value => cases value <;> rfl
  | _ => rfl

theorem frame_mapOperands (f : Role → NodeId → NodeId) (node : Node) :
    (node.mapOperands f).frame = node.frame :=
  mapOperands_mapOperands f _ node

theorem mapOperands_congr (h : ∀ o ∈ node.operands, f o.1 o.2 = g o.1 o.2) :
    node.mapOperands f = node.mapOperands g := by
  cases node with
  | action routine arguments | call callee arguments =>
    refine congrArg _ (List.mapIdx_eq_mapIdx_iff.2 fun i hi => ?_)
    exact h _ (List.mem_mapIdx.2 ⟨i, hi, rfl⟩)
  | ret value => cases value <;> simp_all [mapOperands, operands]
  | _ => simp_all [mapOperands, operands]

theorem mapOperands_eq_self (h : ∀ o ∈ node.operands, f o.1 o.2 = o.2) :
    node.mapOperands f = node := by
  rw [mapOperands_congr (g := fun _ a => a) h]
  cases node with
  | action | call => simp [mapOperands, List.mapIdx_eq_zipIdx_map]
  | ret value => cases value <;> rfl
  | _ => rfl

theorem nodup_roles (node : Node) : node.roles.Nodup := by
  cases node with
  | action routine arguments => exact nodup_mapIdx (fun _ _ h => by injection h) arguments
  | call callee arguments => exact nodup_mapIdx (fun _ _ h => by injection h) arguments
  | ret value => cases value <;> simp [roles, operands]
  | _ => simp [roles, operands]

/-- A place is found where the operand is listed, and only this operand changes with it. -/
theorem cell?_eq (node : Node) (role : Role) :
    node.cell? role = (node.operands.lookup role).map fun held =>
      ⟨held, fun id => node.mapOperands (replacing role id)⟩ := by
  -- Where neither the node nor the role has an index, both sides compute to the same.
  cases node with
  | action routine arguments =>
    cases role with
    | actionArgument i =>
      exact cell_arguments (fun _ _ h => by injection h) (.action routine) arguments i
    | _ => rw [operands, lookup_mapIdx_of_ne (fun i h => by cases h)]; rfl
  | call callee arguments =>
    cases role with
    | callArgument i =>
      exact cell_arguments (fun _ _ h => by injection h) (.call callee) arguments i
    | _ => rw [operands, lookup_mapIdx_of_ne (fun i h => by cases h)]; rfl
  | ret value => cases value <;> cases role <;> rfl
  | vector x y z =>
    cases role with
    | component i => rcases i with _ | _ | _ | i <;> rfl
    | _ => rfl
  | _ => cases role <;> rfl

theorem setOperand?_eq_cell? (node : Node) (role : Role) (id : NodeId) :
    node.setOperand? role id = (node.cell? role).map (·.put id) := by
  have harguments : ∀ (call : List NodeId → Node) (arguments : List NodeId) (i : Nat),
      (if i < arguments.length then some (call (arguments.set i id)) else none) =
        (arguments[i]?.map fun a =>
          (⟨a, fun id => call (arguments.set i id)⟩ : Cell Node)).map (·.put id) := by
    intro call arguments i
    split
    · next hi => simp [hi]
    · next hi => simp [hi]
  cases node with
  | action routine arguments =>
    cases role with
    | actionArgument i => exact harguments (.action routine) arguments i
    | _ => rfl
  | call callee arguments =>
    cases role with
    | callArgument i => exact harguments (.call callee) arguments i
    | _ => rfl
  | ret value => cases value <;> cases role <;> rfl
  | vector x y z =>
    cases role with
    | component i => rcases i with _ | _ | _ | i <;> rfl
    | _ => rfl
  | _ => cases role <;> rfl

theorem mem_roles : role ∈ node.roles ↔ ∃ held, (role, held) ∈ node.operands := by
  simp [roles]

theorem lookup_operands {held : NodeId} :
    node.operands.lookup role = some held ↔ (role, held) ∈ node.operands := by
  constructor
  · intro h
    obtain ⟨before, behind, heq, -⟩ := List.lookup_eq_some_iff.1 h
    simp [heq]
  · intro h
    obtain ⟨before, behind, heq⟩ := List.append_of_mem h
    refine List.lookup_eq_some_iff.2 ⟨before, behind, heq, fun o ho => bne_iff_ne.2 fun hrole => ?_⟩
    have hroles := node.nodup_roles
    rw [roles, heq, List.map_append, List.map_cons] at hroles
    exact (List.nodup_append.1 hroles).2.2 o.1 (List.mem_map_of_mem ho) role List.mem_cons_self
      hrole.symm

theorem isSome_cell? : (node.cell? role).isSome ↔ role ∈ node.roles := by
  rw [cell?_eq, Option.isSome_map, Option.isSome_iff_exists, mem_roles]
  simp only [lookup_operands]

theorem cell?_eq_some_iff {cell : Cell Node} : node.cell? role = some cell ↔
    (role, cell.held) ∈ node.operands ∧
      cell.put = fun id => node.mapOperands (replacing role id) := by
  rw [cell?_eq, Option.map_eq_some_iff]
  constructor
  · rintro ⟨held, hheld, rfl⟩
    exact ⟨lookup_operands.1 hheld, rfl⟩
  · rintro ⟨hheld, hput⟩
    exact ⟨cell.held, lookup_operands.2 hheld, by rw [← hput]⟩

theorem setOperand?_eq_some_iff : node.setOperand? role id = some next ↔
    role ∈ node.roles ∧ next = node.mapOperands (replacing role id) := by
  rw [setOperand?_eq_cell?, Option.map_eq_some_iff, mem_roles]
  simp only [cell?_eq_some_iff]
  constructor
  · rintro ⟨cell, ⟨hheld, hput⟩, rfl⟩
    exact ⟨⟨cell.held, hheld⟩, congrFun hput id⟩
  · rintro ⟨⟨held, hheld⟩, rfl⟩
    exact ⟨⟨held, fun id => node.mapOperands (replacing role id)⟩, ⟨hheld, rfl⟩, rfl⟩

/-- A node is its frame and its operands: what keeps both keeps every field. -/
theorem eq_of_frame_eq (hframe : node.frame = next.frame) (hoperands : node.operands = next.operands) :
    node = next := by
  have hself : ∀ node : Node, node.frame.mapOperands
      (fun role _ => (node.operands.lookup role).getD ⟨0⟩) = node := by
    intro node
    rw [frame, mapOperands_mapOperands]
    refine mapOperands_eq_self fun o ho => ?_
    rw [lookup_operands.2 ho, Option.getD_some]
  rw [← hself node, hframe, hoperands, hself next]

theorem kind_setOperand? (h : node.setOperand? role id = some next) : next.kind = node.kind := by
  obtain ⟨-, rfl⟩ := setOperand?_eq_some_iff.1 h
  exact kind_mapOperands _ node

theorem mem_operands_setOperand? (h : node.setOperand? role id = some next) {o : Role × NodeId}
    (ho : o ∈ next.operands) : o.2 = id ∨ ∃ p ∈ node.operands, p.2 = o.2 := by
  obtain ⟨-, rfl⟩ := setOperand?_eq_some_iff.1 h
  rw [operands_mapOperands] at ho
  obtain ⟨p, hp, rfl⟩ := List.mem_map.1 ho
  by_cases hrole : p.1 = role
  · exact .inl (if_pos hrole)
  · exact .inr ⟨p, hp, (if_neg hrole).symm⟩

theorem exists_operand_of_setOperand? (h : node.setOperand? role id = some next) :
    ∃ old, (role, old) ∈ node.operands :=
  mem_roles.1 (setOperand?_eq_some_iff.1 h).1

/-- An operand is replaced in its place. -/
theorem setOperand?_eq_set (h : (role, old) ∈ node.operands) (new : NodeId) :
    ∃ next position, node.setOperand? role new = some next ∧
      node.operands[position]? = some (role, old) ∧
      next.operands = node.operands.set position (role, new) := by
  obtain ⟨position, hlt, hposition⟩ := List.mem_iff_getElem.1 h
  refine ⟨_, position, setOperand?_eq_some_iff.2 ⟨mem_roles.2 ⟨old, h⟩, rfl⟩,
    List.getElem?_eq_some_iff.2 ⟨hlt, hposition⟩, ?_⟩
  rw [operands_mapOperands]
  refine List.ext_getElem (by simp) fun i hi _ => ?_
  rw [List.length_map] at hi
  rw [List.getElem_map, List.getElem_set]
  split
  · next heq =>
    subst heq
    simp [hposition, replacing]
  · next hne =>
    have hrole : node.operands[i].1 ≠ role := by
      intro heq
      have hroles : node.roles[position]? = node.roles[i]? := by
        simp [roles, hlt, hi, hposition, heq]
      exact hne ((List.getElem?_inj (by simpa [roles] using hlt) node.nodup_roles).1 hroles)
    exact Prod.ext rfl (if_neg hrole)

end Node

namespace Expr

/-- The place of the operand at `role`. The offset is no part of it. -/
def cell? (e : Expr) (role : Role) : Option (Cell Expr) :=
  (e.node.cell? role).map fun cell => ⟨cell.held, fun id => { e with node := cell.put id }⟩

/-- `new` is `old` with `id` for its operand at `role`: this one is listed in the same place, and the
other operands and all other fields are the same. -/
structure Replaced (role : Role) (id : NodeId) (old new : Expr) : Prop where
  operands : new.node.operands =
    old.node.operands.map fun o => if o.1 = role then (role, id) else o
  kind : new.node.kind = old.node.kind
  frame : new.node.frame = old.node.frame
  offset : new.offset = old.offset

variable {e new : Expr} {role : Role} {id : NodeId} {cell : Cell Expr}

theorem cell?_eq_some_iff : e.cell? role = some cell ↔ (role, cell.held) ∈ e.node.operands ∧
    cell.put = fun id => ⟨e.offset, e.node.mapOperands (Node.replacing role id)⟩ := by
  rw [cell?, Option.map_eq_some_iff]
  simp only [Node.cell?_eq_some_iff]
  constructor
  · rintro ⟨inner, ⟨hheld, hput⟩, rfl⟩
    exact ⟨hheld, by rw [hput]⟩
  · rintro ⟨hheld, hput⟩
    exact ⟨⟨cell.held, fun id => e.node.mapOperands (Node.replacing role id)⟩, ⟨hheld, rfl⟩,
      by rw [← hput]⟩

theorem replaced_iff : Replaced role id e new ↔
    new = ⟨e.offset, e.node.mapOperands (Node.replacing role id)⟩ := by
  have hoperands : (e.node.mapOperands (Node.replacing role id)).operands =
      e.node.operands.map fun o => if o.1 = role then (role, id) else o := by
    rw [Node.operands_mapOperands]
    refine List.map_congr_left fun o _ => ?_
    by_cases hrole : o.1 = role
    · rw [if_pos hrole, ← hrole]
      exact Prod.ext rfl (if_pos rfl)
    · rw [if_neg hrole]
      exact Prod.ext rfl (if_neg hrole)
  constructor
  · intro h
    have hnode : new.node = e.node.mapOperands (Node.replacing role id) :=
      Node.eq_of_frame_eq (by rw [h.frame, Node.frame_mapOperands]) (by rw [h.operands, hoperands])
    cases new
    exact congr (congrArg Expr.mk h.offset) hnode
  · rintro rfl
    exact ⟨hoperands, Node.kind_mapOperands _ _, Node.frame_mapOperands _ _, rfl⟩

theorem cell?_put (h : e.cell? role = some cell) (id : NodeId) :
    (cell.put id).cell? role = some ⟨id, cell.put⟩ := by
  obtain ⟨hheld, hput⟩ := cell?_eq_some_iff.1 h
  refine cell?_eq_some_iff.2 ⟨?_, ?_⟩
  · rw [hput, Node.operands_mapOperands]
    exact List.mem_map.2 ⟨_, hheld, Prod.ext rfl (if_pos rfl)⟩
  · rw [hput]
    funext other
    rw [Node.mapOperands_mapOperands]
    refine congrArg (Expr.mk e.offset) (congrArg e.node.mapOperands ?_)
    funext r a
    unfold Node.replacing
    split <;> rfl

theorem put_held (h : e.cell? role = some cell) : cell.put cell.held = e := by
  obtain ⟨hheld, hput⟩ := cell?_eq_some_iff.1 h
  rw [hput]
  refine congrArg (Expr.mk e.offset) (Node.mapOperands_eq_self fun o ho => ?_)
  unfold Node.replacing
  split
  · next hrole =>
    have hsame := Node.lookup_operands.2 hheld
    rw [← hrole, Node.lookup_operands.2 ho] at hsame
    exact (Option.some.inj hsame).symm
  · rfl

theorem isSome_cell? : (e.cell? role).isSome ↔ role ∈ e.node.roles := by
  rw [cell?, Option.isSome_map, Node.isSome_cell?]

theorem setOperand?_eq (e : Expr) (role : Role) (id : NodeId) :
    e.node.setOperand? role id = (e.cell? role).map fun cell => (cell.put id).node := by
  rw [Node.setOperand?_eq_cell?, cell?, Option.map_map]
  rfl

end Expr

theorem Tree.get?_setOperand {tree : Tree} {n : NodeId} {e : Expr} (h : tree.get? n = some e)
    (role : Role) (id : NodeId) :
    (tree.setOperand n role id).get? n = some (((e.cell? role).map (·.put id)).getD e) := by
  have hget : (tree.setOperand n role id).get? n =
      some { e with node := (e.node.setOperand? role id).getD e.node } := by
    unfold get? at h
    simp [setOperand, get?, modify, Array.getElem?_modify, h]
  rw [hget, Expr.setOperand?_eq, Expr.cell?]
  cases e.node.cell? role <;> rfl

namespace Expr

/-- The operands of an expression and the places found by role are two views of the same. No role occurs
twice, and a place is found for each that occurs and for no other. It holds the listed handle, which put
back changes nothing; with another one put there, this one is listed in its stead, what else there is in
the expression stays as it is, and the place is the same but for what it holds. This is how operands are set
in a node and in a tree. -/
theorem cells_match_operands (e : Expr) :
    e.node.roles.Nodup ∧ ∀ role,
      ((e.cell? role).isSome ↔ role ∈ e.node.roles) ∧
      (∀ cell, e.cell? role = some cell →
        (role, cell.held) ∈ e.node.operands ∧ cell.put cell.held = e ∧
        ∀ id, (∀ new, Replaced role id e new ↔ new = cell.put id) ∧
          (cell.put id).cell? role = some ⟨id, cell.put⟩) ∧
      (∀ id, e.node.setOperand? role id = (e.cell? role).map fun cell => (cell.put id).node) ∧
      ∀ (tree : Tree) n id, tree.get? n = some e →
        (tree.setOperand n role id).get? n = some (((e.cell? role).map (·.put id)).getD e) := by
  refine ⟨e.node.nodup_roles, fun role => ⟨isSome_cell?, fun cell hcell => ?_,
    setOperand?_eq e role, fun tree n id hget => Tree.get?_setOperand hget role id⟩⟩
  obtain ⟨hheld, hput⟩ := cell?_eq_some_iff.1 hcell
  refine ⟨hheld, put_held hcell, fun id => ⟨fun new => ?_, cell?_put hcell id⟩⟩
  rw [replaced_iff, hput]

/-- The second argument of a call is replaced; there is no third one and no left side. -/
theorem cells_match_operands_sumCall :
    let e : Expr := ⟨21, .call ⟨3⟩ [⟨4⟩, ⟨5⟩]⟩
    let e' : Expr := ⟨21, .call ⟨3⟩ [⟨4⟩, ⟨9⟩]⟩
    ∃ cell, e.cell? (.callArgument 1) = some cell ∧ cell.held = ⟨5⟩ ∧ cell.put ⟨5⟩ = e ∧
      cell.put ⟨9⟩ = e' ∧ Replaced (.callArgument 1) ⟨9⟩ e e' ∧
      e.cell? (.callArgument 2) = none ∧ e.cell? .left = none := by
  intro e e'
  have hmatch := (cells_match_operands e).2
  have hnone : ∀ role, role ∉ e.node.roles → e.cell? role = none := fun role hrole =>
    Option.not_isSome_iff_eq_none.1 (mt (hmatch role).1.1 hrole)
  obtain ⟨-, hcell, -⟩ := hmatch (.callArgument 1)
  obtain ⟨-, hheld, hput⟩ := hcell _ rfl
  exact ⟨_, rfl, rfl, hheld, rfl, ((hput ⟨9⟩).1 e').2 rfl, hnone _ (by decide), hnone _ (by decide)⟩

end Expr

end ScriptLift
