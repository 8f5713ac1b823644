import ScriptLift.Proofs.Lift.Offsets

namespace ScriptLift

/-- Suffixes of the words of a result, the last one first: a vector has named components. -/
def ValueType.suffixes (type : ValueType) : List (Option String) :=
  if type = .vector then [some "z", some "y", some "x"] else [none]

theorem ValueType.suffixes_nodup (type : ValueType) : type.suffixes.Nodup := by
  unfold suffixes
  split <;> decide

namespace Instruction

variable (routines : Routines) (ins : Instruction)

def copySuffixes : List (Option String) :=
  let count := ins.size.toNat / 4
  (List.range count).reverse.map fun i => if 1 < count then some (toString i) else none

/-- Suffixes of the words that an instruction pushes, the last one first. -/
def suffixes : List (Option String) :=
  match ins.opcode.operation with
  | .reserve | .load | .unary | .compare => [none]
  | .binary =>
    match ins.binaryOperation with
    | .ok operation => operation.result.suffixes
    | .error _ => []
  | .action =>
    match routines.get? ins.routine with
    | some routine => routine.result.suffixes
    | none => []
  | .copyTop => ins.copySuffixes
  | _ => []

theorem copySuffixes_nodup : ins.copySuffixes.Nodup := by
  unfold copySuffixes
  refine (List.nodup_map_iff_inj_on (List.nodup_reverse.2 List.nodup_range)).2 ?_
  intro i hi j hj heq
  by_cases hmany : 1 < ins.size.toNat / 4
  · rw [if_pos hmany, if_pos hmany, Option.some.injEq] at heq
    have hread := congrArg (fun text => Nat.ofDigitChars 10 text.toList 0) heq
    simpa [Nat.toString_eq_ofList_toDigits] using hread
  · simp only [List.mem_reverse, List.mem_range] at hi hj
    omega

theorem suffixes_nodup : (ins.suffixes routines).Nodup := by
  unfold suffixes
  split
  · simp
  · simp
  · simp
  · simp
  · split
    · exact ValueType.suffixes_nodup _
    · simp
  · split
    · exact ValueType.suffixes_nodup _
    · simp
  · exact ins.copySuffixes_nodup
  · simp

end Instruction

namespace Tree

def suffix? (tree : Tree) (id : NodeId) : Option (Option String) :=
  (tree.slot? id).map (·.suffix)

variable {tree old new : Tree} {id : NodeId} {node : Node} {offset : Nat}

theorem slot?_alloc_of_lt (h : id.index < tree.size) :
    (tree.alloc offset node).slot? id = tree.slot? id := by
  rw [slot?, node_alloc_of_lt h, slot?]

theorem slot?_pushStatement {block s : NodeId} :
    (tree.pushStatement block s).slot? id = tree.slot? id := by
  unfold slot? pushStatement modifyStatements
  rcases node_modify_cases tree block id _ with heq | ⟨-, -, heq⟩
  · rw [heq]
  · rw [heq]
    cases tree.node id <;> rfl

theorem slot?_of_exprs_eq (h : new.exprs = old.exprs) : new.slot? id = old.slot? id := by
  simp only [slot?, node, get, get?, h]

theorem slot?_modifySlot_self (id : NodeId) (f : Slot → Slot) :
    (tree.modifySlot id f).slot? id = (tree.slot? id).map f := by
  by_cases hlt : id.index < tree.size
  · rw [slot?, modifySlot, node_modify_self hlt, slot?]
    cases tree.node id <;> rfl
  · have hle := Nat.le_of_not_lt hlt
    rw [slot?, node_of_size_le (by simpa using hle), slot?, node_of_size_le hle]
    rfl

theorem slot?_modifySlot_of_ne {slot : NodeId} {f : Slot → Slot} (h : id ≠ slot) :
    (tree.modifySlot slot f).slot? id = tree.slot? id := by
  rw [slot?, modifySlot, node_modify_of_ne h, slot?]

theorem map_slot?_modifySlot {α : Type} (g : Slot → α) {slot : NodeId} {f : Slot → Slot}
    (hf : ∀ s, g (f s) = g s) :
    ((tree.modifySlot slot f).slot? id).map g = (tree.slot? id).map g := by
  unfold slot? modifySlot
  rcases node_modify_cases tree slot id _ with heq | ⟨-, -, heq⟩
  · rw [heq]
  · rw [heq]
    cases tree.node id with
    | slot s => simp [hf]
    | _ => rfl

/-- Slots keep their storage and their suffix, and no new slot is a global. -/
structure KeepsNames (old new : Tree) : Prop where
  size : old.size ≤ new.size
  storage : ∀ id : NodeId, id.index < old.size → new.storage? id = old.storage? id
  suffix : ∀ id : NodeId, id.index < old.size → new.suffix? id = old.suffix? id
  made : ∀ id : NodeId, old.size ≤ id.index → new.storage? id ≠ some .global

namespace KeepsNames

theorem trans {mid : Tree} (h : old.KeepsNames mid) (g : mid.KeepsNames new) :
    old.KeepsNames new where
  size := Nat.le_trans h.size g.size
  storage id hid := (g.storage id (Nat.lt_of_lt_of_le hid h.size)).trans (h.storage id hid)
  suffix id hid := (g.suffix id (Nat.lt_of_lt_of_le hid h.size)).trans (h.suffix id hid)
  made id hid := by
    by_cases hlt : id.index < mid.size
    · rw [g.storage id hlt]
      exact h.made id hid
    · exact g.made id (Nat.le_of_not_lt hlt)

theorem of_size_eq (hsize : new.size = old.size) (hstorage : ∀ id, new.storage? id = old.storage? id)
    (hsuffix : ∀ id, new.suffix? id = old.suffix? id) : old.KeepsNames new where
  size := Nat.le_of_eq hsize.symm
  storage id _ := hstorage id
  suffix id _ := hsuffix id
  made id hid := by
    rw [storage?, slot?, node_of_size_le (by rw [hsize]; exact hid)]
    simp

theorem of_exprs_eq (h : new.exprs = old.exprs) : old.KeepsNames new :=
  of_size_eq (by simp only [Tree.size, h]) (fun _ => by rw [storage?, slot?_of_exprs_eq h, storage?])
    fun _ => by rw [suffix?, slot?_of_exprs_eq h, suffix?]

theorem refl (tree : Tree) : tree.KeepsNames tree := of_exprs_eq rfl

theorem alloc (h : ∀ slot, node = .slot slot → slot.storage ≠ .global) :
    tree.KeepsNames (tree.alloc offset node) where
  size := by simp
  storage id hid := storage?_alloc_of_lt hid
  suffix id hid := by rw [suffix?, slot?_alloc_of_lt hid, suffix?]
  made id hid := by
    by_cases hlt : id.index < (tree.alloc offset node).size
    · rw [eq_nextId_of_alloc hid hlt, storage?, slot?, node_alloc_nextId]
      cases node with
      | slot slot => simpa using h slot rfl
      | _ => simp
    · rw [storage?, slot?, node_of_size_le (Nat.le_of_not_lt hlt)]
      simp

theorem pushStatement (block s : NodeId) : tree.KeepsNames (tree.pushStatement block s) :=
  of_size_eq (by simp) (fun _ => storage?_pushStatement)
    fun _ => by rw [suffix?, slot?_pushStatement, suffix?]

theorem modifySlot {slot : NodeId} {f : Slot → Slot} (hstorage : ∀ s, (f s).storage = s.storage)
    (hsuffix : ∀ s, (f s).suffix = s.suffix) : tree.KeepsNames (tree.modifySlot slot f) :=
  of_size_eq (by simp) (fun _ => storage?_modifySlot_eq hstorage)
    fun _ => map_slot?_modifySlot _ hsuffix

end KeepsNames

end Tree

/-- From `a` to `b` words with these suffixes are pushed, the last one first. Some of them may be
missing, and words that were there may be gone. -/
structure Workspace.Adds (added : List (Option String)) (a b : Workspace) : Prop where
  tree : a.tree.KeepsNames b.tree
  stack : ∃ more rest, b.context.stack = more ++ rest ∧ rest.Sublist a.context.stack ∧
    (∀ word ∈ more, a.tree.size ≤ word.slot.index ∧ word.slot.index < b.tree.size) ∧
    (more.map fun word => b.tree.suffix? word.slot).Sublist (added.map some)

namespace Workspace.Adds

variable {a b c : Workspace} {added others : List (Option String)}

theorem of_sublist (htree : a.tree.KeepsNames b.tree)
    (hstack : b.context.stack.Sublist a.context.stack) : Adds added a b :=
  ⟨htree, [], b.context.stack, rfl, hstack, by simp, List.nil_sublist _⟩

theorem refl (ws : Workspace) : Adds added ws ws := of_sublist (.refl _) (.refl _)

theorem mono (h : Adds added a b) (hsub : added.Sublist others) : Adds others a b := by
  obtain ⟨more, rest, hstack, hrest, hmore, hsuffix⟩ := h.stack
  exact ⟨h.tree, more, rest, hstack, hrest, hmore, hsuffix.trans (hsub.map some)⟩

theorem trans (h : Adds added a b) (g : Adds others b c) : Adds (others ++ added) a c := by
  obtain ⟨more, rest, hstack, hrest, hmore, hsuffix⟩ := h.stack
  obtain ⟨more', rest', hstack', hrest', hmore', hsuffix'⟩ := g.stack
  rw [hstack] at hrest'
  -- What is left of `b` falls apart into words that were pushed before `b` and older ones.
  obtain ⟨left, old, rfl, hleft, hold⟩ := List.sublist_append_iff.1 hrest'
  refine ⟨h.tree.trans g.tree, more' ++ left, old, by rw [hstack', List.append_assoc],
    hold.trans hrest, ?_, ?_⟩
  · intro word hword
    rcases List.mem_append.1 hword with hword | hword
    · obtain ⟨hle, hlt⟩ := hmore' word hword
      exact ⟨Nat.le_trans h.tree.size hle, hlt⟩
    · obtain ⟨hle, hlt⟩ := hmore word (hleft.subset hword)
      exact ⟨hle, Nat.lt_of_lt_of_le hlt g.tree.size⟩
  · have hsame : (left.map fun word => c.tree.suffix? word.slot) =
        left.map fun word => b.tree.suffix? word.slot :=
      List.map_congr_left fun word hword =>
        g.tree.suffix _ (hmore word (hleft.subset hword)).2
    rw [List.map_append, List.map_append, hsame]
    exact hsuffix'.append ((hleft.map _).trans hsuffix)

theorem sublist (h : Adds [] a b) : b.context.stack.Sublist a.context.stack := by
  obtain ⟨more, rest, hstack, hrest, -, hnone⟩ := h.stack
  obtain rfl : more = [] := by simpa using hnone
  rw [hstack]
  exact hrest

theorem push (h : Adds [] a b) {slot : NodeId} {suffix : Option String}
    (hnew : a.tree.size ≤ slot.index) (hlt : slot.index < b.tree.size)
    (hsuffix : b.tree.suffix? slot = some suffix) :
    Adds [suffix] a { b with context := b.context.push slot } := by
  refine ⟨h.tree, [⟨slot, b.context.current⟩], b.context.stack, rfl, h.sublist, ?_, ?_⟩
  · simpa using ⟨hnew, hlt⟩
  · simp [hsuffix]

theorem suffix_ne (h : Adds added a b) (hadded : added.Nodup)
    (hold : ∀ word ∈ a.context.stack, word.slot.index < a.tree.size) {u v : Word}
    (hu : u ∈ b.context.stack) (hv : v ∈ b.context.stack) (hunew : a.tree.size ≤ u.slot.index)
    (hvnew : a.tree.size ≤ v.slot.index) (hne : u.slot ≠ v.slot) :
    b.tree.suffix? u.slot ≠ b.tree.suffix? v.slot := by
  obtain ⟨more, rest, hstack, hrest, -, hsuffix⟩ := h.stack
  have hmem : ∀ word ∈ b.context.stack, a.tree.size ≤ word.slot.index → word ∈ more := by
    intro word hword hnew
    rw [hstack] at hword
    refine (List.mem_append.1 hword).resolve_right fun hword => ?_
    exact absurd (hold word (hrest.subset hword)) (Nat.not_lt.2 hnew)
  have hinj := List.inj_on_of_nodup_map
    ((hadded.map (Option.some_injective _)).sublist hsuffix)
  intro heq
  exact hne (congrArg Word.slot (hinj (hmem u hu hunew) (hmem v hv hvnew) heq))

end Workspace.Adds

namespace Lift

variable {α β : Type} {added others : List (Option String)}

/-- `x` pushes words with these suffixes, the last one first, or fails before it has pushed all. -/
abbrev Pushes (added : List (Option String)) (x : Lift α) : Prop := Keeps (Workspace.Adds added) x

abbrev Quiet (x : Lift α) : Prop := Pushes [] x

namespace Pushes

theorem pure (a : α) : Pushes added (Pure.pure a : Lift α) := fun ws => .refl ws

theorem throw (fault : Error) : Pushes added (MonadExcept.throw fault : Lift α) := fun ws => .refl ws

theorem get : Quiet (MonadState.get : Lift Workspace) := fun ws => .refl ws

theorem bind {x : Lift α} {f : α → Lift β} (hx : Pushes added x) (hf : ∀ a, Pushes others (f a)) :
    Pushes (others ++ added) (x >>= f) := by
  intro ws
  have hws := hx ws
  change Workspace.Adds _ ws (left (EStateM.bind x f ws))
  unfold EStateM.bind
  cases hrun : x ws with
  | error cause mid =>
    rw [hrun] at hws
    exact hws.mono (List.sublist_append_right _ _)
  | ok a mid =>
    rw [hrun] at hws
    exact hws.trans (hf a mid)

theorem answer {x : Lift α} (hx : Pushes added x) (b : β) :
    Pushes added (x >>= fun _ => Pure.pure b) := by
  have hlast : Pushes [] (Pure.pure b : Lift β) := pure b
  exact bind hx fun _ => hlast

theorem behind {x : Lift α} {f : α → Lift β} (hx : Quiet x) (hf : ∀ a, Pushes added (f a)) :
    Pushes added (x >>= f) := by
  have h := bind hx hf
  rwa [List.append_nil] at h

theorem forM_map {f : α → Lift Unit} {g : α → Option String} {xs : List α}
    (h : ∀ a, Pushes [g a] (f a)) : Pushes (xs.reverse.map g) (xs.forM f) := by
  induction xs with
  | nil => exact pure ()
  | cons a xs ih =>
    rw [List.reverse_cons, List.map_append, List.map_singleton]
    exact bind (h a) fun _ => ih

theorem forM {f : α → Lift Unit} {xs : List α} (h : ∀ a, Quiet (f a)) : Quiet (xs.forM f) := by
  induction xs with
  | nil => exact pure ()
  | cons a xs ih => exact behind (h a) fun _ => ih

theorem mapM {f : α → Lift β} {xs : List α} (h : ∀ a, Quiet (f a)) : Quiet (xs.mapM f) := by
  induction xs with
  | nil => exact pure []
  | cons a xs ih =>
    rw [List.mapM_cons]
    exact behind (h a) fun b => behind ih fun bs => pure (b :: bs)

theorem update {f : Workspace → Workspace} (h : ∀ ws, Workspace.Adds added ws (f ws)) :
    Pushes added (modify f : Lift Unit) := h

end Pushes

end Lift

namespace Site

open Lift

variable {site : Site}

theorem quiet_require (condition : Bool) (cause : Inconsistency) :
    Quiet (site.require condition cause) := by
  unfold require
  split
  · exact .pure ()
  · exact .throw _

theorem quiet_check {α : Type} (result : Except Inconsistency α) : Quiet (site.check result) := by
  cases result with
  | ok a => exact .pure a
  | error cause => exact .throw _

theorem quiet_slot {slot : Slot} (h : slot.storage ≠ .global) :
    Quiet (site.alloc (.slot slot)) :=
  fun _ => .of_sublist (.alloc (by rintro _ ⟨⟩; exact h)) (.refl _)

theorem quiet_alloc {node : Node} (h : node.kind ≠ .slot) : Quiet (site.alloc node) := by
  refine fun _ => .of_sublist (.alloc ?_) (.refl _)
  rintro _ rfl
  exact absurd rfl h

theorem quiet_emit (s : NodeId) : Quiet (site.emit s) :=
  Pushes.update fun _ => .of_sublist (.pushStatement _ s) (.refl _)

theorem quiet_record {node : Node} (h : node.kind ≠ .slot) :
    Quiet (site.alloc node >>= fun id => site.emit id) :=
  .behind (quiet_alloc h) fun id => quiet_emit id

/-- A slot that is pushed once `x` is done with it. -/
theorem pushes_slot {x : NodeId → Lift Unit} (slot : Slot) (hslot : slot.storage ≠ .global)
    (hx : ∀ id, Quiet (x id)) : Pushes [slot.suffix]
      (site.alloc (.slot slot) >>= fun id => x id >>= fun _ => Lift.push id) := by
  intro ws
  let mid : Workspace := { ws with tree := ws.tree.alloc site.ins.offset (.slot slot) }
  have hmid : Workspace.Adds [] ws mid := quiet_slot hslot ws
  have hlast := hx ws.tree.nextId mid
  have hlt : ws.tree.nextId.index < mid.tree.size := by simp [mid]
  have hsuffix : mid.tree.suffix? ws.tree.nextId = some slot.suffix := by
    simp [mid, Tree.suffix?, Tree.slot?]
  change Workspace.Adds _ ws (left (EStateM.bind (x ws.tree.nextId)
    (fun _ => Lift.push ws.tree.nextId) mid))
  unfold EStateM.bind
  cases hrun : x ws.tree.nextId mid with
  | error cause last =>
    rw [hrun] at hlast
    exact (hmid.trans hlast).mono (List.nil_sublist _)
  | ok _ last =>
    rw [hrun] at hlast
    exact (hmid.trans hlast).push (Nat.le_refl _) (Nat.lt_of_lt_of_le hlt hlast.tree.size)
      ((hlast.tree.suffix _ hlt).trans hsuffix)

theorem quiet_consult {α : Type} (row : Except Error α) : Quiet (Lift.consult row) := by
  cases row with
  | ok a => exact .pure a
  | error e => exact .throw e

theorem quiet_popMany (count : Nat) : Quiet (site.popMany count) := by
  intro ws
  rw [popMany_eq]
  cases hpop : ws.context.popMany count with
  | error cause => exact .refl ws
  | ok popped =>
    obtain ⟨words, context⟩ := popped
    obtain ⟨-, -, rfl⟩ := Context.popMany_eq_ok hpop
    exact .of_sublist (.refl _) (List.drop_sublist _ _)

theorem quiet_pop : Quiet site.pop := by
  intro ws
  rw [pop_eq]
  cases hpop : ws.context.pop with
  | error cause => exact .refl ws
  | ok popped =>
    refine .of_sublist (.refl _) ?_
    rw [(Context.pop_eq_ok hpop).1]
    exact List.sublist_cons_self popped.1 popped.2.stack

theorem quiet_bindSlot {slot : Slot} (h : slot.storage ≠ .global) (value : NodeId) :
    Quiet (site.bindSlot slot value) :=
  .behind (quiet_slot h) fun target => .behind (quiet_alloc (by simp [Node.kind])) fun assign =>
    .behind (quiet_emit assign) fun _ => .pure target

theorem pushes_bindSlot (slot : Slot) (h : slot.storage ≠ .global) (value : NodeId) :
    Pushes [slot.suffix] (site.bindSlot slot value >>= fun id => Lift.push id) :=
  pushes_slot (x := fun id => site.alloc (.binary .assign id value true) >>= fun assign =>
    site.emit assign) slot h fun _ => quiet_record (by simp [Node.kind])

theorem pushes_declare (type : ValueType) (value : NodeId) :
    Pushes [none] (site.declare type value) :=
  pushes_bindSlot { type } (by simp) value

theorem quiet_below : Quiet site.below := by
  unfold below
  split
  · exact .pure _
  · exact .throw _

theorem quiet_addressed : Quiet site.addressed :=
  .behind quiet_below fun _ => .behind .get fun _ => quiet_check _

theorem quiet_argument (position : Int) (type : ValueType) (how : Access) :
    Quiet (site.argument position type how) := by
  intro ws
  unfold argument
  cases ws.outer.lookup position with
  | some slot => exact .of_sublist (.modifySlot (fun _ => rfl) fun _ => rfl) (.refl _)
  | none => exact .of_sublist (.alloc (by rintro _ ⟨⟩; simp [Slot.mark])) (.refl _)

theorem quiet_access (index : Nat) (how : Access) : Quiet (site.access index how) := by
  refine .behind .get fun ws => .behind (quiet_check _) fun word => ?_
  split
  · dsimp only
    split
    · exact quiet_argument _ _ how
    · exact .throw _
  · exact .pure _

theorem quiet_retype (left right : NodeId) : Quiet (Lift.retype left right) := by
  refine Pushes.update fun ws => ?_
  split
  · exact .of_sublist (.modifySlot (fun _ => rfl) fun _ => rfl) (.refl _)
  · exact .refl ws

theorem quiet_copyDown : Quiet site.copyDown :=
  .behind quiet_addressed fun _ => .behind .get fun _ => .behind (quiet_require _ _) fun _ =>
    .forM fun _ => .behind .get fun _ => .behind (quiet_check _) fun _ =>
      .behind (quiet_access _ _) fun _ => .behind (quiet_retype _ _) fun _ =>
        quiet_record (by simp [Node.kind])

theorem pushes_copyTop : Pushes site.ins.copySuffixes site.copyTop :=
  .behind quiet_addressed fun _ => .forM_map fun _ => .behind (quiet_access _ _) fun source =>
    .behind .get fun ws => pushes_bindSlot { type := ws.tree.type source, suffix := _ }
      (by simp) source

theorem quiet_release : Quiet site.release :=
  .behind quiet_below fun _ => .behind (quiet_popMany _) fun _ => .pure _

theorem quiet_destruct : Quiet site.destruct := by
  unfold destruct
  split
  · exact .throw _
  · intro ws
    dsimp only
    rw [destructWords_eq]
    split
    · cases hpop : ws.context.popMany (site.ins.size.toNat / 4) with
      | error cause => exact .refl ws
      | ok popped =>
        obtain ⟨words, context⟩ := popped
        obtain ⟨-, rfl, rfl⟩ := Context.popMany_eq_ok hpop
        exact .of_sublist (.refl _) (sublist_kept _ _ _ _)
    · exact .refl ws

theorem quiet_step : Quiet site.step :=
  .behind (quiet_consult _) fun _ => .behind quiet_addressed fun _ =>
    .behind (quiet_access _ _) fun _ => quiet_record (by simp [Node.kind])

theorem quiet_popVector : Quiet site.popVector := by
  have hfloat : ∀ name slot, Quiet (site.requireFloat name slot) :=
    fun _ _ => .behind .get fun _ => quiet_require _ _
  refine .behind (quiet_popMany 3) fun words => ?_
  split
  · exact .behind (hfloat _ _) fun _ => .behind (hfloat _ _) fun _ => .behind (hfloat _ _) fun _ =>
      quiet_alloc (by simp [Node.kind])
  · exact .throw _

theorem pushes_pushComponent (vector : NodeId) (name : String) (index : Nat) :
    Pushes [some name] (site.pushComponent vector name index) :=
  pushes_slot (x := fun id => site.alloc (.component vector index) >>= fun part =>
    site.alloc (.binary .assign id part true) >>= fun assign => site.emit assign)
    { type := .float, suffix := some name } (by simp) fun _ =>
      .behind (quiet_alloc (by simp [Node.kind])) fun _ => quiet_record (by simp [Node.kind])

theorem pushes_produce (type : ValueType) (value : NodeId) :
    Pushes type.suffixes (site.produce type value) := by
  unfold produce ValueType.suffixes
  split
  · exact .behind (quiet_bindSlot (by simp) value) fun result =>
      .bind (pushes_pushComponent result "x" 0) fun _ =>
        .bind (pushes_pushComponent result "y" 1) fun _ => pushes_pushComponent result "z" 2
  · exact pushes_declare type value

theorem pushes_reserve : Pushes [none] site.reserve :=
  .behind (quiet_consult _) fun type =>
    pushes_slot (x := fun id => site.emit id) { type } (by simp) quiet_emit

theorem pushes_load : Pushes [none] site.load := by
  unfold load
  split
  · exact .behind (quiet_alloc (by simp [Node.kind])) fun literal => pushes_declare _ literal
  · exact .throw _

theorem pushes_unary : Pushes [none] site.unary :=
  .behind (quiet_consult _) fun _ => .behind quiet_pop fun _ => .behind .get fun _ =>
    .behind (quiet_alloc (by simp [Node.kind])) fun value => pushes_declare _ value

theorem quiet_popPair (shape : Shape) : Quiet (site.popPair shape) := by
  have hpair : ∀ {x y : Lift NodeId}, Quiet x → Quiet y →
      Quiet (do let right ← x; let left ← y; return (left, right)) :=
    fun hx hy => .behind hx fun _ => .behind hy fun _ => .pure _
  cases shape with
  | scalar => exact hpair quiet_pop quiet_pop
  | vectorVector => exact hpair quiet_popVector quiet_popVector
  | floatVector => exact hpair quiet_popVector quiet_pop
  | vectorFloat => exact hpair quiet_pop quiet_popVector

theorem pushes_applyBinary (operation : BinaryOperation) :
    Pushes operation.result.suffixes (site.applyBinary operation) :=
  .behind (quiet_popPair _) fun _ => .behind (quiet_alloc (by simp [Node.kind])) fun value =>
    pushes_produce _ value

theorem quiet_compareWord (relation join : BinaryOp) (result : NodeId) (index : Nat)
    (words : NodeId × NodeId) : Quiet (site.compareWord relation join result index words) := by
  refine .behind (quiet_alloc (by simp [Node.kind])) fun word => ?_
  split
  · exact quiet_record (by simp [Node.kind])
  · exact .behind (quiet_alloc (by simp [Node.kind])) fun _ => quiet_record (by simp [Node.kind])

theorem pushes_compare : Pushes [none] site.compare :=
  .behind (quiet_require _ _) fun _ => .behind (quiet_popMany _) fun right =>
    .behind (quiet_popMany _) fun left =>
      pushes_slot (x := fun result => (left.zip right).zipIdx.forM fun words =>
        site.compareWord site.ins.opcode.comparison.1 site.ins.opcode.comparison.2 result words.2
          words.1) { type := .int } (by simp)
        fun result => .forM fun words => quiet_compareWord _ _ result words.2 words.1

theorem quiet_actionArgument (routine : Routine) (index : Nat) :
    Quiet (site.actionArgument routine index) := by
  unfold actionArgument
  split
  · exact .throw _
  · exact quiet_popVector
  · refine .behind .get fun ws => ?_
    split
    · exact .pure _
    · exact .throw _
  · exact quiet_pop

theorem pushes_callRoutine (routine : Routine) :
    Pushes routine.result.suffixes (site.callRoutine routine) := by
  refine .behind (.mapM (quiet_actionArgument routine)) fun arguments =>
    .behind (quiet_alloc (by simp [Node.kind])) fun action => ?_
  split
  · exact fun ws => (quiet_emit action ws).mono (List.nil_sublist _)
  · exact pushes_produce _ action

theorem quiet_targetLabel (labels : List (Nat × NodeId)) : Quiet (site.targetLabel labels) := by
  unfold targetLabel
  split
  · exact .pure _
  · exact .throw _

theorem quiet_jump (labels : List (Nat × NodeId)) : Quiet (site.jump labels) := by
  have hgoto : Quiet (site.targetLabel labels >>= fun label =>
      site.alloc (.goto label) >>= fun goto => site.emit goto) :=
    .behind (quiet_targetLabel labels) fun label => quiet_record (by simp [Node.kind])
  unfold jump
  split
  · exact .pure _
  · refine .behind ?_ fun _ => .pure _
    unfold jumpBack
    dsimp only
    split
    · exact .behind (Pushes.update fun _ => .of_sublist (.of_exprs_eq rfl) (.refl _)) fun _ => hgoto
    · exact hgoto

theorem quiet_schedule (offset : Nat) : Quiet (Lift.schedule offset) := by
  intro ws
  unfold Lift.schedule
  dsimp only
  cases ws.blocks.lookup (offset, ws.context.depth) with
  | some block => exact .refl ws
  | none => exact .of_sublist (.alloc (by simp)) (.refl _)

theorem quiet_branch (labels : List (Nat × NodeId)) : Quiet (site.branch labels) := by
  have hblock : Quiet (site.branchBlock labels) := by
    unfold branchBlock
    split
    · exact quiet_schedule _
    · exact .behind (quiet_targetLabel labels) fun _ =>
        .behind (quiet_alloc (by simp [Node.kind])) fun block =>
          .behind (quiet_alloc (by simp [Node.kind])) fun goto =>
            .behind (Pushes.update fun _ => .of_sublist (.pushStatement _ goto) (.refl _))
              fun _ => .pure block
  exact .behind quiet_pop fun _ => .behind (quiet_alloc (by simp [Node.kind])) fun _ =>
    .behind (quiet_alloc (by simp [Node.kind])) fun _ => .behind hblock fun _ =>
      quiet_record (by simp [Node.kind])

theorem quiet_storeState (program : Program) : Quiet (site.storeState program) := by
  have hjump : Quiet (site.followingJump program) := by
    unfold followingJump
    split
    · exact .pure _
    · exact .throw _
  exact .behind hjump fun _ => .behind (quiet_schedule _) fun _ =>
    Pushes.update fun _ => .of_sublist (.refl _) (.refl _)

theorem quiet_call (callee : SubId) : Quiet (site.call callee) :=
  .behind .get fun _ => .behind (.mapM fun _ => .behind .get fun _ => .behind (quiet_check _)
    fun _ => quiet_access _ _) fun _ => quiet_record (by simp [Node.kind])

theorem quiet_restoreBase : Quiet Lift.restoreBase :=
  Pushes.update fun _ => .of_sublist (.refl _) (.refl _)

theorem pushes_onward {added : List (Option String)} {handler : Lift Unit}
    (h : Pushes added handler) : Pushes added (site.onward handler) :=
  h.answer _

theorem quiet_placeLabel (labels : List (Nat × NodeId)) : Quiet (site.placeLabel labels) := by
  unfold placeLabel
  split
  · exact quiet_emit _
  · exact .pure _

/-- All instructions but the one that makes globals. -/
theorem pushes_execute {script : Script} (callees : List (Nat × SubId))
    (hsave : site.ins.opcode.operation ≠ .saveBase) :
    Pushes (site.ins.suffixes script.routines) (site.execute script callees) := by
  unfold execute Instruction.suffixes
  cases hop : site.ins.opcode.operation with
  | nop => exact pushes_onward (.pure _)
  | ret => exact .behind (quiet_record (by simp [Node.kind])) fun _ => .pure _
  | jump => exact quiet_jump _
  | call =>
    dsimp only
    split
    · exact pushes_onward (quiet_call _)
    · exact .pure _
  | branch => exact pushes_onward (quiet_branch _)
  | reserve => exact pushes_onward pushes_reserve
  | load => exact pushes_onward pushes_load
  | action =>
    refine pushes_onward ?_
    dsimp only
    unfold action
    cases script.routines.get? site.ins.routine with
    | none => exact .throw _
    | some routine => exact pushes_callRoutine routine
  | copyDown => exact pushes_onward quiet_copyDown
  | copyTop => exact pushes_onward pushes_copyTop
  | release => exact pushes_onward quiet_release
  | destruct => exact pushes_onward quiet_destruct
  | step => exact pushes_onward quiet_step
  | unary => exact pushes_onward pushes_unary
  | compare => exact pushes_onward pushes_compare
  | binary =>
    obtain ⟨operation, hrow, heq⟩ := binary_eq hop
    dsimp only
    rw [hrow, heq]
    exact pushes_onward (pushes_applyBinary operation)
  | storeState => exact pushes_onward (quiet_storeState _)
  | saveBase => exact absurd hop hsave
  | restoreBase => exact pushes_onward quiet_restoreBase

end Site

namespace Tree

variable {tree : Tree} {id : NodeId}

theorem storage?_modifySlot_of_ne {slot : NodeId} {f : Slot → Slot} (h : id ≠ slot) :
    (tree.modifySlot slot f).storage? id = tree.storage? id := by
  rw [storage?, slot?, modifySlot, node_modify_of_ne h, storage?, slot?]

theorem foldl_globalize (words : List Word) (tree : Tree) (id : NodeId) :
    let saved := words.foldl
      (fun tree word => tree.modifySlot word.slot fun s => { s with storage := .global }) tree
    saved.suffix? id = tree.suffix? id ∧ (saved.storage? id = some .global →
      tree.storage? id = some .global ∨ ∃ word ∈ words, word.slot = id) := by
  induction words generalizing tree with
  | nil => exact ⟨rfl, .inl⟩
  | cons word words ih =>
    obtain ⟨hsuffix, hglobal⟩ := ih (tree.modifySlot word.slot fun s => { s with storage := .global })
    refine ⟨hsuffix.trans (map_slot?_modifySlot _ fun _ => rfl), fun hsaved => ?_⟩
    by_cases hid : id = word.slot
    · exact .inr ⟨word, List.mem_cons_self, hid.symm⟩
    · rcases hglobal hsaved with hbefore | ⟨other, hother, heq⟩
      · exact .inl (by rwa [storage?_modifySlot_of_ne hid] at hbefore)
      · exact .inr ⟨other, List.mem_cons_of_mem _ hother, heq⟩

end Tree

/-- What an instruction does to names: suffixes stay, only words on the stack become globals, and the
words that are pushed have different suffixes. -/
structure Workspace.Brings (a b : Workspace) : Prop where
  suffix : ∀ id : NodeId, id.index < a.tree.size → b.tree.suffix? id = a.tree.suffix? id
  global : ∀ id, b.tree.storage? id = some .global →
    a.tree.storage? id = some .global ∨ ∃ word ∈ a.context.stack, word.slot = id
  apart : ∀ u ∈ b.context.stack, ∀ v ∈ b.context.stack, a.tree.size ≤ u.slot.index →
    a.tree.size ≤ v.slot.index → u.slot ≠ v.slot → b.tree.suffix? u.slot ≠ b.tree.suffix? v.slot

theorem Workspace.Adds.brings {a b : Workspace} {added : List (Option String)} (h : Adds added a b)
    (hadded : added.Nodup) (hold : ∀ word ∈ a.context.stack, word.slot.index < a.tree.size) :
    a.Brings b where
  suffix := h.tree.suffix
  global id hid := by
    by_cases hlt : id.index < a.tree.size
    · exact .inl (by rw [← h.tree.storage id hlt, hid])
    · exact absurd hid (h.tree.made id (Nat.le_of_not_lt hlt))
  apart _ hu _ hv hunew hvnew hne := h.suffix_ne hadded hold hu hv hunew hvnew hne

namespace Site

open Lift

variable {site : Site} {ws : Workspace}

theorem visit_of_saveBase {script : Script} (callees : List (Nat × SubId))
    (hop : site.ins.opcode.operation = .saveBase) :
    left (site.visit script callees ws) =
      left (Lift.saveBase (left (site.placeLabel script.labels ws))) := by
  change left (EStateM.bind (site.placeLabel script.labels)
    (fun _ => site.execute script callees) ws) = _
  unfold EStateM.bind
  rw [placeLabel_eq_ok]
  simp only [execute, hop]
  rfl

theorem visit_brings (script : Script) (callees : List (Nat × SubId))
    (hold : ∀ word ∈ ws.context.stack, word.slot.index < ws.tree.size) :
    ws.Brings (left (site.visit script callees ws)) := by
  by_cases hop : site.ins.opcode.operation = .saveBase
  · have hplaced : Workspace.Adds [] ws (left (site.placeLabel script.labels ws)) :=
      quiet_placeLabel script.labels ws
    have hbrings := hplaced.brings List.nodup_nil hold
    have hfold := Tree.foldl_globalize (left (site.placeLabel script.labels ws)).context.stack
      (left (site.placeLabel script.labels ws)).tree
    rw [visit_of_saveBase callees hop]
    refine ⟨fun id hid => (hfold id).1.trans (hbrings.suffix id hid), ?_, ?_⟩
    · intro id hid
      rcases (hfold id).2 hid with hglobal | ⟨word, hword, heq⟩
      · exact hbrings.global id hglobal
      · exact .inr ⟨word, hplaced.sublist.subset hword, heq⟩
    · -- There are no new words.
      intro u hu _ _ hunew
      exact absurd (hold u (hplaced.sublist.subset hu)) (Nat.not_lt.2 hunew)
  · have hvisit : Pushes (site.ins.suffixes script.routines) (site.visit script callees) :=
      .behind (quiet_placeLabel _) fun _ => pushes_execute callees hop
    exact (hvisit ws).brings (site.ins.suffixes_nodup script.routines) hold

end Site

namespace Lift

variable (program : Program) (routines : Routines) (settings : LiftSettings)

/-- In the move behind `count` others the instruction of `visit` makes the slot and pushes it. -/
def PushedAt (count : Nat) (visit : Visit) (id : NodeId) : Prop :=
  ∃ m m', Step program routines settings count m m' ∧ m.visit? program = some visit ∧
    m.tree.size ≤ id.index ∧ m'.tree.isSlot id ∧
    ∃ word ∈ (visit.outcome (script program routines) m).context.stack, word.slot = id

variable {program routines settings} {count other : Nat} {m m' : Machine} {visit : Visit}
  {id : NodeId}

theorem start_words_lt (h : stage program routines settings count = some m)
    (hvisit : m.visit? program = some visit) :
    ∀ word ∈ (visit.start m).context.stack, word.slot.index < (visit.start m).tree.size := by
  intro word hword
  have hsound := (stage_sound h).active _ (Machine.act_mem_of_visit? hvisit)
  exact Tree.lt_size_of_isSlot
    ((hsound.walk _ (Machine.walk_of_visit? hvisit)).words word hword)

theorem visit_brings (h : stage program routines settings count = some m)
    (hvisit : m.visit? program = some visit) :
    (visit.start m).Brings (visit.outcome (script program routines) m) :=
  Site.visit_brings _ _ (start_words_lt h hvisit)

/-- A word that a run has on a stack was pushed by the instruction that made it. -/
theorem stage_word_pushed (h : stage program routines settings count = some m) :
    ∀ act ∈ m.active, ∀ p ∈ act.pending, ∀ word ∈ p.2.stack,
      ∃ earlier visit, PushedAt program routines settings earlier visit word.slot := by
  refine active_induction (P := fun _ _ act => ∀ p ∈ act.pending, ∀ word ∈ p.2.stack,
    ∃ earlier visit, PushedAt program routines settings earlier visit word.slot) ?_ ?_ ?_ ?_ ?_ h
  · intro p hp word hword
    obtain rfl := List.mem_singleton.1 hp
    cases hword
  · exact fun _ hact => hact
  · exact fun hgoes hact p hp => hact p (hgoes.pending hp)
  · intro count m m' visit act' hstep hvisit _ hactive hleads _ hact p hp word hword
    have hwalk := Machine.walk_of_visit? hvisit
    have hold := hact _ (Visit.mem_pending hwalk)
    have hslot : m'.tree.isSlot word.slot := by
      have hsound := (stage_sound hstep.behind).active act' (Machine.first_mem hactive)
      exact (hsound.pending hp).words word hword
    rcases hleads.pending_cases hp with rfl | ⟨job, hjob, rfl⟩ | hp
    · rcases (visit_trail hstep.before hvisit).context.word word hword with hword' | ⟨hnew, -⟩
      · exact hold word hword'
      · exact ⟨count, visit, m, m', hstep, hvisit, hnew, hslot, word, hword, rfl⟩
    · refine hold word (List.Sublist.subset ?_ hword)
      exact (Visit.context_of_spawned hwalk (visit_fills hstep.before hvisit) hjob).1
    · exact hact p hp word hword
  · intro count m m' visit target ws _ hvisit _ act' _ _ hact p hp word hword
    obtain rfl := List.mem_singleton.1 hp
    exact hact _ (Visit.mem_pending (Machine.walk_of_visit? hvisit)) word hword

/-- A move executes an instruction and keeps what it does, or it makes no slot. -/
theorem Step.visited_or_keepsNames (h : Step program routines settings count m m') :
    (∃ visit act', m.visit? program = some visit ∧ visit.Leads (script program routines) m act' ∧
      m'.tree.exprs = (visit.outcome (script program routines) m).tree.exprs) ∨
    m.tree.KeepsNames m'.tree ∧ ∀ id, m'.tree.isSlot id → id.index < m.tree.size := by
  cases h.turn with
  | visited hvisit _ _ hleads htree => exact .inl ⟨_, _, hvisit, hleads, htree⟩
  | ended _ _ htree | shifted _ _ _ _ htree =>
    refine .inr ⟨.of_exprs_eq htree, fun id hslot => ?_⟩
    have hlt := Tree.lt_size_of_isSlot hslot
    rwa [Tree.size, htree] at hlt
  | @entered visit act' target _ _ _ _ _ htree =>
    have hkeeps : m.tree.KeepsNames (m.tree.alloc target (.block [])) := .alloc (by simp)
    refine .inr ⟨hkeeps.trans (.of_exprs_eq htree), fun id hslot => ?_⟩
    by_contra hle
    have hlt := Tree.lt_size_of_isSlot hslot
    rw [Tree.size, htree] at hlt
    rw [Tree.eq_nextId_of_alloc (Nat.le_of_not_lt hle) hlt, Tree.isSlot_iff_kind,
      (Tree.isBlock_alloc htree).kind] at hslot
    cases hslot

theorem stage_global_pushed (h : stage program routines settings count = some m)
    (hid : m.tree.storage? id = some .global) :
    ∃ earlier visit, PushedAt program routines settings earlier visit id := by
  refine stage_induction (P := fun _ m => ∀ id, m.tree.storage? id = some .global →
    ∃ earlier visit, PushedAt program routines settings earlier visit id) ?_ ?_ h id hid
  · intro id hid
    rcases start_node program id with hnode | hnode <;>
      simp [Tree.storage?, Tree.slot?, hnode] at hid
  · intro count m m' hstep hm id hid
    rcases hstep.visited_or_keepsNames with ⟨visit, _, hvisit, -, htree⟩ | ⟨hkeeps, -⟩
    · rw [Tree.storage?, Tree.slot?_of_exprs_eq htree] at hid
      rcases (visit_brings hstep.before hvisit).global id hid with hglobal | ⟨word, hword, rfl⟩
      · exact hm id hglobal
      · exact stage_word_pushed hstep.before _ (Machine.act_mem_of_visit? hvisit) _
          (Visit.mem_pending (Machine.walk_of_visit? hvisit)) word hword
    · by_cases hlt : id.index < m.tree.size
      · exact hm id (by rw [← hkeeps.storage id hlt, hid])
      · exact absurd hid (hkeeps.made id (Nat.le_of_not_lt hlt))

theorem stage_suffix {later : Nat} (h : stage program routines settings count = some m)
    (h' : stage program routines settings later = some m') (hle : count ≤ later)
    (hid : id.index < m.tree.size) : m'.tree.suffix? id = m.tree.suffix? id := by
  refine (stage_persists (P := fun n => id.index < n.tree.size ∧
    n.tree.suffix? id = m.tree.suffix? id) ?_ h h' hle ⟨hid, rfl⟩).2
  rintro count n n' hstep ⟨hlt, heq⟩
  refine ⟨Nat.lt_of_lt_of_le hlt hstep.grows.size, Eq.trans ?_ heq⟩
  rcases hstep.visited_or_keepsNames with ⟨visit, _, hvisit, -, htree⟩ | ⟨hkeeps, -⟩
  · rw [Tree.suffix?, Tree.slot?_of_exprs_eq htree]
    exact (visit_brings hstep.before hvisit).suffix id hlt
  · exact hkeeps.suffix id hlt

section Pushed

variable {last : Machine} {later : Nat}
  (hlast : stage program routines settings later = some last)
include hlast

theorem Step.behind_of_lt (h : Step program routines settings count m m')
    (hnew : m.tree.size ≤ id.index) (hlt : id.index < last.tree.size) : count + 1 ≤ later := by
  by_contra hle
  have hsize := (stage_grows hlast h.before (by omega)).size
  omega

/-- A slot stands at the instruction that pushed it. -/
theorem PushedAt.offset (h : PushedAt program routines settings count visit id)
    (hlt : id.index < last.tree.size) : last.tree.offset id = visit.ins.offset := by
  obtain ⟨m, m', hstep, hvisit, hnew, hslot, -⟩ := h
  have hslotLt := Tree.lt_size_of_isSlot hslot
  rw [(stage_grows hstep.behind hlast (hstep.behind_of_lt hlast hnew hlt)).offset id hslotLt]
  rcases hstep.visited_or_keepsNames with ⟨visit', act', hvisit', hleads, htree⟩ | ⟨-, hold⟩
  · cases hvisit'.symm.trans hvisit
    have hmarks : visit.site.Marks (visit.start m) (visit.outcome (script program routines) m) :=
      visit.site.visit_marks (script program routines) m.callees (visit.start m)
    have hfills := hleads.fills (Machine.walk_of_visit? hvisit) (visit_fills hstep.before hvisit)
    have hget : m'.tree.get id = (visit.outcome (script program routines) m).tree.get id := by
      rw [Tree.get, Tree.get, Tree.get?, Tree.get?, htree]
    rw [Tree.offset, hget]
    refine (hmarks.offset id hnew (by rw [Tree.size, ← htree]; exact hslotLt)).resolve_right ?_
    rintro ⟨key, hkey⟩
    have hblock := (hfills.blocks _ (by rw [hleads.blocks]; exact hkey)).kind
    rw [Tree.isSlot_iff_kind, Tree.kind, Tree.node, hget] at hslot
    cases hslot.symm.trans hblock
  · exact absurd (hold id hslot) (Nat.not_lt.2 hnew)

theorem PushedAt.suffix_ne {w : Visit} {other : NodeId}
    (h : PushedAt program routines settings count visit id)
    (h' : PushedAt program routines settings count w other) (hne : id ≠ other)
    (hlt : id.index < last.tree.size) : last.tree.suffix? id ≠ last.tree.suffix? other := by
  obtain ⟨m, m', hstep, hvisit, hnew, hslot, u, hu, rfl⟩ := h
  obtain ⟨n, n', hstep', hvisit', hnew', hslot', v, hv, rfl⟩ := h'
  cases hstep.before.symm.trans hstep'.before
  cases hstep.behind.symm.trans hstep'.behind
  cases hvisit.symm.trans hvisit'
  have hle := hstep.behind_of_lt hlast hnew hlt
  rw [stage_suffix hstep.behind hlast hle (Tree.lt_size_of_isSlot hslot),
    stage_suffix hstep.behind hlast hle (Tree.lt_size_of_isSlot hslot')]
  rcases hstep.visited_or_keepsNames with ⟨visit', _, hvisit', -, htree⟩ | ⟨-, hold⟩
  · cases hvisit'.symm.trans hvisit
    rw [Tree.suffix?, Tree.suffix?, Tree.slot?_of_exprs_eq htree, Tree.slot?_of_exprs_eq htree]
    exact (visit_brings hstep.before hvisit).apart u hu v hv hnew hnew' hne
  · exact absurd (hold _ hslot) (Nat.not_lt.2 hnew)

end Pushed

end Lift

end ScriptLift
