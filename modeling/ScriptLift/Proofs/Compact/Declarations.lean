import ScriptLift.Proofs.Compact.Termination
import ScriptLift.Proofs.Lift.Declarations
import ScriptLift.Proofs.Lift.Formals

/-! Declarations under compaction.

A step takes statements away, or puts others in their place that declare nothing. Only two declare:
an assignment takes over the declaration of its slot, whose own one goes at once, and a result is
declared that was a formal argument. An argument has no declaration, and leaves the list of its
subroutine when it becomes a result. So no slot is declared twice. -/
namespace ScriptLift

namespace Tree

/-- No slot is listed twice among formal arguments. -/
structure ListsOnce (tree : Tree) : Prop where
  listed : ∀ sub, ((tree.sub sub).formals.map (·.slot)).Nodup
  apart : ∀ sub other, ∀ formal ∈ (tree.sub sub).formals, ∀ formal' ∈ (tree.sub other).formals,
    formal.slot = formal'.slot → sub = other

theorem ListsOnce.of_subroutines_eq {tree new : Tree} (h : tree.ListsOnce)
    (heq : new.subroutines = tree.subroutines) : new.ListsOnce := by
  have hformals : ∀ sub, (new.sub sub).formals = (tree.sub sub).formals :=
    fun _ => formals_of_subroutines_eq heq
  refine ⟨fun sub => ?_, fun sub other formal hformal formal' hformal' => ?_⟩
  · rw [hformals]
    exact h.listed sub
  · rw [hformals] at hformal hformal'
    exact h.apart sub other formal hformal formal' hformal'

/-- No slot is declared twice and formal arguments are not declared. Assignments are to slots, and
none stands in two places. -/
structure DeclaresAtMostOnce (tree : Tree) : Prop where
  target : ∀ s left declares, (tree.node s).assigns? = some (left, declares) → tree.isSlot left
  slot : ∀ id, tree.isSlot id → tree.declarations tree.handles id ≤ 1
  assignment : ∀ s, tree.kind s = .binary .assign → tree.occurrences tree.handles (· = s) ≤ 1
  formal : ∀ sub, ∀ formal ∈ (tree.sub sub).formals,
    tree.isSlot formal.slot ∧ tree.declarations tree.handles formal.slot = 0

variable {tree new : Tree} {p : NodeId → Bool} {id s block : NodeId} {index : Nat} {role : Role}
  {node : Node}

theorem isBlock_of_statement (h : (tree.statements block)[index]? = some s) : tree.IsBlock block := by
  obtain ⟨hnode, hlt⟩ := node_of_statement h
  exact ⟨hlt, by rw [kind, hnode, Node.kind]⟩

theorem occurrences_eraseStatement (h : (tree.statements block)[index]? = some s) :
    (tree.eraseStatement block index).occurrences tree.handles p + (if p s then 1 else 0) =
      tree.occurrences tree.handles p := by
  have herase : (tree.eraseStatement block index).occurrences tree.handles p + _ = _ :=
    occurrences_modifyStatements (isBlock_of_statement h) (·.eraseIdx index)
  obtain ⟨hlt, rfl⟩ := List.getElem?_eq_some_iff.1 h
  have hcount := (List.getElem_cons_eraseIdx_perm hlt).countP_eq p
  rw [List.countP_cons] at hcount
  omega

theorem occurrences_setStatement_le (h : (tree.statements block)[index]? = some s)
    (statement : NodeId) :
    (tree.setStatement block index statement).occurrences tree.handles p ≤
      tree.occurrences tree.handles p + if p statement then 1 else 0 := by
  have hset : (tree.setStatement block index statement).occurrences tree.handles p + _ = _ :=
    occurrences_modifyStatements (isBlock_of_statement h) (·.set index statement)
  obtain ⟨hlt, -⟩ := List.getElem?_eq_some_iff.1 h
  rw [List.countP_set hlt] at hset
  have hless := Nat.sub_le ((tree.statements block).countP p)
    (if p (tree.statements block)[index] then 1 else 0)
  omega

theorem occurrences_cons_le (block s : NodeId) :
    (tree.modifyStatements block (s :: ·)).occurrences
        (tree.modifyStatements block (s :: ·)).handles p ≤
      tree.occurrences tree.handles p + if p s then 1 else 0 := by
  by_cases hblock : tree.IsBlock block
  · have hcons : (tree.modifyStatements block (s :: ·)).occurrences tree.handles p + _ = _ :=
      occurrences_modifyStatements hblock (s :: ·)
    rw [List.countP_cons] at hcons
    rw [handles_of_size_eq (size_modifyStatements _)]
    omega
  · refine (occurrences_le fun other => Nat.le_of_eq ?_).trans (Nat.le_add_right _ _)
    unfold statements modifyStatements
    rcases node_modify_cases tree block other _ with heq | ⟨rfl, hlt, heq⟩
    · rw [heq]
    · rw [heq]
      cases hnode : tree.node other with
      | block statements => exact absurd ⟨hlt, by rw [kind, hnode, Node.kind]⟩ hblock
      | _ => rfl

theorem assigns?_setOperand {value : NodeId}
    (h : tree.kind id = .binary .assign → role ≠ .left) :
    ((tree.setOperand id role value).node s).assigns? = (tree.node s).assigns? := by
  refine assigns?_modify ?_
  cases hset : (tree.node id).setOperand? role value with
  | none => rfl
  | some next =>
    rw [Option.getD_some]
    by_cases hkind : tree.kind id = .binary .assign
    · have hrole := h hkind
      unfold kind at hkind
      unfold Node.setOperand? at hset
      split at hset <;> (try split at hset) <;> cases hset <;>
        simp_all [Node.assigns?, Node.kind]
    · have hnext : next.kind ≠ .binary .assign := by rwa [Node.kind_setOperand? hset]
      rw [Node.assigns?_eq_none hkind, Node.assigns?_eq_none hnext]

theorem assigns?_setDeclares (declares : Bool) :
    ((tree.setDeclares id declares).node s).assigns? =
      if s = id then (tree.node s).assigns?.map fun assigned => (assigned.1, declares)
      else (tree.node s).assigns? := by
  unfold setDeclares
  by_cases heq : s = id
  · subst heq
    rw [if_pos rfl]
    by_cases hlt : s.index < tree.size
    · rw [node_modify_self hlt]
      cases tree.node s with
      | binary op => cases op <;> rfl
      | _ => rfl
    · have hle := Nat.le_of_not_lt hlt
      rw [node_of_size_le hle, node_of_size_le (by rwa [size_modify])]
      rfl
  · rw [if_neg heq, node_modify_of_ne heq]

theorem declares_setDeclares {assign slot : NodeId} {declares : Bool}
    (h : (tree.node assign).assigns? = some (slot, declares)) :
    (tree.setDeclares assign true).declares id s ↔
      tree.declares id s ∨ s = assign ∧ id = slot := by
  rw [declares_iff, declares_iff, assigns?_setDeclares]
  split
  · next heq =>
    rw [heq, h]
    grind
  · next hne => simp [hne]

theorem exists_assigns?_of_left (h : tree.kind s = .binary .assign)
    (hleft : (Role.left, id) ∈ (tree.node s).operands) :
    ∃ declares, (tree.node s).assigns? = some (id, declares) := by
  unfold kind at h
  cases hnode : tree.node s <;> simp_all [Node.kind, Node.operands, Node.assigns?]

theorem kind_of_recomposed? {source : NodeId} (h : tree.recomposed? id = some source) :
    tree.kind id = .vector := by
  unfold recomposed? at h
  split at h
  · next hnode => rw [kind, hnode, Node.kind]
  · cases h

theorem left_of_writes {routines : Routines} {slot left : NodeId} {declares : Bool}
    (h : tree.writes routines s slot) (hassigns : (tree.node s).assigns? = some (left, declares)) :
    left = slot := by
  obtain ⟨right, hnode⟩ := Node.eq_assign_of_assigns? hassigns
  have hleft : tree.isSlot slot ∧ left = slot := by
    simpa [writes, hnode, Node.operands, writesAt] using h
  exact hleft.2

theorem occurrences_pos (hs : s ∈ tree.statements block) (h : p s) :
    0 < tree.occurrences tree.handles p := by
  refine Nat.lt_of_lt_of_le (List.countP_pos_iff.2 ⟨s, hs, h⟩) ?_
  exact Finset.single_le_sum (f := fun block => (tree.statements block).countP p)
    (fun _ _ => Nat.zero_le _) (mem_handles.2 (lt_size_of_statement hs))

theorem Extends.kind_of_size_eq (h : tree.Extends new) (hsize : new.size = tree.size)
    (id : NodeId) : new.kind id = tree.kind id := by
  by_cases hlt : id.index < tree.size
  · exact h.kind id hlt
  · have hle := Nat.le_of_not_lt hlt
    have hle' : new.size ≤ id.index := by rwa [hsize]
    rw [Tree.kind, Tree.kind, node_of_size_le hle, node_of_size_le hle']

theorem statements_eraseStatement_sublist (block : NodeId) (index : Nat) (other : NodeId) :
    ((tree.eraseStatement block index).statements other).Sublist (tree.statements other) := by
  unfold statements eraseStatement modifyStatements
  rcases node_modify_cases tree block other _ with heq | ⟨-, -, heq⟩
  · rw [heq]
  · rw [heq]
    cases tree.node other with
    | block statements => exact List.eraseIdx_sublist _ _
    | _ => exact List.Sublist.refl _

theorem occurrences_eraseStatement_le {blocks : Finset NodeId} :
    (tree.eraseStatement block index).occurrences blocks p ≤ tree.occurrences tree.handles p :=
  occurrences_le fun other => (statements_eraseStatement_sublist block index other).countP_le

theorem occurrences_or_le {blocks : Finset NodeId} (p q : NodeId → Bool) :
    tree.occurrences blocks (fun s => p s || q s) ≤
      tree.occurrences blocks p + tree.occurrences blocks q := by
  rw [occurrences, occurrences, occurrences, ← Finset.sum_add_distrib]
  refine Finset.sum_le_sum fun block _ => ?_
  induction tree.statements block with
  | nil => simp
  | cons s statements ih =>
    simp only [List.countP_cons]
    cases p s <;> cases q s <;> simp <;> omega

namespace DeclaresAtMostOnce

/-- Nodes are edited in place. What is assigned stays, and no declaration comes. -/
theorem edit (h : tree.DeclaresAtMostOnce) (hext : tree.Extends new) (hsize : new.size = tree.size)
    (hsubs : new.subroutines = tree.subroutines)
    (hassigns : ∀ s, (new.node s).assigns? = (tree.node s).assigns?)
    (hdeclared : ∀ id, tree.isSlot id →
      new.occurrences new.handles (tree.declares id) ≤ tree.declarations tree.handles id)
    (hplaced : ∀ s, tree.kind s = .binary .assign → new.occurrences new.handles (· = s) ≤ 1) :
    new.DeclaresAtMostOnce := by
  have hkind := hext.kind_of_size_eq hsize
  have hslot : ∀ id, new.isSlot id ↔ tree.isSlot id := fun id => by
    rw [isSlot_iff_kind, isSlot_iff_kind, hkind]
  have hdeclarations : ∀ id, tree.isSlot id →
      new.declarations new.handles id ≤ tree.declarations tree.handles id := by
    intro id hid
    have hsame : new.declares id = tree.declares id := funext fun s => declares_congr (hassigns s)
    rw [declarations, hsame]
    exact hdeclared id hid
  refine ⟨fun s left declares hs => ?_, fun id hid => ?_, fun s hs => hplaced s (hkind s ▸ hs),
    fun sub formal hformal => ?_⟩
  · rw [hassigns] at hs
    exact (hslot left).2 (h.target s left declares hs)
  · have hold := (hslot id).1 hid
    exact (hdeclarations id hold).trans (h.slot id hold)
  · rw [formals_of_subroutines_eq hsubs] at hformal
    obtain ⟨hold, hnone⟩ := h.formal sub formal hformal
    exact ⟨(hslot _).2 hold, Nat.le_zero.1 ((hdeclarations _ hold).trans hnone.le)⟩

theorem of_statements_eq (h : tree.DeclaresAtMostOnce) (hext : tree.Extends new)
    (hsize : new.size = tree.size) (hsubs : new.subroutines = tree.subroutines)
    (hassigns : ∀ s, (new.node s).assigns? = (tree.node s).assigns?)
    (hstatements : ∀ block, new.statements block = tree.statements block) :
    new.DeclaresAtMostOnce := by
  have hsame : ∀ p, new.occurrences new.handles p ≤ tree.occurrences tree.handles p :=
    fun p => occurrences_le fun _ => by rw [hstatements]
  exact h.edit hext hsize hsubs hassigns (fun _ _ => hsame _)
    fun s hs => (hsame _).trans (h.assignment s hs)

theorem eraseStatement (h : tree.DeclaresAtMostOnce) (block : NodeId) (index : Nat) :
    (tree.eraseStatement block index).DeclaresAtMostOnce :=
  h.edit (extends_modifyStatements _) (size_eraseStatement _) rfl
    (fun _ => assigns?_modifyStatements _) (fun _ _ => occurrences_eraseStatement_le)
    fun s hs => occurrences_eraseStatement_le.trans (h.assignment s hs)

theorem setOperand (h : tree.DeclaresAtMostOnce) {value : NodeId}
    (hrole : tree.kind id = .binary .assign → role ≠ .left) :
    (tree.setOperand id role value).DeclaresAtMostOnce :=
  h.of_statements_eq extends_setOperand size_setOperand rfl (fun _ => assigns?_setOperand hrole)
    fun _ => statements_setOperand

/-- A statement that declares nothing, and stands nowhere yet if it is an assignment, takes the place
of another. -/
theorem setStatement (h : tree.DeclaresAtMostOnce) (hat : (tree.statements block)[index]? = some s)
    {statement : NodeId} (hnone : ∀ id, tree.isSlot id → ¬tree.declares id statement)
    (hnew : tree.kind statement = .binary .assign →
      tree.occurrences tree.handles (· = statement) = 0) :
    (tree.setStatement block index statement).DeclaresAtMostOnce := by
  have hset : ∀ p : NodeId → Bool, (tree.setStatement block index statement).occurrences
      (tree.setStatement block index statement).handles p ≤
        tree.occurrences tree.handles p + if p statement then 1 else 0 := by
    intro p
    rw [handles_of_size_eq (size_setStatement _)]
    exact occurrences_setStatement_le hat statement
  refine h.edit (extends_modifyStatements _) (size_setStatement _) rfl
    (fun _ => assigns?_modifyStatements _) (fun id hid => (hset _).trans ?_)
    fun t ht => (hset _).trans ?_
  · rw [if_neg (hnone id hid), Nat.add_zero]
    exact Nat.le_refl _
  · by_cases heq : statement = t
    · subst heq
      rw [hnew ht]
      simp
    · simpa [heq] using h.assignment t ht

/-- A new node that is no statement yet. -/
theorem alloc (h : tree.DeclaresAtMostOnce) (hwf : tree.WellFormed) (hblock : node.kind ≠ .block)
    (hslot : node.kind ≠ .slot)
    (htarget : ∀ left declares, node.assigns? = some (left, declares) → tree.isSlot left)
    (offset : Nat) : (tree.alloc offset node).DeclaresAtMostOnce := by
  have hempty : ∀ statements, node = .block statements → statements = [] := fun _ =>
    Node.statements_eq_nil hblock
  have hext : tree.Extends (tree.alloc offset node) := .of_grows (.alloc tree offset node)
  have hlt : ∀ {block s}, s ∈ tree.statements block → s.index < tree.size :=
    fun hs => (hwf.statement hs).lt
  have hnew : ∀ {id : NodeId}, ¬id.index < tree.size → (tree.alloc offset node).kind id ≠ .block →
      id = tree.nextId := fun hnot hkind =>
    eq_nextId_of_alloc (Nat.le_of_not_lt hnot) (lt_size_of_kind_ne hkind)
  have hisSlot : ∀ {id}, (tree.alloc offset node).isSlot id → tree.isSlot id := by
    intro id hid
    rw [isSlot_iff_kind] at hid
    by_cases hold : id.index < tree.size
    · rwa [kind, node_alloc_of_lt hold, ← kind, ← isSlot_iff_kind] at hid
    · rw [hnew hold (by simp [hid]), kind, node_alloc_nextId] at hid
      exact absurd hid hslot
  have hdeclarations : ∀ id, (tree.alloc offset node).declarations
      (tree.alloc offset node).handles id = tree.declarations tree.handles id := by
    intro id
    refine (occurrences_alloc offset hempty).trans (occurrences_congr fun _ s hs => ?_)
    exact declares_congr (by rw [node_alloc_of_lt (hlt hs)])
  refine ⟨fun s left declares hs => hext.isSlot ?_, fun id hid => ?_, fun s hs => ?_,
    fun sub formal hformal => ?_⟩
  · by_cases hold : s.index < tree.size
    · rw [node_alloc_of_lt hold] at hs
      exact h.target s left declares hs
    · rw [hnew hold (by simp [kind_of_assigns? hs]), node_alloc_nextId] at hs
      exact htarget left declares hs
  · rw [hdeclarations]
    exact h.slot id (hisSlot hid)
  · rw [occurrences_alloc offset hempty]
    by_cases hold : s.index < tree.size
    · rw [kind, node_alloc_of_lt hold] at hs
      exact h.assignment s hs
    · rw [occurrences_of_size_le (fun _ _ ht => hlt ht) (Nat.le_of_not_lt hold)]
      exact Nat.zero_le _
  · have hsubs : (tree.alloc offset node).subroutines = tree.subroutines := rfl
    rw [formals_of_subroutines_eq hsubs] at hformal
    rw [hdeclarations]
    exact (h.formal sub formal hformal).imp_left hext.isSlot

/-- The assignment declares its slot in place of a statement, which goes. -/
theorem mergeDeclaration (h : tree.DeclaresAtMostOnce) {assign slot : NodeId} {declares : Bool}
    (hat : (tree.statements block)[index]? = some slot)
    (hassign : (tree.node assign).assigns? = some (slot, declares)) :
    ((tree.setDeclares assign true).eraseStatement block index).DeclaresAtMostOnce := by
  let mid := tree.setDeclares assign true
  let next := mid.eraseStatement block index
  have hmid : ∀ {other}, mid.statements other = tree.statements other := statements_setDeclares true
  have hext : tree.Extends next := (extends_setDeclares true).trans (extends_modifyStatements _)
  have hsize : next.size = tree.size := (size_eraseStatement index).trans size_modify
  have hkind := hext.kind_of_size_eq hsize
  have hslot : ∀ id, next.isSlot id ↔ tree.isSlot id := fun id => by
    rw [isSlot_iff_kind, isSlot_iff_kind, hkind]
  have hassigns : ∀ s, (next.node s).assigns? = (mid.node s).assigns? :=
    fun s => assigns?_modifyStatements _
  have hdeclares : ∀ id s, next.declares id s ↔ tree.declares id s ∨ s = assign ∧ id = slot :=
    fun id s => by rw [declares_congr (hassigns s), declares_setDeclares hassign]
  have hother : ∀ id, id ≠ slot →
      next.declarations next.handles id ≤ tree.declarations tree.handles id := by
    intro id hid
    have hsame : next.declares id = tree.declares id := by
      funext s
      rw [Bool.eq_iff_iff, hdeclares]
      simp [hid]
    rw [declarations, hsame]
    exact occurrences_eraseStatement_le.trans (occurrences_le fun other => by rw [hmid])
  -- The slot gets a declaration where the assignment stands, and loses its own.
  have hself : next.declarations next.handles slot ≤ 1 := by
    have herase : next.occurrences mid.handles (next.declares slot) + _ = _ :=
      occurrences_eraseStatement (by rwa [hmid])
    rw [if_pos ((hdeclares slot slot).2 (.inl (declares_iff.2 (.inl rfl))))] at herase
    have hmore : mid.occurrences mid.handles (next.declares slot) ≤
        tree.occurrences tree.handles (tree.declares slot) +
          tree.occurrences tree.handles (· = assign) := by
      refine Nat.le_trans (occurrences_le fun other => ?_) (occurrences_or_le _ _)
      rw [hmid]
      refine List.countP_mono_left fun s _ hs => ?_
      rw [Bool.or_eq_true, decide_eq_true_eq]
      exact ((hdeclares slot s).1 hs).imp_right And.left
    have hdeclared := h.slot slot (h.target assign slot _ hassign)
    have hplaced := h.assignment assign (kind_of_assigns? hassign)
    rw [handles_of_size_eq (size_eraseStatement index)]
    unfold declarations at hdeclared ⊢
    omega
  refine ⟨fun s left declares hs => ?_, fun id hid => ?_, fun s hs => ?_,
    fun sub formal hformal => ?_⟩
  · rw [hassigns, assigns?_setDeclares] at hs
    refine (hslot left).2 ?_
    split at hs
    · obtain ⟨assigned, hassigned, hleft⟩ := Option.map_eq_some_iff.1 hs
      cases hleft
      exact h.target s _ _ hassigned
    · exact h.target s left declares hs
  · by_cases heq : id = slot
    · exact heq ▸ hself
    · exact (hother id heq).trans (h.slot id ((hslot id).1 hid))
  · rw [hkind] at hs
    refine occurrences_eraseStatement_le.trans (Nat.le_trans ?_ (h.assignment s hs))
    exact occurrences_le fun other => by rw [hmid]
  · have hsubs : next.subroutines = tree.subroutines := rfl
    have hold : formal ∈ (tree.sub sub).formals := formals_of_subroutines_eq hsubs ▸ hformal
    obtain ⟨hformalSlot, hnone⟩ := h.formal sub formal hold
    refine ⟨(hslot _).2 hformalSlot, Nat.le_zero.1 ((hother _ ?_).trans hnone.le)⟩
    -- The argument has no declaration, and the slot has one.
    intro heq
    have hpos : 0 < tree.declarations tree.handles slot :=
      occurrences_pos (List.mem_of_getElem? hat) (declares_iff.2 (.inl rfl))
    rw [← heq, hnone] at hpos
    cases hpos

end DeclaresAtMostOnce

end Tree

namespace Draft

variable {settings : CompactSettings} {routines : Routines} {draft next : Draft} {block : NodeId}
  {rewrite : Rewrite}

theorem Moves.role_ne_left {statement : NodeId} {move : Inlining}
    (h : draft.Moves block statement move)
    (hkind : draft.tree.kind move.read.node = .binary .assign) : move.read.role ≠ .left := by
  intro hrole
  have hadmits := h.admits
  simp [Read.admitsValue, hrole, hkind] at hadmits

/-- A rewrite makes no second declaration. -/
theorem declaresAtMostOnce_apply (h : draft.tree.DeclaresAtMostOnce) (hproper : draft.Proper)
    (hcurrent : draft.Current routines) (hadmits : draft.Admits block rewrite) :
    (rewrite.apply block draft).tree.DeclaresAtMostOnce := by
  cases hadmits with
  | dropDeclaration | dropAssignment | dropLabel => exact h.eraseStatement _ _
  | @mergeDeclaration index slot assign hat hinit =>
    obtain ⟨value, -, hwrites, -⟩ := initializer?_eq_some hinit
    have hmem : ⟨assign, some value⟩ ∈ draft.facts.writesOf slot := by simp [hwrites]
    rw [hcurrent] at hmem
    cases hassigned : (draft.tree.node assign).assigns? with
    | none =>
      have hsame : ∀ s, ((draft.tree.setDeclares assign true).node s).assigns? =
          (draft.tree.node s).assigns? := by
        intro s
        rw [Tree.assigns?_setDeclares]
        split
        · next heq => rw [heq, hassigned, Option.map_none]
        · rfl
      exact (h.of_statements_eq (Tree.extends_setDeclares true) Tree.size_modify rfl hsame
        fun _ => Tree.statements_setDeclares true).eraseStatement _ _
    | some assigned =>
      obtain rfl := Tree.left_of_writes (Facts.writes_of_mem_writesOf_analyze hmem) hassigned
      exact h.mergeDeclaration hat hassigned
  | collapseAction hnode =>
    refine h.setOperand fun hkind => ?_
    rw [Tree.kind, hnode] at hkind
    cases hkind
  | @assignCall index call slot hat hkind hslot =>
    have hdestination := hproper.destined.destination hslot
    have hempty : ∀ statements, Node.binary .assign slot call false = .block statements →
        statements = [] := by simp
    have hassign : (draft.tree.alloc (draft.tree.offset call)
        (.binary .assign slot call false)).kind draft.tree.nextId = .binary .assign := by
      rw [Tree.kind, Tree.node_alloc_nextId, Node.kind]
    have hmade : (draft.tree.alloc (draft.tree.offset call)
        (.binary .assign slot call false)).DeclaresAtMostOnce := by
      refine h.alloc hproper.tree (by simp [Node.kind]) (by simp [Node.kind]) ?_ _
      rintro left declares ⟨⟩
      exact hdestination
    refine hmade.setStatement (by rwa [Tree.statements_alloc hempty]) (fun id hid => ?_) fun _ => ?_
    · rw [Tree.declares_iff, Tree.node_alloc_nextId]
      rintro (rfl | hdeclares)
      · rw [Tree.isSlot_iff_kind, hassign] at hid
        cases hid
      · simp [Node.assigns?] at hdeclares
    · rw [Tree.occurrences_alloc _ hempty]
      exact Tree.occurrences_of_size_le (fun _ _ hs => (hproper.tree.statement hs).lt)
        (Nat.le_refl _)
  | inlineValue hat hmoves => exact (h.setOperand hmoves.role_ne_left).eraseStatement _ _
  | @collapseVector node operand source role hoperand hsource =>
    refine h.setOperand fun hkind hrole => ?_
    obtain ⟨declares, hassigned⟩ := Tree.exists_assigns?_of_left hkind (hrole ▸ hoperand)
    have hslot := h.target node operand declares hassigned
    rw [Tree.isSlot_iff_kind, Tree.kind_of_recomposed? hsource] at hslot
    cases hslot
  | @keepValue index statement slot value declares hat hnode hkept =>
    have hoperand : (Role.right, value) ∈ (draft.tree.node statement).operands := by
      simp [hnode, Node.operands]
    have hvalue : draft.tree.IsValue value := hproper.tree.operand hoperand
    have hslot : draft.tree.kind value ≠ .slot := by
      intro hslot
      simp [Tree.isKept, hslot, Kind.isCall, Kind.isUnary, Kind.isBinary] at hkept
    refine h.setStatement hat (fun id hid hdeclares => ?_) fun hassign => absurd hassign hvalue.kind
    rcases Tree.declares_iff.1 hdeclares with rfl | hassigned
    · exact hslot (Tree.isSlot_iff_kind.1 hid)
    · exact hvalue.kind (Tree.kind_of_assigns? hassigned)

variable {sub : SubId} {index count : Nat} {formal : Formal}

theorem statements_answer (slot : NodeId) (tree : Tree) (ret block : NodeId) :
    (answer slot tree ret).statements block = tree.statements block :=
  Tree.statements_modify (fun _ => rfl) (by unfold Tree.kind; cases tree.node ret <;> rfl)

theorem statements_takeArgument (index : Nat) (draft : Draft) (call block : NodeId) :
    (takeArgument index draft call).tree.statements block = draft.tree.statements block := by
  unfold takeArgument
  split
  case h_2 => rfl
  case h_1 callee arguments hnode =>
  split
  case h_2 => rfl
  case h_1 removed hremoved =>
  unfold Tree.statements
  rcases Tree.node_modify_cases draft.tree call block fun _ =>
    .call callee (arguments.eraseIdx index) with heq | ⟨rfl, -, heq⟩
  · rw [heq]
  · rw [heq, hnode]

theorem Recovery.assigns? (h : Recovery sub index formal count draft next) (s : NodeId) :
    (next.tree.node s).assigns? = (draft.tree.node s).assigns? := by
  induction h with
  | refl => rfl
  | trans _ _ ihh ihg => exact ihg.trans ihh
  | subroutine => rfl
  | slot => exact Tree.assigns?_modifySlot _ _
  | declare => exact Tree.assigns?_modifyStatements _
  | answer draft ret => exact Tree.assigns?_modify (by cases draft.tree.node ret <;> rfl)
  | take draft call =>
    unfold takeArgument
    split
    case h_2 => rfl
    case h_1 callee arguments hnode =>
    split
    case h_2 => rfl
    case h_1 removed hremoved =>
    exact Tree.assigns?_modify (f := fun _ => .call callee (arguments.eraseIdx index))
      (by rw [hnode]; rfl)

theorem Recovery.occurrences_le (h : Recovery sub index formal count draft next)
    (p : NodeId → Bool) : next.tree.occurrences next.tree.handles p ≤
      draft.tree.occurrences draft.tree.handles p + if p formal.slot then count else 0 := by
  have hsame : ∀ {old new : Tree}, (∀ block, new.statements block = old.statements block) →
      new.occurrences new.handles p ≤
        old.occurrences old.handles p + if p formal.slot then 0 else 0 := fun hstatements =>
    (Tree.occurrences_le fun block => by rw [hstatements]).trans (Nat.le_add_right _ _)
  induction h with
  | refl => exact Nat.le_add_right _ _
  | trans _ _ ihh ihg =>
    by_cases hslot : p formal.slot <;> simp only [hslot] at ihh ihg ⊢ <;> grind
  | subroutine => exact hsame fun _ => rfl
  | slot => exact hsame fun _ => Tree.statements_modifySlot _
  | declare draft block => exact Tree.occurrences_cons_le _ _
  | answer => exact hsame (statements_answer _ _ _)
  | take => exact hsame (statements_takeArgument _ _ _)

theorem formals_makeResult (draft : Draft) (sub : SubId) (index : Nat) (formal : Formal)
    (other : SubId) : ((draft.makeResult sub index formal).tree.sub other).formals =
      if other = sub then ((draft.tree.sub other).formals.eraseIdx index)
      else (draft.tree.sub other).formals := by
  have hedits := edits_makeResult draft sub index formal
  rw [Tree.formals_of_subroutines_eq hedits.subroutines]
  split
  · next heq =>
    subst heq
    by_cases hsub : draft.tree.HasSub other
    · rw [Tree.sub_modifySub_self hsub, answering]
    · rw [Tree.formals_of_not_hasSub hsub,
        Tree.formals_of_not_hasSub (by rwa [Tree.hasSub_modifySub]), List.eraseIdx_nil]
  · next hne => rw [Tree.sub_modifySub_of_ne hne]

theorem mem_formals_makeResult (h : draft.tree.ListsOnce)
    (hformal : (draft.tree.sub sub).formals[index]? = some formal) {other : SubId} {rest : Formal}
    (hrest : rest ∈ ((draft.makeResult sub index formal).tree.sub other).formals) :
    rest ∈ (draft.tree.sub other).formals ∧ rest.slot ≠ formal.slot := by
  rw [formals_makeResult] at hrest
  split at hrest
  · next heq =>
    subst heq
    refine ⟨(List.eraseIdx_sublist _ _).subset hrest, fun hsame => ?_⟩
    obtain ⟨hlt, rfl⟩ := List.getElem?_eq_some_iff.1 hformal
    have hnodup := h.listed other
    rw [← ((List.getElem_cons_eraseIdx_perm hlt).map (·.slot)).nodup_iff, List.map_cons,
      List.nodup_cons] at hnodup
    exact hnodup.1 (List.mem_map.2 ⟨rest, hrest, hsame⟩)
  · next hne =>
    refine ⟨hrest, fun hsame => hne ?_⟩
    exact h.apart other sub rest hrest formal (List.mem_of_getElem? hformal) hsame

theorem listsOnce_makeResult (h : draft.tree.ListsOnce)
    (hformal : (draft.tree.sub sub).formals[index]? = some formal) :
    (draft.makeResult sub index formal).tree.ListsOnce := by
  refine ⟨fun other => ?_, fun one other rest hrest rest' hrest' hsame => ?_⟩
  · rw [formals_makeResult]
    split
    · exact (h.listed other).sublist ((List.eraseIdx_sublist _ _).map _)
    · exact h.listed other
  · exact h.apart one other rest (mem_formals_makeResult h hformal hrest).1 rest'
      (mem_formals_makeResult h hformal hrest').1 hsame

/-- The result had no declaration as long as it was an argument. -/
theorem declaresAtMostOnce_makeResult (h : draft.tree.DeclaresAtMostOnce)
    (hlists : draft.tree.ListsOnce)
    (hformal : (draft.tree.sub sub).formals[index]? = some formal) :
    (draft.makeResult sub index formal).tree.DeclaresAtMostOnce := by
  let next := draft.makeResult sub index formal
  have hrecovery : Recovery sub index formal 1 draft next := recovery_makeResult _ _ _ _
  have hext : draft.tree.Extends next.tree := hrecovery.extends
  have hkind := hext.kind_of_size_eq (edits_makeResult draft sub index formal).size
  have hslot : ∀ id, next.tree.isSlot id ↔ draft.tree.isSlot id := fun id => by
    rw [Tree.isSlot_iff_kind, Tree.isSlot_iff_kind, hkind]
  obtain ⟨hresult, hnone⟩ := h.formal sub formal (List.mem_of_getElem? hformal)
  have hresultKind := Tree.isSlot_iff_kind.1 hresult
  have hdeclarations : ∀ id, next.tree.declarations next.tree.handles id ≤
      draft.tree.declarations draft.tree.handles id + if id = formal.slot then 1 else 0 := by
    intro id
    have hsame : next.tree.declares id = draft.tree.declares id :=
      funext fun s => Tree.declares_congr (hrecovery.assigns? s)
    have hdeclares : draft.tree.declares id formal.slot ↔ id = formal.slot := by
      rw [Tree.declares_iff, or_iff_left fun hassigned => ?_, eq_comm]
      cases hresultKind.symm.trans (Tree.kind_of_assigns? hassigned)
    rw [Tree.declarations, hsame]
    refine (hrecovery.occurrences_le _).trans (Nat.le_of_eq ?_)
    simp only [hdeclares]
    rfl
  have hother : ∀ id, id ≠ formal.slot → next.tree.declarations next.tree.handles id ≤
      draft.tree.declarations draft.tree.handles id := by
    intro id hne
    have hle := hdeclarations id
    rwa [if_neg hne, Nat.add_zero] at hle
  refine ⟨fun s left declares hs => ?_, fun id hid => ?_, fun s hs => ?_,
    fun other rest hrest => ?_⟩
  · rw [hrecovery.assigns?] at hs
    exact hext.isSlot (h.target s left declares hs)
  · by_cases heq : id = formal.slot
    · have hle := hdeclarations id
      rwa [if_pos heq, heq, hnone, Nat.zero_add, ← heq] at hle
    · exact (hother id heq).trans (h.slot id ((hslot id).1 hid))
  · rw [hkind] at hs
    refine (hrecovery.occurrences_le _).trans ?_
    rw [if_neg, Nat.add_zero]
    · exact h.assignment s hs
    · intro heq
      rw [← of_decide_eq_true heq, hresultKind] at hs
      cases hs
  · obtain ⟨hbefore, hne⟩ := mem_formals_makeResult hlists hformal hrest
    obtain ⟨hrestSlot, hrestNone⟩ := h.formal other rest hbefore
    exact ⟨hext.isSlot hrestSlot, Nat.le_zero.1 ((hother _ hne).trans hrestNone.le)⟩

/-- What holds of a draft on the way: no slot is declared twice. -/
structure Declares (draft : Draft) : Prop where
  proper : draft.Proper
  once : draft.tree.DeclaresAtMostOnce
  lists : draft.tree.ListsOnce

theorem Change.declares (h : Change settings routines draft next)
    (hcurrent : draft.Current routines) (hdraft : draft.Declares) : next.Declares := by
  refine ⟨h.proper hcurrent hdraft.proper, ?_, ?_⟩
  · cases h with
    | queue => exact hdraft.once
    | step h =>
      cases h with
      | recover _ hformal => exact declaresAtMostOnce_makeResult hdraft.once hdraft.lists hformal
      | rewrite _ hrewrite =>
        exact declaresAtMostOnce_apply hdraft.once hdraft.proper hcurrent
          (admits_of_rewrite? hrewrite)
  · cases h with
    | queue => exact hdraft.lists
    | step h =>
      cases h with
      | recover _ hformal => exact listsOnce_makeResult hdraft.lists hformal
      | rewrite => exact hdraft.lists.of_subroutines_eq (subroutines_apply _)

theorem Changes.declares (h : Changes settings routines draft next)
    (hcurrent : draft.Current routines) (hdraft : draft.Declares) : next.Declares :=
  (h.invariant Declares hcurrent hdraft fun _ _ ha hmid hchange => hchange.declares ha hmid).2

end Draft

namespace Tree

variable {tree new : Tree}

theorem DeclaresAtMostOnce.trims (h : tree.DeclaresAtMostOnce) (htrims : tree.Trims new) :
    new.DeclaresAtMostOnce := by
  have hfewer : ∀ p, new.occurrences new.handles p ≤ tree.occurrences tree.handles p :=
    fun p => occurrences_le fun block => (htrims.initial block).sublist.countP_le
  refine h.edit ⟨htrims.size.ge, fun id _ => htrims.kind_eq id⟩ htrims.size htrims.subroutines
    (fun s => ?_) (fun _ _ => hfewer _) fun s hs => (hfewer _).trans (h.assignment s hs)
  rcases htrims.node s with heq | ⟨statements, ret, hold, -, hnew⟩
  · rw [heq]
  · rw [hold, hnew]
    rfl

theorem DeclaresAtMostOnce.compact (h : tree.DeclaresAtMostOnce) (hlists : tree.ListsOnce)
    (hwf : tree.WellFormed) (routines : Routines) (settings : CompactSettings) :
    ((Optimizer.dataFlow routines settings).run tree).1.DeclaresAtMostOnce := by
  by_cases henabled : settings.enabled
  · have hrun : ((Optimizer.dataFlow routines settings).run tree).1 =
        (Draft.settled settings routines tree).tree.stripReturns.1 := by
      simp only [Optimizer.dataFlow, henabled, if_true]
      exact Draft.compact_tree tree
    obtain ⟨hcurrent, hproper⟩ := Draft.prepare_proper settings routines hwf
    obtain ⟨hexprs, hsubs, -⟩ := Draft.prepare_tree settings routines tree
    have hprepared : (Draft.prepare settings routines tree).Declares :=
      ⟨hproper, h.of_statements_eq (.of_exprs_eq hexprs) (by rw [size, hexprs, ← size]) hsubs
        (fun _ => by rw [node_of_exprs_eq hexprs]) (fun _ => statements_of_exprs_eq hexprs),
        hlists.of_subroutines_eq hsubs⟩
    have hsettled := (Draft.changes_settled settings routines tree).declares hcurrent hprepared
    rw [hrun]
    exact hsettled.once.trims (stripReturns_spec hsettled.proper.tree).1
  · simpa [Optimizer.dataFlow, henabled] using h

end Tree

namespace Lift

variable {program : Program} {routines : Routines} {settings : LiftSettings} {count : Nat}
  {m : Machine}

theorem complete_listsOnce (h : stage program routines settings count = some m) :
    (complete m.tree).ListsOnce := by
  have hfiled := stage_filed h
  have hformals : ∀ sub, ((complete m.tree).sub sub).formals = (m.tree.sub sub).formals :=
    field_complete (·.formals) (fun _ _ => rfl) m.tree
  refine ⟨fun sub => ?_, fun sub other formal hformal formal' hformal' hslot => ?_⟩
  · rw [hformals]
    exact (hfiled.formals sub).slots_nodup
  · rw [hformals] at hformal hformal'
    exact hfiled.unique (.inr ⟨formal, hformal, rfl⟩) (.inr ⟨formal', hformal', hslot.symm⟩)

/-- Formal arguments are arguments, so they are not declared. -/
theorem complete_declaresAtMostOnce (h : stage program routines settings count = some m) :
    (complete m.tree).DeclaresAtMostOnce := by
  have honce := (stage_declaresOnce h).complete
  have hformals : ∀ sub, ((complete m.tree).sub sub).formals = (m.tree.sub sub).formals :=
    field_complete (·.formals) (fun _ _ => rfl) m.tree
  refine ⟨fun s left declares hs => ?_, honce.slot, honce.assignment, fun sub formal hformal => ?_⟩
  · obtain ⟨right, hnode⟩ := Node.eq_assign_of_assigns? hs
    exact (apt_complete (stage_apt h) s).target left right declares hnode
  · rw [hformals] at hformal
    have hstorage : (complete m.tree).storage? formal.slot = some .argument := by
      rw [Tree.storage?, slot?_complete, ← Tree.storage?]
      exact (((stage_filed h).formals sub).slot formal hformal).isArgument.storage?
    exact ⟨Tree.isSlot_iff_kind.2 (Tree.kind_of_storage? hstorage), honce.argument _ hstorage⟩

end Lift

/-- Every slot of a subroutine's own is declared once in a lifted tree, by itself as a statement or
by an assignment, and arguments are not declared. However the tree is compacted, no slot is declared
twice in any set of blocks, such as the blocks of the output. -/
theorem slots_declared_once {program : Program} {routines : Routines} {lifting : LiftSettings}
    {tree : Tree} (hlift : lift program routines lifting = some (.ok tree)) :
    (∀ id, tree.storage? id = some .own → tree.declarations tree.handles id = 1) ∧
    (∀ id, tree.storage? id = some .argument → tree.declarations tree.handles id = 0) ∧
    ∀ (routines' : Routines) (settings : CompactSettings),
      let compacted := ((Optimizer.dataFlow routines' settings).run tree).1
      ∀ (id : NodeId) (blocks : Finset NodeId), compacted.isSlot id →
        compacted.declarations blocks id ≤ 1 := by
  obtain ⟨honce, hraw, hlists⟩ :
      tree.DeclaresOnce none ∧ tree.DeclaresAtMostOnce ∧ tree.ListsOnce := by
    obtain ⟨lifted, hrun, rfl⟩ := lift_eq_ok hlift
    obtain ⟨count, last, hlast, -, rfl⟩ := Lift.exists_stage hrun
    exact ⟨(Lift.stage_declaresOnce hlast).complete, Lift.complete_declaresAtMostOnce hlast,
      Lift.complete_listsOnce hlast⟩
  refine ⟨fun id hid => (honce.own id hid).trans (if_neg (by simp)), honce.argument, ?_⟩
  intro routines' settings compacted id blocks hid
  have hcompacted : compacted.DeclaresAtMostOnce :=
    hraw.compact hlists (lift_wellFormed hlift) routines' settings
  exact (Tree.occurrences_le_handles _).trans (hcompacted.slot id hid)

/-- A subroutine that answers 7 through a word of its caller. -/
def answeringScript : Program := .ofList "" [
  { opcode := .jsr, jump := 8 },
  { opcode := .retn },
  { opcode := .rsaddi },
  { opcode := .jsr, jump := 14 },
  { opcode := .movsp, stack := -4 },
  { opcode := .retn },
  { opcode := .consti, value := some (.int 7) },
  { opcode := .cpdownsp, stack := -8, size := 4 },
  { opcode := .movsp, stack := -4 },
  { opcode := .retn }
]

/-- The caller declares the word. Behind compaction the subroutine declares its result, which was an
argument before. -/
theorem answeringScript_declarations : ∃ tree,
    lift answeringScript {} .strictly = some (.ok tree) ∧
    (tree.storage? ⟨5⟩ = some .own ∧ tree.declarations tree.handles ⟨5⟩ = 1) ∧
    (tree.storage? ⟨7⟩ = some .argument ∧ tree.declarations tree.handles ⟨7⟩ = 0) ∧
    let compacted := ((Optimizer.dataFlow {} {}).run tree).1
    compacted.storage? ⟨7⟩ = some .result ∧
      compacted.declarations compacted.handles ⟨7⟩ = 1 := by
  obtain ⟨tree, hlift, hcond⟩ := exists_of_lift answeringScript {} .strictly
    (fun tree => decide (tree.storage? ⟨5⟩ = some .own ∧ tree.storage? ⟨7⟩ = some .argument ∧
      ((Optimizer.dataFlow {} {}).run tree).1.storage? ⟨7⟩ = some .result ∧
      ∃ s ∈ ((Optimizer.dataFlow {} {}).run tree).1.statements ⟨3⟩,
        ((Optimizer.dataFlow {} {}).run tree).1.declares ⟨7⟩ s))
    (by decide +kernel)
  obtain ⟨hown, hargument, hresult, s, hs, hdeclares⟩ := of_decide_eq_true hcond
  obtain ⟨howns, harguments, hcompacted⟩ := slots_declared_once hlift
  refine ⟨tree, hlift, ⟨hown, howns _ hown⟩, ⟨hargument, harguments _ hargument⟩, hresult, ?_⟩
  refine Nat.le_antisymm (hcompacted {} {} _ _ ?_) ?_
  · exact Tree.isSlot_iff_kind.2 (Tree.kind_of_storage? hresult)
  · exact Tree.occurrences_pos hs hdeclares

end ScriptLift
