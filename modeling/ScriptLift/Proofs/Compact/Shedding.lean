import ScriptLift.Proofs.Compact.Counts

namespace ScriptLift

/-- Calls, steps, jumps and branches do something; all else only says where and with what. -/
def Kind.isEffect : Kind → Bool
  | .action | .call | .goto | .conditional => true
  | .unary op => op.isStep
  | _ => false

def Kind.isPlain : Kind → Bool
  | .literal | .slot | .component => true
  | _ => false

/-- Vectors, operations and plain values: no effect, no label and no block. -/
def Kind.isIdle : Kind → Bool
  | .vector | .binary _ => true
  | kind => kind.isPlain

namespace Tree

/-- A node of the output that does something. -/
def Performs (tree : Tree) (id : NodeId) : Prop := tree.InOutput id ∧ (tree.kind id).isEffect

def isAssignable (tree : Tree) (value : NodeId) : Bool :=
  tree.isKept value || (tree.kind value).isPlain

/-- An assignment takes such a value, and a component is one of a slot. -/
def fitsShape (tree : Tree) : Node → Bool
  | .binary .assign _ right _ => tree.isAssignable right
  | .component whole _ => tree.isSlot whole
  | _ => true

def Shaped (tree : Tree) : Prop := ∀ id, tree.fitsShape (tree.node id)

/-- The label stands in a block of the output. -/
def Places (tree : Tree) (label : NodeId) : Prop :=
  ∃ block, tree.InOutput block ∧ label ∈ tree.statements block

/-- A jump of the output leads to the label. -/
def Targets (tree : Tree) (label : NodeId) : Prop :=
  ∃ n, tree.InOutput n ∧ tree.node n = .goto label

/-- Labels that jumps of the output lead to still have a place. -/
def KeepsLabels (old new : Tree) : Prop :=
  ∀ label, old.kind label = .label → old.Targets label → old.Places label → new.Places label

variable {tree old mid new : Tree} {gone gone' : NodeId → NodeId → Prop}
  {lost dropped : NodeId → Prop} {id a b n s block value : NodeId} {role : Role}

instance (tree : Tree) : Decidable tree.Shaped :=
  decidable_of_iff (∀ i < tree.size, tree.fitsShape (tree.node ⟨i⟩)) <| by
    refine ⟨fun h id => ?_, fun h i _ => h ⟨i⟩⟩
    by_cases hid : id.index < tree.size
    · exact h id.index hid
    · rw [node_of_size_le (Nat.le_of_not_lt hid)]
      rfl

def Cuts (old new : Tree) (gone : NodeId → NodeId → Prop) : Prop :=
  ∀ a b, old.Holds a b → new.Holds a b ∨ gone a b

namespace Cuts

theorem trans (h : old.Cuts mid gone) (g : mid.Cuts new gone') :
    old.Cuts new fun a b => gone a b ∨ gone' a b := by
  intro a b hab
  rcases h a b hab with hab | hab
  · exact (g a b hab).imp_right .inr
  · exact .inr (.inl hab)

theorem modify {f : Node → Node}
    (h : ∀ n ∈ (tree.node id).parts, n ∈ (f (tree.node id)).parts ∨ gone id n) :
    tree.Cuts (tree.modify id f) gone := by
  intro a b hab
  rw [Holds, below_eq_parts] at hab ⊢
  rcases node_modify_cases tree id a f with heq | ⟨rfl, -, heq⟩
  · exact .inl (heq ▸ hab)
  · exact (h b hab).imp_left fun hb => heq ▸ hb

theorem modifyStatements {index : Nat} {g : List NodeId → List NodeId}
    (hat : (tree.statements block)[index]? = some s)
    (h : ∀ i n, i ≠ index → (tree.statements block)[i]? = some n → n ∈ g (tree.statements block)) :
    tree.Cuts (tree.modifyStatements block g) fun a b => a = block ∧ b = s := by
  refine .modify fun n hn => ?_
  obtain ⟨hnode, -⟩ := node_of_statement hat
  rw [hnode] at hn ⊢
  by_cases heq : n = s
  · exact .inr ⟨rfl, heq⟩
  · obtain ⟨i, hi⟩ := List.mem_iff_getElem?.1 hn
    refine .inl (h i n ?_ hi)
    rintro rfl
    exact heq (Option.some.inj (hi.symm.trans hat))

theorem eraseStatement {index : Nat} (hat : (tree.statements block)[index]? = some s) :
    tree.Cuts (tree.eraseStatement block index) fun a b => a = block ∧ b = s :=
  .modifyStatements hat fun i _ hne hi => List.mem_eraseIdx_iff_getElem?.2 ⟨i, hne, hi⟩

theorem setStatement {index : Nat} (hat : (tree.statements block)[index]? = some s) :
    tree.Cuts (tree.setStatement block index value) fun a b => a = block ∧ b = s :=
  .modifyStatements hat fun i _ hne hi =>
    List.mem_iff_getElem?.2 ⟨i, (List.getElem?_set_ne hne.symm).trans hi⟩

theorem setOperand (h : (role, s) ∈ (tree.node id).operands) :
    tree.Cuts (tree.setOperand id role value) fun a b => a = id ∧ b = s := by
  refine .modify fun n hn => ?_
  obtain ⟨next, position, hset, hat, hoperands⟩ := Node.setOperand?_eq_set h value
  have hkind := Node.kind_ne_block_of_operand h
  have hnext : next.kind ≠ .block := by rwa [Node.kind_setOperand? hset]
  rw [Node.parts_of_kind_ne hkind] at hn
  rw [hset, Option.getD_some, Node.parts_of_kind_ne hnext, hoperands]
  obtain ⟨o, ho, rfl⟩ := List.mem_map.1 hn
  by_cases heq : o.2 = s
  · exact .inr ⟨rfl, heq⟩
  · obtain ⟨i, hi⟩ := List.mem_iff_getElem?.1 ho
    refine .inl (List.mem_map.2 ⟨o, List.mem_iff_getElem?.2 ⟨i, ?_⟩, rfl⟩)
    rw [List.getElem?_set_ne, hi]
    rintro rfl
    exact heq (congrArg Prod.snd (Option.some.inj (hi.symm.trans hat)))

theorem setDeclares (declares : Bool) :
    tree.Cuts (tree.setDeclares id declares) fun _ _ => False := by
  refine .modify fun n hn => .inl ?_
  cases hnode : tree.node id <;> simp_all [Node.parts, Node.operands]

theorem alloc (offset : Nat) (node : Node) :
    tree.Cuts (tree.alloc offset node) fun _ _ => False := by
  intro a b hab
  have hlt := lt_size_of_below hab
  rw [Holds, below_eq_parts] at hab ⊢
  exact .inl (by rwa [node_alloc_of_lt hlt])

end Cuts

theorem holds_setStatement {index : Nat} (hat : (tree.statements block)[index]? = some s) :
    (tree.setStatement block index value).Holds block value := by
  obtain ⟨hnode, hlt⟩ := node_of_statement hat
  have hnode' : (tree.setStatement block index value).node block = _ := node_modify_self hlt
  rw [Holds, below_eq_parts, hnode', hnode]
  exact List.mem_set (List.getElem?_eq_some_iff.1 hat).1 value

theorem holds_setOperand (h : (role, s) ∈ (tree.node id).operands) :
    (tree.setOperand id role value).Holds id value := by
  obtain ⟨next, position, hset, hat, hoperands⟩ := Node.setOperand?_eq_set h value
  have hkind := Node.kind_ne_block_of_operand h
  have hlt : id.index < tree.size := lt_size_of_kind_ne hkind
  have hnode : (tree.setOperand id role value).node id = _ := node_modify_self hlt
  have hnext : next.kind ≠ .block := by rwa [Node.kind_setOperand? hset]
  rw [Holds, below_eq_parts, hnode, hset, Option.getD_some, Node.parts_of_kind_ne hnext, hoperands]
  exact List.mem_map.2 ⟨_, List.mem_set (List.getElem?_eq_some_iff.1 hat).1 _, rfl⟩

theorem InOutput.survives {extra : NodeId → NodeId → Prop} (h : old.InOutput id)
    (hrewires : old.Rewires new extra) (hcuts : old.Cuts new gone)
    (hgone : ∀ a b, gone a b → ¬Relation.ReflTransGen old.Holds b id) : new.InOutput id := by
  have hway : ∀ {x}, Relation.ReflTransGen old.Holds x id → new.InOutput x → new.InOutput id := by
    intro x hx
    induction hx using Relation.ReflTransGen.head_induction_on with
    | refl => exact fun hin => hin
    | head hstep hrest ih =>
      intro hin
      rcases hcuts _ _ hstep with hkept | hcut
      · exact ih (hin.step hkept)
      · exact absurd hrest (hgone _ _ hcut)
  obtain ⟨sub, hsub, hreach⟩ := h
  exact hway hreach ⟨sub, hrewires.order ▸ hsub, hrewires.root sub hsub ▸ .refl⟩

/-- What is lost when a tree becomes another one: nodes that do nothing, and no labels but those that
are `dropped`. A call that loses a link is linked again. -/
structure Sheds (old new : Tree) (lost dropped : NodeId → Prop) : Prop where
  links : ∀ a b, old.Holds a b → new.Holds a b ∨ lost b ∨ (new.InOutput b ∧ old.kind b = .call)
  below : ∀ a b, lost a → old.Holds a b → lost b ∨ new.InOutput b
  idle : ∀ n, lost n → (old.kind n).isEffect = false
  label : ∀ n, lost n → old.kind n = .label → dropped n
  statement : ∀ n, lost n → ∀ s ∈ old.statements n, old.kind s ≠ .label

namespace Sheds

theorem of_idle (h : old.Cuts new gone) (hgone : ∀ a b, gone a b → lost b)
    (hbelow : ∀ a b, lost a → old.Holds a b → lost b ∨ new.InOutput b)
    (hidle : ∀ n, lost n → (old.kind n).isIdle) : old.Sheds new lost dropped where
  links a b hab := (h a b hab).imp_right fun hcut => .inl (hgone a b hcut)
  below := hbelow
  idle n hn := by
    have hkind := hidle n hn
    cases heq : old.kind n <;> rw [heq] at hkind <;> first | rfl | cases hkind
  label n hn hlabel := by
    have hkind := hidle n hn
    rw [hlabel] at hkind
    cases hkind
  statement n hn label hmem := by
    have hkind := hidle n hn
    rw [kind_of_statement hmem] at hkind
    cases hkind

variable {extra : NodeId → NodeId → Prop} (h : old.Sheds new lost dropped)
  (hrewires : old.Rewires new extra)
include h hrewires

theorem inOutput (hn : old.InOutput n) : new.InOutput n ∨ lost n := by
  obtain ⟨sub, hsub, hreach⟩ := hn
  induction hreach with
  | refl => exact .inl ⟨sub, hrewires.order ▸ hsub, hrewires.root sub hsub ▸ .refl⟩
  | tail _ hstep ih =>
    rcases ih with hin | hlost
    · rcases h.links _ _ hstep with hkept | hlost | ⟨hback, -⟩
      · exact .inl (hin.step hkept)
      · exact .inr hlost
      · exact .inl hback
    · exact (h.below _ _ hlost hstep).symm

theorem performs (hn : old.Performs n) : new.Performs n := by
  obtain ⟨hin, heffect⟩ := hn
  rcases h.inOutput hrewires hin with hin' | hlost
  · refine ⟨hin', ?_⟩
    rwa [hrewires.kinds.kind_eq]
    intro hblock
    rw [hblock] at heffect
    cases heffect
  · rw [h.idle n hlost] at heffect
    cases heffect

theorem places {label : NodeId} (hkind : old.kind label = .label) (hlabel : ¬dropped label)
    (hplaces : old.Places label) : new.Places label := by
  obtain ⟨block, hblock, hmem⟩ := hplaces
  have hheld := holds_of_statement hmem
  rcases h.inOutput hrewires hblock with hin | hlost
  · refine ⟨block, hin, ?_⟩
    rcases h.links block label hheld with hkept | hlost | ⟨-, hcall⟩
    · have hnew : new.kind block = .block := by
        rw [hrewires.kinds.kind block (lt_size_of_below hheld), kind_of_statement hmem]
      rwa [Holds, below_of_kind_block hnew] at hkept
    · exact absurd (h.label label hlost hkind) hlabel
    · rw [hkind] at hcall
      cases hcall
  · exact absurd hkind (h.statement block hlost label hmem)

end Sheds

theorem Rewires.inOutput {extra : NodeId → NodeId → Prop} {fresh : NodeId → Prop}
    (h : old.Rewires new extra) (hextra : ∀ a b, extra a b → old.InOutput b ∨ fresh b)
    (hfresh : ∀ a, fresh a → old.below true a = []) (hn : new.InOutput n) :
    old.InOutput n ∨ fresh n := by
  obtain ⟨sub, hsub, hreach⟩ := hn
  rw [h.order] at hsub
  rw [h.root sub hsub] at hreach
  induction hreach with
  | refl => exact .inl ⟨sub, hsub, .refl⟩
  | tail _ hstep ih =>
    rcases h.below _ _ hstep with hold | hcomes
    · rcases ih with hin | hfree
      · exact .inl (hin.step hold)
      · rw [hfresh _ hfree] at hold
        cases hold
    · exact hextra _ _ hcomes

theorem CycleFree.not_back (h : tree.CycleFree) (ha : tree.InOutput a) (hab : tree.Holds a b) :
    ¬Relation.ReflTransGen tree.Holds b a := fun hback => h a ha (.head' hab hback)

theorem CycleFree.inOutput_setOperand (h : tree.CycleFree) (hid : tree.InOutput id)
    (hs : (role, s) ∈ (tree.node id).operands) :
    (tree.setOperand id role value).InOutput value := by
  have hrewires : tree.Rewires (tree.setOperand id role value) fun _ _ => True :=
    .setOperand trivial
  refine InOutput.step ?_ (holds_setOperand hs)
  refine hid.survives hrewires (.setOperand hs) ?_
  rintro a b ⟨rfl, rfl⟩
  exact h.not_back hid (descends_of_operand hs).holds

theorem CycleFree.inOutput_setStatement (h : tree.CycleFree) (hblock : tree.InOutput block)
    {index : Nat} (hat : (tree.statements block)[index]? = some s) :
    (tree.setStatement block index value).InOutput value := by
  have hrewires : tree.Rewires (tree.setStatement block index value) fun _ _ => True :=
    .setStatement index trivial
  refine InOutput.step ?_ (holds_setStatement hat)
  refine hblock.survives hrewires (.setStatement hat) ?_
  rintro a b ⟨rfl, rfl⟩
  exact h.not_back hblock (holds_of_statement (List.mem_of_getElem? hat))

theorem sheds_of_leaf (h : old.Cuts new fun a b => a = block ∧ b = s)
    (hleaf : old.below true s = []) (hidle : (old.kind s).isEffect = false)
    (hlabel : old.kind s = .label → dropped s) : old.Sheds new (· = s) dropped where
  links a b hab := (h a b hab).imp_right fun hgone => .inl hgone.2
  below a b ha hab := by
    rw [ha, Holds, hleaf] at hab
    cases hab
  idle n hn := hn ▸ hidle
  label n hn := hn ▸ hlabel
  statement n hn label hmem := by
    have hheld := holds_of_statement hmem
    rw [hn, Holds, hleaf] at hheld
    cases hheld

section Assignment

variable {slot : NodeId} {declares : Bool} (hnode : tree.node s = .binary .assign slot value declares)
include hnode

theorem holds_assign : tree.Holds s n ↔ n = slot ∨ n = value := by
  rw [Holds, below_eq_parts, hnode]
  simp [Node.parts, Node.operands]

/-- Below an assignment of a plain value all is plain. -/
theorem Shaped.isPlain (h : tree.Shaped) (hslot : tree.kind slot = .slot)
    (hkept : tree.isKept value = false) (hn : Relation.ReflTransGen tree.Holds s n) :
    n = s ∨ (tree.kind n).isPlain := by
  have hvalue : (tree.kind value).isPlain := by
    simpa [fitsShape, isAssignable, hnode, hkept] using h s
  induction hn with
  | refl => exact .inl rfl
  | @tail x n _ hstep ih =>
    right
    rcases ih with rfl | hplain
    · rcases (holds_assign hnode).1 hstep with rfl | rfl
      · rw [hslot, Kind.isPlain]
      · exact hvalue
    · rw [Holds, below_eq_parts] at hstep
      have hfits := h x
      unfold Tree.kind at hplain
      cases hx : tree.node x <;> rw [hx] at hplain hstep hfits <;> try cases hplain
      · cases hstep
      · cases hstep
      · have heq := List.mem_singleton.1 hstep
        rw [heq, isSlot_iff_kind.1 hfits, Kind.isPlain]

theorem sheds_of_assignment (h : tree.Cuts new fun a b => a = block ∧ b = s)
    (hshaped : tree.Shaped) (hslot : tree.kind slot = .slot) (hkept : tree.isKept value = false) :
    tree.Sheds new (Relation.ReflTransGen tree.Holds s) dropped := by
  refine .of_idle h ?_ (fun a b ha hab => .inl (ha.tail hab)) fun n hn => ?_
  · rintro a b ⟨-, rfl⟩
    exact .refl
  · rcases hshaped.isPlain hnode hslot hkept hn with rfl | hplain
    · rw [Tree.kind, hnode]
      rfl
    · unfold Kind.isIdle
      split
      · rfl
      · rfl
      · exact hplain

theorem sheds_of_value (h : tree.Cuts new gone)
    (hgone : ∀ a b, gone a b → b = s ∨ b = slot) (hslot : tree.kind slot = .slot)
    (hvalue : new.InOutput value) : tree.Sheds new (fun n => n = s ∨ n = slot) dropped := by
  refine .of_idle h hgone ?_ ?_
  · rintro a b (rfl | rfl) hab
    · rcases (holds_assign hnode).1 hab with rfl | rfl
      · exact .inl (.inr rfl)
      · exact .inr hvalue
    · rw [Holds, below_of_kind_slot hslot] at hab
      cases hab
  · rintro n (rfl | rfl)
    · rw [Tree.kind, hnode]
      rfl
    · rw [hslot]
      rfl

end Assignment

theorem onlyCall?_eq_some {call : NodeId} (h : tree.onlyCall? block = some call) :
    ∃ ret, tree.statements block = [call, ret] ∧ tree.node ret = .ret none := by
  unfold onlyCall? at h
  split at h
  case h_2 => cases h
  case h_1 first ret hstatements =>
  split at h
  case isFalse => cases h
  case isTrue hcond =>
  cases h
  exact ⟨ret, hstatements, of_decide_eq_true hcond.2⟩

/-- A deferred call leaves its block, and the return behind it. -/
theorem sheds_of_deferred {call ret : NodeId} (h : tree.Cuts new fun a b => a = id ∧ b = block)
    (hstatements : tree.statements block = [call, ret]) (hret : tree.node ret = .ret none)
    (hkind : (tree.kind call).isCall) (hcall : new.InOutput call) :
    tree.Sheds new (fun n => n = block ∨ n = ret) dropped := by
  have hblock : tree.kind block = .block := kind_of_statement (s := call) (by simp [hstatements])
  have hreturn : tree.kind ret = .ret := by rw [Tree.kind, hret, Node.kind]
  constructor
  · exact fun a b hab => (h a b hab).imp_right fun hgone => .inl (.inl hgone.2)
  · rintro a b (rfl | rfl) hab
    · rw [Holds, below_of_kind_block hblock, hstatements] at hab
      rcases List.mem_pair.1 hab with rfl | rfl
      · exact .inr hcall
      · exact .inl (.inr rfl)
    · rw [Holds, below_eq_parts, hret] at hab
      cases hab
  · rintro n (rfl | rfl)
    · rw [hblock]
      rfl
    · rw [hreturn]
      rfl
  · rintro n (rfl | rfl) hlabel
    · cases hblock.symm.trans hlabel
    · cases hreturn.symm.trans hlabel
  · rintro n (rfl | rfl) s hmem hlabel
    · rw [hstatements] at hmem
      rcases List.mem_pair.1 hmem with rfl | rfl
      · rw [hlabel] at hkind
        cases hkind
      · cases hreturn.symm.trans hlabel
    · cases hreturn.symm.trans (kind_of_statement hmem)

theorem node_of_componentOf? {index : Nat} (h : tree.componentOf? id index = some value) :
    tree.node id = .component value index := by
  unfold componentOf? at h
  split at h
  case h_2 => cases h
  case h_1 whole i hnode =>
  split at h
  · next hi =>
    cases h
    rw [hnode, hi]
  · cases h

theorem recomposed?_eq_some (h : tree.recomposed? id = some value) :
    tree.kind id = .vector ∧
      ∀ n, tree.Holds id n → ∃ index, tree.node n = .component value index := by
  unfold recomposed? at h
  split at h
  case h_2 => cases h
  case h_1 x y z hnode =>
  split at h
  case h_2 => cases h
  case h_1 first second third hx hy hz =>
  split at h
  case isFalse => cases h
  case isTrue hcond =>
  obtain ⟨rfl, rfl⟩ := hcond
  cases h
  refine ⟨by rw [Tree.kind, hnode, Node.kind], fun n hn => ?_⟩
  rw [Holds, below_eq_parts, hnode] at hn
  simp only [Node.parts, Node.operands, List.map_cons, List.map_nil, List.mem_cons,
    List.not_mem_nil, or_false] at hn
  rcases hn with rfl | rfl | rfl
  · exact ⟨0, node_of_componentOf? hx⟩
  · exact ⟨1, node_of_componentOf? hy⟩
  · exact ⟨2, node_of_componentOf? hz⟩

theorem sheds_of_recomposed {vector source : NodeId}
    (h : tree.Cuts new fun a b => a = id ∧ b = vector)
    (hvector : tree.recomposed? vector = some source) (hsource : new.InOutput source) :
    tree.Sheds new (fun n => n = vector ∨ tree.Holds vector n) dropped := by
  obtain ⟨hkind, hparts⟩ := recomposed?_eq_some hvector
  refine .of_idle h (fun a b hgone => .inl hgone.2) ?_ ?_
  · rintro a b (rfl | ha) hab
    · exact .inl (.inr hab)
    · obtain ⟨index, hnode⟩ := hparts a ha
      rw [Holds, below_eq_parts, hnode] at hab
      rw [List.mem_singleton.1 hab]
      exact .inr hsource
  · rintro n (rfl | hn)
    · rw [hkind]
      rfl
    · obtain ⟨index, hnode⟩ := hparts n hn
      rw [Tree.kind, hnode]
      rfl

end Tree

end ScriptLift
