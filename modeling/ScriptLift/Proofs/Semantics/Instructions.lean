import ScriptLift.Proofs.Semantics.Mirror

namespace ScriptLift

theorem Lift.forM_range_induction {P : Nat → Workspace → Prop} {f : Nat → Lift Unit}
    {start count : Nat} {ws ws' : Workspace} (hstart : P start ws)
    (hstep : ∀ i mid next, start ≤ i → i < start + count → P i mid → f i mid = .ok () next →
      P (i + 1) next)
    (h : (List.range' start count).forM f ws = .ok () ws') : P (start + count) ws' := by
  induction count generalizing start ws with
  | zero =>
    cases h
    exact hstart
  | succ count ih =>
    obtain ⟨_, mid, hfirst, hrest⟩ := Lift.bind_eq_ok h
    have hmid := hstep start ws mid (Nat.le_refl _) (by omega) hstart hfirst
    have hlast := ih hmid (fun i a b hi hlt => hstep i a b (by omega) (by omega)) hrest
    rwa [Nat.add_right_comm, Nat.add_assoc] at hlast

theorem forall₂_split {α β : Type} {R : α → β → Prop} {l₁ l₂ : List α} {m₁ m₂ : List β}
    (h : List.Forall₂ R (l₁ ++ l₂) (m₁ ++ m₂)) (hlen : l₂.length = m₂.length) :
    List.Forall₂ R l₁ m₁ ∧ List.Forall₂ R l₂ m₂ := by
  have hfirst : l₁.length = m₁.length := by
    have := h.length_eq
    simp only [List.length_append] at this
    omega
  constructor
  · simpa [hfirst] using List.forall₂_take m₁.length h
  · simpa [hfirst] using List.forall₂_drop m₁.length h

/-- Operands of this shape: words or vectors. -/
def Shape.Fits {W : Type} : Shape → Content W → Content W → Prop
  | .scalar, .word _, .word _ => True
  | .vectorVector, .vector _, .vector _ => True
  | .floatVector, .word _, .vector _ => True
  | .vectorFloat, .vector _, .word _ => True
  | _, _, _ => False

theorem Shape.Fits.ne_scalar_iff {W : Type} {M : Meaning W} {shape : Shape} {op : BinaryOp}
    {a b : Content W} (h : shape.Fits a b) :
    shape ≠ .scalar ↔ ∃ v, M.apply op a b = .vector v := by
  cases shape <;> cases a <;> cases b <;> simp [Shape.Fits, Meaning.apply] at h ⊢

theorem Words.popArguments_cons {W : Type} {type : ValueType} {types : List ValueType}
    {stack rest : List W} {contents : List (Content W)} (htype : type.IsPassed)
    (h : Words.popArguments (type :: types) stack = some (contents, rest)) :
    ∃ c cs mid, stack = mid ++ c.words ∧ (type = .vector ↔ ∃ v, c = .vector v) ∧
      Words.popArguments types mid = some (cs, rest) ∧ contents = c :: cs := by
  obtain ⟨⟨mid, top⟩, hpop, hcontent⟩ := Option.bind_eq_some_iff.1 h
  obtain ⟨c, hc, hrest⟩ := Option.bind_eq_some_iff.1 hcontent
  obtain ⟨⟨cs, last⟩, hcs, hdone⟩ := Option.bind_eq_some_iff.1 hrest
  obtain ⟨hstack, hlen⟩ := Words.pop_eq_some hpop
  cases hdone
  have hwidth : top = c.words ∧ (type = .vector ↔ ∃ v, c = .vector v) := by
    unfold Words.content? at hc
    split at hc
    · cases hc
      cases type <;> simp_all [ValueType.words, ValueType.IsPassed, Content.words]
    · cases hc
      cases type <;> simp_all [ValueType.words, ValueType.IsPassed, Content.words, Triple.words]
    · cases hc
  exact ⟨c, cs, mid, hwidth.1 ▸ hstack, hwidth.2, hcs, rfl⟩

theorem Words.operate_eq_some {W : Type} {M : Meaning W} {op : BinaryOp} {left right : ValueType}
    {stack stack' : List W} (hleft : left.IsPassed) (hright : right.IsPassed)
    (h : Words.operate M op [left, right] stack = some stack') :
    ∃ rest a b, (Shape.ofTypes left right).Fits a b ∧ stack = rest ++ (a.words ++ b.words) ∧
      stack' = rest ++ (M.apply op a b).words := by
  obtain ⟨⟨contents, rest⟩, hpop, hdone⟩ := Option.bind_eq_some_iff.1 h
  obtain ⟨b, cs, mid, rfl, hb, hcs, rfl⟩ := Words.popArguments_cons hright hpop
  obtain ⟨a, cs, last, rfl, ha, hnil, rfl⟩ := Words.popArguments_cons hleft hcs
  cases hnil
  cases hdone
  refine ⟨rest, a, b, ?_, List.append_assoc _ _ _, rfl⟩
  cases a <;> cases b <;> cases left <;> cases right <;>
    simp_all [Shape.ofTypes, Shape.Fits, ValueType.IsPassed]

namespace Meaning

variable {W : Type} {M : Meaning W} {routines : Routines} {number : UInt16} {routine : Routine}
  {arguments : List (Content W)}

theorem reply_vector_iff (h : routines.get? number = some routine) (past : List (EngineCall W))
    (arguments : List (Content W)) : routine.result = .vector ↔
      ∃ v, M.reply routines past ⟨number, arguments⟩ = .vector v := by
  unfold reply
  rw [h]
  dsimp only
  split <;> simp_all

theorem words_reply (h : routines.get? number = some routine) (hvoid : routine.result ≠ .void)
    {past : List (EngineCall W)} : (M.reply routines past ⟨number, arguments⟩).words =
      Words.answerWords M routine.result past ⟨number, arguments⟩ := by
  unfold reply
  rw [h]
  cases hr : routine.result <;> simp_all [Words.answerWords, Content.words]

end Meaning

theorem forall₂_zip_zip {α β γ δ : Type} {R : α → β → Prop} {S : γ → δ → Prop} {l : List α}
    {m : List β} {l' : List γ} {m' : List δ} (h : List.Forall₂ R l m) (h' : List.Forall₂ S l' m') :
    List.Forall₂ (fun p q => R p.1 q.1 ∧ S p.2 q.2) (l.zip l') (m.zip m') := by
  induction h generalizing l' m' with
  | nil => exact .nil
  | cons hr _ ih =>
    cases h' with
    | nil => exact .nil
    | cons hs h' => exact .cons ⟨hr, hs⟩ (ih h')

namespace Mirrors

variable {W : Type} {M : Meaning W} {routines : Routines} {block id : NodeId} {site : Site}
  {ws ws' : Workspace} {s s' s₁ : Store W} {w w' : Words W} {c : Content W} {rest top : List W}
  {calls : List (EngineCall W)} {a : W}

theorem popMany {ids : List NodeId} (h : Mirrors M routines block ws s ⟨rest ++ top, calls⟩)
    (hrun : site.popMany top.length ws = .ok ids ws') :
    ws'.tree = ws.tree ∧ Mirrors M routines block ws' s ⟨rest, calls⟩ ∧
      List.Forall₂ (s.Holds ws.tree) ids top := by
  rw [Site.popMany_eq] at hrun
  cases hpop : ws.context.popMany top.length with
  | error cause =>
    rw [hpop] at hrun
    cases hrun
  | ok popped =>
    rw [hpop] at hrun
    cases hrun
    obtain ⟨hslots, hlen⟩ := Context.slots_popMany hpop
    have hholds := h.holds
    rw [hslots] at hholds
    obtain ⟨hrest, htop⟩ := forall₂_split hholds (by simpa using hlen)
    refine ⟨rfl, h.shrink ?_ ?_ hrest, htop⟩
    · rw [(Context.popMany_eq_ok hpop).2.2]
    · rw [(Context.popMany_eq_ok hpop).2.2]
      exact List.drop_sublist _ _

theorem pop (h : Mirrors M routines block ws s ⟨rest ++ [a], calls⟩)
    (hrun : site.pop ws = .ok id ws') :
    ws'.tree = ws.tree ∧ Mirrors M routines block ws' s ⟨rest, calls⟩ ∧ s.Holds ws.tree id a := by
  rw [Site.pop_eq] at hrun
  cases hpop : ws.context.pop with
  | error cause =>
    rw [hpop] at hrun
    cases hrun
  | ok popped =>
    rw [hpop] at hrun
    cases hrun
    obtain ⟨hstack, hctx⟩ := Context.pop_eq_ok hpop
    have hholds := h.holds
    rw [Context.slots_pop hpop] at hholds
    obtain ⟨hrest, htop⟩ := forall₂_split hholds rfl
    refine ⟨rfl, h.shrink ?_ ?_ hrest, by simpa using htop⟩
    · rw [hctx]
    · rw [hstack]
      exact List.sublist_cons_self _ _

theorem requireFloat_eq_ok {name : String} {slot : NodeId}
    (hrun : site.requireFloat name slot ws = .ok () ws') : ws' = ws := by
  obtain ⟨_, _, hget, hrun⟩ := Lift.bind_eq_ok hrun
  cases hget
  exact (Site.require_eq_ok hrun).2

theorem popVector {x y z : W} (h : Mirrors M routines block ws s ⟨rest ++ [x, y, z], calls⟩)
    (hrun : site.popVector ws = .ok id ws') :
    Mirrors M routines block ws' s ⟨rest, calls⟩ ∧
      M.Leads routines ws'.tree id s (.vector (x, y, z)) s ∧ ws.tree.Grows ws'.tree := by
  obtain ⟨ids, mid, hpop, hrun⟩ := Lift.bind_eq_ok hrun
  obtain ⟨htree, hmid, hids⟩ := h.popMany hpop
  cases hids with
  | cons hx hids =>
  cases hids with
  | cons hy hids =>
  cases hids with
  | cons hz hids =>
  cases hids
  dsimp only at hrun
  obtain ⟨_, _, hfx, hy'⟩ := Lift.bind_eq_ok hrun
  obtain ⟨_, _, hfy, hz'⟩ := Lift.bind_eq_ok hy'
  obtain ⟨_, _, hfz, halloc⟩ := Lift.bind_eq_ok hz'
  obtain rfl := requireFloat_eq_ok hfx
  obtain rfl := requireFloat_eq_ok hfy
  obtain rfl := requireFloat_eq_ok hfz
  cases halloc
  rw [← htree] at hx hy hz
  refine ⟨hmid.alloc _ _, Meaning.leads_vector hx.leads hy.leads hz.leads, ?_⟩
  rw [← htree]
  exact Tree.Grows.alloc _ _ _

/-- A new slot takes the content of `value`; it is not on the stack yet. -/
theorem bindSlot (h : Mirrors M routines site.block ws s w) {slot : Slot} {value target : NodeId}
    (hv : M.Leads routines ws.tree value s c s₁) (hc : s₁.content = s.content)
    (hrun : site.bindSlot slot value ws = .ok target ws') :
    Mirrors M routines site.block ws' (s₁.assign target c) ⟨w.stack, s₁.calls⟩ ∧
      ws'.tree.isSlot target ∧ target ∉ ws'.context.slots := by
  cases hrun
  have hslot : (ws.tree.alloc site.ins.offset (.slot slot)).isSlot ws.tree.nextId :=
    Tree.isSlot_of_node Tree.node_alloc_nextId
  have hgrow := Tree.Grows.alloc ws.tree site.ins.offset (.slot slot)
  refine ⟨?_, ?_, h.nextId_notMem⟩
  · refine ((h.alloc site.ins.offset (.slot slot)).alloc site.ins.offset _).emit_leads
      (Meaning.leads_assign _ (hv.grow hgrow)) (by simp [Tree.kind, Node.kind])
      (h.content_assign hc h.nextId_notMem c) rfl
  · exact (Tree.Grows.pushStatement _ _ _).isSlot ((Tree.Grows.alloc _ _ _).isSlot hslot)

theorem declare (h : Mirrors M routines site.block ws s w) {type : ValueType} {value : NodeId}
    (hv : M.Leads routines ws.tree value s (.word a) s₁) (hc : s₁.content = s.content)
    (hrun : site.declare type value ws = .ok () ws') :
    ∃ s', Mirrors M routines site.block ws' s' ⟨w.stack ++ [a], s₁.calls⟩ := by
  obtain ⟨target, mid, hbind, hpush⟩ := Lift.bind_eq_ok hrun
  obtain ⟨hmid, hslot, hfresh⟩ := h.bindSlot hv hc hbind
  cases hpush
  exact ⟨_, hmid.push ⟨hslot, by simp⟩ hfresh⟩

/-- A component of a vector becomes a word; the vector itself stays readable. -/
theorem pushComponent (h : Mirrors M routines site.block ws s w) {vector : NodeId} {name : String}
    {index : Nat} {v : Triple W} (hs : ws.tree.isSlot vector)
    (hv : s.content vector = some (.vector v))
    (ha : (Content.vector v).component? index = some a)
    (hrun : site.pushComponent vector name index ws = .ok () ws') :
    ∃ s', Mirrors M routines site.block ws' s' ⟨w.stack ++ [a], w.calls⟩ ∧
      ws'.tree.isSlot vector ∧ s'.content vector = some (.vector v) := by
  cases hrun
  have hlt := Tree.lt_size_of_isSlot hs
  have hne : vector ≠ ws.tree.nextId := by
    rintro rfl
    exact Nat.lt_irrefl _ hlt
  have hgrow := Tree.Grows.alloc ws.tree site.ins.offset
    (.slot { type := .float, suffix := some name })
  have hslot : (ws.tree.alloc site.ins.offset
      (.slot { type := .float, suffix := some name })).isSlot ws.tree.nextId :=
    Tree.isSlot_of_node Tree.node_alloc_nextId
  have hvalue : M.Leads routines ((ws.tree.alloc site.ins.offset
      (.slot { type := .float, suffix := some name })).alloc site.ins.offset
      (.component vector index)) _ s (.word a) s :=
    Meaning.leads_component (Meaning.leads_slot (hgrow.isSlot hs) hv) ha
  have hmid : Mirrors M routines site.block _ _ w :=
    (((h.alloc site.ins.offset _).alloc site.ins.offset _).alloc site.ins.offset _).emit_leads
      (Meaning.leads_assign true hvalue) (by simp [Tree.kind, Node.kind])
      (h.content_assign rfl h.nextId_notMem _) h.calls
  refine ⟨_, hmid.push ⟨?_, by simp⟩ h.nextId_notMem, ?_, ?_⟩
  · exact ((Tree.Grows.alloc _ _ _).trans (Tree.Grows.record _ _ _ _ _)).isSlot hslot
  · exact ((Tree.Grows.alloc _ _ _).trans (Tree.Grows.record _ _ _ _ _)).isSlot (hgrow.isSlot hs)
  · rw [Store.content_assign_of_ne _ _ hne, hv]

/-- The result of an operation, as wide as its type says. -/
theorem produce (h : Mirrors M routines site.block ws s w) {type : ValueType} {value : NodeId}
    (hv : M.Leads routines ws.tree value s c s₁) (hc : s₁.content = s.content)
    (hwidth : type = .vector ↔ ∃ v, c = .vector v)
    (hrun : site.produce type value ws = .ok () ws') :
    ∃ s', Mirrors M routines site.block ws' s' ⟨w.stack ++ c.words, s₁.calls⟩ := by
  unfold Site.produce at hrun
  split at hrun
  · next htype =>
    obtain ⟨v, rfl⟩ := hwidth.1 htype
    obtain ⟨target, ws₁, hbind, hpush⟩ := Lift.bind_eq_ok hrun
    obtain ⟨h₁, hslot, -⟩ := h.bindSlot hv hc hbind
    obtain ⟨_, ws₂, hx, hpush⟩ := Lift.bind_eq_ok hpush
    obtain ⟨s₂, h₂, hslot, hvec⟩ := h₁.pushComponent hslot (Store.content_assign_self _ _ _) rfl hx
    obtain ⟨_, ws₃, hy, hz⟩ := Lift.bind_eq_ok hpush
    obtain ⟨s₃, h₃, hslot, hvec⟩ := h₂.pushComponent hslot hvec rfl hy
    obtain ⟨s₄, h₄, -⟩ := h₃.pushComponent hslot hvec rfl hz
    refine ⟨s₄, ?_⟩
    simpa [Content.words, Triple.words] using h₄
  · next htype =>
    cases c with
    | vector v => exact absurd (hwidth.2 ⟨v, rfl⟩) htype
    | word a => exact h.declare hv hc hrun

theorem declareBare (h : Mirrors M routines site.block ws s w) {type : ValueType}
    (hrun : site.declareBare type ws = .ok () ws') :
    ∃ s', Mirrors M routines site.block ws' s'
      ⟨w.stack ++ [M.reserved site.ins.offset], w.calls⟩ := by
  cases hrun
  have hslot : (ws.tree.alloc site.ins.offset (.slot { type })).isSlot ws.tree.nextId :=
    Tree.isSlot_of_node Tree.node_alloc_nextId
  have hmid : Mirrors M routines site.block
      { ws with
        tree := (ws.tree.alloc site.ins.offset (.slot { type })).pushStatement site.block
          ws.tree.nextId }
      (s.assign ws.tree.nextId (.word (M.reserved site.ins.offset))) w :=
    (h.alloc site.ins.offset (.slot { type })).emit (fun later hg => ?_)
      (h.content_assign rfl h.nextId_notMem _) h.calls
  · exact ⟨_, hmid.push ⟨(Tree.Grows.pushStatement _ _ _).isSlot hslot, by simp⟩ h.nextId_notMem⟩
  · have hgrow := (Tree.Grows.pushStatement _ _ _).trans hg
    obtain ⟨slot, hnode⟩ := Tree.node_of_isSlot (hgrow.isSlot hslot)
    have hoffset : later.offset ws.tree.nextId = site.ins.offset := by
      rw [hgrow.offset _ (by simp)]
      simp [Tree.offset]
    simp only [Meaning.execute, hnode, hoffset]

theorem load (h : Mirrors M routines site.block ws s w) {value : Literal}
    (hvalue : site.ins.value = some value) (hrun : site.load ws = .ok () ws') :
    ∃ s', Mirrors M routines site.block ws' s' ⟨w.stack ++ [M.literal value], w.calls⟩ := by
  unfold Site.load at hrun
  rw [hvalue] at hrun
  obtain ⟨_, _, halloc, hrun⟩ := Lift.bind_eq_ok hrun
  cases halloc
  rw [← h.calls]
  exact (h.alloc site.ins.offset _).declare (Meaning.leads_literal value) rfl hrun

theorem applyUnary {op : UnaryOp} (hop : op.isStep = false)
    (h : Mirrors M routines site.block ws s ⟨rest ++ [a], calls⟩)
    (hrun : site.applyUnary op ws = .ok () ws') :
    ∃ s', Mirrors M routines site.block ws' s' ⟨rest ++ [M.unary op a], calls⟩ := by
  obtain ⟨id, mid, hpop, hrun⟩ := Lift.bind_eq_ok hrun
  obtain ⟨htree, hmid, hid⟩ := h.pop hpop
  obtain ⟨_, _, hget, hrun⟩ := Lift.bind_eq_ok hrun
  cases hget
  obtain ⟨_, _, halloc, hrun⟩ := Lift.bind_eq_ok hrun
  cases halloc
  rw [← htree] at hid
  have hdone := (hmid.alloc site.ins.offset _).declare (Meaning.leads_unary hop hid.leads) rfl hrun
  rwa [hmid.calls] at hdone

/-- Both operands are read off before the result is stored. -/
theorem popPair {shape : Shape} {a b : Content W} {pair : NodeId × NodeId}
    (h : Mirrors M routines block ws s ⟨rest ++ (a.words ++ b.words), calls⟩)
    (hfits : shape.Fits a b) (hrun : site.popPair shape ws = .ok pair ws') :
    Mirrors M routines block ws' s ⟨rest, calls⟩ ∧ M.Leads routines ws'.tree pair.1 s a s ∧
      M.Leads routines ws'.tree pair.2 s b s := by
  rw [← List.append_assoc] at h
  cases shape <;> cases a <;> cases b <;> first | exact hfits.elim | skip
  all_goals
    obtain ⟨right, mid, hright, hrun⟩ := Lift.bind_eq_ok hrun
    obtain ⟨left, last, hleft, hrun⟩ := Lift.bind_eq_ok hrun
    cases hrun
  case scalar.word.word a b =>
    obtain ⟨htree, hmid, hb⟩ := h.pop hright
    obtain ⟨htree', hlast, ha⟩ := hmid.pop hleft
    rw [← htree] at hb
    rw [← htree'] at ha hb
    exact ⟨hlast, ha.leads, hb.leads⟩
  case vectorVector.vector.vector a b =>
    obtain ⟨hmid, hb, -⟩ := h.popVector hright
    obtain ⟨hlast, ha, hgrow⟩ := hmid.popVector hleft
    exact ⟨hlast, ha, hb.grow hgrow⟩
  case floatVector.word.vector a b =>
    obtain ⟨hmid, hb, -⟩ := h.popVector hright
    obtain ⟨htree, hlast, ha⟩ := hmid.pop hleft
    rw [← htree] at ha hb
    exact ⟨hlast, ha.leads, hb⟩
  case vectorFloat.vector.word a b =>
    obtain ⟨htree, hmid, hb⟩ := h.pop hright
    obtain ⟨hlast, ha, hgrow⟩ := hmid.popVector hleft
    rw [← htree] at hb
    exact ⟨hlast, ha, (hb.grow hgrow).leads⟩

theorem applyBinary {op : BinaryOp} {left right result : ValueType} {stack : List W}
    (hop : op ≠ .assign) (hleft : left.IsPassed) (hright : right.IsPassed)
    (hwidth : result = .vector ↔ Shape.ofTypes left right ≠ .scalar)
    (h : Mirrors M routines site.block ws s w)
    (hw : Words.operate M op [left, right] w.stack = some stack)
    (hrun : site.applyBinary ⟨op, result, .ofTypes left right⟩ ws = .ok () ws') :
    ∃ s', Mirrors M routines site.block ws' s' ⟨stack, w.calls⟩ := by
  obtain ⟨wstack, calls⟩ := w
  obtain ⟨rest, a, b, hfits, rfl, rfl⟩ := Words.operate_eq_some hleft hright hw
  obtain ⟨pair, mid, hpair, hvalue⟩ := Lift.bind_eq_ok hrun
  obtain ⟨hmid, ha, hb⟩ := h.popPair hfits hpair
  obtain ⟨_, _, halloc, hproduce⟩ := Lift.bind_eq_ok hvalue
  cases halloc
  have hdone := (hmid.alloc site.ins.offset _).produce (Meaning.leads_binary hop ha hb) rfl
    (hwidth.trans hfits.ne_scalar_iff) hproduce
  rwa [hmid.calls] at hdone

/-- The stack holds only words of its own subroutine, so they are used directly. -/
theorem access (h : Mirrors M routines block ws s w) {index : Nat} {how : Access}
    (hrun : site.access index how ws = .ok id ws') :
    ws' = ws ∧ ws.context.slots[index]? = some id := by
  obtain ⟨_, _, hget, hrun⟩ := Lift.bind_eq_ok hrun
  cases hget
  obtain ⟨word, _, hcheck, hrun⟩ := Lift.bind_eq_ok hrun
  obtain ⟨hword, rfl⟩ := Site.check_eq_ok hcheck
  obtain ⟨hslot, hmem⟩ := Context.slots_word hword
  have hown : ∀ (ctx : Context) isGlobal, word.owner = ctx.current →
      ctx.isOuter word isGlobal = false := by
    intro ctx isGlobal howner
    simp [Context.isOuter, howner]
  rw [hown _ _ (h.own word hmem)] at hrun
  cases hrun
  exact ⟨rfl, hslot⟩

/-- Within 32 bits of code the stack stays so small that addresses do not wrap. -/
theorem addressed (h : Mirrors M routines block ws s w) {index start : Nat}
    (hbase : site.ins.opcode.base = .stack) (hsmall : w.stack.length < 2 ^ 62)
    (hw : Words.address site.ins w.stack = some start)
    (hrun : site.addressed ws = .ok index ws') : ws' = ws ∧ index = start := by
  obtain ⟨position, _, hbelow, hafter⟩ := Lift.bind_eq_ok hrun
  obtain ⟨hneg, rfl, rfl⟩ := Site.below_eq_ok hbelow
  obtain ⟨_, _, hget, hcheck⟩ := Lift.bind_eq_ok hafter
  cases hget
  obtain ⟨hindex, rfl⟩ := Site.check_eq_ok hcheck
  refine ⟨rfl, ?_⟩
  unfold Words.address at hw
  split at hw
  · next hdistance =>
    cases hw
    have hlow : -2 ^ 31 ≤ site.ins.stack.toInt := site.ins.stack.le_toInt
    have hhigh : site.ins.stack.toInt < 0 := Int32.lt_iff_toInt_lt.1 hneg
    have hdepth := h.length_eq
    have hdiv : site.ins.stack.toInt.tdiv 4 = -(site.ins.distance : Int) := by
      have habs : site.ins.stack.toInt = -(site.ins.stack.toInt.natAbs : Int) := by omega
      rw [habs, Int.neg_tdiv, Int.natCast_tdiv_eq_ediv, Instruction.distance]
      omega
    simp only [hbase] at hindex
    rw [Context.relativeIndex_of_lt (by omega) (by omega), hdepth, hdiv, if_pos (by omega)] at hindex
    simp only [Except.ok.injEq] at hindex
    omega
  · cases hw

theorem copyWordTop (h : Mirrors M routines site.block ws s w) {start count i : Nat}
    (ha : w.stack[start + i]? = some a) (hrun : site.copyWordTop start count i ws = .ok () ws') :
    ∃ s', Mirrors M routines site.block ws' s' ⟨w.stack ++ [a], w.calls⟩ := by
  obtain ⟨source, _, haccess, hafter⟩ := Lift.bind_eq_ok hrun
  obtain ⟨rfl, hsource⟩ := h.access haccess
  obtain ⟨_, _, hget, hbind⟩ := Lift.bind_eq_ok hafter
  cases hget
  obtain ⟨copy, mid, hcopy, hpush⟩ := Lift.bind_eq_ok hbind
  obtain ⟨hmid, hslot, hfresh⟩ := h.bindSlot (h.holds_at hsource ha).leads rfl hcopy
  cases hpush
  rw [← h.calls]
  exact ⟨_, hmid.push ⟨hslot, Store.content_assign_self _ _ _⟩ hfresh⟩

/-- The words below the copies stay in place while the stack grows. -/
theorem copyTop {stack : List W} (h : Mirrors M routines site.block ws s ⟨stack, calls⟩)
    (hbase : site.ins.opcode.base = .stack) (hsmall : stack.length < 2 ^ 62) {start : Nat}
    (haddress : Words.address site.ins stack = some start)
    (hle : start + site.ins.words ≤ stack.length)
    (hrun : site.copyTop ws = .ok () ws') :
    ∃ s', Mirrors M routines site.block ws' s'
      ⟨stack ++ (stack.drop start).take site.ins.words, calls⟩ := by
  obtain ⟨index, _, haddressed, hloop⟩ := Lift.bind_eq_ok hrun
  obtain ⟨rfl, rfl⟩ := h.addressed hbase hsmall haddress haddressed
  dsimp only at hloop
  rw [List.range_eq_range'] at hloop
  have hdone := Lift.forM_range_induction
    (P := fun i mid => ∃ s', Mirrors M routines site.block mid s'
      ⟨stack ++ (stack.drop index).take i, calls⟩)
    ⟨s, by simpa using h⟩ ?_ hloop
  · simpa [Instruction.words] using hdone
  · rintro i mid next - hi ⟨s', hmid⟩ hcopy
    have hi' : index + i < stack.length := by
      simp only [Instruction.words] at hle
      omega
    have hword : (stack ++ (stack.drop index).take i)[index + i]? = some stack[index + i] := by
      rw [List.getElem?_append_left hi', List.getElem?_eq_getElem hi']
    obtain ⟨s'', hnext⟩ := hmid.copyWordTop hword hcopy
    refine ⟨s'', ?_⟩
    rw [List.take_add_one, List.getElem?_drop, List.getElem?_eq_getElem hi']
    simpa using hnext

theorem retype (h : Mirrors M routines block ws s w) (left right : NodeId)
    (hrun : Lift.retype left right ws = .ok () ws') :
    Mirrors M routines block ws' s w ∧ ws'.context = ws.context ∧ ws.tree.Grows ws'.tree := by
  cases hrun
  dsimp only
  split
  · exact ⟨h.modifySlot _ _, rfl, Tree.Grows.modifySlot _ _ _⟩
  · exact ⟨h, rfl, Tree.Grows.refl _⟩

theorem assign {stack : List W} (h : Mirrors M routines site.block ws s ⟨stack, calls⟩)
    {index : Nat} {left right : NodeId} (hleft : ws.context.slots[index]? = some left)
    (hright : s.Holds ws.tree right a) :
    Mirrors M routines site.block { ws with
      tree := (ws.tree.alloc site.ins.offset (.binary .assign left right false)).pushStatement
        site.block ws.tree.nextId } (s.assign left (.word a)) ⟨stack.set index a, calls⟩ :=
  (h.alloc site.ins.offset _).emit_leads (Meaning.leads_assign false hright.leads)
    (by simp [Tree.kind, Node.kind]) (h.content_set hleft a) h.calls

theorem copyWordDown {stack : List W} (h : Mirrors M routines site.block ws s ⟨stack, calls⟩)
    {start count i : Nat} (ha : stack[stack.length - 1 - i]? = some a)
    (hrun : site.copyWordDown start count i ws = .ok () ws') :
    ∃ s', Mirrors M routines site.block ws' s'
      ⟨stack.set (start + count - 1 - i) a, calls⟩ := by
  obtain ⟨_, _, hget, hafter⟩ := Lift.bind_eq_ok hrun
  cases hget
  obtain ⟨right, _, hcheck, hafterRight⟩ := Lift.bind_eq_ok hafter
  obtain ⟨hright, rfl⟩ := Site.check_eq_ok hcheck
  obtain ⟨hsource, -⟩ := Context.slots_word hright
  rw [h.length_eq] at hsource
  obtain ⟨left, _, haccess, hafterLeft⟩ := Lift.bind_eq_ok hafterRight
  obtain ⟨rfl, hleft⟩ := h.access haccess
  obtain ⟨_, mid, hretype, hassign⟩ := Lift.bind_eq_ok hafterLeft
  obtain ⟨hmid, hcontext, hgrow⟩ := h.retype left right.slot hretype
  cases hassign
  exact ⟨_, hmid.assign (by rwa [hcontext]) ((h.holds_at hsource ha).grow hgrow)⟩

/-- Words are assigned from the last one down; those read lie above all that were written. -/
theorem copyDown {stack : List W} (h : Mirrors M routines site.block ws s ⟨stack, calls⟩)
    (hbase : site.ins.opcode.base = .stack) (hsmall : stack.length < 2 ^ 62) {start : Nat}
    (haddress : Words.address site.ins stack = some start)
    (hle : start + 2 * site.ins.words ≤ stack.length)
    (hrun : site.copyDown ws = .ok () ws') :
    ∃ s', Mirrors M routines site.block ws' s'
      ⟨stack.take start ++ stack.drop (stack.length - site.ins.words) ++
        stack.drop (start + site.ins.words), calls⟩ := by
  obtain ⟨index, _, haddressed, hafter⟩ := Lift.bind_eq_ok hrun
  obtain ⟨rfl, rfl⟩ := h.addressed hbase hsmall haddress haddressed
  obtain ⟨_, _, hget, hrequire⟩ := Lift.bind_eq_ok hafter
  cases hget
  obtain ⟨_, _, hrequired, hloop⟩ := Lift.bind_eq_ok hrequire
  obtain ⟨-, rfl⟩ := Site.require_eq_ok hrequired
  rw [List.range_eq_range'] at hloop
  change index + 2 * (site.ins.size.toNat / 4) ≤ stack.length at hle
  generalize hcount : site.ins.size.toNat / 4 = count at hle hloop
  have hdone := Lift.forM_range_induction
    (P := fun i mid => ∃ s' stack', Mirrors M routines site.block mid s' ⟨stack', calls⟩ ∧
      stack'.length = stack.length ∧ ∀ j, stack'[j]? =
        if index + count - i ≤ j ∧ j < index + count then
          stack[j + (stack.length - (index + count))]? else stack[j]?)
    ⟨s, stack, h, rfl, fun j => by rw [if_neg (by omega)]⟩ ?_ hloop
  · obtain ⟨s', stack', hlast, hlen, hget⟩ := hdone
    refine ⟨s', ?_⟩
    have hstack : stack' = stack.take index ++ stack.drop (stack.length - count) ++
        stack.drop (index + count) := by
      refine List.ext_getElem? fun j => ?_
      rw [hget]
      by_cases hlow : j < index
      · rw [if_neg (by omega), List.append_assoc, List.getElem?_append_left (by simp; omega),
          List.getElem?_take_of_lt hlow]
      · by_cases hmid : j < index + count
        · rw [if_pos (by omega), List.getElem?_append_left (by simp; omega),
            List.getElem?_append_right (by simp; omega), List.getElem?_drop]
          congr 1
          simp
          omega
        · rw [if_neg (by omega), List.getElem?_append_right (by simp; omega), List.getElem?_drop]
          congr 1
          simp
          omega
    rw [Instruction.words, hcount, ← hstack]
    exact hlast
  · rintro i mid next - hi ⟨s', stack', hmid, hlen, hget⟩ hcopy
    have hread : stack'[stack'.length - 1 - i]? = some stack[stack.length - 1 - i] := by
      rw [hget, if_neg (by omega), hlen, List.getElem?_eq_getElem]
    obtain ⟨s'', hnext⟩ := hmid.copyWordDown hread hcopy
    refine ⟨s'', _, hnext, by simpa using hlen, fun j => ?_⟩
    rw [List.getElem?_set]
    by_cases hj : index + count - 1 - i = j
    · rw [if_pos hj, if_pos (by omega), if_pos (by omega), List.getElem?_eq_getElem (by omega)]
      congr 2
      omega
    · rw [if_neg hj, hget]
      by_cases hmem : index + count - i ≤ j ∧ j < index + count
      · rw [if_pos hmem, if_pos (by omega)]
      · rw [if_neg hmem, if_neg (by omega)]

theorem release (h : Mirrors M routines block ws s ⟨rest ++ top, calls⟩)
    (htop : top.length = site.ins.distance) (hrun : site.release ws = .ok () ws') :
    Mirrors M routines block ws' s ⟨rest, calls⟩ := by
  obtain ⟨position, _, hbelow, hafter⟩ := Lift.bind_eq_ok hrun
  obtain ⟨-, rfl, rfl⟩ := Site.below_eq_ok hbelow
  obtain ⟨ids, mid, hpop, hdiscard⟩ := Lift.bind_eq_ok hafter
  cases hdiscard
  change site.popMany site.ins.distance _ = _ at hpop
  rw [← htop] at hpop
  exact (h.popMany hpop).2.1

/-- The kept words close up on what lies below. -/
theorem destructWords (h : Mirrors M routines block ws s ⟨rest ++ top, calls⟩) {first last : Nat}
    (hrun : site.destructWords top.length first last ws = .ok () ws') :
    Mirrors M routines block ws' s ⟨rest ++ (top.take last).drop first, calls⟩ := by
  rw [Site.destructWords_eq] at hrun
  split at hrun
  · cases hpop : ws.context.popMany top.length with
    | error cause =>
      rw [hpop] at hrun
      cases hrun
    | ok popped =>
      rw [hpop] at hrun
      cases hrun
      obtain ⟨hslots, hlen⟩ := Context.slots_popMany hpop
      obtain ⟨-, hwords, hctx⟩ := Context.popMany_eq_ok hpop
      have hholds := h.holds
      rw [hslots] at hholds
      obtain ⟨hrest, htop⟩ := forall₂_split hholds (by simpa using hlen)
      refine h.shrink (by rw [hctx]) ?_ ?_
      · have hsub : ((popped.1.take last).drop first).reverse.Sublist
            (ws.context.stack.take top.length) := by
          rw [← List.reverse_reverse (ws.context.stack.take top.length), ← hwords]
          exact ((List.drop_sublist _ _).trans (List.take_sublist _ _)).reverse
        have happend := hsub.append (List.Sublist.refl (ws.context.stack.drop top.length))
        rw [List.take_append_drop] at happend
        rw [hctx]
        exact happend
      · have hkept := List.forall₂_drop first (List.forall₂_take last htop)
        rw [← List.map_take, ← List.map_drop] at hkept
        have hall := List.rel_append hrest hkept
        simpa [Context.slots] using hall
  · cases hrun

theorem destruct (h : Mirrors M routines block ws s ⟨rest ++ top, calls⟩)
    (hnonneg : 0 ≤ site.ins.stack) (hlen : top.length = site.ins.words)
    (hrun : site.destruct ws = .ok () ws') :
    Mirrors M routines block ws' s
      ⟨rest ++ (top.drop site.ins.distance).take (site.ins.keep.toNat / 4), calls⟩ := by
  unfold Site.destruct at hrun
  have hnot : ¬ site.ins.stack < 0 := by simpa using hnonneg
  have hposition : 0 ≤ site.ins.stack.toInt := by
    simpa using Int32.le_iff_toInt_le.1 hnonneg
  have hfirst : site.ins.stack.toInt.toNat / 4 = site.ins.distance := by
    rw [Instruction.distance]
    omega
  rw [if_neg hnot] at hrun
  change site.destructWords site.ins.words _ _ ws = _ at hrun
  rw [hfirst, ← hlen] at hrun
  have hdone := h.destructWords hrun
  rwa [List.drop_take, Nat.add_sub_cancel_left] at hdone

theorem applyStep {stack : List W} {op : UnaryOp} (hop : op.isStep = true)
    (h : Mirrors M routines site.block ws s ⟨stack, calls⟩)
    (hbase : site.ins.opcode.base = .stack) (hsmall : stack.length < 2 ^ 62) {index : Nat}
    (haddress : Words.address site.ins stack = some index) (hlt : index < stack.length)
    (hrun : site.applyStep op ws = .ok () ws') :
    ∃ s', Mirrors M routines site.block ws' s' ⟨stack.modify index (M.unary op), calls⟩ := by
  obtain ⟨index', _, haddressed, hafter⟩ := Lift.bind_eq_ok hrun
  obtain ⟨rfl, rfl⟩ := h.addressed hbase hsmall haddress haddressed
  obtain ⟨target, _, haccess, halloc⟩ := Lift.bind_eq_ok hafter
  obtain ⟨rfl, htarget⟩ := h.access haccess
  cases halloc
  have hholds := h.holds_at htarget (List.getElem?_eq_getElem hlt)
  rw [List.modify_eq_set_get _ hlt]
  exact ⟨_, (h.alloc site.ins.offset _).emit_leads (Meaning.leads_step hop hholds.leads)
    (by simp [Tree.kind, Node.kind]) (h.content_set htarget _) h.calls⟩

section Compare

variable {relation join : BinaryOp} {result : NodeId} {pair : NodeId × NodeId} {acc b : W}

theorem compareFirst (hrel : relation ≠ .assign) (h : Mirrors M routines site.block ws s w)
    (hresult : result ∉ ws.context.slots) (ha : s.Holds ws.tree pair.1 a)
    (hb : s.Holds ws.tree pair.2 b)
    (hrun : site.compareWord relation join result 0 pair ws = .ok () ws') :
    ws'.context = ws.context ∧ ws.tree.Grows ws'.tree ∧
      Mirrors M routines site.block ws' (s.assign result (.word (M.binary relation a b))) w := by
  cases hrun
  refine ⟨rfl, (Tree.Grows.alloc _ _ _).trans (Tree.Grows.record _ _ _ _ _), ?_⟩
  exact ((h.alloc site.ins.offset _).alloc site.ins.offset _).emit_leads
    (Meaning.leads_assign _ (Meaning.leads_binary hrel ha.leads hb.leads))
    (by simp [Tree.kind, Node.kind]) (h.content_assign rfl hresult _) h.calls

/-- Every other word joins the answer so far. -/
theorem compareNext (hrel : relation ≠ .assign) (hjoin : join ≠ .assign) {index : Nat}
    (h : Mirrors M routines site.block ws s w) (hresult : result ∉ ws.context.slots)
    (hacc : s.Holds ws.tree result acc) (ha : s.Holds ws.tree pair.1 a)
    (hb : s.Holds ws.tree pair.2 b)
    (hrun : site.compareWord relation join result (index + 1) pair ws = .ok () ws') :
    ws'.context = ws.context ∧ ws.tree.Grows ws'.tree ∧
      Mirrors M routines site.block ws'
        (s.assign result (.word (M.binary join acc (M.binary relation a b)))) w := by
  cases hrun
  have hgrow := Tree.Grows.alloc ws.tree site.ins.offset (.binary relation pair.1 pair.2 false)
  refine ⟨rfl, (hgrow.trans (Tree.Grows.alloc _ _ _)).trans (Tree.Grows.record _ _ _ _ _), ?_⟩
  have hword : M.Leads routines
      (ws.tree.alloc site.ins.offset (.binary relation pair.1 pair.2 false)) _ s _ s :=
    Meaning.leads_binary hrel ha.leads hb.leads
  exact (((h.alloc site.ins.offset _).alloc site.ins.offset _).alloc site.ins.offset _).emit_leads
    (Meaning.leads_assign _ (Meaning.leads_binary hjoin (hacc.grow hgrow).leads hword))
    (by simp [Tree.kind, Node.kind]) (h.content_assign rfl hresult _) h.calls

/-- Words read by a comparison: they are not the slot of its answer. -/
def Compares (s : Store W) (tree : Tree) (result : NodeId) (pair : NodeId × NodeId)
    (values : W × W) : Prop :=
  (s.Holds tree pair.1 values.1 ∧ pair.1 ≠ result) ∧
    (s.Holds tree pair.2 values.2 ∧ pair.2 ≠ result)

theorem Compares.keep {tree later : Tree} {values : W × W} (h : Compares s tree result pair values)
    (hg : tree.Grows later) (c : Content W) :
    Compares (s.assign result c) later result pair values :=
  ⟨⟨(h.1.1.grow hg).assign_of_ne h.1.2 c, h.1.2⟩, ⟨(h.2.1.grow hg).assign_of_ne h.2.2 c, h.2.2⟩⟩

theorem compareRest (hrel : relation ≠ .assign) (hjoin : join ≠ .assign) {index : Nat}
    {pairs : List (NodeId × NodeId)} {values : List (W × W)}
    (h : Mirrors M routines site.block ws s w) (hresult : result ∉ ws.context.slots)
    (hacc : s.Holds ws.tree result acc)
    (hpairs : List.Forall₂ (Compares s ws.tree result) pairs values)
    (hrun : ((pairs.zipIdx (index + 1)).forM fun words =>
      site.compareWord relation join result words.2 words.1) ws = .ok () ws') :
    ∃ s', ws'.context = ws.context ∧ Mirrors M routines site.block ws' s' w ∧
      s'.Holds ws'.tree result
        (values.foldl (fun acc v => M.binary join acc (M.binary relation v.1 v.2)) acc) := by
  induction pairs generalizing values index ws s acc with
  | nil =>
    cases hpairs
    cases hrun
    exact ⟨s, rfl, h, hacc⟩
  | cons pair pairs ih =>
    obtain ⟨v, values, hpair, hrest, rfl⟩ := List.forall₂_cons_left_iff.1 hpairs
    obtain ⟨_, mid, hword, hloop⟩ := Lift.bind_eq_ok hrun
    obtain ⟨hcontext, hgrow, hmid⟩ :=
      h.compareNext hrel hjoin hresult hacc hpair.1.1 hpair.2.1 hword
    obtain ⟨s', hlast, hdone, hanswer⟩ := ih hmid (by rwa [hcontext])
      ⟨hgrow.isSlot hacc.isSlot, Store.content_assign_self _ _ _⟩
      (hrest.imp fun p v hp => hp.keep hgrow _) hloop
    exact ⟨s', hlast.trans hcontext, hdone, hanswer⟩

theorem compareWith {left right : List W} (hrel : relation ≠ .assign) (hjoin : join ≠ .assign)
    (h : Mirrors M routines site.block ws s ⟨rest ++ left ++ right, calls⟩)
    (hleft : left.length = site.ins.words) (hright : right.length = site.ins.words)
    (hanswer : Words.compared M relation join left right = some a)
    (hrun : site.compareWith relation join ws = .ok () ws') :
    ∃ s', Mirrors M routines site.block ws' s' ⟨rest ++ [a], calls⟩ := by
  obtain ⟨_, _, hrequired, hafter⟩ := Lift.bind_eq_ok hrun
  obtain ⟨-, rfl⟩ := Site.require_eq_ok hrequired
  obtain ⟨rights, mid, hpopRight, hafterRight⟩ := Lift.bind_eq_ok hafter
  obtain ⟨lefts, low, hpopLeft, hafterLeft⟩ := Lift.bind_eq_ok hafterRight
  change site.popMany site.ins.words _ = _ at hpopRight hpopLeft
  rw [← hright] at hpopRight
  rw [← hleft] at hpopLeft
  obtain ⟨htree, hmid, hrights⟩ := h.popMany hpopRight
  obtain ⟨htree', hlow, hlefts⟩ := hmid.popMany hpopLeft
  obtain ⟨_, _, halloc, hafterAlloc⟩ := Lift.bind_eq_ok hafterLeft
  cases halloc
  obtain ⟨_, last, hloop, hpush⟩ := Lift.bind_eq_ok hafterAlloc
  rw [← htree'] at hlefts
  rw [← htree, ← htree'] at hrights
  have hone := hlow.alloc site.ins.offset (.slot { type := .int })
  have hpairs : List.Forall₂ (Compares s (low.tree.alloc site.ins.offset (.slot { type := .int }))
      low.tree.nextId) (lefts.zip rights) (left.zip right) :=
    (forall₂_zip_zip hlefts hrights).imp fun p v hp =>
      ⟨⟨hp.1.grow (Tree.Grows.alloc _ _ _), hp.1.ne_nextId⟩,
        ⟨hp.2.grow (Tree.Grows.alloc _ _ _), hp.2.ne_nextId⟩⟩
  unfold Words.compared at hanswer
  rw [← List.map_uncurry_zip_eq_zipWith] at hanswer
  cases hvalues : left.zip right with
  | nil =>
    rw [hvalues] at hanswer
    cases hanswer
  | cons v values =>
    rw [hvalues] at hanswer hpairs
    simp only [List.map_cons, List.foldl_map, Option.some.injEq, Function.uncurry_def] at hanswer
    obtain ⟨pair, pairs, hpair, hrest, heq⟩ := List.forall₂_cons_right_iff.1 hpairs
    rw [heq] at hloop
    obtain ⟨_, next, hfirst, hloopRest⟩ := Lift.bind_eq_ok hloop
    obtain ⟨hcontext, hgrow, hnext⟩ :=
      hone.compareFirst hrel hlow.nextId_notMem hpair.1.1 hpair.2.1 hfirst
    have hslot : next.tree.isSlot low.tree.nextId :=
      hgrow.isSlot (Tree.isSlot_of_node Tree.node_alloc_nextId)
    obtain ⟨s', hcontext', hlast, hacc⟩ := hnext.compareRest hrel hjoin
      (by rw [hcontext]; exact hlow.nextId_notMem) ⟨hslot, Store.content_assign_self _ _ _⟩
      (hrest.imp fun p v hp => hp.keep hgrow _) hloopRest
    cases hpush
    rw [hanswer] at hacc
    exact ⟨s', hlast.push hacc (by rw [hcontext', hcontext]; exact hlow.nextId_notMem)⟩

end Compare

theorem actionArgument {routine : Routine} {index : Nat} {type : ValueType}
    (hindex : routine.argumentType? index = some type) (htype : type.IsPassed)
    (hwidth : type = .vector ↔ ∃ v, c = .vector v)
    (h : Mirrors M routines block ws s ⟨rest ++ c.words, calls⟩)
    (hrun : site.actionArgument routine index ws = .ok id ws') :
    Mirrors M routines block ws' s ⟨rest, calls⟩ ∧ M.Leads routines ws'.tree id s c s := by
  unfold Site.actionArgument at hrun
  rw [hindex] at hrun
  cases c with
  | vector v =>
    obtain rfl := hwidth.2 ⟨v, rfl⟩
    obtain ⟨hrest, hlead, -⟩ := h.popVector hrun
    exact ⟨hrest, hlead⟩
  | word a =>
    have hpop : site.pop ws = .ok id ws' := by
      cases type <;> simp_all [ValueType.IsPassed]
    obtain ⟨htree, hrest, hholds⟩ := h.pop hpop
    rw [← htree] at hholds
    exact ⟨hrest, hholds.leads⟩

/-- Arguments are taken in order, the first from the top of the stack. -/
theorem actionArguments {routine : Routine} (first count : Nat) {stack : List W}
    {contents : List (Content W)} {ids : List NodeId}
    (hcount : first + count ≤ routine.arguments.length)
    (htypes : ∀ argument ∈ (routine.arguments.drop first).take count, argument.type.IsPassed)
    (h : Mirrors M routines block ws s ⟨stack, calls⟩)
    (hw : Words.popArguments (((routine.arguments.drop first).take count).map (·.type)) stack =
      some (contents, rest))
    (hrun : (List.range' first count).mapM (site.actionArgument routine) ws = .ok ids ws') :
    Mirrors M routines block ws' s ⟨rest, calls⟩ ∧
      List.Forall₂ (fun id c => M.Leads routines ws'.tree id s c s) ids contents := by
  induction count generalizing first stack contents ws ids with
  | zero =>
    simp only [List.take_zero, List.map_nil, Words.popArguments, Option.some.injEq,
      Prod.mk.injEq] at hw
    obtain ⟨rfl, rfl⟩ := hw
    cases hrun
    exact ⟨h, .nil⟩
  | succ count ih =>
    have hdrop : (routine.arguments.drop first).take (count + 1) =
        routine.arguments[first] :: (routine.arguments.drop (first + 1)).take count := by
      rw [List.drop_eq_getElem_cons (by omega), List.take_succ_cons]
    rw [hdrop] at hw htypes
    obtain ⟨c, cs, mid, rfl, hwidth, hcs, rfl⟩ :=
      Words.popArguments_cons (htypes _ List.mem_cons_self) hw
    rw [List.range'_succ, List.mapM_cons] at hrun
    obtain ⟨id, ws₁, hfirst, hafter⟩ := Lift.bind_eq_ok hrun
    obtain ⟨others, ws₂, hothers, hpure⟩ := Lift.bind_eq_ok hafter
    cases hpure
    have hindex : routine.argumentType? first = some routine.arguments[first].type := by
      rw [Routine.argumentType?, List.getElem?_eq_getElem (by omega)]
      rfl
    obtain ⟨h₁, hlead⟩ :=
      h.actionArgument hindex (htypes _ List.mem_cons_self) hwidth hfirst
    obtain ⟨h₂, hleads⟩ := ih (first + 1) (by omega)
      (fun a ha => htypes a (List.mem_cons_of_mem _ ha)) h₁ hcs hothers
    have hgrow := ((site.closed_grows { program := {}, routines }).keeps_mapM
      (fun i => (site.closed_grows { program := {}, routines }).keeps_actionArgument routine i) _).ok hothers
    exact ⟨h₂, .cons (hlead.grow hgrow) hleads⟩

theorem action {routine : Routine} (hroutine : routines.get? site.ins.routine = some routine)
    (htypes : ∀ argument ∈ routine.arguments.take site.ins.arity.toNat, argument.type.IsPassed)
    (h : Mirrors M routines site.block ws s w)
    (hw : Words.callRoutine M routine site.ins w = some w')
    (hrun : site.action routines ws = .ok () ws') :
    ∃ s', Mirrors M routines site.block ws' s' w' := by
  obtain ⟨stack, past⟩ := w
  unfold Words.callRoutine at hw
  split at hw
  · next harity =>
    obtain ⟨⟨contents, rest⟩, hpop, hw⟩ := Option.bind_eq_some_iff.1 hw
    cases hw
    unfold Site.action at hrun
    rw [hroutine] at hrun
    obtain ⟨ids, mid, hargs, hafter⟩ := Lift.bind_eq_ok hrun
    rw [List.range_eq_range'] at hargs
    obtain ⟨hmid, hleads⟩ := h.actionArguments 0 _ (by omega) (by simpa using htypes)
      (by simpa using hpop) hargs
    obtain ⟨_, _, halloc, hdone⟩ := Lift.bind_eq_ok hafter
    cases halloc
    have hcall : M.Leads routines
        (mid.tree.alloc site.ins.offset (.action site.ins.routine ids)) _ s _ _ :=
      Meaning.leads_action hleads
    have halloc := hmid.alloc site.ins.offset (.action site.ins.routine ids)
    rw [hmid.calls] at hcall
    split at hdone
    · next hvoid =>
      cases hdone
      refine ⟨_, halloc.emit_leads hcall (by simp [Tree.kind, Node.kind]) ?_ rfl⟩
      simpa [hvoid, Words.answerWords] using hmid.holds.imp fun _ _ hid => hid.content
    · next hvoid =>
      have hdone := halloc.produce hcall rfl
        (Meaning.reply_vector_iff hroutine past _) hdone
      rwa [Meaning.words_reply hroutine hvoid] at hdone
  · cases hw

theorem placeLabel {labels : List (Nat × NodeId)}
    (hlabels : ∀ target label, labels.lookup target = some label → ws.tree.node label = .label)
    (h : Mirrors M routines site.block ws s w)
    (hrun : site.placeLabel labels ws = .ok () ws') : Mirrors M routines site.block ws' s w := by
  unfold Site.placeLabel at hrun
  cases hlabel : labels.lookup site.ins.offset with
  | none =>
    rw [hlabel] at hrun
    cases hrun
    exact h
  | some label =>
    rw [hlabel] at hrun
    cases hrun
    refine h.emit (fun later hg => ?_) (h.holds.imp fun _ _ hid => hid.content) h.calls
    have hlater := ((Tree.Grows.pushStatement ws.tree _ _).trans hg).node_of_eq
      (hlabels _ label hlabel) (by simp [Node.kind]) (by simp [Node.kind])
    simp only [Meaning.execute, hlater]

end Mirrors

/-- Instructions that neither jump nor use globals and pass every argument on the stack. A copy does
not write to the words that it copies. -/
def Instruction.isStraight (routines : Routines) (ins : Instruction) : Bool :=
  match ins.opcode.order with
  | .idle | .reserve | .literal | .copyTop .stack | .release | .destruct | .step _ .stack
  | .unary _ | .binary _ | .compare _ _ => true
  | .copyDown .stack => 2 * ins.words ≤ ins.distance
  | .routine =>
    match routines.get? ins.routine with
    | some routine =>
      (routine.arguments.take ins.arity.toNat).all fun argument => argument.type.IsPassed
    | none => true
  | _ => false

namespace Mirrors

variable {W : Type} {M : Meaning W} {script : Script} {site : Site} {ws ws' : Workspace}
  {s : Store W} {w w' : Words W} {flow : Flow} {callees : List (Nat × SubId)}

theorem onward {handler : Lift Unit} (hrun : site.onward handler ws = .ok flow ws')
    (h : ∀ mid, handler ws = .ok () mid → ∃ s', Mirrors M script.routines site.block mid s' w) :
    flow = .next site.ins.next ∧ ∃ s', Mirrors M script.routines site.block ws' s' w := by
  obtain ⟨_, mid, hhandler, hpure⟩ := Lift.bind_eq_ok hrun
  cases hpure
  exact ⟨rfl, h _ hhandler⟩

/-- A straight instruction does to the simulated stack what the machine does to its words. -/
theorem execute (hstraight : site.ins.isStraight script.routines)
    (h : Mirrors M script.routines site.block ws s w) (hsmall : w.stack.length < 2 ^ 62)
    (hw : Words.step M script.routines site.ins w = some w')
    (hrun : site.execute script callees ws = .ok flow ws') :
    flow = .next site.ins.next ∧ ∃ s', Mirrors M script.routines site.block ws' s' w' := by
  obtain ⟨stack, past⟩ := w
  have hrenders := site.ins.renders
  simp only [Instruction.isStraight, Site.execute, Words.step, Words.stackAfter] at hstraight hrun hw
  generalize hop : site.ins.opcode.operation = operation at hrenders hrun
  generalize site.ins.opcode.order = order at hrenders hstraight hw
  cases hrenders <;>
    simp only [Option.map_eq_some_iff, Bool.false_eq_true] at hstraight hrun hw
  case nop =>
    obtain ⟨_, hstack, rfl⟩ := hw
    cases hstack
    refine onward hrun fun _ hpure => ?_
    cases hpure
    exact ⟨s, h⟩
  case reserve =>
    obtain ⟨_, hstack, rfl⟩ := hw
    cases hstack
    obtain ⟨type, -, heq⟩ := Site.reserve_eq hop
    exact onward hrun fun _ hreserve => h.declareBare (heq ▸ hreserve)
  case load =>
    obtain ⟨_, ⟨value, hvalue, rfl⟩, rfl⟩ := hw
    exact onward hrun fun _ hload => h.load hvalue hload
  case action =>
    obtain ⟨routine, hroutine, hcall⟩ := Option.bind_eq_some_iff.1 hw
    rw [hroutine] at hstraight
    refine onward hrun fun _ haction => h.action hroutine (fun argument hmem => ?_) hcall haction
    simpa using List.all_eq_true.1 hstraight argument hmem
  case copyDown =>
    cases hbase : site.ins.opcode.base with
    | globals =>
      rw [hbase] at hstraight
      cases hstraight
    | stack =>
      rw [hbase] at hstraight hw
      obtain ⟨_, hstack, rfl⟩ := hw
      obtain ⟨start, haddress, hcopy⟩ := Option.bind_eq_some_iff.1 hstack
      split at hcopy
      · cases hcopy
        have hdisjoint : start + 2 * site.ins.words ≤ stack.length := by
          have hfar : 2 * site.ins.words ≤ site.ins.distance := by simpa using hstraight
          have := Words.address_eq_some haddress
          omega
        exact onward hrun fun _ hdown => h.copyDown hbase hsmall haddress hdisjoint hdown
      · cases hcopy
  case copyTop =>
    cases hbase : site.ins.opcode.base with
    | globals =>
      rw [hbase] at hstraight
      cases hstraight
    | stack =>
      rw [hbase] at hw
      obtain ⟨_, hstack, rfl⟩ := hw
      obtain ⟨start, haddress, hcopy⟩ := Option.bind_eq_some_iff.1 hstack
      split at hcopy
      · next hle =>
        cases hcopy
        exact onward hrun fun _ htop => h.copyTop hbase hsmall haddress hle htop
      · cases hcopy
  case release =>
    obtain ⟨_, hstack, rfl⟩ := hw
    split at hstack
    · obtain ⟨⟨rest, top⟩, hpop, hrest⟩ := Option.bind_eq_some_iff.1 hstack
      cases hrest
      obtain ⟨rfl, hlen⟩ := Words.pop_eq_some hpop
      exact onward hrun fun _ hrelease => ⟨s, h.release hlen hrelease⟩
    · cases hstack
  case destruct =>
    obtain ⟨_, hstack, rfl⟩ := hw
    split at hstack
    · next hkeep =>
      obtain ⟨⟨rest, top⟩, hpop, hrest⟩ := Option.bind_eq_some_iff.1 hstack
      cases hrest
      obtain ⟨rfl, hlen⟩ := Words.pop_eq_some hpop
      exact onward hrun fun _ hdestruct => ⟨s, h.destruct hkeep.1 hlen hdestruct⟩
    · cases hstack
  case step op hrow =>
    obtain ⟨_, hsame, heq⟩ := Site.step_eq hop
    cases hrow.symm.trans hsame
    have hstep : op.isStep = true := by simp [Instruction.unaryOperator_isStep hrow, hop]
    cases hbase : site.ins.opcode.base with
    | globals =>
      rw [hbase] at hstraight
      cases hstraight
    | stack =>
      rw [hbase] at hw
      obtain ⟨_, hstack, rfl⟩ := hw
      obtain ⟨index, haddress, hmodify⟩ := Option.bind_eq_some_iff.1 hstack
      split at hmodify
      · next hlt =>
        cases hmodify
        exact onward hrun fun _ hrun => h.applyStep hstep hbase hsmall haddress hlt (heq ▸ hrun)
      · cases hmodify
  case unary op hrow =>
    obtain ⟨_, hsame, heq⟩ := Site.unary_eq hop
    cases hrow.symm.trans hsame
    have hstep : op.isStep = false := by simp [Instruction.unaryOperator_isStep hrow, hop]
    obtain ⟨_, hstack, rfl⟩ := hw
    obtain ⟨⟨rest, top⟩, hpop, htop⟩ := Option.bind_eq_some_iff.1 hstack
    obtain ⟨hsplit, hlen⟩ := Words.pop_eq_some hpop
    obtain ⟨a, rfl⟩ := List.length_eq_one_iff.1 hlen
    cases htop
    subst hsplit
    exact onward hrun fun _ hunary => h.applyUnary hstep (heq ▸ hunary)
  case binary op left right result shape hrow htypes hleft hright hshape hwidth =>
    obtain ⟨_, hsame, heq⟩ := Site.binary_eq hop
    cases hrow.symm.trans hsame
    have hassign : op ≠ .assign := Instruction.binaryOperation_ne_assign hrow
    rw [htypes] at hw
    subst hshape
    obtain ⟨_, hstack, rfl⟩ := hw
    exact onward hrun fun _ hbinary =>
      h.applyBinary hassign hleft hright hwidth hstack (heq ▸ hbinary)
  case compare =>
    obtain ⟨_, hstack, rfl⟩ := hw
    obtain ⟨⟨mid, right⟩, hright, hafter⟩ := Option.bind_eq_some_iff.1 hstack
    obtain ⟨⟨rest, left⟩, hleft, hanswer⟩ := Option.bind_eq_some_iff.1 hafter
    obtain ⟨a, ha, hdone⟩ := Option.bind_eq_some_iff.1 hanswer
    cases hdone
    obtain ⟨rfl, hlenRight⟩ := Words.pop_eq_some hright
    obtain ⟨rfl, hlenLeft⟩ := Words.pop_eq_some hleft
    have hassign := site.ins.opcode.comparison_ne_assign
    exact onward hrun fun _ hcompare =>
      h.compareWith hassign.1 hassign.2 hlenLeft hlenRight ha hcompare

theorem visit (site : Site)
    (hlabels : ∀ target label, script.labels.lookup target = some label →
      ws.tree.node label = .label)
    (hstraight : site.ins.isStraight script.routines)
    (h : Mirrors M script.routines site.block ws s w) (hsmall : w.stack.length < 2 ^ 62)
    (hw : Words.step M script.routines site.ins w = some w')
    (hrun : site.visit script callees ws = .ok flow ws') :
    flow = .next site.ins.next ∧ ∃ s', Mirrors M script.routines site.block ws' s' w' := by
  obtain ⟨_, mid, hlabel, hexecute⟩ := Lift.bind_eq_ok hrun
  exact execute hstraight (h.placeLabel hlabels hlabel) hsmall hw hexecute

theorem visit_ret (site : Site)
    (hlabels : ∀ target label, script.labels.lookup target = some label →
      ws.tree.node label = .label)
    (hop : site.ins.opcode.operation = .ret) (h : Mirrors M script.routines site.block ws s w)
    (hrun : site.visit script callees ws = .ok flow ws') :
    flow = .stop ∧ Mirrors M script.routines site.block ws' s w := by
  obtain ⟨_, mid, hlabel, hexecute⟩ := Lift.bind_eq_ok hrun
  have hmid := h.placeLabel hlabels hlabel
  simp only [Site.execute, hop] at hexecute
  cases hexecute
  refine ⟨rfl, (hmid.alloc site.ins.offset (.ret none)).emit (fun later hg => ?_)
    (hmid.holds.imp fun _ _ hid => hid.content) hmid.calls⟩
  have hlater := Meaning.node_of_grows_alloc (by simp [Node.kind]) (by simp [Node.kind])
    ((Tree.Grows.pushStatement _ _ _).trans hg)
  simp only [Meaning.execute, hlater]

end Mirrors

end ScriptLift
