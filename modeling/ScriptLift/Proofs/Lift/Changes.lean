import Mathlib.Logic.Relation
import ScriptLift.Proofs.Lift.Pushes

/-! What an instruction does, one update after the other.

The updates are few. Nodes are made, some become statements of the block at once, and a slot of the
subroutine's own comes with the statement that declares it. Words are pushed and taken, arguments
are found and marked, and the slots of stack words change their type or become globals. Only the last
update of an instruction that ends its block records a return or a goto there. -/
namespace ScriptLift

namespace Node

/-- Statements that control does not pass. -/
def leaves : Node → Bool
  | .ret _ | .goto _ => true
  | _ => false

/-- Nodes that hold no statements, name no place, declare nothing and let control pass. -/
def isPlain (node : Node) : Bool :=
  match node with
  | .block _ | .slot _ => false
  | _ => !node.leaves && !node.isDeclaration

variable {node : Node}

theorem kind_ne_block_of_isPlain (h : node.isPlain) : node.kind ≠ .block := by
  cases node <;> simp_all [isPlain, kind]

theorem kind_ne_slot_of_isPlain (h : node.isPlain) : node.kind ≠ .slot := by
  cases node <;> simp_all [isPlain, kind]

theorem leaves_of_isPlain (h : node.isPlain) : node.leaves = false := by
  cases node <;> simp_all [isPlain, leaves]

theorem isDeclaration_of_isPlain (h : node.isPlain) : node.isDeclaration = false := by
  cases node <;> simp_all [isPlain]

theorem kind_ne_block_of_leaves (h : node.leaves) : node.kind ≠ .block := by
  cases node <;> simp_all [leaves, kind]

end Node

namespace Tree

/-- A slot of a subroutine itself or a global. -/
def IsWord (tree : Tree) (id : NodeId) : Prop :=
  ∃ slot, tree.slot? id = some slot ∧ slot.storage ≠ .argument

/-- A new slot, the node that its value may take, and the assignment that declares it. -/
def declare (tree : Tree) (offset : Nat) (block : NodeId) (slot : Slot) (made : Option Node)
    (value : NodeId) : Tree :=
  let placed := tree.alloc offset (.slot slot)
  let valued := made.elim placed (placed.alloc offset)
  (valued.alloc offset (.binary .assign tree.nextId value true)).pushStatement block valued.nextId

end Tree

namespace Tree.IsWord

variable {tree : Tree} {id : NodeId}

theorem index_lt (h : tree.IsWord id) : id.index < tree.size := by
  obtain ⟨slot, hslot, -⟩ := h
  exact lt_size_of_isSlot (by rw [isSlot, hslot, Option.isSome_some])

theorem alloc (h : tree.IsWord id) (offset : Nat) (node : Node) :
    (tree.alloc offset node).IsWord id := by
  rwa [IsWord, slot?_alloc_of_lt h.index_lt]

theorem pushStatement (h : tree.IsWord id) (block s : NodeId) :
    (tree.pushStatement block s).IsWord id := by
  rwa [IsWord, slot?_pushStatement]

theorem modifySlot (h : tree.IsWord id) (slot : NodeId) {f : Slot → Slot}
    (hf : ∀ s, s.storage ≠ .argument → (f s).storage ≠ .argument) :
    (tree.modifySlot slot f).IsWord id := by
  obtain ⟨s, hs, hstorage⟩ := h
  by_cases hid : id = slot
  · subst hid
    exact ⟨f s, by rw [slot?_modifySlot_self, hs, Option.map_some], hf s hstorage⟩
  · exact ⟨s, by rw [slot?_modifySlot_of_ne hid, hs], hstorage⟩

theorem nextId {slot : Slot} (h : slot.storage ≠ .argument) (offset : Nat) :
    (tree.alloc offset (.slot slot)).IsWord tree.nextId :=
  ⟨slot, by rw [slot?, node_alloc_nextId], h⟩

theorem declared {offset : Nat} {slot : Slot} (h : (tree.alloc offset (.slot slot)).IsWord id)
    (block : NodeId) (made : Option Node) (value : NodeId) :
    (tree.declare offset block slot made value).IsWord id := by
  cases made with
  | none => exact (h.alloc _ _).pushStatement _ _
  | some node => exact ((h.alloc _ _).alloc _ _).pushStatement _ _

end Tree.IsWord

namespace Workspace

/-- A slot that an instruction works on: a word on the stack, or an argument found by then. -/
def Reaches (ws : Workspace) (slot : NodeId) : Prop :=
  (∃ word ∈ ws.context.stack, word.slot = slot) ∨ ∃ position, (position, slot) ∈ ws.outer

def record (ws : Workspace) (offset : Nat) (block : NodeId) (node : Node) : Workspace :=
  { ws with tree := (ws.tree.alloc offset node).pushStatement block ws.tree.nextId }

end Workspace

/-- One update of the workspace by the instruction at `site`. -/
inductive Site.Change (site : Site) (script : Script) : Workspace → Workspace → Prop
  | make {ws node} : node.isPlain →
      Change site script ws { ws with tree := ws.tree.alloc site.ins.offset node }
  | record {ws node} : node.isPlain →
      Change site script ws (ws.record site.ins.offset site.block node)
  | label {ws target label} : script.labels.lookup target = some label →
      Change site script ws { ws with tree := ws.tree.pushStatement site.block label }
  /-- A block of its own for a conditional goto. -/
  | fork {ws label} : Change site script ws { ws with
      tree := ((ws.tree.alloc site.ins.offset (.block [])).alloc site.ins.offset
        (.goto label)).pushStatement ws.tree.nextId
          (ws.tree.alloc site.ins.offset (.block [])).nextId }
  | schedule {ws offset} : Change site script ws { ws with
      tree := ws.tree.alloc offset (.block [])
      blocks := ((offset, ws.context.depth), ws.tree.nextId) :: ws.blocks
      spawned := some ⟨ws.tree.nextId, offset, ws.context⟩ }
  /-- A slot that is declared on its own. -/
  | reserve {ws slot} : slot.storage = .own →
      Change site script ws (ws.record site.ins.offset site.block (.slot slot))
  | declare {ws slot made value} : slot.storage = .own → (∀ node, made = some node → node.isPlain) →
      Change site script ws
        { ws with tree := ws.tree.declare site.ins.offset site.block slot made value }
  | push {ws slot} : ws.tree.IsWord slot →
      Change site script ws { ws with context := ws.context.push slot }
  | context {ws context} : context.stack.Sublist ws.context.stack →
      context.calls = ws.context.calls → Change site script ws { ws with context := context }
  /-- An argument that is known already. -/
  | mark {ws position slot how} : (position, slot) ∈ ws.outer →
      Change site script ws { ws with tree := ws.tree.modifySlot slot (·.mark how) }
  /-- An argument that is new: a word below those that were there at entry. -/
  | argument {ws position type how} : ws.outer.lookup position = none → -0x80000000 ≤ position →
      position < 0 → (∃ index : Nat, position = ((index : Int) - ws.context.top.entered) * 4) →
      Change site script ws { ws with
        tree := ws.tree.alloc site.ins.offset
          (.slot (Slot.mark { type, storage := .argument, position := some position } how))
        outer := Outer.insert position ws.tree.nextId ws.outer }
  | retype {ws slot type} : ws.Reaches slot → Change site script ws { ws with
      tree := ws.tree.modifySlot slot fun s => { s with type } }
  | promote {ws word} : word ∈ ws.context.stack → Change site script ws { ws with
      tree := ws.tree.modifySlot word.slot fun s => { s with storage := .global } }
  | warn {ws text} : Change site script ws { ws with tree := { ws.tree with
      diagnostics := ws.tree.diagnostics.warning site.entry site.start text } }

/-- The block of an instruction and the labels of the script are in the tree. -/
structure Site.InTree (site : Site) (script : Script) (tree : Tree) : Prop where
  block : tree.IsBlock site.block
  label : ∀ target label, script.labels.lookup target = some label →
    label.index < tree.size ∧ tree.kind label = .label

theorem Site.InTree.grows {site : Site} {script : Script} {tree new : Tree}
    (h : site.InTree script tree) (hgrow : tree.Grows new) : site.InTree script new := by
  refine ⟨h.block.mono hgrow, fun target label hlabel => ?_⟩
  obtain ⟨hlt, hkind⟩ := h.label target label hlabel
  exact ⟨Nat.lt_of_lt_of_le hlt hgrow.size, by rw [hgrow.kind_eq hlt, hkind]⟩

/-- A sequence of updates. -/
abbrev Site.Changes (site : Site) (script : Script) : Workspace → Workspace → Prop :=
  Relation.ReflTransGen (site.Change script)

/-- What `x` does from `ws` on, failing or not, are updates. Where it does not fail, `Q` holds of its
answer and of what it leaves. -/
def Site.Proceeds (site : Site) (script : Script) {α : Type} (ws : Workspace) (x : Lift α)
    (Q : α → Workspace → Prop) : Prop :=
  match x ws with
  | .ok a ws' => site.Changes script ws ws' ∧ Q a ws'
  | .error _ ws' => site.Changes script ws ws'

namespace Site

open Lift

variable {site : Site} {script : Script} {ws ws' : Workspace}

namespace Change

theorem grows (h : site.Change script ws ws') : ws.tree.Grows ws'.tree := by
  cases h with
  | make | schedule | argument => exact .alloc _ _ _
  | record | reserve => exact .record _ _ _ _ _
  | label => exact .pushStatement _ _ _
  | fork => exact (Tree.Grows.alloc _ _ _).trans (.record _ _ _ _ _)
  | @declare slot made value =>
    cases made with
    | none => exact (Tree.Grows.alloc _ _ _).trans (.record _ _ _ _ _)
    | some node =>
      exact ((Tree.Grows.alloc _ _ _).trans (.alloc _ _ _)).trans (.record _ _ _ _ _)
  | push | context => exact .refl _
  | mark | retype | promote => exact .modifySlot _ _ _
  | warn => exact .of_exprs_eq rfl

theorem isWord (h : site.Change script ws ws') {id : NodeId} (hid : ws.tree.IsWord id) :
    ws'.tree.IsWord id := by
  cases h with
  | make | schedule | argument => exact hid.alloc _ _
  | record | reserve => exact (hid.alloc _ _).pushStatement _ _
  | label => exact hid.pushStatement _ _
  | fork => exact ((hid.alloc _ _).alloc _ _).pushStatement _ _
  | declare => exact (hid.alloc _ _).declared _ _ _
  | push | context | warn => exact hid
  | mark | retype => exact hid.modifySlot _ fun _ h => h
  | promote => exact hid.modifySlot _ (by simp)

end Change

theorem Changes.keeps {P : Workspace → Prop}
    (hchange : ∀ {ws ws'}, site.Change script ws ws' → P ws → P ws')
    (h : site.Changes script ws ws') (hws : P ws) : P ws' := by
  induction h with
  | refl => exact hws
  | tail _ hstep ih => exact hchange hstep ih

theorem Changes.isWord (h : site.Changes script ws ws') {id : NodeId} (hid : ws.tree.IsWord id) :
    ws'.tree.IsWord id :=
  h.keeps (P := fun ws => ws.tree.IsWord id) (fun hchange => hchange.isWord) hid

namespace Proceeds

variable {α β : Type} {a : α} {x : Lift α} {Q : α → Workspace → Prop}

theorem of_error {fault : Error} (hrun : x ws = .error fault ws')
    (h : site.Changes script ws ws') : site.Proceeds script ws x Q := by
  simpa only [Proceeds, hrun] using h

theorem of_ok (hrun : x ws = .ok a ws') (h : site.Changes script ws ws') (hq : Q a ws') :
    site.Proceeds script ws x Q := by
  simpa only [Proceeds, hrun] using And.intro h hq

theorem single (hrun : x ws = .ok a ws') (h : site.Change script ws ws') (hq : Q a ws') :
    site.Proceeds script ws x Q :=
  of_ok hrun (.single h) hq

theorem step {mid : Workspace} {y : Lift α} (h : site.Change script ws mid) (hrun : x ws = y mid)
    (hy : site.Proceeds script mid y Q) : site.Proceeds script ws x Q := by
  unfold Proceeds at hy ⊢
  rw [hrun]
  cases hlast : y mid with
  | error fault last =>
    rw [hlast] at hy
    exact .head h hy
  | ok a last =>
    rw [hlast] at hy
    exact ⟨.head h hy.1, hy.2⟩

theorem pure (hq : Q a ws) : site.Proceeds script ws (Pure.pure a : Lift α) Q :=
  of_ok rfl .refl hq

theorem throw (fault : Error) : site.Proceeds script ws (MonadExcept.throw fault : Lift α) Q :=
  of_error rfl .refl

theorem bind {f : α → Lift β} {Q' : β → Workspace → Prop} (hx : site.Proceeds script ws x Q)
    (hf : ∀ a mid, site.Changes script ws mid → Q a mid → site.Proceeds script mid (f a) Q') :
    site.Proceeds script ws (x >>= f) Q' := by
  unfold Proceeds at hx
  change match EStateM.bind x f ws with
    | .ok b ws' => site.Changes script ws ws' ∧ Q' b ws'
    | .error _ ws' => site.Changes script ws ws'
  unfold EStateM.bind
  cases hrun : x ws with
  | error fault mid =>
    rw [hrun] at hx
    exact hx
  | ok a mid =>
    rw [hrun] at hx
    obtain ⟨hchanges, hq⟩ := hx
    have hlast := hf a mid hchanges hq
    unfold Proceeds at hlast
    dsimp only
    cases hrun' : f a mid with
    | error fault last =>
      rw [hrun'] at hlast
      exact hchanges.trans hlast
    | ok b last =>
      rw [hrun'] at hlast
      exact ⟨hchanges.trans hlast.1, hlast.2⟩

theorem mono {Q' : α → Workspace → Prop} (hx : site.Proceeds script ws x Q)
    (h : ∀ a ws', site.Changes script ws ws' → Q a ws' → Q' a ws') :
    site.Proceeds script ws x Q' := by
  unfold Proceeds at hx ⊢
  split at hx
  · exact ⟨hx.1, h _ _ hx.1 hx.2⟩
  · exact hx

theorem forget (hx : site.Proceeds script ws x Q) :
    site.Proceeds script ws x fun _ _ => True :=
  hx.mono fun _ _ _ _ => trivial

theorem forM {f : α → Lift Unit} {I : Workspace → Prop} {xs : List α} (hi : I ws)
    (hf : ∀ a ∈ xs, ∀ mid, I mid → site.Proceeds script mid (f a) fun _ => I) :
    site.Proceeds script ws (xs.forM f) fun _ => I := by
  induction xs generalizing ws with
  | nil => exact pure hi
  | cons a xs ih =>
    exact bind (hf a List.mem_cons_self ws hi) fun _ mid _ hmid =>
      ih hmid fun b hb => hf b (List.mem_cons_of_mem _ hb)

theorem mapM {f : α → Lift β} {xs : List α}
    (hf : ∀ a mid, site.Proceeds script mid (f a) fun _ _ => True) :
    site.Proceeds script ws (xs.mapM f) fun _ _ => True := by
  induction xs generalizing ws with
  | nil => exact pure trivial
  | cons a xs ih =>
    rw [List.mapM_cons]
    exact bind (hf a ws) fun b _ _ _ => bind ih fun bs _ _ _ => pure trivial

theorem get_bind {f : Workspace → Lift β} {Q' : β → Workspace → Prop}
    (h : site.Proceeds script ws (f ws) Q') :
    site.Proceeds script ws ((MonadState.get : Lift Workspace) >>= f) Q' := h

end Proceeds

theorem proceeds_require (condition : Bool) (cause : Inconsistency) :
    site.Proceeds script ws (site.require condition cause) fun _ _ => condition := by
  unfold require
  split
  · next h => exact .pure h
  · exact .throw _

theorem proceeds_check {α : Type} (result : Except Inconsistency α) :
    site.Proceeds script ws (site.check result) fun a ws' => result = .ok a ∧ ws' = ws := by
  cases result with
  | ok a => exact .pure ⟨rfl, rfl⟩
  | error cause => exact .throw _

theorem proceeds_consult {α : Type} (row : Except Error α) :
    site.Proceeds script ws (Lift.consult row) fun _ _ => True := by
  cases row with
  | ok a => exact .pure trivial
  | error e => exact .throw e

theorem proceeds_alloc {node : Node} (h : node.isPlain) :
    site.Proceeds script ws (site.alloc node) fun _ _ => True :=
  .single rfl (.make h) trivial

theorem proceeds_record {node : Node} (h : node.isPlain) :
    site.Proceeds script ws (site.alloc node >>= fun id => site.emit id) fun _ _ => True :=
  .single rfl (.record h) trivial

theorem proceeds_push {slot : NodeId} (h : ws.tree.IsWord slot) :
    site.Proceeds script ws (Lift.push slot) fun _ _ => True :=
  .single rfl (.push h) trivial

theorem proceeds_popMany (count : Nat) :
    site.Proceeds script ws (site.popMany count) fun slots _ => slots.length = count := by
  have hrun := popMany_eq site ws count
  cases hpop : ws.context.popMany count with
  | error cause =>
    rw [hpop] at hrun
    exact .of_error hrun .refl
  | ok popped =>
    rw [hpop] at hrun
    obtain ⟨hle, hwords, hcontext⟩ := Context.popMany_eq_ok hpop
    refine .single hrun (.context ?_ ?_) ?_
    · rw [hcontext]
      exact List.drop_sublist _ _
    · rw [hcontext]
    · rw [hwords, List.length_map, List.length_reverse, List.length_take]
      exact Nat.min_eq_left hle

theorem proceeds_pop : site.Proceeds script ws site.pop fun _ _ => True := by
  have hrun := pop_eq site ws
  cases hpop : ws.context.pop with
  | error cause =>
    rw [hpop] at hrun
    exact .of_error hrun .refl
  | ok popped =>
    rw [hpop] at hrun
    obtain ⟨hstack, hcontext⟩ := Context.pop_eq_ok hpop
    refine .single hrun (.context ?_ ?_) trivial
    · rw [hstack]
      exact List.sublist_cons_self _ _
    · rw [hcontext]

theorem proceeds_bindSlot {slot : Slot} (h : slot.storage = .own) (value : NodeId) :
    site.Proceeds script ws (site.bindSlot slot value)
      fun target ws' => ws'.tree.IsWord target := by
  let declared : Workspace := { ws with
    tree := ws.tree.declare site.ins.offset site.block slot none value }
  have hchange : site.Change script ws declared := .declare h (by simp)
  have hword : declared.tree.IsWord ws.tree.nextId :=
    (Tree.IsWord.nextId (by simp [h]) _).declared _ _ _
  have hpure : site.Proceeds script declared (Pure.pure ws.tree.nextId : Lift NodeId)
      fun target ws' => ws'.tree.IsWord target := .pure hword
  exact .step hchange rfl hpure

theorem proceeds_declare (type : ValueType) (value : NodeId) :
    site.Proceeds script ws (site.declare type value) fun _ _ => True :=
  .bind (proceeds_bindSlot rfl value) fun _ _ _ hslot => proceeds_push hslot

theorem proceeds_below : site.Proceeds script ws site.below fun _ _ => True := by
  unfold below
  split
  · exact .pure trivial
  · exact .throw _

theorem proceeds_addressed : site.Proceeds script ws site.addressed fun _ _ => True :=
  .bind proceeds_below fun _ _ _ _ => .get_bind (proceeds_check _).forget

theorem mem_insert_self (position : Int) (slot : NodeId) (outer : Outer) :
    (position, slot) ∈ Outer.insert position slot outer := by
  induction outer with
  | nil => exact List.mem_singleton.2 rfl
  | cons entry rest ih =>
    unfold Outer.insert
    split
    · exact List.mem_cons_self
    · exact List.mem_cons_of_mem _ ih

theorem proceeds_argument {position : Int} (hlow : -0x80000000 ≤ position) (hneg : position < 0)
    (hindex : ∃ index : Nat, position = ((index : Int) - ws.context.top.entered) * 4)
    (type : ValueType) (how : Access) :
    site.Proceeds script ws (site.argument position type how) fun slot ws' => ws'.Reaches slot := by
  cases hlookup : ws.outer.lookup position with
  | some slot =>
    have hmem := mem_of_lookup hlookup
    let marked : Workspace := { ws with tree := ws.tree.modifySlot slot (·.mark how) }
    have hrun : site.argument position type how ws = .ok slot marked := by
      simp only [argument, hlookup, marked]
    exact .single hrun (.mark hmem) (.inr ⟨position, hmem⟩)
  | none =>
    let fresh : Slot := { type, storage := .argument, position := some position }
    let found : Workspace := { ws with
      tree := ws.tree.alloc site.ins.offset (.slot (fresh.mark how))
      outer := Outer.insert position ws.tree.nextId ws.outer }
    have hrun : site.argument position type how ws = .ok ws.tree.nextId found := by
      simp only [argument, hlookup, found, fresh]
    exact .single hrun (.argument hlookup hlow hneg hindex)
      (.inr ⟨position, mem_insert_self position _ _⟩)

theorem proceeds_access (index : Nat) (how : Access) :
    site.Proceeds script ws (site.access index how) fun slot ws' => ws'.Reaches slot := by
  refine .get_bind (.bind (proceeds_check _) ?_)
  rintro word mid - ⟨hword, rfl⟩
  split
  · dsimp only
    split
    · next hposition =>
      exact proceeds_argument hposition.1 hposition.2 ⟨index, rfl⟩ _ how
    · exact .throw _
  · exact .pure (.inl ⟨word, mem_of_word hword, rfl⟩)

theorem proceeds_retype {left : NodeId} (h : ws.Reaches left) (right : NodeId) :
    site.Proceeds script ws (Lift.retype left right) fun _ _ => True := by
  have hrun : Lift.retype left right ws = .ok () _ := rfl
  cases hslot : ws.tree.slot? right with
  | some source =>
    simp only [hslot] at hrun
    exact .single hrun (.retype h) trivial
  | none =>
    simp only [hslot] at hrun
    exact .of_ok hrun .refl trivial

theorem proceeds_copyDown : site.Proceeds script ws site.copyDown fun _ _ => True := by
  refine .bind proceeds_addressed fun start _ _ _ => .get_bind <|
    .bind (proceeds_require _ _) fun _ _ _ _ => .forM trivial fun i _ mid _ => ?_
  exact .get_bind <| .bind (proceeds_check _) fun right _ _ _ =>
    .bind (proceeds_access _ _) fun left _ _ hleft =>
      .bind (proceeds_retype hleft _) fun _ _ _ _ => proceeds_record rfl

theorem proceeds_copyTop : site.Proceeds script ws site.copyTop fun _ _ => True := by
  refine .bind proceeds_addressed fun start _ _ _ => .forM trivial fun i _ mid _ => ?_
  exact .bind (proceeds_access _ _) fun source _ _ _ => .get_bind <|
    .bind (proceeds_bindSlot rfl source) fun _ _ _ hcopy => proceeds_push hcopy

theorem proceeds_release : site.Proceeds script ws site.release fun _ _ => True :=
  .bind proceeds_below fun _ _ _ _ => .bind (proceeds_popMany _) fun _ _ _ _ => .pure trivial

theorem proceeds_destruct : site.Proceeds script ws site.destruct fun _ _ => True := by
  unfold destruct
  split
  · exact .throw _
  · let first := site.ins.stack.toInt.toNat / 4
    have hrun := destructWords_eq site ws (site.ins.size.toNat / 4) first
      (first + site.ins.keep.toNat / 4)
    split at hrun
    · cases hpop : ws.context.popMany (site.ins.size.toNat / 4) with
      | error cause =>
        rw [hpop] at hrun
        exact .of_error hrun .refl
      | ok popped =>
        rw [hpop] at hrun
        obtain ⟨words, context⟩ := popped
        obtain ⟨-, rfl, rfl⟩ := Context.popMany_eq_ok hpop
        exact .single hrun (.context (sublist_kept _ _ _ _) rfl) trivial
    · exact .of_error hrun .refl

theorem proceeds_step : site.Proceeds script ws site.step fun _ _ => True :=
  .bind (proceeds_consult _) fun _ _ _ _ => .bind proceeds_addressed fun _ _ _ _ =>
    .bind (proceeds_access _ _) fun _ _ _ _ => proceeds_record rfl

theorem proceeds_popVector : site.Proceeds script ws site.popVector fun _ _ => True := by
  have hfloat : ∀ ws name slot,
      site.Proceeds script ws (site.requireFloat name slot) fun _ _ => True :=
    fun ws name slot => .get_bind (proceeds_require _ _).forget
  refine .bind (proceeds_popMany 3) fun words mid _ _ => ?_
  split
  · exact .bind (hfloat _ _ _) fun _ _ _ _ => .bind (hfloat _ _ _) fun _ _ _ _ =>
      .bind (hfloat _ _ _) fun _ _ _ _ => proceeds_alloc rfl
  · exact .throw _

theorem proceeds_pushComponent (vector : NodeId) (name : String) (index : Nat) :
    site.Proceeds script ws (site.pushComponent vector name index) fun _ _ => True := by
  let slot : Slot := { type := .float, suffix := some name }
  let declared : Workspace := { ws with
    tree := ws.tree.declare site.ins.offset site.block slot (some (.component vector index))
      (ws.tree.alloc site.ins.offset (.slot slot)).nextId }
  have hchange : site.Change script ws declared := .declare rfl (by rintro _ ⟨⟩; rfl)
  have hword : declared.tree.IsWord ws.tree.nextId :=
    (Tree.IsWord.nextId (by simp [slot]) _).declared _ _ _
  exact .step hchange rfl (proceeds_push hword)

theorem proceeds_produce (type : ValueType) (value : NodeId) :
    site.Proceeds script ws (site.produce type value) fun _ _ => True := by
  unfold produce
  split
  · exact .bind (proceeds_bindSlot rfl value) fun result _ _ _ =>
      .bind (proceeds_pushComponent _ _ _) fun _ _ _ _ =>
        .bind (proceeds_pushComponent _ _ _) fun _ _ _ _ => proceeds_pushComponent _ _ _
  · exact proceeds_declare type value

theorem proceeds_declareBare (type : ValueType) :
    site.Proceeds script ws (site.declareBare type) fun _ _ => True := by
  let reserved := ws.record site.ins.offset site.block (.slot { type })
  have hchange : site.Change script ws reserved := .reserve rfl
  have hword : reserved.tree.IsWord ws.tree.nextId :=
    (Tree.IsWord.nextId (by simp) _).pushStatement _ _
  exact .step hchange rfl (proceeds_push hword)

theorem proceeds_reserve : site.Proceeds script ws site.reserve fun _ _ => True :=
  .bind (proceeds_consult _) fun type _ _ _ => proceeds_declareBare type

theorem proceeds_load : site.Proceeds script ws site.load fun _ _ => True := by
  unfold load
  split
  · exact .bind (proceeds_alloc rfl) fun _ _ _ _ => proceeds_declare _ _
  · exact .throw _

theorem proceeds_unary : site.Proceeds script ws site.unary fun _ _ => True :=
  .bind (proceeds_consult _) fun _ _ _ _ => .bind proceeds_pop fun _ _ _ _ => .get_bind <|
    .bind (proceeds_alloc rfl) fun _ _ _ _ => proceeds_declare _ _

theorem proceeds_popPair (shape : Shape) :
    site.Proceeds script ws (site.popPair shape) fun _ _ => True := by
  cases shape with
  | scalar =>
    exact .bind proceeds_pop fun _ _ _ _ => .bind proceeds_pop fun _ _ _ _ => .pure trivial
  | vectorVector =>
    exact .bind proceeds_popVector fun _ _ _ _ => .bind proceeds_popVector fun _ _ _ _ =>
      .pure trivial
  | floatVector =>
    exact .bind proceeds_popVector fun _ _ _ _ => .bind proceeds_pop fun _ _ _ _ => .pure trivial
  | vectorFloat =>
    exact .bind proceeds_pop fun _ _ _ _ => .bind proceeds_popVector fun _ _ _ _ => .pure trivial

theorem isPlain_binary (op : BinaryOp) (left right : NodeId) :
    (Node.binary op left right false).isPlain := by
  cases op <;> rfl

theorem proceeds_binary : site.Proceeds script ws site.binary fun _ _ => True :=
  .bind (proceeds_consult _) fun _ _ _ _ => .bind (proceeds_popPair _) fun _ _ _ _ =>
    .bind (proceeds_alloc (isPlain_binary _ _ _)) fun _ _ _ _ => proceeds_produce _ _

/-- The words behind the first are joined to the answer so far. -/
theorem proceeds_compareWord (relation join : BinaryOp) (result : NodeId) {index : Nat}
    (hindex : index ≠ 0) (words : NodeId × NodeId) :
    site.Proceeds script ws (site.compareWord relation join result index words)
      fun _ _ => True := by
  refine .bind (proceeds_alloc (isPlain_binary _ _ _)) fun word _ _ _ => ?_
  rw [if_neg hindex]
  exact .bind (proceeds_alloc (isPlain_binary _ _ _)) fun _ _ _ _ => proceeds_record rfl

/-- The first word declares the answer. -/
theorem proceeds_compareWith (relation join : BinaryOp) :
    site.Proceeds script ws (site.compareWith relation join) fun _ _ => True := by
  refine .bind (proceeds_require _ _) fun _ _ _ hcount => .bind (proceeds_popMany _)
    fun right _ _ hright => .bind (proceeds_popMany _) fun left mid _ hleft => ?_
  have hcount : site.ins.size.toNat / 4 ≠ 0 := of_decide_eq_true hcount
  obtain ⟨pair, pairs, hpairs⟩ : ∃ pair pairs, left.zip right = pair :: pairs := by
    refine List.exists_cons_of_ne_nil fun hnil => ?_
    have hlength := congrArg List.length hnil
    rw [List.length_zip, hleft, hright, Nat.min_self] at hlength
    exact hcount hlength
  let declared : Workspace := { mid with
    tree := mid.tree.declare site.ins.offset site.block { type := .int }
      (some (.binary relation pair.1 pair.2 false))
      (mid.tree.alloc site.ins.offset (.slot { type := .int })).nextId }
  have hchange : site.Change script mid declared :=
    .declare rfl (by rintro _ ⟨⟩; exact isPlain_binary _ _ _)
  have hword : declared.tree.IsWord mid.tree.nextId :=
    (Tree.IsWord.nextId (by simp) _).declared _ _ _
  have hrest : site.Proceeds script declared ((pairs.zipIdx 1).forM (fun words =>
      site.compareWord relation join mid.tree.nextId words.2 words.1) >>= fun _ =>
        Lift.push mid.tree.nextId) fun _ _ => True := by
    refine .bind (.forM hword fun words hwords ws hws => ?_) fun _ _ _ hlast => proceeds_push hlast
    have hindex : words.2 ≠ 0 := by
      have hle := List.le_snd_of_mem_zipIdx hwords
      omega
    exact (proceeds_compareWord relation join _ hindex words.1).mono fun _ _ hchanges _ =>
      hchanges.isWord hws
  rw [hpairs]
  exact .step hchange rfl hrest

theorem proceeds_actionArgument (routine : Routine) (index : Nat) :
    site.Proceeds script ws (site.actionArgument routine index) fun _ _ => True := by
  unfold actionArgument
  split
  · exact .throw _
  · exact proceeds_popVector
  · refine .get_bind ?_
    split
    · exact .pure trivial
    · exact .throw _
  · exact proceeds_pop

theorem proceeds_callRoutine (routine : Routine) :
    site.Proceeds script ws (site.callRoutine routine) fun _ _ => True := by
  refine .bind (.mapM fun index _ => proceeds_actionArgument routine index)
    fun arguments mid _ _ => ?_
  by_cases hvoid : routine.result = .void
  · simp only [hvoid, if_true]
    exact proceeds_record rfl
  · simp only [hvoid, if_false]
    exact .bind (proceeds_alloc rfl) fun _ _ _ _ => proceeds_produce _ _

theorem proceeds_action (routines : Routines) :
    site.Proceeds script ws (site.action routines) fun _ _ => True := by
  unfold action
  split
  · exact .throw _
  · exact proceeds_callRoutine _

theorem proceeds_targetLabel (labels : List (Nat × NodeId)) :
    site.Proceeds script ws (site.targetLabel labels) fun _ _ => True := by
  unfold targetLabel
  split
  · exact .pure trivial
  · exact .throw _

theorem proceeds_schedule (offset : Nat) :
    site.Proceeds script ws (Lift.schedule offset) fun _ _ => True := by
  cases hlookup : ws.blocks.lookup (offset, ws.context.depth) with
  | some block =>
    have hrun : Lift.schedule offset ws = .ok block ws := by simp only [Lift.schedule, hlookup]
    exact .of_ok hrun .refl trivial
  | none =>
    let opened : Workspace := { ws with
      tree := ws.tree.alloc offset (.block [])
      blocks := ((offset, ws.context.depth), ws.tree.nextId) :: ws.blocks
      spawned := some ⟨ws.tree.nextId, offset, ws.context⟩ }
    have hrun : Lift.schedule offset ws = .ok ws.tree.nextId opened := by
      simp only [Lift.schedule, hlookup, opened]
    exact .single hrun .schedule trivial

theorem proceeds_branchBlock (labels : List (Nat × NodeId)) :
    site.Proceeds script ws (site.branchBlock labels) fun _ _ => True := by
  unfold branchBlock
  split
  · exact proceeds_schedule _
  · exact .bind (proceeds_targetLabel labels) fun label mid _ _ => .single rfl .fork trivial

theorem proceeds_branch (labels : List (Nat × NodeId)) :
    site.Proceeds script ws (site.branch labels) fun _ _ => True :=
  .bind proceeds_pop fun _ _ _ _ => .bind (proceeds_alloc rfl) fun _ _ _ _ =>
    .bind (proceeds_alloc (isPlain_binary _ _ _)) fun _ _ _ _ =>
      .bind (proceeds_branchBlock labels) fun _ _ _ _ => proceeds_record rfl

theorem proceeds_storeState (program : Program) :
    site.Proceeds script ws (site.storeState program) fun _ _ => True := by
  refine .bind (Q := fun _ _ => True) ?_ fun jump _ _ _ => .bind (proceeds_schedule _) fun _ _ _ _ =>
    .single rfl (.context (List.Sublist.refl _) rfl) trivial
  unfold followingJump
  split
  · exact .pure trivial
  · exact .throw _

theorem proceeds_call (callee : SubId) :
    site.Proceeds script ws (site.call callee) fun _ _ => True :=
  .get_bind <| .bind (.mapM fun _ _ => .get_bind <| .bind (proceeds_check _) fun _ _ _ _ =>
    (proceeds_access _ _).forget) fun _ _ _ _ => proceeds_record rfl

theorem proceeds_saveBase : site.Proceeds script ws Lift.saveBase fun _ _ => True := by
  have hfold : ∀ (words : List Word) (tree : Tree), words ⊆ ws.context.stack →
      site.Changes script { ws with tree } { ws with
        tree := words.foldl
          (fun tree word => tree.modifySlot word.slot fun s => { s with storage := .global })
          tree } := by
    intro words
    induction words with
    | nil => exact fun tree _ => .refl
    | cons word words ih =>
      intro tree hwords
      have hword : site.Change script { ws with tree } { ws with
          tree := tree.modifySlot word.slot fun s => { s with storage := .global } } :=
        .promote (hwords List.mem_cons_self)
      exact .head hword (ih _ fun other hother => hwords (List.mem_cons_of_mem _ hother))
  exact .of_ok rfl (.tail (hfold ws.context.stack ws.tree (List.Subset.refl _))
    (.context (List.Sublist.refl _) rfl)) trivial

theorem proceeds_restoreBase : site.Proceeds script ws Lift.restoreBase fun _ _ => True :=
  .single rfl (.context (List.Sublist.refl _) rfl) trivial

theorem proceeds_onward {handler : Lift Unit}
    (h : site.Proceeds script ws handler fun _ _ => True) :
    site.Proceeds script ws (site.onward handler) fun flow _ => flow ≠ .stop :=
  .bind h fun _ _ _ _ => .pure (by simp)

/-- Operations that neither return nor jump let control pass on, if they do not fail. -/
theorem proceeds_execute (callees : List (Nat × SubId))
    (hret : site.ins.opcode.operation ≠ .ret) (hjump : site.ins.opcode.operation ≠ .jump) :
    site.Proceeds script ws (site.execute script callees) fun flow _ => flow ≠ .stop := by
  unfold execute
  split
  · exact proceeds_onward (.pure trivial)
  · next hop => exact absurd hop hret
  · next hop => exact absurd hop hjump
  · split
    · exact proceeds_onward (proceeds_call _)
    · exact .pure (by simp)
  · exact proceeds_onward (proceeds_branch _)
  · exact proceeds_onward proceeds_reserve
  · exact proceeds_onward proceeds_load
  · exact proceeds_onward (proceeds_action _)
  · exact proceeds_onward proceeds_copyDown
  · exact proceeds_onward proceeds_copyTop
  · exact proceeds_onward proceeds_release
  · exact proceeds_onward proceeds_destruct
  · exact proceeds_onward proceeds_step
  · exact proceeds_onward proceeds_unary
  · exact proceeds_onward (proceeds_compareWith _ _)
  · exact proceeds_onward (proceeds_storeState _)
  · exact proceeds_onward proceeds_saveBase
  · exact proceeds_onward proceeds_restoreBase
  · exact proceeds_onward proceeds_binary

/-- What an instruction leaves: updates only, or updates and then a return or a goto as the last
statement, where it ends its block. -/
def Leaves (site : Site) (script : Script) (ws : Workspace) :
    EStateM.Result Error Workspace Flow → Prop
  | .ok .stop ws' => ∃ mid node, site.Changes script ws mid ∧ node.leaves ∧
      ws' = mid.record site.ins.offset site.block node
  | .ok _ ws' | .error _ ws' => site.Changes script ws ws'

theorem Leaves.of_proceeds {x : Lift Flow}
    (h : site.Proceeds script ws x fun flow _ => flow ≠ .stop) : site.Leaves script ws (x ws) := by
  unfold Proceeds at h
  unfold Leaves
  split at h
  · next flow ws' hrun =>
    rw [hrun]
    cases flow with
    | stop => exact absurd rfl h.2
    | next | enter => exact h.1
  · next fault ws' hrun =>
    rw [hrun]
    exact h

theorem Leaves.head {mid : Workspace} {result : EStateM.Result Error Workspace Flow}
    (h : site.Changes script ws mid) (hlast : site.Leaves script mid result) :
    site.Leaves script ws result := by
  unfold Leaves at hlast ⊢
  split at hlast
  · obtain ⟨last, node, hchanges, hleaves, rfl⟩ := hlast
    exact ⟨last, node, h.trans hchanges, hleaves, rfl⟩
  · exact h.trans hlast
  · exact h.trans hlast

/-- A jump goes on ahead, or records a goto to the label of its target. -/
theorem leaves_jump (labels : List (Nat × NodeId)) :
    site.Leaves script ws (site.jump labels ws) := by
  by_cases hjump : 0 < site.ins.jump
  · have hrun : site.jump labels = Pure.pure (.next site.ins.target) := by rw [jump, if_pos hjump]
    rw [hrun]
    exact .refl
  · obtain ⟨mid, hchanges, hrun⟩ : ∃ mid, site.Changes script ws mid ∧ site.jump labels ws =
        (site.targetLabel labels >>= fun label => site.alloc (.goto label) >>= fun goto =>
          site.emit goto >>= fun _ => Pure.pure Flow.stop) mid := by
      rw [jump, if_neg hjump]
      by_cases hself : site.ins.jump = 0
      · refine ⟨left (site.warnSelfJump ws), .single .warn, ?_⟩
        simp only [jumpBack, hself, if_true, bind_assoc]
        rfl
      · refine ⟨ws, .refl, ?_⟩
        simp only [jumpBack, hself, if_false, bind_assoc]
    rw [hrun]
    refine .head hchanges ?_
    unfold targetLabel
    cases labels.lookup site.ins.target with
    | some label => exact ⟨mid, .goto label, .refl, rfl, rfl⟩
    | none => exact .refl

theorem visit_leaves (site : Site) (script : Script) (callees : List (Nat × SubId))
    (ws : Workspace) : site.Leaves script ws (site.visit script callees ws) := by
  have hlabel : site.Changes script ws (left (site.placeLabel script.labels ws)) := by
    unfold placeLabel
    cases hlookup : script.labels.lookup site.ins.offset with
    | some label => exact .single (.label hlookup)
    | none => exact .refl
  rw [visit_eq]
  refine .head hlabel ?_
  by_cases hret : site.ins.opcode.operation = .ret
  · simp only [execute, hret]
    exact ⟨_, .ret none, .refl, rfl, rfl⟩
  · by_cases hjump : site.ins.opcode.operation = .jump
    · simp only [execute, hjump]
      exact leaves_jump _
    · exact .of_proceeds (proceeds_execute callees hret hjump)

/-- What holds at first and is kept by every update and by a last statement, holds behind an
instruction, failing or not. -/
theorem visit_induction {P : Workspace → Prop} {callees : List (Nat × SubId)}
    (hchange : ∀ {ws ws'}, site.Change script ws ws' → P ws → P ws')
    (hlast : ∀ {ws node}, node.leaves → P ws → P (ws.record site.ins.offset site.block node))
    (h : P ws) : P (left (site.visit script callees ws)) := by
  have hchanges : ∀ {ws'}, site.Changes script ws ws' → P ws' := fun hchanges =>
    hchanges.keeps hchange h
  have hleaves := visit_leaves site script callees ws
  unfold Leaves at hleaves
  split at hleaves
  · next ws' hrun =>
    rw [hrun]
    obtain ⟨mid, node, hmid, hnode, rfl⟩ := hleaves
    exact hlast hnode (hchanges hmid)
  · next flow ws' hne hrun =>
    rw [hrun]
    exact hchanges hleaves
  · next fault ws' hrun =>
    rw [hrun]
    exact hchanges hleaves

end Site

theorem Lift.visit_inTree {program : Program} {routines : Routines} {settings : LiftSettings}
    {count : Nat} {m : Machine} {visit : Visit}
    (h : stage program routines settings count = some m)
    (hvisit : m.visit? program = some visit) :
    visit.site.InTree (script program routines) (visit.start m).tree := by
  obtain ⟨-, hwalk, -, -⟩ := Machine.visit?_eq_some.1 hvisit
  refine ⟨(visit_fills h hvisit).pending _ (Visit.mem_pending hwalk), fun target label hlabel => ?_⟩
  have hkind : m.tree.kind label = .label := (stage_sound h).labels _ (Site.mem_of_lookup hlabel)
  have hlt : label.index < m.tree.size := Tree.lt_size_of_kind_ne (by simp [hkind])
  exact ⟨hlt, hkind⟩

end ScriptLift
