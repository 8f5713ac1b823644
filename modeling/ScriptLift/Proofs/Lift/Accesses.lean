import ScriptLift.Proofs.Lift.Formals
import ScriptLift.Proofs.Lift.Refusals

/-! The slot through which a word is used.

A word of the subroutine itself, or a global, is used through its own slot, any other through the
argument at its position below the entry. Which of the two it is does not change while an instruction
goes on: words are only pushed on top, arguments only added, and no slot becomes a global. -/
namespace ScriptLift

namespace Workspace

def IsDirect (ws : Workspace) (word : Word) : Prop :=
  word.owner = ws.context.current ∨ ws.tree.storage? word.slot = some .global

/-- Where a word lies, seen from the stack at entry. -/
def position (ws : Workspace) (index : Nat) : Int := ((index : Int) - ws.context.top.entered) * 4

/-- A word that can be used: as it is, or because its position is a negative 32-bit number. -/
def Usable (ws : Workspace) (index : Nat) : Prop :=
  ∃ word, ws.context.word index = .ok word ∧
    (ws.IsDirect word ∨ -0x80000000 ≤ ws.position index ∧ ws.position index < 0)

/-- The word at `index` is used through this slot. -/
inductive Uses (ws : Workspace) (index : Nat) : NodeId → Prop
  | direct {word} : ws.context.word index = .ok word → ws.IsDirect word → Uses ws index word.slot
  | argument {word slot} : ws.context.word index = .ok word → ¬ws.IsDirect word →
      (ws.position index, slot) ∈ ws.outer → Uses ws index slot

/-- What an instruction keeps that copies words or steps them: the words on the stack, the arguments
that are known, and which slots are globals. -/
structure Retains (a b : Workspace) : Prop where
  calls : b.context.calls = a.context.calls
  stack : a.context.stack <:+ b.context.stack
  outer : a.outer ⊆ b.outer
  global : ∀ id, b.tree.storage? id = some .global ↔ a.tree.storage? id = some .global

variable {a b c ws : Workspace} {index : Nat} {slot : NodeId}

namespace Retains

theorem refl (ws : Workspace) : Retains ws ws :=
  ⟨rfl, List.suffix_refl _, fun _ h => h, fun _ => Iff.rfl⟩

theorem trans (h : Retains a b) (g : Retains b c) : Retains a c where
  calls := g.calls.trans h.calls
  stack := h.stack.trans g.stack
  outer _ hmem := g.outer (h.outer hmem)
  global id := (g.global id).trans (h.global id)

theorem of_tree {tree : Tree}
    (h : ∀ id, tree.storage? id = some .global ↔ ws.tree.storage? id = some .global) :
    Retains ws { ws with tree } :=
  ⟨rfl, List.suffix_refl _, fun _ h => h, h⟩

theorem alloc (ws : Workspace) (offset : Nat) {node : Node}
    (hnode : ∀ slot, node = .slot slot → slot.storage ≠ .global) :
    Retains ws { ws with tree := ws.tree.alloc offset node } := by
  refine of_tree fun id => ?_
  by_cases hlt : id.index < ws.tree.size
  · rw [Tree.storage?_alloc_of_lt hlt]
  · have hold : ws.tree.storage? id ≠ some .global := fun h => hlt (Tree.lt_size_of_storage? h)
    refine iff_of_false (fun hnew => ?_) hold
    rw [Tree.eq_nextId_of_alloc (Nat.le_of_not_lt hlt) (Tree.lt_size_of_storage? hnew),
      Tree.storage?, Tree.slot?, Tree.node_alloc_nextId] at hnew
    cases node with
    | slot slot => exact hnode slot rfl (Option.some.inj hnew)
    | _ => cases hnew

theorem pushStatement (ws : Workspace) (block s : NodeId) :
    Retains ws { ws with tree := ws.tree.pushStatement block s } :=
  of_tree fun id => by rw [Tree.storage?_pushStatement]

theorem modifySlot (ws : Workspace) (id : NodeId) {f : Slot → Slot}
    (hf : ∀ slot, (f slot).storage = slot.storage) :
    Retains ws { ws with tree := ws.tree.modifySlot id f } :=
  of_tree fun other => by rw [Tree.storage?_modifySlot_eq hf]

theorem push (ws : Workspace) (slot : NodeId) :
    Retains ws { ws with context := ws.context.push slot } :=
  ⟨rfl, List.suffix_cons _ _, fun _ h => h, fun _ => Iff.rfl⟩

theorem insert (ws : Workspace) (position : Int) (slot : NodeId) :
    Retains ws { ws with outer := Outer.insert position slot ws.outer } :=
  ⟨rfl, List.suffix_refl _, fun _ h => Outer.mem_insert_iff.2 (.inr h), fun _ => Iff.rfl⟩

theorem top (h : Retains a b) : b.context.top = a.context.top := by
  rw [Context.top, h.calls, Context.top]

theorem current (h : Retains a b) : b.context.current = a.context.current := by
  rw [Context.current, h.top, Context.current]

theorem position (h : Retains a b) (index : Nat) : b.position index = a.position index := by
  rw [Workspace.position, h.top, Workspace.position]

theorem isDirect_iff (h : Retains a b) {word : Word} : b.IsDirect word ↔ a.IsDirect word := by
  rw [IsDirect, h.current, h.global, IsDirect]

theorem word (h : Retains a b) (hindex : index < a.context.depth) :
    b.context.word index = a.context.word index := by
  obtain ⟨word, hword⟩ := a.context.exists_word hindex
  have hget := Context.getElem?_of_word hword
  obtain ⟨pushed, hstack⟩ := h.stack
  have hlow : index < a.context.stack.reverse.length := by simpa [Context.depth] using hindex
  rw [hword, Context.word, ← hstack, List.reverse_append, List.getElem?_append_left hlow, hget]

theorem usable_iff (h : Retains a b) (hindex : index < a.context.depth) :
    b.Usable index ↔ a.Usable index := by
  simp only [Usable, h.word hindex, h.isDirect_iff, h.position]

end Retains

theorem Uses.exists_word (h : ws.Uses index slot) : ∃ word, ws.context.word index = .ok word := by
  cases h with
  | direct hword | argument hword => exact ⟨_, hword⟩

theorem Uses.lt_depth (h : ws.Uses index slot) : index < ws.context.depth := by
  obtain ⟨word, hword⟩ := h.exists_word
  exact Context.lt_depth_of_word hword

theorem Usable.lt_depth (h : ws.Usable index) : index < ws.context.depth := by
  obtain ⟨word, hword, -⟩ := h
  exact Context.lt_depth_of_word hword

theorem Uses.mono (h : a.Uses index slot) (hkeep : Retains a b) : b.Uses index slot := by
  have hword := hkeep.word h.lt_depth
  cases h with
  | direct hold hdirect => exact .direct (hword.trans hold) (hkeep.isDirect_iff.2 hdirect)
  | argument hold hdirect hmem =>
    refine .argument (hword.trans hold) (fun hnew => hdirect (hkeep.isDirect_iff.1 hnew)) ?_
    rw [hkeep.position]
    exact hkeep.outer hmem

theorem Uses.eq_of_isDirect (h : ws.Uses index slot) {word : Word}
    (hword : ws.context.word index = .ok word) (hdirect : ws.IsDirect word) : slot = word.slot := by
  cases h with
  | direct hold _ =>
    cases hword.symm.trans hold
    rfl
  | argument hold hnot =>
    cases hword.symm.trans hold
    exact absurd hdirect hnot

theorem Uses.mem_of_not_isDirect (h : ws.Uses index slot) {word : Word}
    (hword : ws.context.word index = .ok word) (hdirect : ¬ws.IsDirect word) :
    (ws.position index, slot) ∈ ws.outer := by
  cases h with
  | direct hold hnot =>
    cases hword.symm.trans hold
    exact absurd hnot hdirect
  | argument _ _ hmem => exact hmem

theorem usable_of_positioned (hctx : ws.context.Positioned) (hindex : index < ws.context.depth) :
    ws.Usable index := by
  obtain ⟨word, hword⟩ := Context.exists_word hindex
  refine ⟨word, hword, ?_⟩
  by_cases howner : word.owner = ws.context.current
  · exact .inl (.inl howner)
  · have hbelow := hctx.lt_entered hword howner
    have hentered := hctx.entered
    rw [Workspace.position]
    exact .inr (by omega)

end Workspace

namespace Site

open Lift Workspace

variable {site : Site} {ws ws' : Workspace} {index : Nat} {how : Access} {slot : NodeId}

theorem isOuter_iff {word : Word} :
    ws.context.isOuter word (ws.tree.storage? word.slot = some .global) = true ↔
      ¬ws.IsDirect word := by
  simp [Context.isOuter, IsDirect]

theorem argument_spec (site : Site) (ws : Workspace) (position : Int) (type : ValueType)
    (how : Access) : ∃ slot ws', site.argument position type how ws = .ok slot ws' ∧
      (position, slot) ∈ ws'.outer ∧ ws.Retains ws' ∧ ws'.context = ws.context := by
  unfold argument
  cases hlookup : ws.outer.lookup position with
  | some slot =>
    exact ⟨slot, _, rfl, mem_of_lookup hlookup, .modifySlot ws slot fun _ => rfl, rfl⟩
  | none =>
    let fresh : Slot := { type, storage := .argument, position := some position }
    have halloc : ws.Retains { ws with
        tree := ws.tree.alloc site.ins.offset (.slot (fresh.mark how)) } := .alloc ws _ (by
      rintro _ ⟨⟩
      simp [fresh, Slot.mark])
    exact ⟨ws.tree.nextId, _, rfl, Outer.mem_insert_iff.2 (.inl rfl),
      halloc.trans (.insert _ position _), rfl⟩

/-- A word is found exactly if it can be used. -/
theorem access_of_usable (h : ws.Usable index) (site : Site) (how : Access) :
    ∃ slot ws', site.access index how ws = .ok slot ws' ∧ ws'.Uses index slot ∧ ws.Retains ws' ∧
      ws'.context = ws.context := by
  obtain ⟨word, hword, husable⟩ := h
  unfold access
  rw [get_bind, hword, check, pure_bind]
  split
  · next houter =>
    have hnot := isOuter_iff.1 houter
    have hposition : -0x80000000 ≤ ((index : Int) - ws.context.top.entered) * 4 ∧
        ((index : Int) - ws.context.top.entered) * 4 < 0 := husable.resolve_left hnot
    dsimp only
    rw [if_pos hposition]
    obtain ⟨slot, ws', hrun, hmem, hretains, hcontext⟩ := argument_spec site ws
      (ws.position index) (ws.tree.type word.slot) how
    have hsame : ws'.context.word index = .ok word := by rw [hcontext, hword]
    refine ⟨slot, ws', hrun, .argument hsame ?_ ?_, hretains, hcontext⟩
    · exact fun hdirect => hnot (hretains.isDirect_iff.1 hdirect)
    · rwa [hretains.position]
  · next hdirect =>
    rw [isOuter_iff, not_not] at hdirect
    exact ⟨word.slot, ws, rfl, .direct hword hdirect, .refl ws, rfl⟩

theorem access_of_not_usable (h : ¬ws.Usable index) (site : Site) (how : Access) :
    ∃ cause, site.access index how ws =
      .error (.inconsistent site.ins.offset site.ins.opcode cause) ws := by
  unfold access
  rw [get_bind]
  cases hword : ws.context.word index with
  | error cause => exact ⟨cause, rfl⟩
  | ok word =>
    rw [check, pure_bind]
    have hnot : ¬ws.IsDirect word := fun hdirect => h ⟨word, hword, .inl hdirect⟩
    have hposition : ¬(-0x80000000 ≤ ((index : Int) - ws.context.top.entered) * 4 ∧
        ((index : Int) - ws.context.top.entered) * 4 < 0) :=
      fun hposition => h ⟨word, hword, .inr hposition⟩
    rw [if_pos (isOuter_iff.2 hnot), if_neg hposition]
    exact ⟨_, rfl⟩

theorem access_eq_ok (h : site.access index how ws = .ok slot ws') :
    ws.Usable index ∧ ws'.Uses index slot ∧ ws.Retains ws' ∧ ws'.context = ws.context := by
  by_cases husable : ws.Usable index
  · obtain ⟨slot', mid, hrun, hspec⟩ := access_of_usable husable site how
    cases hrun.symm.trans h
    exact ⟨husable, hspec⟩
  · obtain ⟨cause, hrun⟩ := access_of_not_usable husable site how
    cases hrun.symm.trans h

theorem outer_placeLabel (labels : List (Nat × NodeId)) :
    (left (site.placeLabel labels ws)).outer = ws.outer := by
  unfold placeLabel
  cases labels.lookup site.ins.offset <;> rfl

theorem slot?_placeLabel (labels : List (Nat × NodeId)) (id : NodeId) :
    (left (site.placeLabel labels ws)).tree.slot? id = ws.tree.slot? id := by
  unfold placeLabel
  cases labels.lookup site.ins.offset with
  | none => rfl
  | some label => exact Tree.slot?_pushStatement

end Site

end ScriptLift
