import ScriptLift.Proofs.Lift.Changes
import ScriptLift.Proofs.Lift.Integrity
import ScriptLift.Source

/-! Formal arguments and the slots they stand for.

A subroutine in progress finds its arguments one by one, and their slots go on changing until it is
complete. Then they are listed once and for all: only words of the stack and arguments of the
subroutine in progress are changed from there on, and no word is an argument. -/
namespace ScriptLift

/-- Positions of the words that a caller pushed, in bytes. -/
def IsPosition (position : Int) : Prop := -0x80000000 ≤ position ∧ position < 0 ∧ 4 ∣ position

namespace Tree

def IsArgument (tree : Tree) (id : NodeId) (position : Int) : Prop :=
  ∃ slot, tree.slot? id = some slot ∧ slot.storage = .argument ∧ slot.position = some position

/-- The slot of a formal argument is as the list says. -/
def Describes (tree : Tree) (formal : Formal) : Prop :=
  ∃ slot, tree.slot? formal.slot = some slot ∧ slot.storage = .argument ∧
    slot.position = some formal.position ∧ slot.type = formal.type ∧
    slot.outerModified = formal.pointer

/-- The formal arguments of a complete subroutine: the nearest comes first, and all are as their
slots say. -/
structure DescribesAll (tree : Tree) (formals : List Formal) : Prop where
  descending : formals.Pairwise fun upper lower => lower.position < upper.position
  position : ∀ formal ∈ formals, IsPosition formal.position
  slot : ∀ formal ∈ formals, tree.Describes formal

def KeepsSlots (tree new : Tree) : Prop :=
  ∀ id, new.slot? id = tree.slot? id ∨ tree.slot? id = none ∧ new.storage? id ≠ some .argument

variable {tree mid new : Tree} {id : NodeId} {node : Node} {position : Int}

theorem formals_of_not_hasSub {sub : SubId} (h : ¬tree.HasSub sub) :
    (tree.sub sub).formals = [] := by
  rw [HasSub, Nat.not_lt] at h
  rw [Tree.sub, Array.getElem?_eq_none h]
  rfl

theorem slot?_eq_none_of_size_le (h : tree.size ≤ id.index) : tree.slot? id = none := by
  rw [slot?, node_of_size_le h]

theorem slot?_alloc_of_kind (h : node.kind ≠ .slot) (offset : Nat) :
    (tree.alloc offset node).slot? id = tree.slot? id := by
  by_cases hlt : id.index < tree.size
  · exact slot?_alloc_of_lt hlt
  · rw [slot?_eq_none_of_size_le (Nat.le_of_not_lt hlt)]
    by_contra hsome
    obtain ⟨slot, hslot⟩ := Option.ne_none_iff_exists'.1 hsome
    have hnew : id.index < (tree.alloc offset node).size :=
      lt_size_of_isSlot (by rw [isSlot, hslot, Option.isSome_some])
    rw [eq_nextId_of_alloc (Nat.le_of_not_lt hlt) hnew, slot?, node_alloc_nextId] at hslot
    cases node <;> simp_all [Node.kind]

namespace IsArgument

theorem storage? (h : tree.IsArgument id position) : tree.storage? id = some .argument := by
  obtain ⟨slot, hslot, hstorage, -⟩ := h
  rw [Tree.storage?, hslot, Option.map_some, hstorage]

theorem of_slot?_eq (h : tree.IsArgument id position) (hsame : new.slot? id = tree.slot? id) :
    new.IsArgument id position := by
  rwa [IsArgument, hsame]

end IsArgument

theorem Describes.isArgument {formal : Formal} (h : tree.Describes formal) :
    tree.IsArgument formal.slot formal.position := by
  obtain ⟨slot, hslot, hstorage, hposition, -⟩ := h
  exact ⟨slot, hslot, hstorage, hposition⟩

theorem Describes.eq {formal other : Formal} (h : tree.Describes formal)
    (g : tree.Describes other) (hslot : formal.slot = other.slot) : formal = other := by
  obtain ⟨slot, hs, -, hposition, htype, hpointer⟩ := h
  obtain ⟨slot', hs', -, hposition', htype', hpointer'⟩ := g
  rw [hslot] at hs
  cases hs.symm.trans hs'
  cases formal
  cases other
  cases Option.some.inj (hposition.symm.trans hposition')
  simp_all

theorem IsWord.storage?_ne (h : tree.IsWord id) : tree.storage? id ≠ some .argument := by
  obtain ⟨slot, hslot, hne⟩ := h
  simpa [storage?, hslot] using hne

theorem DescribesAll.nil (tree : Tree) : tree.DescribesAll [] :=
  ⟨.nil, fun _ h => absurd h List.not_mem_nil, fun _ h => absurd h List.not_mem_nil⟩

theorem DescribesAll.of_slots_eq {formals : List Formal} (h : tree.DescribesAll formals)
    (hslots : ∀ formal ∈ formals, new.slot? formal.slot = tree.slot? formal.slot) :
    new.DescribesAll formals := by
  refine ⟨h.descending, h.position, fun formal hformal => ?_⟩
  rw [Describes, hslots formal hformal]
  exact h.slot formal hformal

namespace KeepsSlots

theorem of_exprs_eq (h : new.exprs = tree.exprs) : tree.KeepsSlots new :=
  fun _ => .inl (slot?_of_exprs_eq h)

theorem trans (h : tree.KeepsSlots mid) (g : mid.KeepsSlots new) : tree.KeepsSlots new := by
  intro id
  rcases g id with hsame | ⟨hnone, hne⟩
  · rcases h id with hsame' | ⟨hnone, hne⟩
    · exact .inl (hsame.trans hsame')
    · exact .inr ⟨hnone, by rwa [storage?, hsame]⟩
  · rcases h id with hsame' | ⟨hnone', -⟩
    · exact .inr ⟨hsame'.symm.trans hnone, hne⟩
    · exact .inr ⟨hnone', hne⟩

theorem alloc (tree : Tree) (offset : Nat)
    (h : ∀ slot, node = .slot slot → slot.storage ≠ .argument) :
    tree.KeepsSlots (tree.alloc offset node) := by
  intro id
  by_cases hlt : id.index < tree.size
  · exact .inl (slot?_alloc_of_lt hlt)
  · refine .inr ⟨slot?_eq_none_of_size_le (Nat.le_of_not_lt hlt), fun hargument => ?_⟩
    rw [eq_nextId_of_alloc (Nat.le_of_not_lt hlt) (lt_size_of_storage? hargument), storage?, slot?,
      node_alloc_nextId] at hargument
    cases node with
    | slot slot => exact h slot rfl (Option.some.inj hargument)
    | _ => cases hargument

theorem alloc_of_kind (tree : Tree) (offset : Nat) (h : node.kind ≠ .slot) :
    tree.KeepsSlots (tree.alloc offset node) :=
  alloc tree offset (by rintro _ rfl; exact absurd rfl h)

theorem pushStatement (tree : Tree) (block s : NodeId) :
    tree.KeepsSlots (tree.pushStatement block s) :=
  fun _ => .inl slot?_pushStatement

theorem record (tree : Tree) (offset : Nat) (block s : NodeId)
    (h : ∀ slot, node = .slot slot → slot.storage ≠ .argument) :
    tree.KeepsSlots ((tree.alloc offset node).pushStatement block s) :=
  (alloc tree offset h).trans (pushStatement _ _ _)

end KeepsSlots

end Tree

/-- Arguments found so far: the nearest comes first, and each has a slot that knows its position. -/
structure Outer.Lists (outer : Outer) (tree : Tree) : Prop where
  descending : outer.Pairwise fun upper lower => lower.1 < upper.1
  position : ∀ entry ∈ outer, IsPosition entry.1
  slot : ∀ entry ∈ outer, tree.IsArgument entry.2 entry.1

namespace Outer

variable {outer : Outer} {tree new : Tree} {position : Int} {slot : NodeId}

theorem mem_insert_iff {entry : Int × NodeId} :
    entry ∈ Outer.insert position slot outer ↔ entry = (position, slot) ∨ entry ∈ outer := by
  refine ⟨Site.mem_insert, ?_⟩
  rintro (rfl | h)
  · exact Site.mem_insert_self _ _ _
  · induction outer with
    | nil => cases h
    | cons first rest ih =>
      unfold Outer.insert
      split
      · exact List.mem_cons_of_mem _ h
      · rcases List.mem_cons.1 h with rfl | h
        · exact List.mem_cons_self
        · exact List.mem_cons_of_mem _ (ih h)

theorem descending_insert (h : outer.Pairwise fun upper lower => lower.1 < upper.1)
    (hnone : outer.lookup position = none) :
    (Outer.insert position slot outer).Pairwise fun upper lower => lower.1 < upper.1 := by
  induction outer with
  | nil => exact List.pairwise_singleton _ _
  | cons first rest ih =>
    obtain ⟨hfirst, hrest⟩ := List.pairwise_cons.1 h
    rw [List.lookup_cons] at hnone
    split at hnone
    · cases hnone
    · next hne =>
      have hne : position ≠ first.1 := by simpa using hne
      unfold Outer.insert
      split
      · next hlt =>
        refine List.pairwise_cons.2 ⟨fun entry hentry => ?_, h⟩
        rcases List.mem_cons.1 hentry with rfl | hentry
        · exact hlt
        · exact Int.lt_trans (hfirst entry hentry) hlt
      · next hle =>
        refine List.pairwise_cons.2 ⟨fun entry hentry => ?_, ih hrest hnone⟩
        rcases mem_insert_iff.1 hentry with rfl | hentry
        · exact lt_of_le_of_ne (Int.not_lt.1 hle) hne
        · exact hfirst entry hentry

theorem Lists.of_slots_eq (h : outer.Lists tree)
    (hslots : ∀ entry ∈ outer, new.slot? entry.2 = tree.slot? entry.2) : outer.Lists new :=
  ⟨h.descending, h.position, fun entry hentry => (h.slot entry hentry).of_slot?_eq
    (hslots entry hentry)⟩

theorem Lists.describesAll (h : outer.Lists tree) : tree.DescribesAll (Activation.formals tree outer) := by
  refine ⟨List.pairwise_map.2 h.descending, fun formal hformal => ?_, fun formal hformal => ?_⟩
  · obtain ⟨entry, hentry, rfl⟩ := List.mem_map.1 hformal
    exact h.position entry hentry
  · obtain ⟨entry, hentry, rfl⟩ := List.mem_map.1 hformal
    obtain ⟨slot, hslot, hstorage, hposition⟩ := h.slot entry hentry
    exact ⟨slot, hslot, hstorage, hposition, by simp only [Tree.type, hslot], by simp only [hslot]⟩

end Outer

namespace Workspace

def HasWords (ws : Workspace) : Prop := ∀ word ∈ ws.context.stack, ws.tree.IsWord word.slot

/-- The arguments in the tree are those of the subroutine in progress and those of `others`, whose
slots are as in `base`. -/
structure Holds (ws : Workspace) (others : NodeId → Prop) (base : Tree) : Prop where
  outer : ws.outer.Lists ws.tree
  apart : ∀ entry ∈ ws.outer, ¬others entry.2
  argument : ∀ id, ws.tree.storage? id = some .argument ↔
    (∃ position, (position, id) ∈ ws.outer) ∨ others id
  others : ∀ id, others id → ws.tree.slot? id = base.slot? id

namespace Holds

variable {ws ws' : Workspace} {others : NodeId → Prop} {base : Tree} {slot : NodeId}

theorem of_arguments (h : ws.Holds others base) (houter : ws'.outer = ws.outer)
    (hnew : ∀ id, ws'.tree.storage? id = some .argument → ws.tree.storage? id = some .argument)
    (hold : ∀ id position, ws.tree.IsArgument id position → ws'.tree.IsArgument id position)
    (hothers : ∀ id, others id → ws'.tree.slot? id = ws.tree.slot? id) :
    ws'.Holds others base := by
  have hlists : ws.outer.Lists ws'.tree := ⟨h.outer.descending, h.outer.position,
    fun entry hentry => hold _ _ (h.outer.slot entry hentry)⟩
  refine ⟨houter ▸ hlists, houter ▸ h.apart, fun id => ?_,
    fun id hid => (hothers id hid).trans (h.others id hid)⟩
  rw [houter]
  refine ⟨fun hid => (h.argument id).1 (hnew id hid), ?_⟩
  rintro (⟨position, hmem⟩ | hid)
  · exact (hlists.slot _ hmem).storage?
  · rw [Tree.storage?, hothers id hid]
    exact (h.argument id).2 (.inr hid)

theorem of_keepsSlots (h : ws.Holds others base) (houter : ws'.outer = ws.outer)
    (hkeeps : ws.tree.KeepsSlots ws'.tree) : ws'.Holds others base := by
  have hsame : ∀ id, ws.tree.storage? id = some .argument →
      ws'.tree.slot? id = ws.tree.slot? id := by
    intro id hid
    refine (hkeeps id).resolve_right fun hnone => ?_
    rw [Tree.storage?, hnone.1] at hid
    cases hid
  refine h.of_arguments houter (fun id hid => ?_)
    (fun id position hid => hid.of_slot?_eq (hsame id hid.storage?))
    fun id hid => hsame id ((h.argument id).2 (.inr hid))
  rcases hkeeps id with heq | ⟨-, hne⟩
  · rwa [Tree.storage?, ← heq]
  · exact absurd hid hne

theorem not_others (h : ws.Holds others base) (hwords : ws.HasWords) (hslot : ws.Reaches slot) :
    ¬others slot := by
  rcases hslot with ⟨word, hword, rfl⟩ | ⟨position, hmem⟩
  · exact fun hother => (hwords word hword).storage?_ne ((h.argument _).2 (.inr hother))
  · exact h.apart _ hmem

theorem modifySlot (h : ws.Holds others base) {f : Slot → Slot} (hslot : ¬others slot)
    (hf : ∀ s, ws.tree.slot? slot = some s → (f s).position = s.position ∧
      ((f s).storage = .argument ↔ s.storage = .argument)) :
    Holds { ws with tree := ws.tree.modifySlot slot f } others base := by
  have hself : ∀ s', (ws.tree.modifySlot slot f).slot? slot = some s' →
      ∃ s, ws.tree.slot? slot = some s ∧ f s = s' := by
    intro s' hs'
    rw [Tree.slot?_modifySlot_self] at hs'
    exact Option.map_eq_some_iff.1 hs'
  refine h.of_arguments rfl (fun id hid => ?_) (fun id position hid => ?_) fun id hid => ?_
  · by_cases heq : id = slot
    · subst heq
      obtain ⟨s', hs', hstorage⟩ := Option.map_eq_some_iff.1 hid
      obtain ⟨s, hs, rfl⟩ := hself s' hs'
      rw [Tree.storage?, hs, Option.map_some, (hf s hs).2.1 hstorage]
    · rwa [Tree.storage?, ← Tree.slot?_modifySlot_of_ne heq]
  · by_cases heq : id = slot
    · subst heq
      obtain ⟨s, hs, hstorage, hposition⟩ := hid
      exact ⟨f s, by rw [Tree.slot?_modifySlot_self, hs, Option.map_some], (hf s hs).2.2 hstorage,
        by rw [(hf s hs).1, hposition]⟩
    · exact hid.of_slot?_eq (Tree.slot?_modifySlot_of_ne heq)
  · exact Tree.slot?_modifySlot_of_ne fun heq => hslot (heq ▸ hid)

/-- A new argument takes its place in the list. -/
theorem argument_insert (h : ws.Holds others base) {position : Int} {fresh : Slot}
    (hnone : ws.outer.lookup position = none) (hposition : IsPosition position)
    (hstorage : fresh.storage = .argument) (hfresh : fresh.position = some position)
    (offset : Nat) : Holds { ws with
      tree := ws.tree.alloc offset (.slot fresh)
      outer := Outer.insert position ws.tree.nextId ws.outer } others base := by
  have hlt : ∀ id, ws.tree.storage? id = some .argument → id.index < ws.tree.size :=
    fun id => Tree.lt_size_of_storage?
  have hnew : (ws.tree.alloc offset (.slot fresh)).IsArgument ws.tree.nextId position :=
    ⟨fresh, by rw [Tree.slot?, Tree.node_alloc_nextId], hstorage, hfresh⟩
  have hothers : ∀ id, others id → id.index < ws.tree.size := fun id hid =>
    hlt id ((h.argument id).2 (.inr hid))
  refine ⟨⟨Outer.descending_insert h.outer.descending hnone, fun entry hentry => ?_,
    fun entry hentry => ?_⟩, fun entry hentry hother => ?_, fun id => ?_, fun id hid => ?_⟩
  · rcases Outer.mem_insert_iff.1 hentry with rfl | hentry
    · exact hposition
    · exact h.outer.position entry hentry
  · rcases Outer.mem_insert_iff.1 hentry with rfl | hentry
    · exact hnew
    · have hold := h.outer.slot entry hentry
      exact hold.of_slot?_eq (Tree.slot?_alloc_of_lt (hlt _ hold.storage?))
  · rcases Outer.mem_insert_iff.1 hentry with rfl | hentry
    · exact Nat.lt_irrefl _ (hothers _ hother)
    · exact h.apart entry hentry hother
  · by_cases hid : id.index < ws.tree.size
    · have hne : ∀ position', (position', id) ≠ (position, ws.tree.nextId) := by
        rintro position' heq
        cases heq
        exact Nat.lt_irrefl _ hid
      simp only [Tree.storage?_alloc_of_lt hid, h.argument id, Outer.mem_insert_iff, hne, false_or]
    · refine ⟨fun hargument => ?_, ?_⟩
      · rw [Tree.eq_nextId_of_alloc (Nat.le_of_not_lt hid) (Tree.lt_size_of_storage? hargument)]
        exact .inl ⟨position, Outer.mem_insert_iff.2 (.inl rfl)⟩
      · rintro (⟨position', hmem⟩ | hother)
        · rcases Outer.mem_insert_iff.1 hmem with heq | hmem
          · cases heq
            exact hnew.storage?
          · exact absurd (hlt id (h.outer.slot _ hmem).storage?) hid
        · exact absurd (hothers id hother) hid
  · rw [Tree.slot?_alloc_of_lt (hothers id hid)]
    exact h.others id hid

end Holds

end Workspace

namespace Site

open Lift

variable {site : Site} {script : Script} {ws ws' : Workspace} {others : NodeId → Prop} {base : Tree}

theorem Change.hasWords (h : site.Change script ws ws') (hws : ws.HasWords) : ws'.HasWords := by
  intro word hword
  have hold : word ∈ ws.context.stack → ws'.tree.IsWord word.slot :=
    fun hmem => h.isWord (hws word hmem)
  cases h with
  | push hslot =>
    rcases List.mem_cons.1 hword with rfl | hword
    · exact hslot
    · exact hold hword
  | context hsub => exact hold (hsub.subset hword)
  | _ => exact hold hword

theorem Change.holds (h : site.Change script ws ws') (hwords : ws.HasWords)
    (hws : ws.Holds others base) : ws'.Holds others base := by
  cases h with
  | make hplain =>
    exact hws.of_keepsSlots rfl (.alloc_of_kind _ _ (Node.kind_ne_slot_of_isPlain hplain))
  | record hplain =>
    refine hws.of_keepsSlots rfl (.record _ _ _ _ ?_)
    rintro _ rfl
    exact absurd rfl (Node.kind_ne_slot_of_isPlain hplain)
  | label => exact hws.of_keepsSlots rfl (.pushStatement _ _ _)
  | fork =>
    exact hws.of_keepsSlots rfl
      ((Tree.KeepsSlots.alloc _ _ (by simp)).trans (.record _ _ _ _ (by simp)))
  | schedule => exact hws.of_keepsSlots rfl (.alloc _ _ (by simp))
  | reserve hown =>
    refine hws.of_keepsSlots rfl (.record _ _ _ _ ?_)
    rintro _ ⟨⟩
    simp [hown]
  | @declare slot made value hown hmade =>
    have hslot : ws.tree.KeepsSlots (ws.tree.alloc site.ins.offset (.slot slot)) := by
      refine .alloc _ _ ?_
      rintro _ ⟨⟩
      simp [hown]
    refine hws.of_keepsSlots rfl ?_
    cases made with
    | none => exact hslot.trans (.record _ _ _ _ (by simp))
    | some node =>
      refine (hslot.trans (.alloc_of_kind _ _ ?_)).trans (.record _ _ _ _ (by simp))
      exact Node.kind_ne_slot_of_isPlain (hmade node rfl)
  | push | context | warn => exact hws.of_keepsSlots rfl (.of_exprs_eq rfl)
  | mark hmem => exact hws.modifySlot (hws.apart _ hmem) fun _ _ => ⟨rfl, Iff.rfl⟩
  | argument hnone hlow hneg hindex =>
    obtain ⟨index, hindex⟩ := hindex
    exact hws.argument_insert hnone ⟨hlow, hneg, hindex ▸ Int.dvd_mul_left _ _⟩ rfl rfl _
  | retype hslot =>
    exact hws.modifySlot (hws.not_others hwords hslot) fun _ _ => ⟨rfl, Iff.rfl⟩
  | @promote word hword =>
    refine hws.modifySlot (hws.not_others hwords (.inl ⟨word, hword, rfl⟩)) fun s hs => ⟨rfl, ?_⟩
    have hne := (hwords word hword).storage?_ne
    rw [Tree.storage?, hs, Option.map_some] at hne
    exact ⟨by simp, fun hstorage => absurd (congrArg some hstorage) hne⟩

theorem visit_hasWords (site : Site) (script : Script) (callees : List (Nat × SubId))
    (h : ws.HasWords) : (left (site.visit script callees ws)).HasWords :=
  visit_induction (P := Workspace.HasWords) (fun hchange hmid => hchange.hasWords hmid)
    (fun _ hmid word hword => ((hmid word hword).alloc _ _).pushStatement _ _) h

theorem visit_holds (site : Site) (script : Script) (callees : List (Nat × SubId))
    (hwords : ws.HasWords) (h : ws.Holds others base) :
    (left (site.visit script callees ws)).Holds others base := by
  refine (visit_induction (P := fun ws => ws.HasWords ∧ ws.Holds others base)
    (fun hchange hmid => ⟨hchange.hasWords hmid.1, hchange.holds hmid.1 hmid.2⟩) ?_
    ⟨hwords, h⟩).2
  intro mid node hleaves hmid
  refine ⟨fun word hword => ((hmid.1 word hword).alloc _ _).pushStatement _ _,
    hmid.2.of_keepsSlots rfl (.record _ _ _ _ ?_)⟩
  rintro _ rfl
  cases hleaves

end Site

namespace Machine

/-- The slot is an argument of the subroutine, which is in progress or complete. -/
def Lists (m : Machine) (sub : SubId) (slot : NodeId) : Prop :=
  (∃ act ∈ m.active, act.sub = sub ∧ ∃ position, (position, slot) ∈ act.outer) ∨
    ∃ formal ∈ (m.tree.sub sub).formals, formal.slot = slot

/-- Every argument is one of exactly one subroutine. -/
structure Filed (m : Machine) : Prop where
  unique : ∀ {sub other slot}, m.Lists sub slot → m.Lists other slot → sub = other
  argument : ∀ id, m.tree.storage? id = some .argument ↔ ∃ sub, m.Lists sub id
  outer : ∀ act ∈ m.active, act.outer.Lists m.tree
  formals : ∀ sub, m.tree.DescribesAll (m.tree.sub sub).formals

variable {script : Script} {settings : LiftSettings} {m m' : Machine} {act act' : Activation}
  {callers : List Activation} {sub : SubId} {slot : NodeId}

theorem formals_begin (m : Machine) (name : String) (entry : Nat) (context : SubId → Context)
    (sub : SubId) :
    ((m.begin name entry context).tree.sub sub).formals = (m.tree.sub sub).formals := by
  by_cases hsub : m.tree.HasSub sub
  · rw [sub_begin_of_hasSub hsub]
  · rw [Tree.formals_of_not_hasSub hsub]
    by_cases hnew : sub = m.tree.nextSubId
    · subst hnew
      rw [sub_begin_nextSubId]
    · exact Tree.formals_of_not_hasSub fun hadd => (hasSub_begin.1 hadd).elim hsub hnew

namespace Filed

theorem of_lists_iff (h : m.Filed) (hlists : ∀ sub slot, m'.Lists sub slot ↔ m.Lists sub slot)
    (hslots : ∀ id, m'.tree.slot? id = m.tree.slot? id)
    (houter : ∀ act ∈ m'.active, act.outer.Lists m.tree)
    (hformals : ∀ sub, m.tree.DescribesAll (m'.tree.sub sub).formals) : m'.Filed := by
  refine ⟨fun hsub hother => h.unique ((hlists _ _).1 hsub) ((hlists _ _).1 hother), fun id => ?_,
    fun act hact => (houter act hact).of_slots_eq fun _ _ => hslots _,
    fun sub => (hformals sub).of_slots_eq fun _ _ => hslots _⟩
  rw [Tree.storage?, hslots, ← Tree.storage?, h.argument id]
  simp only [hlists]

theorem goesOn (h : m.Filed) (hactive : m.active = act :: callers)
    (hactive' : m'.active = act' :: callers) (hsub : act'.sub = act.sub)
    (houter : act'.outer = act.outer) (hslots : ∀ id, m'.tree.slot? id = m.tree.slot? id)
    (hformals : ∀ sub, (m'.tree.sub sub).formals = (m.tree.sub sub).formals) : m'.Filed := by
  refine h.of_lists_iff (fun sub slot => ?_) hslots (fun other hother => ?_)
    fun sub => by rw [hformals]; exact h.formals sub
  · simp only [Lists, hactive, hactive', List.exists_mem_cons_iff, hsub, houter, hformals]
  · rw [hactive'] at hother
    rcases List.mem_cons.1 hother with rfl | hother
    · rw [houter]
      exact h.outer act (first_mem hactive)
    · exact h.outer other (caller_mem hactive hother)

theorem begin (h : m.Filed) (name : String) (entry : Nat) (context : SubId → Context) :
    (m.begin name entry context).Filed := by
  refine h.of_lists_iff (fun sub slot => ?_) (fun id => ?_) (fun act hact => ?_)
    fun sub => by rw [formals_begin]; exact h.formals sub
  · have hactive : (m.begin name entry context).active =
        Activation.start m.tree.nextSubId entry m.tree.nextId (context m.tree.nextSubId) ::
          m.active := rfl
    simp [Lists, formals_begin, hactive, Activation.start]
  · exact (Tree.slot?_of_exprs_eq rfl).trans (Tree.slot?_alloc_of_kind (by simp [Node.kind]) entry)
  · rcases List.mem_cons.1 hact with rfl | hact
    · exact ⟨.nil, fun _ h => absurd h List.not_mem_nil, fun _ h => absurd h List.not_mem_nil⟩
    · exact h.outer act hact

/-- A complete subroutine keeps its arguments. -/
theorem finish (h : m.Filed) (hactive : m.active = act :: callers) (hsub : m.tree.HasSub act.sub)
    (hfresh : (m.tree.sub act.sub).formals = []) : (m.finish act callers).Filed := by
  have hself : ((m.finish act callers).tree.sub act.sub).formals =
      Activation.formals m.tree act.outer :=
    congrArg Subroutine.formals (Tree.sub_modifySub_self hsub)
  have hother : ∀ sub, sub ≠ act.sub →
      (m.finish act callers).tree.sub sub = m.tree.sub sub :=
    fun sub hne => Tree.sub_modifySub_of_ne hne
  have hsettled := (h.outer act (first_mem hactive)).describesAll
  refine h.of_lists_iff (fun sub slot => ?_) (fun id => Tree.slot?_of_exprs_eq rfl)
    (fun other hmem => h.outer other (caller_mem hactive hmem))
    fun sub => ?_
  · have hcallers : (m.finish act callers).active = callers := rfl
    by_cases heq : sub = act.sub
    · subst heq
      simp [Lists, hactive, hcallers, hself, hfresh, Activation.formals, or_comm]
    · simp [Lists, hactive, hcallers, hother sub heq, Ne.symm heq]
  · by_cases heq : sub = act.sub
    · rw [heq, hself]
      exact hsettled
    · rw [hother sub heq]
      exact h.formals sub

end Filed

/-- The slot is an argument, but none of the innermost subroutine. -/
def ListsElsewhere (m : Machine) (callers : List Activation) (sub : SubId) (slot : NodeId) : Prop :=
  (∃ act ∈ callers, act.sub = sub ∧ ∃ position, (position, slot) ∈ act.outer) ∨
    ∃ formal ∈ (m.tree.sub sub).formals, formal.slot = slot

theorem lists_cons_iff (hactive : m.active = act :: callers) : m.Lists sub slot ↔
    (act.sub = sub ∧ ∃ position, (position, slot) ∈ act.outer) ∨
      m.ListsElsewhere callers sub slot := by
  simp only [Lists, ListsElsewhere, hactive, List.exists_mem_cons_iff, or_assoc]

namespace Filed

theorem holds (h : m.Filed) (hactive : m.active = act :: callers)
    (hdistinct : m.inProgress.Nodup) (hfresh : (m.tree.sub act.sub).formals = []) (walk : Walk) :
    (m.workspace act walk).Holds (fun id => ∃ sub, m.ListsElsewhere callers sub id) m.tree := by
  refine ⟨h.outer act (first_mem hactive), ?_, fun id => ?_, fun _ _ => rfl⟩
  · rintro ⟨position, slot⟩ hentry ⟨sub, helse⟩
    have hsame : act.sub = sub := h.unique
      ((lists_cons_iff hactive).2 (.inl ⟨rfl, position, hentry⟩))
      ((lists_cons_iff hactive).2 (.inr helse))
    subst hsame
    rcases helse with ⟨other, hother, hsub, -⟩ | ⟨formal, hformal, -⟩
    · rw [inProgress, hactive, List.map_cons, List.nodup_cons] at hdistinct
      exact hdistinct.1 (hsub ▸ List.mem_map_of_mem hother)
    · rw [hfresh] at hformal
      cases hformal
  · have hiff : m.tree.storage? id = some .argument ↔ _ := h.argument id
    refine hiff.trans ?_
    simp only [lists_cons_iff hactive, exists_or, exists_and_right, exists_eq', true_and]
    rfl

/-- What an instruction leaves. -/
theorem visited (h : m.Filed) (hactive : m.active = act :: callers)
    (hactive' : m'.active = act' :: callers) (hsub : act'.sub = act.sub) {ws : Workspace}
    (houter : act'.outer = ws.outer) (htree : m'.tree.exprs = ws.tree.exprs)
    (hsubs : m'.tree.subroutines = m.tree.subroutines)
    (hws : ws.Holds (fun id => ∃ sub, m.ListsElsewhere callers sub id) m.tree) : m'.Filed := by
  have hformals : ∀ sub, (m'.tree.sub sub).formals = (m.tree.sub sub).formals :=
    fun sub => Tree.formals_of_subroutines_eq hsubs
  have hslots : ∀ id, m'.tree.slot? id = ws.tree.slot? id := fun _ => Tree.slot?_of_exprs_eq htree
  have hlists : ∀ sub slot, m'.Lists sub slot ↔
      (act.sub = sub ∧ ∃ position, (position, slot) ∈ ws.outer) ∨
        m.ListsElsewhere callers sub slot := by
    intro sub slot
    rw [lists_cons_iff hactive', hsub, houter]
    simp only [ListsElsewhere, hformals]
  have hsame : ∀ {sub slot}, m.ListsElsewhere callers sub slot →
      m'.tree.slot? slot = m.tree.slot? slot :=
    fun helse => (hslots _).trans (hws.others _ ⟨_, helse⟩)
  refine ⟨fun {sub other slot} hl hr => ?_, fun id => ?_, fun other hother => ?_, fun sub => ?_⟩
  · rcases (hlists _ _).1 hl with ⟨rfl, position, hl⟩ | hl <;>
      rcases (hlists _ _).1 hr with ⟨rfl, position', hr⟩ | hr
    · rfl
    · exact absurd ⟨_, hr⟩ (hws.apart _ hl)
    · exact absurd ⟨_, hl⟩ (hws.apart _ hr)
    · exact h.unique ((lists_cons_iff hactive).2 (.inr hl)) ((lists_cons_iff hactive).2 (.inr hr))
  · rw [Tree.storage?, hslots, ← Tree.storage?, hws.argument id]
    simp only [hlists, exists_or, exists_and_right, exists_eq', true_and]
  · rw [hactive'] at hother
    rcases List.mem_cons.1 hother with rfl | hother
    · rw [houter]
      exact hws.outer.of_slots_eq fun _ _ => hslots _
    · refine (h.outer other (caller_mem hactive hother)).of_slots_eq ?_
      exact fun entry hentry => hsame (.inl ⟨other, hother, rfl, entry.1, hentry⟩)
  · rw [hformals]
    exact (h.formals sub).of_slots_eq fun formal hformal => hsame (.inr ⟨formal, hformal, rfl⟩)

end Filed

end Machine

namespace Lift

variable {program : Program} {routines : Routines} {settings : LiftSettings} {count : Nat}
  {m m' : Machine}

theorem Step.isWord (h : Step program routines settings count m m') {id : NodeId}
    (hid : m.tree.IsWord id) : m'.tree.IsWord id := by
  have hsame : ∀ {tree : Tree}, m'.tree.exprs = tree.exprs → tree.IsWord id → m'.tree.IsWord id := by
    intro tree htree hword
    rwa [Tree.IsWord, Tree.slot?_of_exprs_eq htree]
  cases h.turn with
  | ended _ _ htree | shifted _ _ _ _ htree => exact hsame htree hid
  | entered _ _ _ _ htree => exact hsame htree (hid.alloc _ _)
  | @visited visit act' _ _ _ _ htree =>
    refine hsame htree (Site.visit_induction (P := fun ws => ws.tree.IsWord id)
      (fun hchange hmid => hchange.isWord hmid) (fun _ hmid => ?_) hid)
    exact (hmid.alloc _ _).pushStatement _ _

/-- No word that a run has on a stack is an argument. -/
theorem stage_isWord (h : stage program routines settings count = some m) :
    ∀ act ∈ m.active, ∀ p ∈ act.pending, ∀ word ∈ p.2.stack, m.tree.IsWord word.slot := by
  refine active_induction (P := fun _ tree act => ∀ p ∈ act.pending, ∀ word ∈ p.2.stack,
    tree.IsWord word.slot) ?_ ?_ ?_ ?_ ?_ h
  · intro p hp word hword
    obtain rfl := List.mem_singleton.1 hp
    cases hword
  · exact fun hstep hact p hp word hword => hstep.isWord (hact p hp word hword)
  · exact fun hgoes hact p hp => hact p (hgoes.pending hp)
  · intro count m m' visit act' hstep hvisit _ _ hleads htree hact p hp word hword
    have hwalk := Machine.walk_of_visit? hvisit
    have hstart : (visit.start m).HasWords := hact _ (Visit.mem_pending hwalk)
    have hlast : ∀ id, (visit.outcome (script program routines) m).tree.IsWord id →
        m'.tree.IsWord id := by
      intro id hid
      rwa [Tree.IsWord, Tree.slot?_of_exprs_eq htree]
    rcases hleads.pending_cases hp with rfl | ⟨job, hjob, rfl⟩ | hp
    · exact hlast _ (visit.site.visit_hasWords (script program routines) m.callees hstart word hword)
    · have hsub := (Visit.context_of_spawned hwalk (visit_fills hstep.before hvisit) hjob).1
      exact hstep.isWord (hstart word (hsub.subset hword))
    · exact hstep.isWord (hact p hp word hword)
  · intro count m m' visit target ws hstep hvisit _ act' _ _ hact p hp word hword
    obtain rfl := List.mem_singleton.1 hp
    exact hstep.isWord (hact _ (Visit.mem_pending (Machine.walk_of_visit? hvisit)) word hword)

/-- In every move arguments stay with their subroutines. -/
theorem Step.filed (h : Step program routines settings count m m') (hm : m.Filed) : m'.Filed := by
  have hmatched := stage_matched h.before
  have hfresh : ∀ {act callers}, m.active = act :: callers →
      (m.tree.sub act.sub).formals = [] := fun hactive =>
    hmatched.fresh _ (List.mem_map_of_mem (Machine.first_mem hactive))
  have hholds : ∀ {act callers walk} {site : Site} {result}, m.active = act :: callers →
      act.walk = some walk →
      site.visit (script program routines) m.callees (m.workspace act walk) = result →
      (left result).Holds (fun id => ∃ sub, m.ListsElsewhere callers sub id) m.tree := by
    intro act callers walk site result hactive hwalk hrun
    refine hrun ▸ Site.visit_holds site _ _ ?_
      (hm.holds hactive hmatched.distinct (hfresh hactive) walk)
    have hact : act ∈ m.active := Machine.first_mem hactive
    refine stage_isWord h.before act hact (walk.block, walk.context) ?_
    rw [Activation.pending, hwalk]
    exact List.mem_cons_self
  cases Machine.move_of_tick h.tick with
  | @finish act callers hactive =>
    refine hm.finish hactive ?_ (hfresh hactive)
    have hact : act ∈ m.active := Machine.first_mem hactive
    exact (((stage_entered h.before).known _ _).1 ((stage_entered h.before).active act hact)).1
  | skip hactive | start hactive | leave hactive | lost hactive =>
    exact hm.goesOn hactive rfl rfl rfl (fun _ => Tree.slot?_of_exprs_eq rfl)
      fun _ => Tree.formals_of_subroutines_eq rfl
  | next hactive hwalk _ hrun | stop hactive hwalk _ hrun =>
    exact hm.visited hactive rfl rfl rfl rfl ((Site.visit_subroutines _ _ _).ok hrun).2
      (hholds hactive hwalk hrun)
  | fault hactive hwalk _ hrun =>
    exact hm.visited hactive rfl rfl rfl rfl ((Site.visit_subroutines _ _ _).error hrun).2
      (hholds hactive hwalk hrun)
  | @enter act callers walk ins target ws hactive =>
    have hlast : Machine.Filed
        { m with active := { act with last := max act.last walk.offset } :: callers } :=
      hm.goesOn hactive rfl rfl rfl (fun _ => rfl) fun _ => rfl
    exact hlast.begin _ _ _

theorem start_filed (program : Program) : (start (labels program).1).Filed := by
  have hnone : ∀ sub, ((labels program).1.sub sub).formals = [] := fun sub =>
    Tree.formals_of_not_hasSub (by simp [Tree.HasSub, subroutines_labels])
  have hslot : ∀ id, (labels program).1.storage? id ≠ some .argument := by
    intro id hid
    have hlt := Tree.lt_size_of_storage? hid
    have hgrow : (labels program).1.Grows (start (labels program).1).tree :=
      (Tree.Grows.alloc _ _ _).trans (.of_exprs_eq rfl)
    have hkind := hgrow.kind_eq hlt
    rw [Tree.kind_of_storage? hid, Tree.kind] at hkind
    rcases start_node program id with hnode | hnode <;> rw [hnode] at hkind <;> cases hkind
  have hfirst : Machine.Filed ⟨(labels program).1, [], []⟩ := by
    refine ⟨fun {sub other slot} hl _ => ?_, fun id => ⟨fun hid => absurd hid (hslot id), ?_⟩,
      fun act hact => absurd hact List.not_mem_nil, fun sub => by rw [hnone]; exact .nil _⟩
    · simp [Machine.Lists, hnone] at hl
    · simp [Machine.Lists, hnone]
  exact hfirst.begin _ _ _

theorem stage_filed (h : stage program routines settings count = some m) : m.Filed :=
  stage_induction (P := fun _ m => m.Filed) (start_filed program)
    (fun hstep hm => hstep.filed hm) h

end Lift

namespace Formal

variable {tree : Tree} {formal other : Formal}

/-- The argument at -4 is number 0, the one at -8 number 1, and so on. -/
theorem position_eq_number (h : IsPosition formal.position) :
    formal.position = -4 * (formal.number + 1 : Int) := by
  obtain ⟨-, hneg, words, hwords⟩ := h
  rw [number, argumentNumber]
  omega

theorem textTo_eq (h : tree.Describes formal) (routines : Routines) (depth : Nat) :
    Source.textTo tree routines (depth + 1) formal.slot =
      .ok ("arg_" ++ toString formal.number) := by
  obtain ⟨slot, hslot, hstorage, hposition, -⟩ := h
  have hnode : tree.node formal.slot = .slot slot := by
    unfold Tree.slot? at hslot
    split at hslot <;> simp_all
  simp only [Source.textTo, hnode, Expr.slotName, hstorage, hposition, Option.getD_some, number]

theorem formalText_eq (formal : Formal) : Source.formalText formal =
    formal.type.keyword ++ " " ++ ("arg_" ++ toString formal.number) := by
  simp only [Source.formalText, String.append_assoc]
  rfl

end Formal

theorem Tree.DescribesAll.numbers_nodup {tree : Tree} {formals : List Formal}
    (h : tree.DescribesAll formals) : (formals.map Formal.number).Nodup := by
  refine List.pairwise_map.2 (h.descending.imp_of_mem fun {upper lower} hu hl hlt => ?_)
  have hupper := Formal.position_eq_number (h.position upper hu)
  have hlower := Formal.position_eq_number (h.position lower hl)
  omega

theorem Tree.DescribesAll.slots_nodup {tree : Tree} {formals : List Formal}
    (h : tree.DescribesAll formals) : (formals.map (·.slot)).Nodup := by
  refine List.pairwise_map.2 (h.descending.imp_of_mem fun {upper lower} hu hl hlt hslot => ?_)
  rw [(h.slot upper hu).eq (h.slot lower hl) hslot] at hlt
  exact Int.lt_irrefl _ hlt

/-- Formal arguments and their slots agree. The list of a subroutine runs from the nearest argument
to the deepest, at whole words below the stack at entry; each slot is an argument of the same
position and type, which is modified where the list says so; the heading and the body name it alike,
and no two arguments of a subroutine have the same name. Every slot that is an argument is listed
once, for one subroutine. -/
theorem formals_agree_with_slots {program : Program} {routines : Routines}
    {settings : LiftSettings} {tree : Tree} (hlift : lift program routines settings = some (.ok tree)) :
    (∀ sub, tree.HasSub sub →
      (tree.sub sub).formals.Pairwise (fun upper lower => lower.position < upper.position) ∧
      ((tree.sub sub).formals.map Formal.number).Nodup ∧
      ∀ formal ∈ (tree.sub sub).formals,
        formal.position < 0 ∧ 4 ∣ formal.position ∧ tree.Describes formal ∧
        ∃ name, name = "arg_" ++ toString formal.number ∧
          Source.formalText formal = formal.type.keyword ++ " " ++ name ∧
          ∀ routines depth, Source.textTo tree routines (depth + 1) formal.slot = .ok name) ∧
    ∀ id, tree.storage? id = some .argument → ∃! listed : SubId × Formal,
      tree.HasSub listed.1 ∧ listed.2 ∈ (tree.sub listed.1).formals ∧ listed.2.slot = id := by
  obtain ⟨lifted, hrun, rfl⟩ := lift_eq_ok hlift
  obtain ⟨count, last, hlast, hrest, rfl⟩ := Lift.exists_stage hrun
  have hfiled := Lift.stage_filed hlast
  have hformals : ∀ sub, ((Lift.complete last.tree).sub sub).formals =
      (last.tree.sub sub).formals := Lift.field_complete (·.formals) (fun _ _ => rfl) last.tree
  have hall : ∀ sub, (Lift.complete last.tree).DescribesAll
      ((Lift.complete last.tree).sub sub).formals := by
    intro sub
    rw [hformals]
    exact (hfiled.formals sub).of_slots_eq fun _ _ => Lift.slot?_complete _ _
  have hlists : ∀ {sub slot}, last.Lists sub slot ↔
      ∃ formal ∈ ((Lift.complete last.tree).sub sub).formals, formal.slot = slot := by
    intro sub slot
    simp [Machine.Lists, hrest, hformals]
  refine ⟨fun sub _ => ⟨(hall sub).descending, (hall sub).numbers_nodup, fun formal hformal => ?_⟩,
    fun id hid => ?_⟩
  · have hposition := (hall sub).position formal hformal
    have hslot := (hall sub).slot formal hformal
    exact ⟨hposition.2.1, hposition.2.2, hslot, _, rfl, Formal.formalText_eq formal,
      Formal.textTo_eq hslot⟩
  · have hstorage : (Lift.complete last.tree).storage? id = last.tree.storage? id := by
      rw [Tree.storage?, Lift.slot?_complete, ← Tree.storage?]
    obtain ⟨sub, hsub⟩ := (hfiled.argument id).1 (hstorage.symm.trans hid)
    obtain ⟨formal, hformal, hslot⟩ := hlists.1 hsub
    refine ⟨(sub, formal), ⟨?_, hformal, hslot⟩, ?_⟩
    · by_contra hnot
      have hnil : ((Lift.complete last.tree).sub sub).formals = [] :=
        Tree.formals_of_not_hasSub hnot
      rw [hnil] at hformal
      cases hformal
    · rintro ⟨other, formal'⟩ ⟨-, hformal', hslot'⟩
      obtain rfl : other = sub := hfiled.unique (hlists.2 ⟨formal', hformal', hslot'⟩) hsub
      have heq : formal' = formal := ((hall other).slot formal' hformal').eq
        ((hall other).slot formal hformal) (hslot'.trans hslot.symm)
      rw [heq]

/-- A subroutine that assigns the word below the top of its caller's stack to the word at the
top. -/
def assigningScript : Program := .ofList "" [
  { opcode := .jsr, jump := 8 },
  { opcode := .retn },
  { opcode := .consti, value := some (.int 1) },
  { opcode := .consti, value := some (.int 2) },
  { opcode := .jsr, jump := 14 },
  { opcode := .movsp, stack := -8 },
  { opcode := .retn },
  { opcode := .cptopsp, stack := -8, size := 4 },
  { opcode := .cpdownsp, stack := -8, size := 4 },
  { opcode := .movsp, stack := -4 },
  { opcode := .retn }
]

/-- Its heading has both words, and its body names them alike. -/
theorem assigningScript_formals : ∃ tree, lift assigningScript {} .strictly = some (.ok tree) ∧
    (tree.sub ⟨2⟩).formals.map (fun formal => (formal.position, formal.number, formal.pointer)) =
      [(-4, 0, true), (-8, 1, false)] ∧
    (∀ formal ∈ (tree.sub ⟨2⟩).formals, Source.text tree {} formal.slot =
      .ok ("arg_" ++ toString formal.number)) ∧
    ∃ id, tree.storage? id = some .argument ∧ ∃! listed : SubId × Formal,
      tree.HasSub listed.1 ∧ listed.2 ∈ (tree.sub listed.1).formals ∧ listed.2.slot = id := by
  obtain ⟨tree, hlift, hcond⟩ := exists_of_lift assigningScript {} .strictly
    (fun tree => decide ((tree.sub ⟨2⟩).formals.map
        (fun formal => (formal.position, formal.number, formal.pointer)) =
          [(-4, 0, true), (-8, 1, false)] ∧ 2 < tree.subroutines.size))
    (by decide +kernel)
  obtain ⟨hformals, hsub⟩ := of_decide_eq_true hcond
  obtain ⟨hagree, hlisted⟩ := formals_agree_with_slots hlift
  obtain ⟨-, -, heach⟩ := hagree ⟨2⟩ hsub
  refine ⟨tree, hlift, hformals, fun formal hformal => ?_, ?_⟩
  · obtain ⟨-, -, -, name, rfl, -, htext⟩ := heach formal hformal
    exact htext {} tree.size
  · obtain ⟨formal, hformal⟩ : ∃ formal, formal ∈ (tree.sub ⟨2⟩).formals := by
      refine List.exists_mem_of_ne_nil _ fun hnil => ?_
      rw [hnil] at hformals
      cases hformals
    have hargument := (heach formal hformal).2.2.1.isArgument.storage?
    exact ⟨formal.slot, hargument, hlisted _ hargument⟩

end ScriptLift
