import Mathlib.Data.Option.Basic
import ScriptLift.Proofs.Compact.Steps

namespace ScriptLift.Draft

variable {draft : Draft} {block : NodeId} {settings : CompactSettings} {rewrite : Rewrite}

theorem initializer?_eq_some {slot assign : NodeId} {index : Nat}
    (h : draft.initializer? block slot index = some assign) :
    ∃ value position, draft.facts.writesOf slot = [⟨assign, some value⟩] ∧
      (draft.tree.statements block).idxOf? assign = some position ∧ index < position ∧
      draft.readsFollow block slot position := by
  unfold initializer? at h
  split at h
  · next written value hwrites =>
    split at h
    · next position hposition =>
      split at h
      · next hcond =>
        cases h
        exact ⟨value, position, hwrites, hposition, hcond.1, hcond.2⟩
      · cases h
    · cases h
  · cases h

def between (draft : Draft) (block : NodeId) (move : Inlining) : List NodeId :=
  ((draft.tree.statements block).take move.consumer).drop (move.index + 1)

/-- A temporary that may move into its only use. -/
structure Moves (draft : Draft) (block statement : NodeId) (move : Inlining) : Prop where
  node : draft.tree.node statement = .binary .assign move.slot move.value true
  storage : draft.tree.storage? move.slot = some .own
  written : ∃ value, draft.facts.writesOf move.slot = [⟨statement, value⟩]
  read : draft.facts.readsOf move.slot = [move.read]
  admits : move.read.admitsValue (draft.tree.kind move.read.node)
  holding : draft.tree.statementHolding? block move.read.node false = some move.consumer
  later : move.index < move.consumer
  canMove : draft.canMove move.value (draft.between block move)

theorem temporary?_eq_some {statement slot value : NodeId} {read : Read}
    (h : draft.temporary? statement = some (slot, value, read)) :
    draft.tree.node statement = .binary .assign slot value true ∧
      draft.tree.storage? slot = some .own ∧
      (∃ value, draft.facts.writesOf slot = [⟨statement, value⟩]) ∧
      draft.facts.readsOf slot = [read] ∧ read.admitsValue (draft.tree.kind read.node) := by
  unfold temporary? at h
  split at h
  case h_2 => cases h
  case h_1 slot value hnode =>
  split at h
  case isFalse => cases h
  case isTrue hstorage =>
  split at h
  case h_2 => cases h
  case h_1 write read hwrites hreads =>
  split at h
  case isFalse => cases h
  case isTrue hread =>
  cases h
  refine ⟨hnode, hstorage, ⟨write.value, ?_⟩, hreads, hread.2⟩
  rw [hwrites, ← hread.1]

theorem moves_of_inliningAt? {statement : NodeId} {index : Nat} {move : Inlining}
    (h : draft.inliningAt? block statement index = some move) :
    move.index = index ∧ draft.Moves block statement move := by
  unfold inliningAt? at h
  split at h
  case h_2 => cases h
  case h_1 slot value read htemporary =>
  obtain ⟨hnode, hstorage, hwritten, hread, hadmits⟩ := temporary?_eq_some htemporary
  split at h
  case h_2 => cases h
  case h_1 consumer hconsumer =>
  dsimp only at h
  split at h
  case isFalse => cases h
  case isTrue hmove =>
  cases h
  exact ⟨rfl, hnode, hstorage, hwritten, hread, hadmits, hconsumer, hmove.1, hmove.2⟩

/-- What each rewrite needs. -/
inductive Admits (draft : Draft) (block : NodeId) : Rewrite → Prop where
  | dropDeclaration {index : Nat} {statement : NodeId}
    (hat : (draft.tree.statements block)[index]? = some statement) :
    Admits draft block (.dropDeclaration index)
  | mergeDeclaration {index : Nat} {statement assign : NodeId}
    (hat : (draft.tree.statements block)[index]? = some statement)
    (hinit : draft.initializer? block statement index = some assign) :
    Admits draft block (.mergeDeclaration index assign)
  | collapseAction {action argument call : NodeId} {index : Nat} {routine : UInt16}
    {arguments : List NodeId} (hnode : draft.tree.node action = .action routine arguments)
    (hargument : arguments[index]? = some argument)
    (hcall : draft.tree.onlyCall? argument = some call) :
    Admits draft block (.collapseAction action index call)
  | assignCall {index : Nat} {call slot : NodeId}
    (hat : (draft.tree.statements block)[index]? = some call) (hkind : draft.tree.kind call = .call)
    (hslot : draft.facts.destination? call = some slot) :
    Admits draft block (.assignCall index call slot)
  | inlineValue {statement : NodeId} {move : Inlining}
    (hat : (draft.tree.statements block)[move.index]? = some statement)
    (hmoves : draft.Moves block statement move) : Admits draft block (.inlineValue move)
  | collapseVector {node operand source : NodeId} {role : Role}
    (hoperand : (role, operand) ∈ (draft.tree.node node).operands)
    (hsource : draft.tree.recomposed? operand = some source) :
    Admits draft block (.collapseVector node role source)
  | dropAssignment {index : Nat} {statement : NodeId}
    (hat : (draft.tree.statements block)[index]? = some statement) :
    Admits draft block (.dropAssignment index)
  | keepValue {index : Nat} {statement slot value : NodeId} {declares : Bool}
    (hat : (draft.tree.statements block)[index]? = some statement)
    (hnode : draft.tree.node statement = .binary .assign slot value declares)
    (hkept : draft.tree.isKept value) : Admits draft block (.keepValue index value)
  | dropLabel {index : Nat} {statement : NodeId}
    (hat : (draft.tree.statements block)[index]? = some statement) :
    Admits draft block (.dropLabel index)

theorem exists_of_findSome?_zipIdx {statements : List NodeId} {f : NodeId × Nat → Option Rewrite}
    (h : statements.zipIdx.findSome? f = some rewrite) :
    ∃ statement index, statements[index]? = some statement ∧
      f (statement, index) = some rewrite := by
  obtain ⟨⟨statement, index⟩, hmem, hf⟩ := List.exists_of_findSome?_eq_some h
  exact ⟨statement, index, List.mk_mem_zipIdx_iff_getElem?.1 hmem, hf⟩

theorem admits_of_declaration? (h : draft.declaration? block = some rewrite) :
    draft.Admits block rewrite := by
  obtain ⟨statement, index, hat, hrule⟩ := exists_of_findSome?_zipIdx h
  dsimp only [declarationAt?] at hrule
  split at hrule
  · split at hrule
    · cases hrule
      exact .dropDeclaration hat
    · obtain ⟨assign, hinit, rfl⟩ := Option.map_eq_some_iff.1 hrule
      exact .mergeDeclaration hat hinit
  · obtain ⟨assign, hinit, rfl⟩ := Option.map_eq_some_iff.1 hrule
    exact .mergeDeclaration hat hinit
  · cases hrule

theorem admits_of_deferredCall? (h : draft.deferredCall? block = some rewrite) :
    draft.Admits block rewrite := by
  obtain ⟨statement, -, h⟩ := List.exists_of_findSome?_eq_some h
  obtain ⟨action, -, h⟩ := List.exists_of_findSome?_eq_some h
  unfold deferredCallAt? at h
  split at h
  · next routine arguments hnode =>
    obtain ⟨argument, index, hargument, h⟩ := exists_of_findSome?_zipIdx h
    obtain ⟨call, hcall, rfl⟩ := Option.map_eq_some_iff.1 h
    exact .collapseAction hnode hargument hcall
  · cases h

theorem admits_of_pendingCall? (h : draft.pendingCall? block = some rewrite) :
    draft.Admits block rewrite := by
  obtain ⟨statement, index, hat, hrule⟩ := exists_of_findSome?_zipIdx h
  dsimp only at hrule
  split at hrule
  · next hkind =>
    obtain ⟨slot, hslot, rfl⟩ := Option.map_eq_some_iff.1 hrule
    exact .assignCall hat hkind hslot
  · cases hrule

theorem admits_of_inlining? (h : draft.inlining? block = some rewrite) :
    draft.Admits block rewrite := by
  obtain ⟨statement, index, hat, hrule⟩ := exists_of_findSome?_zipIdx h
  obtain ⟨move, hmove, rfl⟩ := Option.map_eq_some_iff.1 hrule
  obtain ⟨hindex, hmoves⟩ := moves_of_inliningAt? hmove
  exact .inlineValue (by rw [hindex]; exact hat) hmoves

theorem admits_of_vector? (h : draft.vector? block = some rewrite) :
    draft.Admits block rewrite := by
  obtain ⟨statement, -, h⟩ := List.exists_of_findSome?_eq_some h
  obtain ⟨node, -, h⟩ := List.exists_of_findSome?_eq_some h
  obtain ⟨⟨role, operand⟩, hoperand, h⟩ := List.exists_of_findSome?_eq_some h
  obtain ⟨source, hsource, rfl⟩ := Option.map_eq_some_iff.1 h
  exact .collapseVector hoperand hsource

theorem admits_of_deadAssignment? (h : draft.deadAssignment? block = some rewrite) :
    draft.Admits block rewrite := by
  obtain ⟨statement, index, hat, hrule⟩ := exists_of_findSome?_zipIdx h
  dsimp only at hrule
  split at hrule
  · next hnode =>
    split at hrule
    · cases hrule
      split
      · next hkept => exact .keepValue hat hnode hkept
      · exact .dropAssignment hat
    · cases hrule
  · cases hrule

theorem admits_of_unusedLabel? (h : draft.unusedLabel? block = some rewrite) :
    draft.Admits block rewrite := by
  obtain ⟨statement, index, hat, hrule⟩ := exists_of_findSome?_zipIdx h
  dsimp only at hrule
  split at hrule
  · cases hrule
    exact .dropLabel hat
  · cases hrule

theorem admits_of_rewrite? (h : draft.rewrite? block settings = some rewrite) :
    draft.Admits block rewrite := by
  simp only [rewrite?, Option.orElse_eq_some] at h
  rcases h with h | ⟨-, h | ⟨-, h | ⟨-, h | ⟨-, h | ⟨-, h⟩⟩⟩⟩⟩
  · exact admits_of_declaration? h
  · exact admits_of_deferredCall? h
  · exact admits_of_pendingCall? h
  · split at h
    · rcases (Option.orElse_eq_some _ _ _).1 h with h | ⟨-, h⟩
      · exact admits_of_inlining? h
      · exact admits_of_vector? h
    · cases h
  · exact admits_of_deadAssignment? h
  · exact admits_of_unusedLabel? h

end ScriptLift.Draft
