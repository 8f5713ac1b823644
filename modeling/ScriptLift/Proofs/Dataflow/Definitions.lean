import Mathlib.Algebra.Group.Nat.Even
import ScriptLift.Dataflow.Evaluate
import ScriptLift.Proofs.Tree.Cycles

/-! The literal of a node, along the definitions that lead to it.

A slot leads to the value of its only assignment, a negation to its operand, and nothing else leads
anywhere. So there is one way from a node. Evaluation follows it up to the first slot that it meets
for the second time, and answers a literal exactly if the way comes to one before. -/
namespace ScriptLift

namespace Literal

/-- Literals that have a negative. -/
def isNumber : Literal → Bool
  | .int _ | .float _ => true
  | .string _ | .object _ => false

theorem exists_negate? {c : Literal} (h : c.isNumber) :
    ∃ n, c.negate? = some n ∧ n.negate? = some c := by
  cases c with
  | int value => exact ⟨_, rfl, by rw [negate?, Int32.neg_neg]⟩
  | float bits => exact ⟨_, rfl, by rw [negate?, UInt32.xor_assoc, UInt32.xor_self, UInt32.xor_zero]⟩
  | string | object => cases h

theorem negate?_eq_none {c : Literal} (h : ¬c.isNumber) : c.negate? = none := by
  cases c with
  | int | float => exact absurd rfl h
  | string | object => rfl

/-- What a literal becomes behind a number of negations. -/
structure Signed (k : Nat) (c v : Literal) : Prop where
  number : 0 < k → c.isNumber
  sign : if Even k then v = c else c.negate? = some v

end Literal

/-- The negative of a literal that was found, if it has one. -/
def negated : Except Unevaluated Literal → Except Unevaluated Literal
  | .ok value =>
    match value.negate? with
    | some n => .ok n
    | none => .error (.negating value)
  | .error cause => .error cause

theorem negated_iterate_error (k : Nat) (cause : Unevaluated) :
    negated^[k] (.error cause) = .error cause := by
  induction k with
  | zero => rfl
  | succ k ih => rw [Function.iterate_succ_apply', ih, negated]

theorem negated_iterate_number {c : Literal} (h : c.isNumber) (k : Nat) :
    ∃ v, negated^[k] (.ok c) = .ok v ∧ if Even k then v = c else c.negate? = some v := by
  obtain ⟨n, hn, hback⟩ := Literal.exists_negate? h
  induction k with
  | zero => exact ⟨c, rfl, by simp⟩
  | succ k ih =>
    obtain ⟨v, hv, hsign⟩ := ih
    rw [Function.iterate_succ_apply', hv]
    by_cases heven : Even k
    · rw [if_pos heven] at hsign
      subst hsign
      exact ⟨n, by rw [negated, hn], by rw [if_neg fun h => Nat.even_add_one.1 h heven, hn]⟩
    · rw [if_neg heven, hn, Option.some.injEq] at hsign
      subst hsign
      exact ⟨c, by rw [negated, hback], by rw [if_pos (Nat.even_add_one.2 heven)]⟩

theorem negated_iterate_other {c : Literal} (h : ¬c.isNumber) {k : Nat} (hk : 0 < k) :
    negated^[k] (.ok c) = .error (.negating c) := by
  obtain ⟨k, rfl⟩ := Nat.exists_eq_add_one_of_ne_zero (Nat.ne_of_gt hk)
  rw [Function.iterate_succ_apply, negated, Literal.negate?_eq_none h, negated_iterate_error]

theorem negated_iterate_eq_ok_iff {k : Nat} {c v : Literal} :
    negated^[k] (.ok c) = .ok v ↔ c.Signed k v := by
  by_cases hnumber : c.isNumber
  · obtain ⟨w, hw, hsign⟩ := negated_iterate_number hnumber k
    rw [hw, Except.ok.injEq]
    constructor
    · rintro rfl
      exact ⟨fun _ => hnumber, hsign⟩
    · rintro ⟨-, hother⟩
      split at hsign
      case isTrue heven => rw [if_pos heven] at hother; rw [hsign, hother]
      case isFalse hodd =>
        rw [if_neg hodd, hsign] at hother
        exact Option.some.inj hother
  · rcases Nat.eq_zero_or_pos k with rfl | hpos
    · constructor
      · intro h
        cases h
        exact ⟨fun h => absurd h (Nat.lt_irrefl 0), by simp⟩
      · intro h
        have hsign := h.sign
        rw [if_pos (by simp)] at hsign
        rw [hsign]
        rfl
    · rw [negated_iterate_other hnumber hpos]
      exact iff_of_false (fun h => by cases h) fun h => hnumber (h.number hpos)

namespace Tree

variable {tree : Tree} {id : NodeId}

def HasOperand (tree : Tree) (a b : NodeId) : Prop := b ∈ (tree.node a).operands.map (·.2)

/-- No node is an operand of its operands. -/
def OperandsAcyclic (tree : Tree) : Prop := ∀ id, ¬Relation.TransGen tree.HasOperand id id

theorem operandsAcyclic_of_before
    (h : ∀ i < tree.size, ∀ o ∈ (tree.node ⟨i⟩).operands, o.2.index < i) :
    tree.OperandsAcyclic := by
  have hstep : ∀ {a b}, tree.HasOperand a b → b.index < a.index := by
    intro a b hab
    obtain ⟨o, ho, rfl⟩ := List.mem_map.1 hab
    exact h a.index (lt_size_of_operand ho) o ho
  have hless : ∀ {a b}, Relation.TransGen tree.HasOperand a b → b.index < a.index := by
    intro a b hab
    induction hab with
    | single hab => exact hstep hab
    | tail _ hbc ih => exact Nat.lt_trans (hstep hbc) ih
  exact fun id hcycle => Nat.lt_irrefl _ (hless hcycle)

theorem length_le_size {ids : List NodeId} (hnodup : ids.Nodup)
    (hlt : ∀ id ∈ ids, id.index < tree.size) : ids.length ≤ tree.size := by
  rw [← List.toFinset_card_of_nodup hnodup]
  refine (Finset.card_le_card fun id hid => ?_).trans (@card_handles_le tree)
  exact mem_handles.2 (hlt id (List.mem_toFinset.1 hid))

def slotsOf (tree : Tree) (ids : List NodeId) : List NodeId := ids.filter tree.isSlot

def negationsOf (tree : Tree) (ids : List NodeId) : Nat :=
  ids.countP fun id => tree.kind id = .unary .negate

end Tree

namespace Facts

variable {facts : Facts} {tree : Tree} {id mid last : NodeId} {passed seen : List NodeId}

/-- Where the way goes on to: from a slot that is written once, by an assignment, to the value, and
from a negation to its operand. -/
def next? (facts : Facts) (tree : Tree) (id : NodeId) : Option NodeId :=
  match tree.node id with
  | .slot _ =>
    match facts.writesOf id with
    | [write] => write.value
    | _ => none
  | .unary .negate operand => some operand
  | _ => none

/-- The way from a node to another, and what it passes before that. -/
inductive Leads (facts : Facts) (tree : Tree) : NodeId → List NodeId → NodeId → Prop
  | refl (id : NodeId) : Leads facts tree id [] id
  | step {id mid last : NodeId} {passed : List NodeId} (h : facts.next? tree id = some mid)
    (rest : Leads facts tree mid passed last) : Leads facts tree id (id :: passed) last

/-- The way comes to a literal and passes no slot twice; the literal counts with the sign that the
negations give it. -/
def StandsFor (facts : Facts) (tree : Tree) (id : NodeId) (v : Literal) : Prop :=
  ∃ passed last c, facts.Leads tree id passed last ∧ tree.node last = .literal c ∧
    (tree.slotsOf passed).Nodup ∧ c.Signed (tree.negationsOf passed) v

/-- Why the way does not go on from a node, other than for a literal. -/
inductive Halts (facts : Facts) (tree : Tree) (met : List NodeId) (last : NodeId) :
    Unevaluated → Prop
  | cyclic (hslot : tree.isSlot last) (hmet : last ∈ met) : Halts facts tree met last (.cyclic last)
  | writes (hslot : tree.isSlot last) (hnew : last ∉ met) (h : (facts.writesOf last).length ≠ 1) :
    Halts facts tree met last (.writes last (facts.writesOf last).length)
  | writtenBy {node : NodeId} (hslot : tree.isSlot last) (hnew : last ∉ met)
    (h : facts.writesOf last = [⟨node, none⟩]) :
    Halts facts tree met last (.writtenBy last (tree.kind node))
  | unsupported (h : tree.kind last ∉ [.literal, .slot, .unary .negate]) :
    Halts facts tree met last (.unsupported (tree.kind last))

/-- The way ends at something else than a literal, or a literal that has no negative is negated. -/
def Breaks (facts : Facts) (tree : Tree) (id : NodeId) (cause : Unevaluated) : Prop :=
  ∃ passed last, facts.Leads tree id passed last ∧ (tree.slotsOf passed).Nodup ∧
    (facts.Halts tree (tree.slotsOf passed) last cause ∨
      ∃ c, tree.node last = .literal c ∧ ¬c.isNumber ∧ 0 < tree.negationsOf passed ∧
        cause = .negating c)

theorem evaluateWithin_literal {c : Literal} (h : tree.node id = .literal c) (steps : Nat) :
    facts.evaluateWithin tree (steps + 1) seen id = .ok c := by
  rw [evaluateWithin, h]

theorem evaluateWithin_negate {operand : NodeId} (h : tree.node id = .unary .negate operand)
    (steps : Nat) : facts.evaluateWithin tree (steps + 1) seen id =
      negated (facts.evaluateWithin tree steps seen operand) := by
  rw [evaluateWithin, h]
  rfl

theorem evaluateWithin_slot {slot : Slot} {write : Write} {value : NodeId}
    (h : tree.node id = .slot slot) (hseen : id ∉ seen) (hwrites : facts.writesOf id = [write])
    (hvalue : write.value = some value) (steps : Nat) :
    facts.evaluateWithin tree (steps + 1) seen id =
      facts.evaluateWithin tree steps (id :: seen) value := by
  simp only [evaluateWithin, h, if_neg hseen, hwrites, hvalue]

theorem Halts.congr {met : List NodeId} {cause : Unevaluated} (h : facts.Halts tree seen id cause)
    (hmet : ∀ n, n ∈ seen ↔ n ∈ met) : facts.Halts tree met id cause := by
  cases h with
  | cyclic hslot hseen => exact .cyclic hslot ((hmet id).1 hseen)
  | writes hslot hnew h => exact .writes hslot (fun hmem => hnew ((hmet id).2 hmem)) h
  | writtenBy hslot hnew h => exact .writtenBy hslot (fun hmem => hnew ((hmet id).2 hmem)) h
  | unsupported h => exact .unsupported h

theorem Halts.evaluateWithin {cause : Unevaluated} (h : facts.Halts tree seen id cause)
    (steps : Nat) : facts.evaluateWithin tree (steps + 1) seen id = .error cause := by
  have hnode : tree.isSlot id → ∃ slot, tree.node id = .slot slot := by
    intro hslot
    unfold Tree.isSlot Tree.slot? at hslot
    cases hnode : tree.node id <;> simp_all
  cases h with
  | cyclic hslot hmet =>
    obtain ⟨slot, hnode⟩ := hnode hslot
    simp only [Facts.evaluateWithin, hnode, if_pos hmet]
  | writes hslot hnew hne =>
    obtain ⟨slot, hnode⟩ := hnode hslot
    simp only [Facts.evaluateWithin, hnode, if_neg hnew]
    split
    · next write hwrites => exact absurd (by rw [hwrites]; rfl) hne
    · rfl
  | writtenBy hslot hnew hwrites =>
    obtain ⟨slot, hnode⟩ := hnode hslot
    simp only [Facts.evaluateWithin, hnode, if_neg hnew, hwrites]
  | unsupported hkind =>
    unfold Facts.evaluateWithin Tree.kind at *
    split <;> simp_all [Node.kind]

theorem next?_eq_some (h : facts.next? tree id = some mid) :
    (∃ slot write, tree.node id = .slot slot ∧ facts.writesOf id = [write] ∧
        write.value = some mid) ∨
      tree.node id = .unary .negate mid := by
  unfold next? at h
  split at h
  case h_1 slot hnode =>
    split at h
    case h_1 write hwrites => exact .inl ⟨slot, write, hnode, hwrites, h⟩
    case h_2 => cases h
  case h_2 operand hnode =>
    cases h
    exact .inr hnode
  case h_3 => cases h

/-- Where it does not go on there is a literal, or a reason. -/
theorem exists_halts (h : facts.next? tree id = none) :
    (∃ c, tree.node id = .literal c) ∨ ∃ cause, facts.Halts tree seen id cause := by
  by_cases hslot : tree.isSlot id
  · refine .inr ?_
    by_cases hseen : id ∈ seen
    · exact ⟨_, .cyclic hslot hseen⟩
    · by_cases hone : (facts.writesOf id).length = 1
      · obtain ⟨⟨node, value⟩, hwrites⟩ := List.length_eq_one_iff.1 hone
        have hvalue : value = none := by
          unfold Tree.isSlot Tree.slot? at hslot
          unfold next? at h
          cases hnode : tree.node id <;> simp_all
        exact ⟨_, .writtenBy hslot hseen (hvalue ▸ hwrites)⟩
      · exact ⟨_, .writes hslot hseen hone⟩
  · cases hnode : tree.node id with
    | literal c => exact .inl ⟨c, rfl⟩
    | slot slot => simp [Tree.isSlot, Tree.slot?, hnode] at hslot
    | unary op operand =>
      refine .inr ⟨_, .unsupported ?_⟩
      cases op <;> simp_all [next?, Tree.kind, Node.kind]
    | _ => exact .inr ⟨_, .unsupported (by simp [Tree.kind, hnode, Node.kind])⟩

theorem slotsOf_cons_slot {slot : Slot} (h : tree.node id = .slot slot) :
    tree.slotsOf (id :: passed) = id :: tree.slotsOf passed := by
  simp [Tree.slotsOf, Tree.isSlot, Tree.slot?, h]

theorem slotsOf_cons_negate {operand : NodeId} (h : tree.node id = .unary .negate operand) :
    tree.slotsOf (id :: passed) = tree.slotsOf passed := by
  simp [Tree.slotsOf, Tree.isSlot, Tree.slot?, h]

theorem negationsOf_cons_slot {slot : Slot} (h : tree.node id = .slot slot) :
    tree.negationsOf (id :: passed) = tree.negationsOf passed := by
  simp [Tree.negationsOf, Tree.kind, h, Node.kind]

theorem negationsOf_cons_negate {operand : NodeId} (h : tree.node id = .unary .negate operand) :
    tree.negationsOf (id :: passed) = tree.negationsOf passed + 1 := by
  simp [Tree.negationsOf, Tree.kind, h, Node.kind]

/-- Evaluation follows the way, and negates on its way back. -/
theorem Leads.evaluateWithin (h : facts.Leads tree id passed last)
    (hnodup : (tree.slotsOf passed).Nodup) (hnew : ∀ s ∈ tree.slotsOf passed, s ∉ seen)
    (steps : Nat) : facts.evaluateWithin tree (passed.length + steps) seen id =
      negated^[tree.negationsOf passed]
        (facts.evaluateWithin tree steps ((tree.slotsOf passed).reverse ++ seen) last) := by
  induction h generalizing seen with
  | refl => simp [Tree.slotsOf, Tree.negationsOf]
  | @step id mid last passed hnext _ ih =>
    rw [List.length_cons, Nat.add_right_comm]
    rcases next?_eq_some hnext with ⟨slot, write, hnode, hwrites, hvalue⟩ | hnode
    · rw [slotsOf_cons_slot hnode] at hnodup hnew
      obtain ⟨hid, hrest⟩ := List.nodup_cons.1 hnodup
      rw [evaluateWithin_slot hnode (hnew id List.mem_cons_self) hwrites hvalue, ih hrest,
        slotsOf_cons_slot hnode, negationsOf_cons_slot hnode]
      · simp
      · intro s hs hmem
        rcases List.mem_cons.1 hmem with rfl | hmem
        · exact hid hs
        · exact hnew s (List.mem_cons_of_mem _ hs) hmem
    · rw [slotsOf_cons_negate hnode] at hnodup hnew ⊢
      rw [evaluateWithin_negate hnode, ih hnodup hnew, negationsOf_cons_negate hnode,
        Function.iterate_succ_apply']

/-- The way goes on for a number of nodes, unless it ends before. -/
theorem exists_leads (facts : Facts) (tree : Tree) (steps : Nat) (seen : List NodeId)
    (id : NodeId) : ∃ passed last, facts.Leads tree id passed last ∧
      (tree.slotsOf passed).Nodup ∧ (∀ s ∈ tree.slotsOf passed, s ∉ seen) ∧
      (passed.length = steps ∨ (∃ c, tree.node last = .literal c) ∨
        ∃ cause, facts.Halts tree ((tree.slotsOf passed).reverse ++ seen) last cause) := by
  induction steps generalizing seen id with
  | zero => exact ⟨[], id, .refl id, by simp [Tree.slotsOf], by simp [Tree.slotsOf], .inl rfl⟩
  | succ steps ih =>
    cases hnext : facts.next? tree id with
    | none =>
      exact ⟨[], id, .refl id, by simp [Tree.slotsOf], by simp [Tree.slotsOf],
        .inr (by simpa [Tree.slotsOf] using exists_halts hnext)⟩
    | some mid =>
      rcases next?_eq_some hnext with ⟨slot, write, hnode, hwrites, hvalue⟩ | hnode
      · by_cases hseen : id ∈ seen
        · refine ⟨[], id, .refl id, by simp [Tree.slotsOf], by simp [Tree.slotsOf], .inr (.inr ?_)⟩
          exact ⟨_, .cyclic (by simp [Tree.isSlot, Tree.slot?, hnode])
            (by simpa [Tree.slotsOf] using hseen)⟩
        · obtain ⟨passed, last, hleads, hnodup, hnew, hend⟩ := ih (id :: seen) mid
          refine ⟨id :: passed, last, .step hnext hleads, ?_, ?_, ?_⟩
          · rw [slotsOf_cons_slot hnode, List.nodup_cons]
            exact ⟨fun hid => hnew id hid List.mem_cons_self, hnodup⟩
          · rw [slotsOf_cons_slot hnode, List.forall_mem_cons]
            exact ⟨hseen, fun s hs hmem => hnew s hs (List.mem_cons_of_mem _ hmem)⟩
          · rw [slotsOf_cons_slot hnode, List.reverse_cons, List.append_assoc]
            exact hend.imp_left (congrArg Nat.succ)
      · obtain ⟨passed, last, hleads, hnodup, hnew, hend⟩ := ih seen mid
        refine ⟨id :: passed, last, .step hnext hleads, ?_⟩
        rw [slotsOf_cons_negate hnode]
        exact ⟨hnodup, hnew, hend.imp_left (congrArg Nat.succ)⟩

/-- No way without a slot twice is longer: between two slots lie no more negations than the tree has
nodes, since no negation is below itself. `run` are those behind the slot passed last. -/
theorem Leads.length_le (hacyclic : tree.OperandsAcyclic) (h : facts.Leads tree id passed last)
    {run : List NodeId} (hslots : (seen ++ tree.slotsOf passed).Nodup)
    (hseen : ∀ s ∈ seen, s.index < tree.size) (hrun : run.Nodup)
    (hlt : ∀ n ∈ run, n.index < tree.size)
    (hbelow : ∀ n ∈ run, Relation.TransGen tree.HasOperand n id) :
    passed.length + (seen.length * (tree.size + 1) + run.length) ≤
      tree.size * (tree.size + 1) + tree.size := by
  induction h generalizing seen run with
  | refl id =>
    have hslots := Tree.length_le_size (List.nodup_append.1 hslots).1 hseen
    have hruns := Tree.length_le_size hrun hlt
    have hmul := Nat.mul_le_mul_right (tree.size + 1) hslots
    rw [List.length_nil]
    omega
  | @step id mid last passed hnext _ ih =>
    rcases next?_eq_some hnext with ⟨slot, write, hnode, hwrites, hvalue⟩ | hnode
    · have hid : id.index < tree.size := Tree.lt_size_of_kind_ne (by simp [Tree.kind, hnode, Node.kind])
      have hmore := @ih (seen ++ [id]) []
        (by simpa [slotsOf_cons_slot hnode] using hslots)
        (by
          intro s hs
          rcases List.mem_append.1 hs with hs | hs
          · exact hseen s hs
          · exact List.mem_singleton.1 hs ▸ hid)
        List.nodup_nil (by simp) (by simp)
      have hruns := Tree.length_le_size hrun hlt
      rw [List.length_append, List.length_singleton, Nat.add_one_mul, List.length_nil] at hmore
      rw [List.length_cons]
      omega
    · have hid : id.index < tree.size := Tree.lt_size_of_kind_ne (by simp [Tree.kind, hnode, Node.kind])
      have hstep : tree.HasOperand id mid := by simp [Tree.HasOperand, hnode, Node.operands]
      have hmore := @ih seen (id :: run)
        (by simpa [slotsOf_cons_negate hnode] using hslots) hseen
        (List.nodup_cons.2 ⟨fun hmem => hacyclic id (hbelow id hmem), hrun⟩)
        (List.forall_mem_cons.2 ⟨hid, hlt⟩)
        (List.forall_mem_cons.2 ⟨.single hstep, fun n hn => (hbelow n hn).tail hstep⟩)
      rw [List.length_cons] at hmore ⊢
      omega

section Acyclic

variable (hacyclic : tree.OperandsAcyclic)
include hacyclic

theorem Leads.evaluate (h : facts.Leads tree id passed last) (hnodup : (tree.slotsOf passed).Nodup)
    {steps : Nat} (hsteps : (tree.size + 1) * (tree.size + 1) + 1 ≤ steps) :
    ∃ more, facts.evaluateWithin tree steps [] id = negated^[tree.negationsOf passed]
      (facts.evaluateWithin tree (more + 1) (tree.slotsOf passed).reverse last) := by
  have hslots : ([] ++ tree.slotsOf passed).Nodup := by simpa using hnodup
  have hnew : ∀ s ∈ tree.slotsOf passed, s ∉ ([] : List NodeId) := by simp
  have hlength := h.length_le hacyclic hslots (by simp) List.nodup_nil (by simp) (by simp)
  have hsquare : (tree.size + 1) * (tree.size + 1) = tree.size * (tree.size + 1) + (tree.size + 1) :=
    Nat.add_one_mul _ _
  simp only [List.length_nil] at hlength
  have hrun := h.evaluateWithin hnodup hnew (steps - passed.length - 1 + 1)
  rw [List.append_nil] at hrun
  refine ⟨steps - passed.length - 1, ?_⟩
  rw [← hrun]
  congr 1
  omega

theorem StandsFor.evaluate {v : Literal} (h : facts.StandsFor tree id v) {steps : Nat}
    (hsteps : (tree.size + 1) * (tree.size + 1) + 1 ≤ steps) :
    facts.evaluateWithin tree steps [] id = .ok v := by
  obtain ⟨passed, last, c, hleads, hnode, hnodup, hsigned⟩ := h
  obtain ⟨more, hrun⟩ := hleads.evaluate hacyclic hnodup hsteps
  rw [hrun, evaluateWithin_literal hnode, negated_iterate_eq_ok_iff]
  exact hsigned

theorem Breaks.evaluate {cause : Unevaluated} (h : facts.Breaks tree id cause) {steps : Nat}
    (hsteps : (tree.size + 1) * (tree.size + 1) + 1 ≤ steps) :
    facts.evaluateWithin tree steps [] id = .error cause := by
  obtain ⟨passed, last, hleads, hnodup, hend⟩ := h
  obtain ⟨more, hrun⟩ := hleads.evaluate hacyclic hnodup hsteps
  rw [hrun]
  rcases hend with hhalts | ⟨c, hnode, hnumber, hpos, rfl⟩
  · have hreverse := hhalts.congr fun n => (@List.mem_reverse _ n (tree.slotsOf passed)).symm
    rw [hreverse.evaluateWithin, negated_iterate_error]
  · rw [evaluateWithin_literal hnode, negated_iterate_other hnumber hpos]

/-- Every node stands for a literal, or its way breaks. -/
theorem standsFor_or_breaks (facts : Facts) (id : NodeId) :
    (∃ v, facts.StandsFor tree id v) ∨ ∃ cause, facts.Breaks tree id cause := by
  obtain ⟨passed, last, hleads, hnodup, -, hend⟩ :=
    exists_leads facts tree (tree.size * (tree.size + 1) + tree.size + 1) [] id
  have hslots : ([] ++ tree.slotsOf passed).Nodup := by simpa using hnodup
  have hlength := hleads.length_le hacyclic hslots (by simp) List.nodup_nil (by simp) (by simp)
  simp only [List.length_nil] at hlength
  rcases hend with hlong | ⟨c, hnode⟩ | ⟨cause, hhalts⟩
  · omega
  · by_cases hsigned : ∃ v, c.Signed (tree.negationsOf passed) v
    · obtain ⟨v, hv⟩ := hsigned
      exact .inl ⟨v, passed, last, c, hleads, hnode, hnodup, hv⟩
    · have hnumber : ¬c.isNumber := by
        intro hnumber
        obtain ⟨v, hv, -⟩ := negated_iterate_number hnumber (tree.negationsOf passed)
        exact hsigned ⟨v, negated_iterate_eq_ok_iff.1 hv⟩
      refine .inr ⟨_, passed, last, hleads, hnodup, .inr ⟨c, hnode, hnumber, ?_, rfl⟩⟩
      refine Nat.pos_of_ne_zero fun hzero => hsigned ⟨c, ?_⟩
      rw [hzero]
      exact negated_iterate_eq_ok_iff.1 rfl
  · rw [List.append_nil] at hhalts
    exact .inr ⟨cause, passed, last, hleads, hnodup, .inl (hhalts.congr fun _ => List.mem_reverse)⟩

end Acyclic

end Facts

/-- Evaluation answers a literal exactly if the way of definitions comes to one, with the sign that the
negations on the way give it. In all other cases it ends with the reason why the way breaks, and it
never lacks the steps to come that far. -/
theorem evaluate_follows_definitions (facts : Facts) {tree : Tree} (h : tree.OperandsAcyclic)
    (id : NodeId) :
    (∀ v, facts.evaluate tree id = .ok v ↔ facts.StandsFor tree id v) ∧
    (∀ cause, facts.evaluate tree id = .error cause ↔ facts.Breaks tree id cause) ∧
    ((¬∃ v, facts.StandsFor tree id v) → ∃ cause, facts.evaluate tree id = .error cause ∧
      (Error.unevaluated cause).message = "Not implemented - " ++ cause.message) ∧
    ∀ steps, (tree.size + 1) * (tree.size + 1) + 1 ≤ steps →
      facts.evaluateWithin tree steps [] id = facts.evaluate tree id := by
  have hok : ∀ {v steps}, facts.StandsFor tree id v →
      (tree.size + 1) * (tree.size + 1) + 1 ≤ steps →
      facts.evaluateWithin tree steps [] id = .ok v := fun hv => hv.evaluate h
  have herror : ∀ {cause steps}, facts.Breaks tree id cause →
      (tree.size + 1) * (tree.size + 1) + 1 ≤ steps →
      facts.evaluateWithin tree steps [] id = .error cause := fun hc => hc.evaluate h
  rcases Facts.standsFor_or_breaks h facts id with ⟨w, hw⟩ | ⟨reason, hreason⟩
  · have hrun : facts.evaluate tree id = .ok w := hok hw (Nat.le_refl _)
    refine ⟨fun v => ⟨fun hv => ?_, fun hv => hok hv (Nat.le_refl _)⟩,
      fun cause => ⟨fun hc => ?_, fun hc => herror hc (Nat.le_refl _)⟩,
      fun hnone => absurd ⟨w, hw⟩ hnone, fun steps hsteps => (hok hw hsteps).trans hrun.symm⟩
    · rw [hrun, Except.ok.injEq] at hv
      exact hv ▸ hw
    · rw [hrun] at hc
      cases hc
  · have hrun : facts.evaluate tree id = .error reason := herror hreason (Nat.le_refl _)
    refine ⟨fun v => ⟨fun hv => ?_, fun hv => hok hv (Nat.le_refl _)⟩,
      fun cause => ⟨fun hc => ?_, fun hc => herror hc (Nat.le_refl _)⟩,
      fun _ => ⟨reason, hrun, rfl⟩, fun steps hsteps => (herror hreason hsteps).trans hrun.symm⟩
    · rw [hrun] at hv
      cases hv
    · rw [hrun, Except.error.injEq] at hc
      exact hc ▸ hreason

/-- A subroutine that assigns the least integer, its negative, and two slots to each other. -/
def chainTree : Tree where
  exprs := #[
    ⟨13, .block [⟨3⟩, ⟨6⟩, ⟨9⟩, ⟨10⟩]⟩, ⟨13, .literal (.int Int32.minValue)⟩,
    ⟨13, .slot { type := .int }⟩, ⟨13, .binary .assign ⟨2⟩ ⟨1⟩ true⟩,
    ⟨19, .unary .negate ⟨2⟩⟩, ⟨19, .slot { type := .int, storage := .global }⟩,
    ⟨19, .binary .assign ⟨5⟩ ⟨4⟩ false⟩,
    ⟨25, .slot { type := .int }⟩, ⟨31, .slot { type := .int }⟩,
    ⟨37, .binary .assign ⟨7⟩ ⟨8⟩ false⟩, ⟨43, .binary .assign ⟨8⟩ ⟨7⟩ false⟩]
  subroutines := #[{ name := "main", start := 13, stop := 43, root := ⟨0⟩ }]
  order := [⟨0⟩]

/-- The negative of the least integer is that integer, and slots that are assigned to each other have
no value. -/
theorem evaluate_chainTree :
    let facts := ({} : Facts).analyze chainTree {}
    chainTree.OperandsAcyclic ∧ facts.evaluate chainTree ⟨5⟩ = .ok (.int Int32.minValue) ∧
      facts.evaluate chainTree ⟨7⟩ = .error (.cyclic ⟨7⟩) := by
  intro facts
  have hacyclic : chainTree.OperandsAcyclic :=
    Tree.operandsAcyclic_of_before (by decide +kernel)
  have hvalue : facts.StandsFor chainTree ⟨5⟩ (.int Int32.minValue) := by
    refine ⟨[⟨5⟩, ⟨4⟩, ⟨2⟩], ⟨1⟩, .int Int32.minValue, ?_, rfl, by decide +kernel,
      fun _ => rfl, by decide +kernel⟩
    have hglobal : facts.next? chainTree ⟨5⟩ = some ⟨4⟩ := by decide +kernel
    have hslot : facts.next? chainTree ⟨2⟩ = some ⟨1⟩ := by decide +kernel
    exact .step hglobal (.step rfl (.step hslot (.refl _)))
  have hcyclic : facts.Breaks chainTree ⟨7⟩ (.cyclic ⟨7⟩) := by
    refine ⟨[⟨7⟩, ⟨8⟩], ⟨7⟩, ?_, by decide +kernel, .inl (.cyclic rfl (by decide +kernel))⟩
    have hfirst : facts.next? chainTree ⟨7⟩ = some ⟨8⟩ := by decide +kernel
    have hsecond : facts.next? chainTree ⟨8⟩ = some ⟨7⟩ := by decide +kernel
    exact .step hfirst (.step hsecond (.refl _))
  exact ⟨hacyclic, ((evaluate_follows_definitions facts hacyclic ⟨5⟩).1 _).2 hvalue,
    ((evaluate_follows_definitions facts hacyclic ⟨7⟩).2.1 _).2 hcyclic⟩

end ScriptLift
