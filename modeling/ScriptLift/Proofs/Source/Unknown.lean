import ScriptLift.Proofs.Lift.Faults
import ScriptLift.Proofs.Source.Plain

namespace ScriptLift

namespace Tree

/-- The node or one below it is an action that calls the routine, and the table has none of it. -/
def Misses (tree : Tree) (routines : Routines) (id : NodeId) (routine : UInt16) : Prop :=
  ∃ n, Relation.ReflTransGen tree.Holds id n ∧ (tree.node n).routine? = some routine ∧
    routines.get? routine = none

/-- The branches of the conditionals of the output are blocks. -/
def BlockBranches (tree : Tree) : Prop :=
  ∀ id test branch, tree.InOutput id → tree.node id = .conditional test branch →
    tree.kind branch = .block

variable {tree : Tree} {routines : Routines} {id : NodeId} {routine : UInt16}

theorem misses_iff : tree.Misses routines id routine ↔
    ((tree.node id).routine? = some routine ∧ routines.get? routine = none) ∨
      ∃ n ∈ (tree.node id).parts, tree.Misses routines n routine := by
  simp only [← below_eq_parts]
  constructor
  · rintro ⟨n, hn, hcalls⟩
    rcases Relation.ReflTransGen.cases_head hn with rfl | ⟨mid, hmid, hn⟩
    · exact .inl hcalls
    · exact .inr ⟨mid, hmid, n, hn, hcalls⟩
  · rintro (hcalls | ⟨mid, hmid, n, hn, hcalls⟩)
    · exact ⟨id, .refl, hcalls⟩
    · exact ⟨n, .head hmid hn, hcalls⟩

theorem not_misses (hcalls : (tree.node id).routine? = none) (hparts : (tree.node id).parts = []) :
    ¬tree.Misses routines id routine := by
  rw [misses_iff, hcalls, hparts]
  simp

theorem misses_of_statements (h : tree.kind id = .block) : tree.Misses routines id routine ↔
    ∃ s ∈ tree.statements id, tree.Misses routines s routine := by
  rw [misses_iff, ← below_eq_parts, below_of_kind_block h]
  unfold Tree.kind at h
  cases hnode : tree.node id <;> simp_all [Node.kind, Node.routine?]

end Tree

namespace Source

variable {α β : Type}

/-- There is a result if no routine is missing, and else the failure names a missing one. -/
inductive FailsBy (missing : UInt16 → Prop) : Except Error α → Prop
  | result (a : α) : (∀ routine, ¬missing routine) → FailsBy missing (.ok a)
  | failure {routine : UInt16} :
    missing routine → FailsBy missing (.error (.unknownRoutine routine))

namespace FailsBy

variable {p q : UInt16 → Prop} {x : Except Error α} {f : α → Except Error β}

theorem of_iff (h : FailsBy p x) (hpq : ∀ routine, p routine ↔ q routine) : FailsBy q x := by
  cases h with
  | result a hp => exact .result a fun routine hq => hp routine ((hpq routine).2 hq)
  | failure hp => exact .failure ((hpq _).1 hp)

theorem pure (a : α) (h : ∀ routine, ¬p routine) : FailsBy p (Pure.pure a : Except Error α) :=
  .result a h

theorem bind (hx : FailsBy p x) (hf : ∀ a, FailsBy q (f a)) :
    FailsBy (fun routine => p routine ∨ q routine) (x >>= f) := by
  cases hx with
  | failure hp => exact .failure (.inl hp)
  | result a hp =>
    change FailsBy _ (f a)
    exact (hf a).of_iff fun routine => (or_iff_right (hp routine)).symm

theorem map (hx : FailsBy p x) (g : α → β) : FailsBy p (g <$> x) := by
  cases hx with
  | failure hp => exact .failure hp
  | result a hp => exact .result (g a) hp

theorem andThen (hx : FailsBy p x) (g : α → β) : FailsBy p (x >>= fun a => Pure.pure (g a)) :=
  (hx.bind (q := fun _ => False) fun a => pure (g a) fun _ => id).of_iff (by simp)

theorem mapM {missing : α → UInt16 → Prop} {xs : List α}
    (h : ∀ a ∈ xs, FailsBy (missing a) (f a)) :
    FailsBy (fun routine => ∃ a ∈ xs, missing a routine) (xs.mapM f) := by
  induction xs with
  | nil => exact pure [] (by simp)
  | cons a xs ih =>
    rw [List.mapM_cons]
    have htail := ih fun b hb => h b (List.mem_cons_of_mem a hb)
    exact ((h a List.mem_cons_self).bind fun b => htail.andThen (b :: ·)).of_iff (by simp)

end FailsBy

variable {tree : Tree} {routines : Routines} {settings : SourceSettings}
  {text : NodeId → Except Error String}

theorem failsBy_joined {parts : List NodeId} {part : NodeId → Except Error String}
    {missing : NodeId → UInt16 → Prop} (separator : String)
    (h : ∀ n ∈ parts, FailsBy (missing n) (part n)) :
    FailsBy (fun routine => ∃ n ∈ parts, missing n routine) (joined separator part parts) :=
  (FailsBy.mapM h).andThen _

theorem failsBy_operandText {id : NodeId} (h : FailsBy (tree.Misses routines id) (text id)) :
    FailsBy (tree.Misses routines id) (operandText tree text id) :=
  h.andThen _

theorem not_misses_slot {id : NodeId} {slot : Slot} (h : tree.slot? id = some slot)
    (routine : UInt16) : ¬tree.Misses routines id routine := by
  have hslot : tree.isSlot id := by rw [Tree.isSlot, h]; rfl
  obtain ⟨slot, hnode⟩ := Tree.node_of_isSlot hslot
  exact Tree.not_misses (by rw [hnode]; rfl) (by rw [hnode]; rfl)

theorem failsBy_statementText {id : NodeId} (h : FailsBy (tree.Misses routines id) (text id)) :
    FailsBy (tree.Misses routines id) (statementText tree text id) := by
  unfold statementText
  split
  · next slot hnode =>
    have hslot : tree.slot? id = some slot := by rw [Tree.slot?, hnode]
    exact .pure _ (not_misses_slot hslot)
  · exact h

theorem failsBy_textTo (hclosed : tree.Closed) (hfree : tree.CycleFree) {id : NodeId}
    (hid : tree.InOutput id) {depth : Nat} (hdepth : tree.levels id ≤ depth) :
    FailsBy (tree.Misses routines id) (textTo tree routines depth id) := by
  have hpos : 0 < tree.levels id := Tree.levels_pos id
  induction depth generalizing id with
  | zero => omega
  | succ depth ih =>
    have hbelow : ∀ n ∈ (tree.node id).parts,
        FailsBy (tree.Misses routines n) (textTo tree routines depth n) := by
      intro n hn
      rw [← Tree.below_eq_parts] at hn
      have hless := hid.levels_lt hclosed hfree hn
      exact ih (hid.step hn) (by omega) (Tree.levels_pos n)
    refine FailsBy.of_iff ?_ fun routine => Tree.misses_iff.symm
    unfold textTo
    cases hnode : tree.node id with
    | literal | slot | label | goto =>
      exact .pure _ (by simp [Node.routine?, Node.parts, Node.operands])
    | block statements =>
      rw [hnode] at hbelow
      have hstatements : ∀ s ∈ statements, FailsBy (tree.Misses routines s)
          ((· ++ ";") <$> statementText tree (textTo tree routines depth) s) :=
        fun s hs => (failsBy_statementText (hbelow s hs)).map _
      exact ((failsBy_joined " " hstatements).andThen _).of_iff
        (by simp [Node.routine?, Node.parts])
    | ret value =>
      cases value with
      | none => exact .pure _ (by simp [Node.routine?, Node.parts, Node.operands])
      | some value =>
        have hvalue := hbelow value (by simp [hnode, Node.parts, Node.operands])
        exact (hvalue.andThen _).of_iff (by simp [Node.routine?, Node.parts, Node.operands])
    | conditional test branch =>
      have htest := hbelow test (by simp [hnode, Node.parts, Node.operands])
      have hbranch := hbelow branch (by simp [hnode, Node.parts, Node.operands])
      exact (htest.bind fun _ => hbranch.andThen _).of_iff
        (by simp [Node.routine?, Node.parts, Node.operands])
    | action routine arguments =>
      rw [hnode, Node.parts_action] at hbelow
      dsimp only
      cases hroutine : routines.get? routine with
      | none => exact FailsBy.failure (Or.inl ⟨rfl, hroutine⟩)
      | some found =>
        refine ((failsBy_joined ", " hbelow).andThen _).of_iff fun missing => ?_
        rw [Node.parts_action, or_iff_right]
        rintro ⟨hcalls, hnone⟩
        cases hcalls
        simp [hroutine] at hnone
    | call callee arguments =>
      rw [hnode, Node.parts_call] at hbelow
      exact ((failsBy_joined ", " hbelow).andThen _).of_iff (by simp [Node.routine?])
    | vector x y z =>
      have hparts : ∀ n ∈ [x, y, z],
          FailsBy (tree.Misses routines n) (textTo tree routines depth n) := by
        rwa [hnode] at hbelow
      exact ((failsBy_joined ", " hparts).andThen _).of_iff
        (by simp [Node.routine?, Node.parts, Node.operands])
    | component whole index =>
      have hwhole := hbelow whole (by simp [hnode, Node.parts, Node.operands])
      exact ((failsBy_operandText hwhole).andThen _).of_iff
        (by simp [Node.routine?, Node.parts, Node.operands])
    | unary op operand =>
      have hoperand := hbelow operand (by simp [hnode, Node.parts, Node.operands])
      exact ((failsBy_operandText hoperand).andThen _).of_iff
        (by simp [Node.routine?, Node.parts, Node.operands])
    | binary op left right declares =>
      have hleft := hbelow left (by simp [hnode, Node.parts, Node.operands])
      have hright := hbelow right (by simp [hnode, Node.parts, Node.operands])
      cases op with
      | assign =>
        refine (hright.bind (q := tree.Misses routines left) fun value => ?_).of_iff
          (by simp [Node.routine?, Node.parts, Node.operands, or_comm])
        split
        · next slot hslot => exact .pure _ (not_misses_slot hslot)
        · exact hleft.andThen _
      | _ =>
        exact ((failsBy_operandText hleft).bind fun _ => (failsBy_operandText hright).andThen _).of_iff
          (by simp [Node.routine?, Node.parts, Node.operands])

theorem failsBy_plainTo (hclosed : tree.Closed) (hfree : tree.CycleFree)
    (hbranches : tree.BlockBranches) {block : NodeId} (hblock : tree.InOutput block)
    (hkind : tree.kind block = .block) {depth rest : Nat} (hdepth : tree.size ≤ depth)
    (hrest : tree.levels block ≤ rest) (level : Nat) :
    FailsBy (tree.Misses routines block) (plainTo tree routines settings depth rest level block) := by
  have hpos : 0 < tree.levels block := Tree.levels_pos block
  induction rest generalizing block level with
  | zero => omega
  | succ rest ih =>
    have hlines : ∀ s ∈ tree.statements block, FailsBy (tree.Misses routines s)
        (plainLines tree routines settings depth
          (plainTo tree routines settings depth rest (level + 1)) level s) := by
      intro s hs
      have hstep := Tree.holds_of_statement hs
      have hless := hblock.levels_lt hclosed hfree hstep
      have hstatement := hblock.step hstep
      have htext : ∀ {id}, tree.InOutput id →
          FailsBy (tree.Misses routines id) (textTo tree routines depth id) := fun hid =>
        failsBy_textTo hclosed hfree hid ((Tree.levels_le (hclosed.lt_size hid)).trans hdepth)
      unfold plainLines
      cases hnode : tree.node s with
      | label => exact .pure _ fun _ => Tree.not_misses (by rw [hnode]; rfl) (by rw [hnode]; rfl)
      | conditional test branch =>
        have hparts : ∀ n, n = test ∨ n = branch → tree.Holds s n := by
          intro n hn
          rw [Tree.Holds, Tree.below_eq_parts, hnode]
          simpa [Node.parts, Node.operands] using hn
        have hlower := hstatement.levels_lt hclosed hfree (hparts branch (.inr rfl))
        have hbody := ih (hstatement.step (hparts branch (.inr rfl)))
          (hbranches s test branch hstatement hnode) (by omega) (level + 1) (Tree.levels_pos branch)
        refine ((htext (hstatement.step (hparts test (.inl rfl)))).bind fun _ =>
          hbody.andThen _).of_iff fun routine => ?_
        refine Iff.trans ?_ Tree.misses_iff.symm
        rw [hnode]
        simp [Node.routine?, Node.parts, Node.operands]
      | _ => exact (failsBy_statementText (htext hstatement)).andThen _
    exact ((FailsBy.mapM hlines).andThen _).of_iff fun _ => (Tree.misses_of_statements hkind).symm

theorem FailsBy.behind {missing : UInt16 → Prop} {out : Output} (h : FailsBy missing out.text)
    (pieces : List String) : FailsBy missing ({ out with pieces } : Output).text := by
  unfold Output.text at h ⊢
  dsimp only
  cases hfailure : out.failure with
  | none =>
    rw [hfailure] at h
    cases h with
    | result _ hnone => exact .result _ hnone
  | some e =>
    rw [hfailure] at h
    cases h with
    | failure hmissing => exact .failure hmissing

theorem failsBy_plainSubroutines (hclosed : tree.Closed) (hfree : tree.CycleFree)
    (hbranches : tree.BlockBranches) {depth : Nat} (hdepth : tree.size ≤ depth) (first : Bool)
    {subs : List Subroutine}
    (hsubs : ∀ sub ∈ subs, sub ∈ tree.output ∧ tree.kind sub.root = .block) :
    FailsBy (fun routine => ∃ sub ∈ subs, tree.Misses routines sub.root routine)
      (plainSubroutines tree routines settings depth first subs).text := by
  induction subs generalizing first with
  | nil => exact .pure _ (by simp)
  | cons sub subs ih =>
    obtain ⟨hsub, hkind⟩ := hsubs sub List.mem_cons_self
    have hroot := inOutput_root hsub
    have hbody : FailsBy (tree.Misses routines sub.root)
        (plainTo tree routines settings depth depth 0 sub.root) :=
      failsBy_plainTo hclosed hfree hbranches hroot hkind hdepth
        ((Tree.levels_le (hclosed.lt_size hroot)).trans hdepth) 0
    have hlater := ih false fun other hother => hsubs other (List.mem_cons_of_mem sub hother)
    unfold plainSubroutines
    cases hplain : plainTo tree routines settings depth depth 0 sub.root with
    | error e =>
      rw [hplain] at hbody
      cases hbody with
      | failure hmisses => exact .failure ⟨sub, List.mem_cons_self, hmisses⟩
    | ok text =>
      rw [hplain] at hbody
      cases hbody with
      | result _ hnone =>
        refine FailsBy.of_iff (hlater.behind _) fun routine => ?_
        simp [hnone routine]

theorem failsBy_render (routines : Routines) (settings : SourceSettings) (hclosed : tree.Closed)
    (hfree : tree.CycleFree) (hrooted : tree.Rooted) (hbranches : tree.BlockBranches) :
    FailsBy (fun routine => ∃ sub ∈ tree.order, tree.Misses routines (tree.sub sub).root routine)
      (render tree routines settings) := by
  have htext : render tree routines settings =
      (plainOutput tree routines settings tree.size).text :=
    congrArg Output.text (output_eq_plainOutput routines settings hclosed hfree (Nat.le_refl _))
  have hsubs : ∀ sub ∈ tree.output.reverse, sub ∈ tree.output ∧ tree.kind sub.root = .block := by
    intro sub hsub
    rw [List.mem_reverse] at hsub
    obtain ⟨id, hid, rfl⟩ := List.mem_map.1 hsub
    exact ⟨hsub, hrooted id hid⟩
  rw [htext, plainOutput]
  refine ((failsBy_plainSubroutines hclosed hfree hbranches (Nat.le_refl _) _ hsubs).behind
    _).of_iff fun routine => ?_
  simp [Tree.output]

/-- Where the roots of the subroutines and the branches of conditionals are blocks, a tree without
cycles has no text if and only if an action of its output calls a routine that the table has none of,
and then the failure names such a routine. -/
theorem render_error_iff_unknown (routines : Routines) (settings : SourceSettings)
    (hclosed : tree.Closed) (hfree : tree.CycleFree) (hrooted : tree.Rooted)
    (hbranches : tree.BlockBranches) :
    ((∃ e, render tree routines settings = .error e) ↔ ∃ id routine arguments,
      tree.InOutput id ∧ tree.node id = .action routine arguments ∧
        routines.get? routine = none) ∧
    ∀ e, render tree routines settings = .error e → ∃ id routine arguments,
      tree.InOutput id ∧ tree.node id = .action routine arguments ∧
        routines.get? routine = none ∧ e = .unknownRoutine routine := by
  have hmisses : ∀ routine,
      (∃ sub ∈ tree.order, tree.Misses routines (tree.sub sub).root routine) ↔
        ∃ id arguments, tree.InOutput id ∧ tree.node id = .action routine arguments ∧
          routines.get? routine = none := by
    intro routine
    constructor
    · rintro ⟨sub, hsub, id, hid, hcalls, hnone⟩
      cases hnode : tree.node id with
      | action called arguments =>
        rw [hnode] at hcalls
        cases hcalls
        exact ⟨id, arguments, ⟨sub, hsub, hid⟩, hnode, hnone⟩
      | _ => simp [hnode, Node.routine?] at hcalls
    · rintro ⟨id, arguments, ⟨sub, hsub, hid⟩, hnode, hnone⟩
      exact ⟨sub, hsub, id, hid, by rw [hnode]; rfl, hnone⟩
  have hrender := (failsBy_render routines settings hclosed hfree hrooted hbranches).of_iff hmisses
  cases hresult : render tree routines settings with
  | ok text =>
    rw [hresult] at hrender
    cases hrender with
    | result _ hnone =>
      refine ⟨⟨by simp, ?_⟩, by simp⟩
      rintro ⟨id, routine, arguments, hcalls⟩
      exact absurd ⟨id, arguments, hcalls⟩ (hnone routine)
  | error e =>
    rw [hresult] at hrender
    cases hrender with
    | @failure routine hmissing =>
      obtain ⟨id, arguments, hid, hnode, hnone⟩ := hmissing
      refine ⟨⟨fun _ => ⟨id, routine, arguments, hid, hnode, hnone⟩, fun _ => ⟨_, rfl⟩⟩, ?_⟩
      rintro e heq
      cases heq
      exact ⟨id, routine, arguments, hid, hnode, hnone, rfl⟩

/-- A routine that only a shared block calls is missed, and is not where the table has it. -/
theorem render_error_iff_unknown_sharedTree :
    sharedTree.Closed ∧ sharedTree.CycleFree ∧ sharedTree.Rooted ∧ sharedTree.BlockBranches ∧
    (∃ id routine arguments, sharedTree.InOutput id ∧
      sharedTree.node id = .action routine arguments ∧ ({} : Routines).get? routine = none) ∧
    ¬∃ id routine arguments, sharedTree.InOutput id ∧
      sharedTree.node id = .action routine arguments ∧ showRoutines.get? routine = none := by
  have hclosed : sharedTree.Closed := by decide +kernel
  have hlayered : sharedTree.isLayered := by decide +kernel
  have hfree := (Tree.acyclic_of_isLayered hlayered).cycleFree
  have hrooted : sharedTree.Rooted := by decide +kernel
  have hblocks : ∀ i < 8, ∀ n ∈ (sharedTree.node ⟨i⟩).parts.tail,
      sharedTree.kind ⟨i⟩ = .conditional → sharedTree.kind n = .block := by decide +kernel
  have hbranches : sharedTree.BlockBranches := by
    intro id test branch _ hnode
    have hkind : sharedTree.kind id = .conditional := by rw [Tree.kind, hnode, Node.kind]
    exact hblocks id.index (Tree.lt_size_of_kind_ne (by rw [hkind]; simp)) branch
      (by rw [hnode]; simp [Node.parts, Node.operands]) hkind
  have hfails : (render sharedTree {} {}).toOption = none := by decide +kernel
  have hworks : (render sharedTree showRoutines {}).toOption.isSome := by decide +kernel
  refine ⟨hclosed, hfree, hrooted, hbranches, ?_, fun hmissing => ?_⟩
  · refine (render_error_iff_unknown {} {} hclosed hfree hrooted hbranches).1.1 ?_
    cases hresult : render sharedTree {} {} with
    | error e => exact ⟨e, rfl⟩
    | ok text => simp [hresult, Except.toOption] at hfails
  · obtain ⟨e, herror⟩ :=
      (render_error_iff_unknown showRoutines {} hclosed hfree hrooted hbranches).1.2 hmissing
    simp [herror, Except.toOption] at hworks

end Source

end ScriptLift
