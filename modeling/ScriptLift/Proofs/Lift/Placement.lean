import Mathlib.Algebra.BigOperators.Group.Finset.Piecewise
import ScriptLift.Proofs.Compact.Calls
import ScriptLift.Proofs.Lift.Blocks
import ScriptLift.Proofs.Lift.Requests

/-! Where labels are placed.

There is one label for every backward target, but it stands where a walk comes by: in each block
that a walk fills, in front of each instruction that the walk passes. A goto therefore finds its
label exactly if some block of the subroutine passes the target, and finds one only if no two do. -/
namespace ScriptLift

/-- Where a walk goes on after an instruction, if it does. -/
def Instruction.onward? (ins : Instruction) : Option Nat :=
  match ins.opcode.operation with
  | .ret => none
  | .jump => if 0 < ins.jump then some ins.target else none
  | _ => some ins.next

namespace Program

/-- A walk from `offset` passes these offsets. It ends behind the program, at a return, and at a jump
that does not lead ahead. -/
inductive Path (program : Program) : Nat → List Nat → Prop
  | behind {offset : Nat} : program.length ≤ offset → Path program offset []
  | last {offset : Nat} {ins : Instruction} : offset < program.length →
      program.at? offset = some ins → ins.onward? = none → Path program offset [offset]
  | onward {offset next : Nat} {ins : Instruction} {rest : List Nat} : offset < program.length →
      program.at? offset = some ins → ins.onward? = some next → Path program next rest →
      Path program offset (offset :: rest)

namespace Path

variable {program : Program} {offset : Nat} {path : List Nat}

theorem unique (h : program.Path offset path) {other : List Nat} (h' : program.Path offset other) :
    path = other := by
  induction h generalizing other with
  | behind hle =>
    cases h' with
    | behind => rfl
    | last hlt | onward hlt => omega
  | last hlt hat hlast =>
    cases h' with
    | behind hle => omega
    | last => rfl
    | onward _ hat' honward =>
      cases hat.symm.trans hat'
      cases hlast.symm.trans honward
  | onward hlt hat honward _ ih =>
    cases h' with
    | behind hle => omega
    | last _ hat' hlast =>
      cases hat.symm.trans hat'
      cases hlast.symm.trans honward
    | onward _ hat' honward' hrest =>
      cases hat.symm.trans hat'
      cases honward.symm.trans honward'
      rw [ih hrest]

theorem suffix (h : program.Path offset path) {passed : Nat} (hpassed : passed ∈ path) :
    ∃ front rest, path = front ++ passed :: rest ∧ program.Path passed (passed :: rest) := by
  induction h with
  | behind => cases hpassed
  | last hlt hat hlast =>
    cases List.mem_singleton.1 hpassed
    exact ⟨[], [], rfl, .last hlt hat hlast⟩
  | onward hlt hat honward hrest ih =>
    rcases List.mem_cons.1 hpassed with rfl | hpassed
    · exact ⟨[], _, rfl, .onward hlt hat honward hrest⟩
    · obtain ⟨front, rest, heq, hpath⟩ := ih hpassed
      exact ⟨_ :: front, rest, by rw [heq, List.cons_append], hpath⟩

theorem nodup (h : program.Path offset path) : path.Nodup := by
  induction h with
  | behind => exact List.nodup_nil
  | last => exact List.nodup_singleton _
  | @onward offset next ins rest hlt hat honward hrest ih =>
    refine List.nodup_cons.2 ⟨fun hagain => ?_, ih⟩
    obtain ⟨front, tail, heq, hpath⟩ := hrest.suffix hagain
    have hlength := congrArg List.length (hpath.unique (.onward hlt hat honward hrest))
    have hsum := congrArg List.length heq
    simp at hlength hsum
    omega

end Path

end Program

namespace Site

variable {site : Site} {script : Script} {callees : List (Nat × SubId)} {ws ws' : Workspace}

theorem jump_onward {labels : List (Nat × NodeId)} {flow : Flow}
    (hop : site.ins.opcode.operation = .jump) (h : site.jump labels ws = .ok flow ws') :
    flow = site.ins.onward?.elim .stop .next := by
  unfold Instruction.onward?
  simp only [hop]
  unfold jump at h
  split at h
  · next hjump =>
    cases h
    rw [if_pos hjump]
    rfl
  · next hjump =>
    obtain ⟨_, _, _, h⟩ := Lift.bind_eq_ok h
    cases h
    rw [if_neg hjump]
    rfl

/-- An instruction that asks for no subroutine goes on where a walk passes it. -/
theorem visit_onward {flow : Flow} (h : site.visit script callees ws = .ok flow ws') :
    flow = site.ins.onward?.elim .stop .next ∨ ∃ target, flow = .enter target := by
  obtain ⟨_, mid, _, h⟩ := Lift.bind_eq_ok h
  have honward : ∀ {handler : Lift Unit}, site.onward handler mid = .ok flow ws' →
      flow = .next site.ins.next := by
    intro handler hrun
    obtain ⟨_, _, _, hrun⟩ := Lift.bind_eq_ok hrun
    cases hrun
    rfl
  cases hop : site.ins.opcode.operation <;> simp only [execute, hop] at h
  case ret =>
    obtain ⟨_, _, _, h⟩ := Lift.bind_eq_ok h
    cases h
    simp [Instruction.onward?, hop]
  case jump => exact .inl (jump_onward hop h)
  case call =>
    cases hcallee : callees.lookup site.ins.target with
    | some callee =>
      simp only [hcallee] at h
      exact .inl (by simp [Instruction.onward?, hop, honward h])
    | none =>
      simp only [hcallee] at h
      cases h
      exact .inr ⟨_, rfl⟩
  all_goals exact .inl (by simp [Instruction.onward?, hop, honward h])

theorem visit_onward_next {offset : Nat}
    (h : site.visit script callees ws = .ok (.next offset) ws') :
    site.ins.onward? = some offset := by
  rcases visit_onward h with heq | ⟨_, heq⟩
  · cases hcase : site.ins.onward? with
    | none =>
      rw [hcase] at heq
      cases heq
    | some next =>
      rw [hcase] at heq
      cases heq
      rfl
  · cases heq

theorem visit_onward_stop (h : site.visit script callees ws = .ok .stop ws') :
    site.ins.onward? = none := by
  rcases visit_onward h with heq | ⟨_, heq⟩
  · cases hcase : site.ins.onward? with
    | none => rfl
    | some next =>
      rw [hcase] at heq
      cases heq
  · cases heq

end Site

def Script.label? (script : Script) (offset : Nat) : Option NodeId := script.labels.lookup offset

namespace Tree

variable (tree : Tree) (script : Script)

/-- The statements of a block that are labels of the script. -/
def placed (block : NodeId) : List NodeId :=
  (tree.statements block).filter fun s => script.label? (tree.offset s) = some s

/-- A block that waits to be filled. -/
structure Waits (job : Job) : Prop where
  kind : tree.kind job.block = .block
  offset : tree.offset job.block = job.start
  empty : tree.statements job.block = []

/-- A block being filled has the labels of the offsets passed so far. -/
structure Walked (walk : Walk) : Prop where
  kind : tree.kind walk.block = .block
  offset : tree.offset walk.block = walk.start
  passed : ∃ passed, (∀ rest, script.program.Path walk.offset rest →
      script.program.Path walk.start (passed ++ rest)) ∧
    tree.placed script walk.block = passed.filterMap script.label?

/-- A block that is done with is bare, or has the labels of all offsets that its walk passed. -/
def Settled (block : NodeId) : Prop :=
  tree.isBare block ∨ ∃ path, script.program.Path (tree.offset block) path ∧
    tree.placed script block = path.filterMap script.label?

variable {tree script} {new : Tree} {block : NodeId}

theorem placed_of_empty (h : tree.statements block = []) : tree.placed script block = [] := by
  rw [placed, h, List.filter_nil]

theorem placed_eq (htree : tree.WellFormed) (hgrow : tree.Grows new)
    (hsame : new.statements block = tree.statements block) :
    new.placed script block = tree.placed script block := by
  rw [placed, placed, hsame]
  refine List.filter_congr fun s hs => ?_
  rw [hgrow.offset s (htree.statement hs).lt]

theorem isBare_eq (htree : tree.WellFormed) (hgrow : tree.Grows new)
    (hsame : new.statements block = tree.statements block) :
    new.isBare block = tree.isBare block := by
  have hkind : ∀ s ∈ tree.statements block, new.kind s = tree.kind s :=
    fun s hs => hgrow.kind_eq (htree.statement hs).lt
  unfold isBare
  rw [hsame]
  split
  · rfl
  · next s hstatements => rw [hkind s (by simp [hstatements])]
  · rfl

theorem Waits.of_get {start : Nat} {context : Context}
    (h : tree.get block = ⟨start, .block []⟩) : tree.Waits ⟨block, start, context⟩ := by
  refine ⟨?_, by rw [Tree.offset, h], ?_⟩
  · rw [Tree.kind, Tree.node, h, Node.kind]
  · rw [Tree.statements, Tree.node, h]

theorem Waits.mono {job : Job} (h : tree.Waits job) (hlt : job.block.index < tree.size)
    (hgrow : tree.Grows new) (hsame : new.statements job.block = tree.statements job.block) :
    new.Waits job :=
  ⟨by rw [hgrow.kind_eq hlt, h.kind], by rw [hgrow.offset _ hlt, h.offset], by rw [hsame, h.empty]⟩

theorem Walked.mono {walk : Walk} (h : tree.Walked script walk) (htree : tree.WellFormed)
    (hlt : walk.block.index < tree.size) (hgrow : tree.Grows new)
    (hsame : new.statements walk.block = tree.statements walk.block) :
    new.Walked script walk := by
  refine ⟨by rw [hgrow.kind_eq hlt, h.kind], by rw [hgrow.offset _ hlt, h.offset], ?_⟩
  rw [placed_eq htree hgrow hsame]
  exact h.passed

theorem Settled.mono (h : tree.Settled script block) (htree : tree.WellFormed)
    (hlt : block.index < tree.size) (hgrow : tree.Grows new)
    (hsame : new.statements block = tree.statements block) : new.Settled script block := by
  unfold Settled
  rw [isBare_eq htree hgrow hsame, placed_eq htree hgrow hsame, hgrow.offset _ hlt]
  exact h

theorem settled_of_empty (h : tree.statements block = []) : tree.Settled script block :=
  .inl (isBare_of_statements h)

end Tree

/-- What an instruction adds to the labels of its block is its own label. -/
theorem Site.Grown.placed {site : Site} {script : Script} {start : Workspace} {tree : Tree}
    (h : site.Grown script start tree) (htree : start.tree.WellFormed)
    (hgrow : start.tree.Grows tree)
    (hlabel : ∀ target label, script.label? target = some label →
      label.index < start.tree.size ∧ start.tree.offset label = target) :
    tree.placed script site.block =
      start.tree.placed script site.block ++ (script.label? site.ins.offset).toList := by
  obtain ⟨more, hstatements, hnew⟩ := h.statements
  have hmore : tree.statements site.block = start.tree.statements site.block ++
      (script.label? site.ins.offset).toList ++ more := hstatements
  have hold : (start.tree.statements site.block).filter
      (fun s => script.label? (tree.offset s) = some s) = start.tree.placed script site.block :=
    List.filter_congr fun s hs => by rw [hgrow.offset s (htree.statement hs).lt]
  have hown : (script.label? site.ins.offset).toList.filter
      (fun s => script.label? (tree.offset s) = some s) =
        (script.label? site.ins.offset).toList := by
    refine List.filter_eq_self.2 fun s hs => ?_
    have hsome : script.label? site.ins.offset = some s := by simpa using hs
    obtain ⟨hlt, hoffset⟩ := hlabel _ _ hsome
    simp [hgrow.offset s hlt, hoffset, hsome]
  have hnone : more.filter (fun s => script.label? (tree.offset s) = some s) = [] := by
    refine List.filter_eq_nil_iff.2 fun s hs hsome => ?_
    have hlt := (hlabel _ _ (of_decide_eq_true hsome)).1
    exact absurd hlt (Nat.not_lt.2 (hnew s hs))
  rw [Tree.placed, hmore, List.filter_append, List.filter_append, hold, hown, hnone,
    List.append_nil]

theorem Tree.Walked.visited {script : Script} {start : Workspace} {tree : Tree} {walk : Walk}
    {ins : Instruction} {entry : Nat} (h : start.tree.Walked script walk)
    (htree : start.tree.WellFormed) (hgrow : start.tree.Grows tree)
    (hgrown : Site.Grown ⟨ins, entry, walk.block, walk.start⟩ script start tree)
    (hlabel : ∀ target label, script.label? target = some label →
      label.index < start.tree.size ∧ start.tree.offset label = target)
    (hins : ins.offset = walk.offset) :
    ∃ passed, (∀ rest, script.program.Path walk.offset (walk.offset :: rest) →
        script.program.Path walk.start (passed ++ rest)) ∧
      tree.placed script walk.block = passed.filterMap script.label? := by
  obtain ⟨-, -, passed, hpassed, hplaced⟩ := h
  refine ⟨passed ++ [walk.offset], fun rest hpath => ?_, ?_⟩
  · rw [List.append_assoc, List.singleton_append]
    exact hpassed _ hpath
  · rw [hgrown.placed htree hgrow hlabel, List.filterMap_append, ← hplaced, hins]
    cases hown : script.label? walk.offset <;> simp [hown]

theorem Site.Serves.waits {site : Site} {program : Program} {start ws : Workspace} {job : Job}
    (h : site.Serves program start ws) (hnone : start.spawned = none)
    (hspawned : ws.spawned = some job) : ws.tree.Waits job :=
  .of_get (h.opens hnone hspawned).get

namespace Machine

variable {script : Script} {settings : LiftSettings} {m m' : Machine} {act : Activation}
  {callers : List Activation} {walk : Walk}

/-- What is known of labels while a script is lifted. -/
structure Placed (script : Script) (m : Machine) : Prop where
  label : ∀ target label, script.label? target = some label →
    label.index < m.tree.size ∧ m.tree.offset label = target
  goto : ∀ n label, m.tree.node n = .goto label → ∃ target, script.label? target = some label
  walk : ∀ act ∈ m.active, ∀ walk, act.walk = some walk → m.tree.Walked script walk
  work : ∀ act ∈ m.active, ∀ job ∈ act.work, m.tree.Waits job
  settled : ∀ block, block ∉ m.unfinished → m.tree.Settled script block

namespace Placed

theorem of_exprs_eq (h : m.Placed script) {tree : Tree} (heq : tree.exprs = m.tree.exprs) :
    Machine.Placed script { m with tree } := by
  have hget : ∀ id, tree.get id = m.tree.get id := fun id => by
    simp only [Tree.get, Tree.get?, heq]
  have hnode : ∀ id, tree.node id = m.tree.node id := fun id => by
    rw [Tree.node, Tree.node, hget]
  have hoffset : ∀ id, tree.offset id = m.tree.offset id := fun id => by
    rw [Tree.offset, Tree.offset, hget]
  have hkind : ∀ id, tree.kind id = m.tree.kind id := fun id => by
    rw [Tree.kind, Tree.kind, hnode]
  have hstatements : ∀ id, tree.statements id = m.tree.statements id :=
    fun id => Tree.statements_of_exprs_eq heq
  have hplaced : ∀ id, tree.placed script id = m.tree.placed script id := fun id => by
    simp only [Tree.placed, hstatements, hoffset]
  refine ⟨fun target label hlabel => ?_, fun n label hgoto => ?_, fun act hact w hw => ?_,
    fun act hact job hjob => ?_, fun block hblock => ?_⟩
  · rw [Tree.size, heq, hoffset]
    exact h.label target label hlabel
  · exact h.goto n label (hnode n ▸ hgoto)
  · obtain ⟨hkind', hoffset', hpassed⟩ := h.walk act hact w hw
    exact ⟨by rw [hkind, hkind'], by rw [hoffset, hoffset'], by rw [hplaced]; exact hpassed⟩
  · obtain ⟨hkind', hoffset', hempty⟩ := h.work act hact job hjob
    exact ⟨by rw [hkind, hkind'], by rw [hoffset, hoffset'], by rw [hstatements, hempty]⟩
  · have hsettled := h.settled block hblock
    unfold Tree.Settled Tree.isBare at hsettled ⊢
    simp only [hplaced, hoffset, hstatements, hkind]
    exact hsettled

/-- The innermost subroutine goes on; blocks that it drops are done with. -/
theorem replace (h : m.Placed script) (hm : m.active = act :: callers) (act' : Activation)
    (hwalk : ∀ walk, act'.walk = some walk → m.tree.Walked script walk)
    (hwork : ∀ job ∈ act'.work, m.tree.Waits job)
    (hsettled : ∀ block ∈ act.unfinished, block ∉ act'.unfinished → m.tree.Settled script block) :
    Machine.Placed script { m with active := act' :: callers } := by
  refine ⟨h.label, h.goto, fun other hother w hw => ?_, fun other hother job hjob => ?_,
    fun block hblock => ?_⟩
  · rcases List.mem_cons.1 hother with rfl | hother
    · exact hwalk w hw
    · exact h.walk other (caller_mem hm hother) w hw
  · rcases List.mem_cons.1 hother with rfl | hother
    · exact hwork job hjob
    · exact h.work other (caller_mem hm hother) job hjob
  · have hnot : block ∉ act'.unfinished ++ callers.flatMap Activation.unfinished := hblock
    rw [List.mem_append, not_or] at hnot
    by_cases hmem : block ∈ act.unfinished
    · exact hsettled block hmem hnot.1
    · refine h.settled block ?_
      rw [Machine.unfinished, hm, List.flatMap_cons, List.mem_append, not_or]
      exact ⟨hmem, hnot.2⟩

theorem first (h : m.Placed script) (hm : m.active = act :: callers) :
    (∀ walk, act.walk = some walk → m.tree.Walked script walk) ∧
      ∀ job ∈ act.work, m.tree.Waits job :=
  ⟨h.walk act (first_mem hm), h.work act (first_mem hm)⟩

theorem leave (h : m.Placed script) (hm : m.active = act :: callers) (hwalk : act.walk = some walk)
    (hend : script.program.length ≤ walk.offset) :
    Machine.Placed script { m with active := { act with walk := none } :: callers } := by
  obtain ⟨hwalks, hwork⟩ := h.first hm
  refine h.replace hm _ (by simp) hwork fun block hmem hnot => ?_
  have hblock : block = walk.block := by
    rw [Activation.unfinished, hwalk, List.mem_append] at hmem
    rcases hmem with hmem | hmem
    · simpa using hmem
    · exact absurd (List.mem_append_right _ hmem) hnot
  obtain ⟨-, hoffset, passed, hpassed, hplaced⟩ := hwalks walk hwalk
  rw [hblock]
  refine .inr ⟨passed, ?_, hplaced⟩
  rw [hoffset, ← List.append_nil passed]
  exact hpassed [] (.behind hend)

section Grows

variable {new : Tree}

theorem label_grows (h : m.Placed script) (hgrow : m.tree.Grows new) {target : Nat}
    {label : NodeId} (hlabel : script.label? target = some label) :
    label.index < new.size ∧ new.offset label = target := by
  obtain ⟨hlt, hoffset⟩ := h.label target label hlabel
  exact ⟨Nat.lt_of_lt_of_le hlt hgrow.size, by rw [hgrow.offset _ hlt, hoffset]⟩

theorem goto_grows (h : m.Placed script) (hgrow : m.tree.Grows new) {n label : NodeId}
    (hgoto : new.node n = .goto label)
    (hnew : m.tree.size ≤ n.index → n.index < new.size →
      ∃ target, script.label? target = some label) :
    ∃ target, script.label? target = some label := by
  have hkind : new.kind n = .goto := by rw [Tree.kind, hgoto, Node.kind]
  by_cases hn : n.index < m.tree.size
  · rw [hgrow.kind_eq hn] at hkind
    rw [hgrow.node_eq (by simp [hkind]) (by simp [hkind])] at hgoto
    exact h.goto n label hgoto
  · exact hnew (Nat.le_of_not_lt hn) (Tree.lt_size_of_kind_ne (by simp [hkind]))

theorem walk_grows (h : m.Placed script) (hsound : m.Sound script) (hgrow : m.tree.Grows new)
    (hact : act ∈ m.active) (hwalk : act.walk = some walk)
    (hsame : new.statements walk.block = m.tree.statements walk.block) :
    new.Walked script walk := by
  have hin : walk.block ∈ m.unfinished :=
    List.mem_flatMap.2 ⟨act, hact, by simp [Activation.unfinished, hwalk]⟩
  exact (h.walk act hact walk hwalk).mono hsound.tree.wellFormed (hsound.unfinished _ hin).lt hgrow hsame

theorem work_grows (h : m.Placed script) (hsound : m.Sound script) (hgrow : m.tree.Grows new)
    (hact : act ∈ m.active) {job : Job} (hjob : job ∈ act.work)
    (hsame : new.statements job.block = m.tree.statements job.block) : new.Waits job := by
  have hin : job.block ∈ m.unfinished :=
    List.mem_flatMap.2 ⟨act, hact, List.mem_append_right _ (List.mem_map_of_mem hjob)⟩
  exact (h.work act hact job hjob).mono (hsound.unfinished _ hin).lt hgrow hsame

/-- A block that is done with stays so, and so does one that is new and bare. -/
theorem settled_grows (h : m.Placed script) (hsound : m.Sound script) (hgrow : m.tree.Grows new)
    {block : NodeId} (hdone : block ∉ m.unfinished)
    (hsame : block.index < m.tree.size → new.statements block = m.tree.statements block)
    (hbare : m.tree.size ≤ block.index → block.index < new.size → new.isBare block) :
    new.Settled script block := by
  by_cases hold : block.index < m.tree.size
  · exact (h.settled block hdone).mono hsound.tree.wellFormed hold hgrow (hsame hold)
  · by_cases hnew : block.index < new.size
    · exact .inl (hbare (Nat.le_of_not_lt hold) hnew)
    · refine Tree.settled_of_empty ?_
      rw [Tree.statements, Tree.node_of_size_le (Nat.le_of_not_lt hnew)]

end Grows

/-- An instruction that succeeds. What is left of the path is where the walk goes on. -/
theorem visited (h : m.Placed script) (hsound : m.Sound script) (hm : m.active = act :: callers)
    (hwalk : act.walk = some walk) {ins : Instruction}
    (hat : script.program.at? walk.offset = some ins) {ws : Workspace}
    (hvisit : Lift.left (Site.visit ⟨ins, act.entry, walk.block, walk.start⟩ script m.callees
      (m.workspace act walk)) = ws) (last : Nat) (onward : Option Walk)
    (honward : ∀ w, onward = some w → w.block = walk.block ∧ w.start = walk.start)
    (hlast : onward = none → script.program.Path walk.offset [walk.offset])
    (hnext : ∀ w, onward = some w → ∀ rest, script.program.Path w.offset rest →
      script.program.Path walk.offset (walk.offset :: rest)) :
    Machine.Placed script { m with
      tree := ws.tree
      active := { commit { act with last } ws with walk := onward } :: callers } := by
  have hfirst := (h.first hm).1 walk hwalk
  have hold := unfinished_of_walk hm hwalk
  have hlt : walk.block.index < m.tree.size :=
    (hsound.unfinished _ (by rw [hold]; exact List.mem_cons_self)).lt
  have hgrow : m.tree.Grows ws.tree := hvisit ▸ Site.visit_grows _ _ _ (m.workspace act walk)
  have hgrown := (Site.visit_trail ⟨ins, act.entry, walk.block, walk.start⟩ script m.callees
    (m.workspace act walk) hlt hfirst.kind).tree
  have hserves := Site.visit_serves ⟨ins, act.entry, walk.block, walk.start⟩ script m.callees
    (m.workspace act walk) hlt
  obtain ⟨-, hother, -⟩ := Site.visit_spares ⟨ins, act.entry, walk.block, walk.start⟩ script
    m.callees (m.workspace act walk) hlt
  rw [hvisit] at hgrown hserves hother
  have hcaller : ∀ {other block}, other ∈ callers → block ∈ other.unfinished →
      ws.tree.statements block = m.tree.statements block := fun hmem hin =>
    hsound.spared hm hwalk hother
      (List.mem_append_right _ (List.mem_flatMap.2 ⟨_, hmem, hin⟩))
  have hact : act ∈ m.active := first_mem hm
  obtain ⟨passed, hpassed, hplaced⟩ :=
    hfirst.visited hsound.tree.wellFormed hgrow hgrown h.label (Program.offset_of_at? hat)
  have hoffset : ws.tree.offset walk.block = walk.start := by
    rw [hgrow.offset _ hlt, hfirst.offset]
  refine ⟨fun target label => h.label_grows hgrow, fun n label hgoto => ?_,
    fun other hin w hw => ?_, fun other hin job hjob => ?_, fun block hblock => ?_⟩
  · exact h.goto_grows hgrow hgoto fun hn hnew =>
      ⟨_, ((hgrown.made n hn hnew).goto label hgoto).2⟩
  · rcases List.mem_cons.1 hin with rfl | hin
    · obtain ⟨hblock, hstart⟩ := honward w hw
      change onward = some w at hw
      subst hw
      refine ⟨?_, ?_, passed, fun rest hrest => ?_, ?_⟩
      · rw [hblock, hgrow.kind_eq hlt, hfirst.kind]
      · rw [hblock, hstart, hoffset]
      · rw [hstart]
        exact hpassed rest (hnext w rfl rest hrest)
      · rw [hblock, hplaced]
    · exact h.walk_grows hsound hgrow (caller_mem hm hin) hw
        (hcaller hin (by simp [Activation.unfinished, hw]))
  · rcases List.mem_cons.1 hin with rfl | hin
    · rcases mem_work_commit.1 hjob with hspawned | hjob
      · exact hserves.waits rfl hspawned
      · exact h.work_grows hsound hgrow hact hjob
          (hsound.spared hm hwalk hother (List.mem_append_left _ (List.mem_map_of_mem hjob)))
    · exact h.work_grows hsound hgrow (caller_mem hm hin) hjob
        (hcaller hin (List.mem_append_right _ (List.mem_map_of_mem hjob)))
  · rw [unfinished_commit] at hblock
    by_cases hne : block = walk.block
    · subst hne
      have hnone : onward = none := by
        cases hcase : onward with
        | none => rfl
        | some w => simp [hcase, (honward w hcase).1] at hblock
      refine .inr ⟨passed, ?_, hplaced⟩
      rw [hoffset, ← List.append_nil passed]
      exact hpassed [] (hlast hnone)
    · refine h.settled_grows hsound hgrow (fun hin => ?_) (fun hlt => hother block hlt hne)
        fun hle hlt => (hgrown.made block hle hlt).bare
      rw [hold] at hin
      have hwaits := List.mem_of_ne_of_mem hne hin
      exact hblock (List.mem_append_right _ (List.mem_append_right _ hwaits))

/-- A subroutine begins with an empty block. -/
theorem begin (h : m.Placed script) (hsound : m.Sound script) (name : String) (entry : Nat)
    (context : SubId → Context) : (m.begin name entry context).Placed script := by
  have hgrow : m.tree.Grows (m.begin name entry context).tree :=
    (Tree.Grows.alloc m.tree entry (.block [])).trans (.of_exprs_eq rfl)
  have hget : (m.begin name entry context).tree.get m.tree.nextId = ⟨entry, .block []⟩ :=
    (Tree.get_alloc_nextId : (m.tree.alloc entry (.block [])).get m.tree.nextId = _)
  have hsame : ∀ id, (m.begin name entry context).tree.statements id = m.tree.statements id :=
    fun id => (Tree.statements_of_exprs_eq rfl).trans (Tree.statements_alloc (by simp))
  refine ⟨fun target label => h.label_grows hgrow, fun n label hgoto => ?_,
    fun act hact w hw => ?_, fun act hact job hjob => ?_, fun block hblock => ?_⟩
  · refine h.goto_grows hgrow hgoto fun hn hnew => ?_
    rw [Tree.eq_nextId_of_alloc hn hnew, Tree.node, hget] at hgoto
    cases hgoto
  · rcases List.mem_cons.1 hact with rfl | hact
    · cases hw
    · exact h.walk_grows hsound hgrow hact hw (hsame _)
  · rcases List.mem_cons.1 hact with rfl | hact
    · obtain rfl := List.mem_singleton.1 hjob
      exact .of_get hget
    · exact h.work_grows hsound hgrow hact hjob (hsame _)
  · have hnot : block ∉ m.tree.nextId :: m.unfinished := hblock
    rw [List.mem_cons, not_or] at hnot
    refine h.settled_grows hsound hgrow hnot.2 (fun _ => hsame block) fun hle _ => ?_
    apply Tree.isBare_of_statements
    rw [hsame, Tree.statements, Tree.node_of_size_le hle]

end Placed

/-- In a strict run no block is abandoned. -/
theorem Move.placed (h : Move script settings m m') (hstrict : settings.strict = true)
    (hwithin : m.Within script) (hsound : m.Sound script) (hm : m.Placed script) :
    m'.Placed script := by
  cases h with
  | @finish act callers hactive hwalk hwork =>
    refine Placed.of_exprs_eq (m := { m with active := callers }) ?_ rfl
    refine ⟨hm.label, hm.goto, fun other hother => hm.walk other ?_, fun other hother =>
      hm.work other ?_, fun block hblock => hm.settled block ?_⟩
    · rw [hactive]
      exact List.mem_cons_of_mem _ hother
    · rw [hactive]
      exact List.mem_cons_of_mem _ hother
    · rw [unfinished, hactive]
      simpa [Activation.unfinished, hwalk, hwork, unfinished] using hblock
  | @skip act callers job work hactive hwalk hwork hdone =>
    obtain ⟨hwalks, hjobs⟩ := hm.first hactive
    rw [hwork] at hjobs
    refine hm.replace hactive _ hwalks (fun other hother => hjobs other
      (List.mem_cons_of_mem _ hother)) fun block hmem hnot => ?_
    have hblock : block = job.block := by
      simp only [Activation.unfinished, hwalk, hwork, Option.map_none, Option.toList_none,
        List.nil_append, List.map_cons, List.mem_cons] at hmem hnot
      exact hmem.resolve_right hnot
    exact Tree.settled_of_empty (hblock ▸ (hjobs job List.mem_cons_self).empty)
  | @start act callers job work hactive hwalk hwork hdone =>
    obtain ⟨-, hjobs⟩ := hm.first hactive
    rw [hwork] at hjobs
    have hjob := hjobs job List.mem_cons_self
    refine hm.replace hactive _ (fun w hw => ?_) (fun other hother => hjobs other
      (List.mem_cons_of_mem _ hother)) fun block hmem hnot => ?_
    · cases hw
      exact ⟨hjob.kind, hjob.offset, [], fun _ => id, Tree.placed_of_empty hjob.empty⟩
    · refine absurd ?_ hnot
      simpa [Activation.unfinished, hwalk, hwork, Job.walk] using hmem
  | @leave act callers walk hactive hwalk hend =>
    exact absurd (hwithin act callers walk hactive hwalk) (Nat.not_lt.2 hend)
  | lost hactive hwalk hat hlenient => cases hstrict.symm.trans hlenient
  | @next act callers walk ins offset ws hactive hwalk hat hrun =>
    have honward : ins.onward? = some offset := Site.visit_onward_next hrun
    have hlt := hwithin act callers walk hactive hwalk
    refine hm.visited hsound hactive hwalk hat (by rw [workspace, hrun]; rfl) _ _
      (fun w hw => ?_) (by simp) fun w hw rest hrest => ?_
    · cases hw
      exact ⟨rfl, rfl⟩
    · cases hw
      exact .onward hlt hat honward hrest
  | @stop act callers walk ins ws hactive hwalk hat hrun =>
    have honward : ins.onward? = none := Site.visit_onward_stop hrun
    refine hm.visited hsound hactive hwalk hat (by rw [workspace, hrun]; rfl) _ none (by simp)
      (fun _ => .last (hwithin act callers walk hactive hwalk) hat honward) (by simp)
  | @enter act callers walk ins target ws hactive hwalk hat hrun =>
    obtain ⟨hwalks, hjobs⟩ := hm.first hactive
    have hact := hsound.first hactive
    have hwaits := hsound.narrow_first hactive { act with last := max act.last walk.offset }
      ⟨hact.outer, hact.blocks, hact.work, hact.walk⟩ (List.Sublist.refl _)
    have hplaced := hm.replace hactive { act with last := max act.last walk.offset } hwalks hjobs
      fun block hmem hnot => absurd hmem hnot
    exact hplaced.begin hwaits "" target walk.context.enter
  | fault hactive hwalk hat hrun hlenient => cases hstrict.symm.trans hlenient

theorem Placed.tick (h : m.Placed script) (hsound : m.Sound script)
    (hstrict : settings.strict = true) (htick : m.tick script settings = .ok (some m')) :
    m'.Placed script := by
  rcases tick_cases htick with ⟨hwithin, hmove⟩ | ⟨act, callers, walk, hm, hwalk, hend, rfl⟩
  · exact hmove.placed hstrict hwithin hsound h
  · exact h.leave hm hwalk hend

end Machine

namespace Lift

theorem labels_node (program : Program) (id : NodeId) :
    (labels program).1.node id = .label ∨ (labels program).1.node id = .block [] := by
  refine labels_induction (P := fun state => ∀ id, state.1.node id = .label ∨
    state.1.node id = .block []) ?_ ?_ program id
  · intro id
    exact .inr (Tree.node_of_size_le (Nat.zero_le _))
  · intro tree known target hnode id
    rcases Nat.lt_trichotomy id.index tree.size with hlt | heq | hgt
    · rw [Tree.node_alloc_of_lt hlt]
      exact hnode id
    · rw [Tree.eq_nextId_of_index heq, Tree.node_alloc_nextId]
      exact .inl rfl
    · exact .inr (Tree.node_of_size_le (by rw [Tree.size_alloc]; omega))

theorem labels_mem {program : Program} {target : Nat} {label : NodeId}
    (h : (target, label) ∈ (labels program).2) :
    label.index < (labels program).1.size ∧ (labels program).1.offset label = target := by
  refine labels_induction (P := fun state => ∀ target label, (target, label) ∈ state.2 →
    label.index < state.1.size ∧ state.1.offset label = target) (by simp) ?_ program target label h
  intro tree known target hknown other label hmem
  rcases List.mem_cons.1 hmem with heq | hmem
  · cases heq
    exact ⟨by simp, by rw [Tree.offset, Tree.get_alloc_nextId]⟩
  · obtain ⟨hlt, hoffset⟩ := hknown other label hmem
    exact ⟨by rw [Tree.size_alloc]; exact Nat.lt_succ_of_lt hlt,
      by rw [Tree.offset_alloc_of_lt hlt, hoffset]⟩

theorem labels_lookup {program : Program} {target : Nat} {label : NodeId}
    (h : (labels program).2.lookup target = some label) :
    label.index < (labels program).1.size ∧ (labels program).1.offset label = target :=
  labels_mem (Site.mem_of_lookup h)

theorem labels_placed (program : Program) (routines : Routines) :
    Machine.Placed (script program routines) ⟨(labels program).1, [], []⟩ := by
  refine ⟨fun _ _ => labels_lookup, fun n label hgoto => ?_, by simp, by simp, fun block _ => ?_⟩
  · rcases labels_node program n with hnode | hnode <;> cases hnode.symm.trans hgoto
  · apply Tree.settled_of_empty
    rcases labels_node program block with hnode | hnode <;> rw [Tree.statements, hnode]

theorem start_placed (program : Program) (routines : Routines) :
    (start (labels program).1).Placed (script program routines) := by
  obtain ⟨htree, hlabels⟩ := labels_sound program
  exact (labels_placed program routines).begin ⟨htree, hlabels, by simp,
    by simp [Machine.unfinished], by simp [Machine.unfinished]⟩ startName Program.entry
    Context.entering

/-- Only globals are dropped from a block when globals are collected and subroutines named. -/
theorem statements_complete (tree : Tree) (block : NodeId) : ∃ p : NodeId → Bool,
    (∀ s, tree.storage? s ≠ some .global → p s) ∧
      (complete tree).statements block = (tree.statements block).filter p := by
  have hkept : ∀ new : Tree, new.statements block = tree.statements block → ∃ p : NodeId → Bool,
      (∀ s, tree.storage? s ≠ some .global → p s) ∧
        new.statements block = (tree.statements block).filter p :=
    fun new hsame => ⟨fun _ => true, fun _ _ => rfl, by rw [hsame, List.filter_true]⟩
  have hglobals : ∀ sub, ∃ p : NodeId → Bool, (∀ s, tree.storage? s ≠ some .global → p s) ∧
      (nameGlobals (collectGlobals tree) sub).statements block =
        (tree.statements block).filter p := by
    intro sub
    let named := (collectGlobals tree).modifySub sub fun s => { s with name := globalsName }
    have hnamed : named.statements block = tree.statements block := Tree.statements_of_exprs_eq rfl
    let p : NodeId → Bool := fun s => decide ((collectGlobals tree).storage? s ≠ some .global)
    have hp : ∀ s, tree.storage? s ≠ some .global → p s := fun s hs => decide_eq_true hs
    change ∃ q : NodeId → Bool, _ ∧ (named.modifyStatements (named.sub sub).root
      fun statements => statements.filter p).statements block = _
    by_cases hroot : block = (named.sub sub).root
    · by_cases hblock : named.kind block = .block ∧ block.index < named.size
      · refine ⟨p, hp, ?_⟩
        rw [← hroot, Tree.statements_modifyStatements_self _ hblock.1 hblock.2, hnamed]
      · refine hkept _ (Eq.trans ?_ hnamed)
        unfold Tree.statements Tree.modifyStatements
        rcases Tree.node_modify_cases named (named.sub sub).root block _ with heq | ⟨rfl, hlt, heq⟩
        · rw [heq]
        · rw [heq]
          cases hnode : named.node (named.sub sub).root with
          | block statements =>
            exact absurd ⟨by rw [Tree.kind, hnode, Node.kind], hlt⟩ hblock
          | _ => rfl
    · refine hkept _ (Eq.trans ?_ hnamed)
      exact Tree.statements_modifyStatements_of_ne _ hroot
  unfold complete nameSubroutines
  split
  · exact hkept _ (Tree.statements_of_exprs_eq rfl)
  · next globals main _ _ _ =>
    obtain ⟨p, hp, hsame⟩ := hglobals globals
    exact ⟨p, hp, (Tree.statements_of_exprs_eq rfl).trans hsame⟩
  · exact hglobals _
  · exact hkept _ (Tree.statements_of_exprs_eq rfl)

/-- All else of a node stays. -/
theorem node_complete (tree : Tree) (id : NodeId) :
    (complete tree).offset id = tree.offset id ∧ (complete tree).kind id = tree.kind id ∧
      (tree.kind id ≠ .block → (complete tree).node id = tree.node id) := by
  have hglobals : ∀ sub, (nameGlobals (collectGlobals tree) sub).offset id = tree.offset id ∧
      (nameGlobals (collectGlobals tree) sub).kind id = tree.kind id ∧
      (tree.kind id ≠ .block →
        (nameGlobals (collectGlobals tree) sub).node id = tree.node id) := by
    intro sub
    refine ⟨Tree.offset_modify, Tree.kind_modifyStatements _, fun hkind => ?_⟩
    unfold nameGlobals
    dsimp only
    unfold Tree.modifyStatements
    rcases Tree.node_modify_cases ((collectGlobals tree).modifySub sub fun s =>
      { s with name := globalsName }) (((collectGlobals tree).modifySub sub fun s =>
      { s with name := globalsName }).sub sub).root id _ with heq | ⟨-, -, heq⟩
    · exact heq
    · refine heq.trans ?_
      have hsame : ((collectGlobals tree).modifySub sub fun s =>
          { s with name := globalsName }).node id = tree.node id := rfl
      rw [hsame]
      unfold Tree.kind at hkind
      cases hnode : tree.node id with
      | block statements => exact absurd (by rw [hnode, Node.kind]) hkind
      | _ => rfl
  unfold complete nameSubroutines
  split
  · exact ⟨rfl, rfl, fun _ => rfl⟩
  · next globals main _ _ _ => exact hglobals globals
  · exact hglobals _
  · exact ⟨rfl, rfl, fun _ => rfl⟩

end Lift

namespace Tree

variable {tree : Tree} {script : Script} {block label : NodeId}

/-- A walk filled the block, and it passed the offset of the label. -/
def Passes (tree : Tree) (program : Program) (block label : NodeId) : Prop :=
  tree.isBare block = false ∧
    ∃ path, program.Path (tree.offset block) path ∧ tree.offset label ∈ path

/-- The labels of a script are label nodes at their offsets. -/
def Marked (script : Script) (tree : Tree) : Prop :=
  ∀ target label, script.label? target = some label →
    tree.kind label = .label ∧ tree.offset label = target

theorem settled_complete (hmarked : tree.Marked script) (h : tree.Settled script block) :
    (Lift.complete tree).Settled script block := by
  obtain ⟨p, hp, hstatements⟩ := Lift.statements_complete tree block
  have hoffset : ∀ id, (Lift.complete tree).offset id = tree.offset id :=
    fun id => (Lift.node_complete tree id).1
  rcases h with hbare | ⟨path, hpath, hplaced⟩
  · left
    unfold isBare at hbare ⊢
    rw [hstatements]
    generalize tree.statements block = statements at hbare ⊢
    match statements with
    | [] => rfl
    | [s] =>
      have hgoto : tree.kind s = .goto := of_decide_eq_true hbare
      rw [List.filter_cons_of_pos (hp s (by simp [storage?_eq_none, hgoto])), List.filter_nil]
      simp only [(Lift.node_complete tree s).2.1, hgoto, decide_true]
    | _ :: _ :: _ => cases hbare
  · refine .inr ⟨path, (hoffset block).symm ▸ hpath, ?_⟩
    rw [← hplaced, placed, placed, hstatements, List.filter_filter]
    refine List.filter_congr fun s _ => ?_
    rw [hoffset]
    by_cases hlabel : script.label? (tree.offset s) = some s
    · simp [hlabel, hp s (by simp [storage?_eq_none, (hmarked _ _ hlabel).1])]
    · simp [hlabel]

theorem isBare_of_mem (hkind : tree.kind label = .label) (h : label ∈ tree.statements block) :
    tree.isBare block = false := by
  unfold isBare
  generalize tree.statements block = statements at h
  match statements with
  | [] => cases h
  | [s] =>
    obtain rfl := List.mem_singleton.1 h
    simp [hkind]
  | _ :: _ :: _ => rfl

variable {target : Nat}

/-- A block that is done with holds a label exactly if its walk passed it. -/
theorem Settled.mem_iff (h : tree.Settled script block) (hmarked : tree.Marked script)
    (hlabel : script.label? target = some label) :
    label ∈ tree.statements block ↔ tree.Passes script.program block label := by
  obtain ⟨hkind, rfl⟩ := hmarked target label hlabel
  have hmem : label ∈ tree.statements block ↔ label ∈ tree.placed script block := by
    simp [placed, hlabel]
  constructor
  · intro hin
    refine ⟨isBare_of_mem hkind hin, ?_⟩
    rcases h with hbare | ⟨path, hpath, hplaced⟩
    · cases hbare.symm.trans (isBare_of_mem hkind hin)
    · rw [hmem, hplaced, List.mem_filterMap] at hin
      obtain ⟨passed, hpassed, hsome⟩ := hin
      refine ⟨path, hpath, ?_⟩
      rw [(hmarked passed label hsome).2]
      exact hpassed
  · rintro ⟨hfilled, other, hother, hpassed⟩
    rcases h with hbare | ⟨path, hpath, hplaced⟩
    · cases hbare.symm.trans hfilled
    · obtain rfl := hpath.unique hother
      rw [hmem, hplaced, List.mem_filterMap]
      exact ⟨_, hpassed, hlabel⟩

/-- A walk passes an offset once. -/
theorem Settled.count_le_one (h : tree.Settled script block) (hmarked : tree.Marked script)
    (hlabel : script.label? target = some label) : (tree.statements block).count label ≤ 1 := by
  rcases h with hbare | ⟨path, hpath, hplaced⟩
  · have hlength : (tree.statements block).length ≤ 1 := by
      unfold isBare at hbare
      generalize tree.statements block = statements at hbare
      match statements with
      | [] => exact Nat.zero_le _
      | [_] => exact Nat.le_refl _
      | _ :: _ :: _ => cases hbare
    exact Nat.le_trans List.count_le_length hlength
  · obtain ⟨-, rfl⟩ := hmarked target label hlabel
    have hcount : (tree.placed script block).count label = (tree.statements block).count label :=
      List.count_filter (by simp [hlabel])
    have hnodup : (path.filterMap script.label?).Nodup := by
      refine hpath.nodup.filterMap fun a b s ha hb => ?_
      rw [← (hmarked a s ha).2, (hmarked b s hb).2]
    rw [← hcount, hplaced]
    exact List.nodup_iff_count_le_one.1 hnodup label

/-- How often a label stands as a statement in the blocks of a subroutine, each block taken once. -/
def placements (tree : Tree) (sub : SubId) (label : NodeId) : Nat :=
  ∑ block ∈ (tree.body sub).toFinset, (tree.statements block).count label

end Tree

section Lifted

variable {program : Program} {routines : Routines} {settings : LiftSettings} {tree : Tree}
  {n label : NodeId}

/-- Gotos name labels of the script, and every block is done with. -/
theorem lift_settled (hstrict : settings.strict = true)
    (hlift : lift program routines settings = some (.ok tree)) :
    tree.Marked (Lift.script program routines) ∧
      (∀ n label, tree.node n = .goto label →
        ∃ target, (Lift.script program routines).label? target = some label) ∧
      ∀ block, tree.Settled (Lift.script program routines) block := by
  obtain ⟨lifted, hrun, rfl⟩ := lift_eq_ok hlift
  obtain ⟨last, ⟨hsound, hplaced⟩, hrest, rfl⟩ := Machine.run_ticks
    (P := fun m => m.Sound _ ∧ m.Placed _)
    (fun hm htick => ⟨(Machine.move_of_tick htick).sound hm.1, hm.2.tick hm.1 hstrict htick⟩)
    ⟨Lift.start_sound program routines, Lift.start_placed program routines⟩ hrun
  change (Lift.complete last.tree).Marked _ ∧
    (∀ n label, (Lift.complete last.tree).node n = _ → _) ∧
    ∀ block, (Lift.complete last.tree).Settled _ block
  have hmarked : last.tree.Marked (Lift.script program routines) := fun target label hlabel =>
    ⟨hsound.labels _ (Site.mem_of_lookup hlabel), (hplaced.label target label hlabel).2⟩
  refine ⟨fun target label hlabel => ?_, fun n label hgoto => ?_, fun block => ?_⟩
  · obtain ⟨hkind, hoffset⟩ := hmarked target label hlabel
    obtain ⟨hsame, hsameKind, -⟩ := Lift.node_complete last.tree label
    exact ⟨hsameKind.trans hkind, hsame.trans hoffset⟩
  · obtain ⟨-, hsameKind, hsame⟩ := Lift.node_complete last.tree n
    rw [Tree.kind, hgoto] at hsameKind
    rw [hsame (by rw [← hsameKind]; simp [Node.kind])] at hgoto
    exact hplaced.goto n label hgoto
  · refine Tree.settled_complete hmarked (hplaced.settled block ?_)
    simp [Machine.unfinished, hrest]

/-- A goto finds its label in a subroutine exactly if a block of it, filled by a walk, passes the
offset of the label. -/
theorem goto_finds_label_iff (hstrict : settings.strict = true)
    (hlift : lift program routines settings = some (.ok tree)) (hgoto : tree.node n = .goto label)
    (sub : SubId) :
    (∃ block ∈ tree.body sub, label ∈ tree.statements block) ↔
      ∃ block ∈ tree.body sub, tree.Passes program block label := by
  obtain ⟨hmarked, hgotos, hsettled⟩ := lift_settled hstrict hlift
  obtain ⟨target, hlabel⟩ := hgotos n label hgoto
  exact exists_congr fun block => and_congr_right fun _ =>
    (hsettled block).mem_iff hmarked hlabel

end Lifted

/-- Whether some goto of the output has a property, given its subroutine and label. -/
def Tree.someGoto (tree : Tree) (p : SubId → NodeId → Bool) : Bool :=
  tree.order.any fun sub => (tree.body sub).any fun n =>
    match tree.node n with
    | .goto label => p sub label
    | _ => false

theorem Tree.exists_of_someGoto {tree : Tree} {p : SubId → NodeId → Bool} (h : tree.someGoto p) :
    ∃ sub ∈ tree.order, ∃ n ∈ tree.body sub, ∃ label, tree.node n = .goto label ∧ p sub label := by
  obtain ⟨sub, hsub, h⟩ := List.any_eq_true.1 h
  obtain ⟨n, hn, h⟩ := List.any_eq_true.1 h
  split at h
  · next label hnode => exact ⟨sub, hsub, n, hn, label, hnode, h⟩
  · cases h

/-- A jump over a return, and behind it a jump back to the return. -/
def skippedScript : Program := .ofList "" [
  { opcode := .jsr, jump := 8 },
  { opcode := .retn },
  { opcode := .jmp, jump := 8 },
  { opcode := .retn },
  { opcode := .jmp, jump := -2 }
]

/-- Whether a label is a statement in the blocks of a subroutine. -/
def Tree.finds (tree : Tree) (sub : SubId) (label : NodeId) : Bool :=
  (tree.body sub).any fun block => label ∈ tree.statements block

theorem Tree.finds_iff {tree : Tree} {sub : SubId} {label : NodeId} :
    tree.finds sub label ↔ ∃ block ∈ tree.body sub, label ∈ tree.statements block := by
  simp [finds]

/-- No walk comes by the return that the goto names. -/
theorem goto_finds_label_skippedScript : ∃ tree sub n label,
    lift skippedScript {} .strictly = some (.ok tree) ∧ tree.node n = .goto label ∧
    (¬∃ block ∈ tree.body sub, label ∈ tree.statements block) ∧
    ((∃ block ∈ tree.body sub, label ∈ tree.statements block) ↔
      ∃ block ∈ tree.body sub, tree.Passes skippedScript block label) := by
  obtain ⟨tree, hlift, hgoto⟩ := exists_of_lift skippedScript {} .strictly
    (fun tree => tree.someGoto fun sub label => !tree.finds sub label) (by decide +kernel)
  obtain ⟨sub, -, n, -, label, hnode, hlost⟩ := Tree.exists_of_someGoto hgoto
  rw [Bool.not_eq_true', ← Bool.not_eq_true, Tree.finds_iff] at hlost
  exact ⟨tree, sub, n, label, hlift, hnode, hlost, goto_finds_label_iff rfl hlift hnode sub⟩

/-- Gotos do dangle. -/
theorem not_forall_goto_finds_label : ¬∀ (program : Program) (routines : Routines)
    (settings : LiftSettings) (tree : Tree), settings.strict = true →
    lift program routines settings = some (.ok tree) →
    ∀ sub ∈ tree.order, ∀ n ∈ tree.body sub, ∀ label, tree.node n = .goto label →
      ∃ block ∈ tree.body sub, label ∈ tree.statements block := by
  intro h
  obtain ⟨tree, hlift, hgoto⟩ := exists_of_lift skippedScript {} .strictly
    (fun tree => tree.someGoto fun sub label => !tree.finds sub label) (by decide +kernel)
  obtain ⟨sub, hsub, n, hn, label, hnode, hlost⟩ := Tree.exists_of_someGoto hgoto
  rw [Bool.not_eq_true', ← Bool.not_eq_true, Tree.finds_iff] at hlost
  exact hlost (h _ _ _ tree rfl hlift sub hsub n hn label hnode)

section Lifted

variable {program : Program} {routines : Routines} {settings : LiftSettings} {tree : Tree}
  {n label : NodeId}

/-- A label that a goto names stands at most once in the blocks of a subroutine exactly if no two of
them, filled by walks, pass its offset. -/
theorem goto_label_unique_iff (hstrict : settings.strict = true)
    (hlift : lift program routines settings = some (.ok tree)) (hgoto : tree.node n = .goto label)
    (sub : SubId) :
    tree.placements sub label ≤ 1 ↔ ∀ a ∈ tree.body sub, ∀ b ∈ tree.body sub,
      tree.Passes program a label → tree.Passes program b label → a = b := by
  classical
  obtain ⟨hmarked, hgotos, hsettled⟩ := lift_settled hstrict hlift
  obtain ⟨target, hlabel⟩ := hgotos n label hgoto
  have hcount : ∀ block, (tree.statements block).count label =
      if tree.Passes program block label then 1 else 0 := by
    intro block
    have hmem := (hsettled block).mem_iff hmarked hlabel
    split
    · next hpasses =>
      exact Nat.le_antisymm ((hsettled block).count_le_one hmarked hlabel)
        (List.count_pos_iff.2 (hmem.2 hpasses))
    · next hpasses => exact List.count_eq_zero.2 fun hin => hpasses (hmem.1 hin)
  have hcard : tree.placements sub label =
      ((tree.body sub).toFinset.filter fun block => tree.Passes program block label).card := by
    rw [Tree.placements, Finset.card_filter]
    exact Finset.sum_congr rfl fun block _ => hcount block
  rw [hcard, Finset.card_le_one]
  simp only [Finset.mem_filter, List.mem_toFinset]
  exact ⟨fun h a ha b hb hpa hpb => h a ⟨ha, hpa⟩ b ⟨hb, hpb⟩,
    fun h a ha b hb => h a ha.1 b hb.1 ha.2 hb.2⟩

end Lifted

/-- A branch to a loop that is entered from above as well. -/
def joinedScript : Program := .ofList "" [
  { opcode := .jsr, jump := 8 },
  { opcode := .retn },
  { opcode := .consti, value := some (.int 0) },
  { opcode := .jz, jump := 8 },
  { opcode := .nop },
  { opcode := .nop },
  { opcode := .jmp, jump := -2 }
]

/-- The block of the branch and the block around it both pass the head of the loop. -/
theorem goto_label_unique_joinedScript : ∃ tree sub n label,
    lift joinedScript {} .strictly = some (.ok tree) ∧ tree.node n = .goto label ∧
    ¬tree.placements sub label ≤ 1 ∧
    (tree.placements sub label ≤ 1 ↔ ∀ a ∈ tree.body sub, ∀ b ∈ tree.body sub,
      tree.Passes joinedScript a label → tree.Passes joinedScript b label → a = b) := by
  obtain ⟨tree, hlift, hgoto⟩ := exists_of_lift joinedScript {} .strictly
    (fun tree => tree.someGoto fun sub label => !decide (tree.placements sub label ≤ 1))
    (by decide +kernel)
  obtain ⟨sub, -, n, -, label, hnode, htwice⟩ := Tree.exists_of_someGoto hgoto
  rw [Bool.not_eq_true', decide_eq_false_iff_not] at htwice
  exact ⟨tree, sub, n, label, hlift, hnode, htwice, goto_label_unique_iff rfl hlift hnode sub⟩

/-- Gotos are ambiguous. -/
theorem not_forall_goto_label_unique : ¬∀ (program : Program) (routines : Routines)
    (settings : LiftSettings) (tree : Tree), settings.strict = true →
    lift program routines settings = some (.ok tree) →
    ∀ sub ∈ tree.order, ∀ n ∈ tree.body sub, ∀ label, tree.node n = .goto label →
      tree.placements sub label ≤ 1 := by
  intro h
  obtain ⟨tree, hlift, hgoto⟩ := exists_of_lift joinedScript {} .strictly
    (fun tree => tree.someGoto fun sub label => !decide (tree.placements sub label ≤ 1))
    (by decide +kernel)
  obtain ⟨sub, hsub, n, hn, label, hnode, htwice⟩ := Tree.exists_of_someGoto hgoto
  rw [Bool.not_eq_true', decide_eq_false_iff_not] at htwice
  exact htwice (h _ _ _ tree rfl hlift sub hsub n hn label hnode)

end ScriptLift
