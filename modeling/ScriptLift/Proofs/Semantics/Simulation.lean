import Mathlib.Data.List.Induction
import ScriptLift.Proofs.Program.Layout
import ScriptLift.Proofs.Semantics.Instructions

namespace ScriptLift

namespace Machine

variable {script : Script} {settings : LiftSettings} {m m' : Machine} {tree : Tree}

theorem run_tick (h : m.run script settings = some (.ok tree)) (hm : m.active ≠ []) :
    ∃ m', m.tick script settings = .ok (some m') ∧ m'.run script settings = some (.ok tree) := by
  rw [run_eq] at h
  split at h
  · cases h
  · next htick => exact absurd (active_of_rest htick) hm
  · next m' htick => exact ⟨m', htick, h⟩

theorem run_rest (h : m.run script settings = some (.ok tree)) (hm : m.active = []) : m.tree = tree := by
  have htick : m.tick script settings = .ok none := by simp [tick, hm]
  rw [run_eq] at h
  split at h
  · next heq => cases heq.symm.trans htick
  · cases h
    rfl
  · next heq => cases heq.symm.trans htick

theorem roots_finish (m : Machine) (act : Activation) (callers : List Activation) :
    (m.finish act callers).tree.subroutines.toList.map (·.root) =
      m.tree.subroutines.toList.map (·.root) := by
  refine List.ext_getElem? fun i => ?_
  simp only [finish, Tree.modifySub, Array.toList_modify, List.getElem?_map, List.getElem?_modify]
  cases m.tree.subroutines.toList[i]? with
  | none => rfl
  | some sub => by_cases hi : act.sub.index = i <;> simp [hi]

theorem run_finish {act : Activation} (hm : m.active = [act]) (hwalk : act.walk = none)
    (hwork : act.work = []) (h : m.run script settings = some (.ok tree)) :
    tree.exprs = m.tree.exprs ∧ tree.order = m.tree.order ∧
      tree.subroutines.toList.map (·.root) = m.tree.subroutines.toList.map (·.root) := by
  have htick : m.tick script settings = .ok (some (m.finish act [])) := by
    simp [tick, hm, hwalk, hwork]
  obtain ⟨m', htick', hrest⟩ := run_tick h (by simp [hm])
  cases htick.symm.trans htick'
  obtain rfl := run_rest hrest rfl
  exact ⟨rfl, rfl, roots_finish m act []⟩

theorem run_grows (h : m.run script settings = some (.ok tree)) : m.tree.Grows tree := by
  obtain ⟨last, hgrows, -, rfl⟩ := run_induction (P := fun later => m.tree.Grows later.tree)
    (fun hm hmove => hm.trans hmove.grows) (Tree.Grows.refl _) h
  exact hgrows

end Machine

/-- The tree of a program whose only subroutine is its entry. -/
structure Tree.IsSingle (tree : Tree) (root : NodeId) : Prop where
  order : tree.order = [⟨0⟩]
  roots : tree.subroutines.toList.map (·.root) = [root]

theorem Tree.IsSingle.output {tree : Tree} {root : NodeId} (h : tree.IsSingle root) :
    tree.output.map (·.root) = [root] := by
  obtain ⟨sub, hsub, hroot⟩ := List.map_eq_singleton_iff.1 h.roots
  have hfirst : tree.subroutines[0]? = some sub := by
    rw [← Array.getElem?_toList, hsub]
    rfl
  simp [Tree.output, h.order, Tree.sub, hfirst, hroot]

theorem Tree.IsSingle.of_visit {site : Site} {script : Script} {callees : List (Nat × SubId)}
    {ws ws' : Workspace} {flow : Flow} {root : NodeId} (h : ws.tree.IsSingle root)
    (hrun : site.visit script callees ws = .ok flow ws') : ws'.tree.IsSingle root := by
  obtain ⟨horder, hsubs⟩ := (site.visit_subroutines script callees).ok hrun
  exact ⟨horder.trans h.order, by rw [hsubs, h.roots]⟩

/-- The machine walks through the entry and has nothing else to do. -/
structure Machine.Follows {W : Type} (M : Meaning W) (script : Script) (root : NodeId)
    (m : Machine) (act : Activation) (walk : Walk) (s : Store W) (w : Words W) : Prop where
  active : m.active = [act]
  walking : act.walk = some walk
  work : act.work = []
  block : walk.block = root
  mirrors : Mirrors M script.routines root ⟨m.tree, walk.context, act.outer, act.blocks, none⟩ s w
  labels : ∀ target label, script.labels.lookup target = some label → m.tree.node label = .label
  single : m.tree.IsSingle root

namespace Machine.Follows

variable {W : Type} {M : Meaning W} {script : Script} {settings : LiftSettings} {root : NodeId}
  {m m' : Machine} {act : Activation} {walk : Walk} {s : Store W} {w w' : Words W} {tree : Tree}
  {ins : Instruction}

theorem labels_of_grows (h : Follows M script root m act walk s w) {later : Tree}
    (hg : m.tree.Grows later) :
    ∀ target label, script.labels.lookup target = some label → later.node label = .label := by
  intro target label hlabel
  exact hg.node_of_eq (h.labels target label hlabel) (by simp [Node.kind]) (by simp [Node.kind])

/-- What a strict machine does at an instruction. -/
theorem visited (h : Follows M script root m act walk s w) (hstrict : settings.strict = true)
    (hat : script.program.at? walk.offset = some ins)
    (hlt : walk.offset < script.program.length)
    (hmove : Move script settings m m') :
    ∃ flow ws, Site.visit ⟨ins, act.entry, root, walk.start⟩ script m.callees
        ⟨m.tree, walk.context, act.outer, act.blocks, none⟩ = .ok flow ws ∧
      (∀ offset, flow = .next offset → m' = { m with
        tree := ws.tree
        active := [{ commit { act with last := max act.last walk.offset } ws with
          walk := some { walk with offset, context := ws.context } }] }) ∧
      (flow = .stop → m' = { m with
        tree := ws.tree
        active := [{ commit { act with last := max act.last walk.offset } ws with
          walk := none }] }) := by
  obtain ⟨hactive, hwalking, hwork, hblock, -, -, -⟩ := h
  cases hmove with
  | finish hm hwalk _ | skip hm hwalk _ _ | start hm hwalk _ _ =>
    cases hactive.symm.trans hm
    cases hwalking.symm.trans hwalk
  | leave hm hwalk hle =>
    cases hactive.symm.trans hm
    cases hwalking.symm.trans hwalk
    omega
  | lost hm hwalk hnone hloose =>
    rw [hstrict] at hloose
    cases hloose
  | fault hm hwalk hsome hrun hloose =>
    rw [hstrict] at hloose
    cases hloose
  | next hm hwalk hsome hrun =>
    cases hactive.symm.trans hm
    cases hwalking.symm.trans hwalk
    cases hat.symm.trans hsome
    subst hblock
    refine ⟨_, _, hrun, ?_, by simp⟩
    intro offset heq
    cases heq
    rfl
  | stop hm hwalk hsome hrun =>
    cases hactive.symm.trans hm
    cases hwalking.symm.trans hwalk
    cases hat.symm.trans hsome
    subst hblock
    exact ⟨_, _, hrun, by simp, fun _ => rfl⟩
  | enter hm hwalk hsome hrun =>
    cases hactive.symm.trans hm
    cases hwalking.symm.trans hwalk
    cases hat.symm.trans hsome
    subst hblock
    exact ⟨_, _, hrun, by simp, by simp⟩

/-- One move over a straight instruction. -/
theorem step (h : Follows M script root m act walk s w) (hstrict : settings.strict = true)
    (hat : script.program.at? walk.offset = some ins)
    (hlt : walk.offset < script.program.length) (hstraight : ins.isStraight script.routines)
    (hsmall : w.stack.length < 2 ^ 62) (hw : Words.step M script.routines ins w = some w')
    (hrun : m.run script settings = some (.ok tree)) :
    ∃ m' act' walk' s', m.tick script settings = .ok (some m') ∧
      m'.run script settings = some (.ok tree) ∧ Follows M script root m' act' walk' s' w' ∧
      walk'.offset = ins.next := by
  obtain ⟨m', htick, hrest⟩ := run_tick hrun (by simp [h.active])
  obtain ⟨flow, ws, hvisit, hnext, -⟩ := h.visited hstrict hat hlt (move_of_tick htick)
  obtain ⟨rfl, s', hmirrors⟩ := h.mirrors.visit ⟨ins, act.entry, root, walk.start⟩
    h.labels hstraight hsmall hw hvisit
  obtain rfl := hnext _ rfl
  have hgrow := (Site.visit_grows _ _ _).ok hvisit
  refine ⟨_, { commit { act with last := max act.last walk.offset } ws with
      walk := some { walk with offset := ins.next, context := ws.context } },
    { walk with offset := ins.next, context := ws.context }, s', htick, hrest, ?_, rfl⟩
  exact {
    active := rfl
    walking := rfl
    work := by simp [commit, hmirrors.idle, h.work]
    block := h.block
    mirrors := hmirrors.grow (Tree.Grows.refl _) rfl rfl hmirrors.idle.symm
    labels := h.labels_of_grows hgrow
    single := Tree.IsSingle.of_visit h.single hvisit }

/-- A return ends the run; the block then leads to the store it has led to before. -/
theorem ret (h : Follows M script root m act walk s w) (hstrict : settings.strict = true)
    (hat : script.program.at? walk.offset = some ins)
    (hlt : walk.offset < script.program.length) (hop : ins.opcode.operation = .ret)
    (hrun : m.run script settings = some (.ok tree)) :
    M.Runs script.routines tree root s ∧ tree.IsSingle root := by
  obtain ⟨m', htick, hrest⟩ := run_tick hrun (by simp [h.active])
  obtain ⟨flow, ws, hvisit, -, hstop⟩ := h.visited hstrict hat hlt (move_of_tick htick)
  obtain ⟨rfl, hmirrors⟩ := h.mirrors.visit_ret ⟨ins, act.entry, root, walk.start⟩
    h.labels hop hvisit
  obtain rfl := hstop rfl
  obtain ⟨hexprs, horder, hroots⟩ := run_finish (m := { m with
      tree := ws.tree
      active := [{ commit { act with last := max act.last walk.offset } ws with
        walk := none }] }) rfl rfl (by simp [commit, hmirrors.idle, h.work]) hrest
  have hsingle := Tree.IsSingle.of_visit h.single hvisit
  have hgrow := Tree.Grows.of_exprs_eq hexprs
  refine ⟨fun later hg => ?_, horder.trans hsingle.order, hroots.trans hsingle.roots⟩
  rw [Tree.statements_of_exprs_eq hexprs]
  exact hmirrors.runs later (hgrow.trans hg)

end Machine.Follows

namespace Lift

/-- Labels are nodes of their own, and there are no subroutines yet. -/
structure Labelled (state : Tree × List (Nat × NodeId)) : Prop where
  node : ∀ target label, state.2.lookup target = some label → state.1.node label = .label
  order : state.1.order = []
  subroutines : state.1.subroutines = #[]

theorem Labelled.addLabel {state : Tree × List (Nat × NodeId)} (h : Labelled state)
    (target : Nat) : Labelled (addLabel state target) := by
  unfold Lift.addLabel
  split
  · exact h
  · refine ⟨fun other label hlookup => ?_, h.order, h.subroutines⟩
    rw [List.lookup_cons] at hlookup
    split at hlookup
    · cases hlookup
      exact Tree.node_alloc_nextId
    · have hnode := h.node other label hlookup
      rw [Tree.node_alloc (by simp [hnode]), hnode]

theorem labelled_labels (program : Program) : Labelled (labels program) := by
  unfold labels
  generalize (program.instructions.toList.filter needsLabel).map (·.target) = targets
  have hfold : ∀ state, Labelled state → Labelled (targets.foldl Lift.addLabel state) := by
    induction targets with
    | nil => exact fun _ h => h
    | cons target targets ih => exact fun state h => ih _ (h.addLabel target)
  exact hfold _ ⟨by simp, rfl, rfl⟩

variable {W : Type} {M : Meaning W} {program : Program} {routines : Routines}
  {settings : LiftSettings} {tree : Tree}

/-- The first move begins the entry. -/
theorem follows_start
    (hrun : (start (labels program).1).run (script program routines) settings = some (.ok tree)) :
    ∃ m act walk, Machine.after (script program routines) settings 1
        (start (labels program).1) = some m ∧
      m.run (script program routines) settings = some (.ok tree) ∧
      Machine.Follows M (script program routines) (labels program).1.nextId m act walk {} {} ∧
      walk.offset = Program.entry := by
  have hlabels := labelled_labels program
  generalize hscript : script program routines = script at hrun ⊢
  have hlookup : script.labels = (labels program).2 := by rw [← hscript]; rfl
  generalize labels program = state at hlabels hlookup hrun ⊢
  let job : Job := ⟨state.1.nextId, Program.entry, Context.entering state.1.nextSubId⟩
  let act : Activation := { Activation.start state.1.nextSubId Program.entry state.1.nextId
    job.context with work := [], done := [job.key], walk := some job.walk }
  have htick : (start state.1).tick script settings =
      .ok (some { start state.1 with active := [act] }) := rfl
  obtain ⟨m, htick', hrest⟩ := Machine.run_tick hrun (by simp [start, Machine.begin])
  cases htick.symm.trans htick'
  refine ⟨_, act, job.walk, Machine.after_succ rfl htick, hrest, ?_, rfl⟩
  have hgrow : state.1.Grows (start state.1).tree :=
    (Tree.Grows.alloc state.1 _ _).trans (Tree.Grows.of_exprs_eq rfl)
  have hnode : (start state.1).tree.node state.1.nextId = .block [] := Tree.node_alloc_nextId
  exact {
    active := rfl
    walking := rfl
    work := rfl
    block := rfl
    mirrors := {
      kind := by rw [Tree.kind, hnode, Node.kind]
      inTree := by simp [start, Machine.begin, Tree.size, Tree.alloc, Tree.addSub]
      runs := by
        intro later _
        rw [Tree.statements, hnode]
        rfl
      own := by simp [Job.walk, job, Context.entering]
      distinct := by simp [Job.walk, job, Context.entering, Context.slots]
      holds := by simp [Job.walk, job, Context.entering, Context.slots]
      calls := rfl
      idle := rfl }
    labels := by
      intro target label hlabel
      rw [hlookup] at hlabel
      exact hgrow.node_of_eq (hlabels.node target label hlabel) (by simp [Node.kind])
        (by simp [Node.kind])
    single := by
      constructor
      · simp [start, Machine.begin, Tree.addSub, Tree.alloc, Tree.nextSubId, hlabels.order,
          hlabels.subroutines]
      · simp [start, Machine.begin, Tree.addSub, Tree.alloc, hlabels.subroutines] }

theorem naming_single {root : NodeId} (h : tree.IsSingle root) :
    (nameSubroutines (collectGlobals tree)).exprs = tree.exprs ∧
      (nameSubroutines (collectGlobals tree)).IsSingle root := by
  have hname : nameSubroutines (collectGlobals tree) = collectGlobals tree := by
    have horder : (collectGlobals tree).order = [⟨0⟩] := h.order
    unfold nameSubroutines
    rw [horder]
    cases (collectGlobals tree).globals <;> rfl
  rw [hname]
  exact ⟨rfl, h.order, h.roots⟩

/-- Instruction by instruction, the machine walks through the entry. -/
theorem follows_after {name : String} {done more : List Instruction} {w : Words W}
    (hprogram : program = Program.ofList name (done ++ more)) (hstrict : settings.strict = true)
    (hsize : program.length ≤ 2 ^ 32) (hstraight : ∀ ins ∈ done, ins.isStraight routines)
    (hw : Words.run M routines (Program.place Program.entry done) {} = some w)
    (hrun : (start (labels program).1).run (script program routines) settings = some (.ok tree)) :
    ∃ m act walk s, Machine.after (script program routines) settings (done.length + 1)
        (start (labels program).1) = some m ∧
      m.run (script program routines) settings = some (.ok tree) ∧
      Machine.Follows M (script program routines) (labels program).1.nextId m act walk s w ∧
      walk.offset = Program.entry + Program.codeLength done := by
  induction done using List.reverseRecOn generalizing more w with
  | nil =>
    cases hw
    obtain ⟨m, act, walk, hafter, hrest, hfollows, hoffset⟩ := follows_start hrun
    exact ⟨m, act, walk, {}, hafter, hrest, hfollows, hoffset⟩
  | append_singleton done ins ih =>
    rw [List.append_assoc, List.singleton_append] at hprogram
    rw [Program.place_append, Words.run_append] at hw
    obtain ⟨mid, hmid, hlast⟩ := Option.bind_eq_some_iff.1 hw
    obtain ⟨m, act, walk, s, hafter, hrest, hfollows, hoffset⟩ := ih hprogram
      (fun i hi => hstraight i (List.mem_append_left _ hi)) hmid
    have hstep : Words.step M routines
        { ins with offset := Program.entry + Program.codeLength done } mid = some w := by
      simpa [Program.place, Words.run] using hlast
    have hat : program.at? walk.offset =
        some { ins with offset := Program.entry + Program.codeLength done } := by
      rw [hoffset, hprogram]
      exact Program.at?_ofList
    have hlength : program.length = Program.entry + Program.codeLength (done ++ ins :: more) := by
      rw [hprogram, Program.length_ofList]
    rw [Program.codeLength_append, Program.codeLength_cons] at hlength
    have hpos := ins.length_pos
    have hsmall : mid.stack.length < 2 ^ 62 := by
      have hlen := Words.length_run hmid
      have hcode : done.length ≤ Program.codeLength done := Program.length_le_codeLength
      rw [Program.length_place] at hlen
      simp only [List.length_nil] at hlen
      omega
    obtain ⟨m', act', walk', s', htick, hrest', hfollows', hoffset'⟩ := hfollows.step hstrict hat
      (by rw [hoffset]; change _ < program.length; omega)
      (hstraight ins (by simp)) hsmall hstep hrest
    refine ⟨m', act', walk', s', ?_, hrest', hfollows', ?_⟩
    · rw [List.length_append]
      exact Machine.after_succ hafter htick
    · rw [hoffset', Program.codeLength_append, ← Nat.add_assoc]
      rfl

/-- After the instructions `done` of the entry the statements lifted so far leave in the slots of
the simulated stack what the machine leaves on its stack, and they make the same engine calls. -/
def AgreesAfter (M : Meaning W) (program : Program) (routines : Routines)
    (settings : LiftSettings) (tree : Tree) (root : NodeId) (done : List Instruction) : Prop :=
  ∃ m act walk w s,
    Machine.after (script program routines) settings (done.length + 1)
      (start (labels program).1) = some m ∧
    m.active = [act] ∧ act.walk = some walk ∧ walk.block = root ∧
    walk.offset = Program.entry + Program.codeLength done ∧
    m.tree.statements root <+: tree.statements root ∧
    Words.run M routines (Program.place Program.entry done) {} = some w ∧
    M.executeAll routines tree (m.tree.statements root) {} = some s ∧
    walk.context.slots.map s.content = w.stack.map (fun a => some (.word a)) ∧
    s.calls = w.calls

end Lift

/-- Lifting a straight-line entry simulates the stack machine: after every instruction each slot of
the simulated stack holds the machine's word, and the same engine calls were made with the same
arguments. -/
theorem lift_simulates_words {W : Type} (M : Meaning W) {name : String} {routines : Routines}
    {settings : LiftSettings} {body rest : List Instruction} {ret : Instruction} {tree : Tree}
    {w : Words W} (hstraight : ∀ ins ∈ body, ins.isStraight routines) (hret : ret.opcode = .retn)
    (hsize : (Program.ofList name (body ++ ret :: rest)).length ≤ 2 ^ 32)
    (hstrict : settings.strict = true)
    (hlift : lift (Program.ofList name (body ++ ret :: rest)) routines settings = some (.ok tree))
    (hw : Words.run M routines (Program.place Program.entry body) {} = some w) :
    ∃ root, tree.output.map (·.root) = [root] ∧
      (∀ done, done <+: body → Lift.AgreesAfter M (Program.ofList name (body ++ ret :: rest))
        routines settings tree root done) ∧
      ∃ s, M.executeAll routines tree (tree.statements root) {} = some s ∧ s.calls = w.calls := by
  generalize hprogram : Program.ofList name (body ++ ret :: rest) = program at hsize hlift ⊢
  obtain ⟨lifted, hrun, rfl⟩ := lift_eq_ok hlift
  -- The return ends the run, so the whole block is known and nothing else was lifted.
  obtain ⟨m, act, walk, s, -, hrest, hfollows, hoffset⟩ :=
    Lift.follows_after hprogram.symm hstrict hsize hstraight hw hrun
  have hat : program.at? walk.offset =
      some { ret with offset := Program.entry + Program.codeLength body } := by
    rw [hoffset, ← hprogram]
    exact Program.at?_ofList
  have hlt : walk.offset < program.length := by
    have hpos := ret.length_pos
    rw [hoffset, ← hprogram, Program.length_ofList, Program.codeLength_append,
      Program.codeLength_cons]
    omega
  obtain ⟨hruns, hsingle⟩ := hfollows.ret hstrict hat hlt
    (by change ret.opcode.operation = _; rw [hret]; rfl) hrest
  obtain ⟨hexprs, hnamed⟩ := Lift.naming_single hsingle
  have hgrow := Tree.Grows.of_exprs_eq hexprs
  refine ⟨(Lift.labels program).1.nextId, hnamed.output, fun done hdone => ?_, s, ?_, ?_⟩
  · obtain ⟨more, rfl⟩ := hdone
    rw [Program.place_append, Words.run_append] at hw
    obtain ⟨w', hw', -⟩ := Option.bind_eq_some_iff.1 hw
    have hsplit : program = Program.ofList name (done ++ (more ++ ret :: rest)) := by
      rw [← hprogram, List.append_assoc]
    obtain ⟨m', act', walk', s', hafter, hrest', hfollows', hoffset'⟩ :=
      Lift.follows_after hsplit hstrict hsize
        (fun ins hins => hstraight ins (List.mem_append_left _ hins)) hw' hrun
    have hgrow' := (Machine.run_grows hrest').trans hgrow
    refine ⟨m', act', walk', w', s', hafter, hfollows'.active, hfollows'.walking, hfollows'.block,
      hoffset', hgrow'.statements _ hfollows'.mirrors.inTree, hw',
      hfollows'.mirrors.runs _ hgrow', hfollows'.mirrors.contents, hfollows'.mirrors.calls⟩
  · rw [Tree.statements_of_exprs_eq hexprs]
    exact hruns _ hgrow
  · exact hfollows.mirrors.calls

/-- Words as integers; a routine answers with the number of calls before. -/
def Meaning.integers : Meaning Int where
  reserved offset := offset
  literal
    | .int value => value.toInt
    | .float bits => bits.toNat
    | .string text => text.length
    | .object id => id.toNat
  unary
    | .negate, a => -a
    | .increment, a => a + 1
    | .decrement, a => a - 1
    | _, a => a
  binary
    | .add, a, b => a + b
    | .subtract, a, b => a - b
    | _, a, b => a * b
  vectors _ a b := (a.1 + b.1, a.2.1 + b.2.1, a.2.2 + b.2.2)
  floatVector _ a b := (a * b.1, a * b.2.1, a * b.2.2)
  vectorFloat _ a b := (a.1 * b, a.2.1 * b, a.2.2 * b)
  answer past _ := past.length
  vectorAnswer past _ := (past.length, past.length, past.length)

/-- A word is assigned, a vector is scaled and passed on, a word below is stepped, and a destruction
keeps the answer. -/
def vectorScript : List Instruction := [
  { opcode := .rsaddi },
  { opcode := .consti, value := some (.int 5) },
  { opcode := .cpdownsp, stack := -8, size := 4 },
  { opcode := .movsp, stack := -4 },
  { opcode := .constf, value := some (.float 1) },
  { opcode := .constf, value := some (.float 2) },
  { opcode := .constf, value := some (.float 3) },
  { opcode := .constf, value := some (.float 2) },
  { opcode := .mulvf },
  { opcode := .cptopsp, stack := -16, size := 4 },
  { opcode := .incisp, stack := -20 },
  { opcode := .action, routine := 7, arity := 2 },
  { opcode := .destruct, size := 8, stack := 4, keep := 4 }
]

def vectorRoutines : Routines :=
  { table := [(7, ⟨"PlaceAt", .int, [⟨.int, false⟩, ⟨.vector, false⟩]⟩)] }

theorem lift_vectorScript_simulates : ∃ tree,
    lift (Program.ofList "" (vectorScript ++ [{ opcode := .retn }])) vectorRoutines .strictly =
      some (.ok tree) ∧ ∃ root, tree.output.map (·.root) = [root] ∧
      (∀ done, done <+: vectorScript → Lift.AgreesAfter Meaning.integers
        (Program.ofList "" (vectorScript ++ [{ opcode := .retn }])) vectorRoutines .strictly tree
        root done) ∧
      ∃ s, Meaning.integers.executeAll vectorRoutines tree (tree.statements root) {} = some s ∧
        s.calls = [⟨7, [.word 5, .vector (2, 4, 6)]⟩] := by
  obtain ⟨tree, hlift, -⟩ := exists_of_lift (Program.ofList "" (vectorScript ++ [{ opcode := .retn }]))
    vectorRoutines .strictly (fun _ => true) (by decide +kernel)
  exact ⟨tree, hlift, lift_simulates_words Meaning.integers (w := ⟨[0], _⟩) (by decide) rfl
    (by decide) rfl hlift rfl⟩

end ScriptLift
