import ScriptLift.Proofs.Lift.Updates
import ScriptLift.Proofs.Tree.Growth
import ScriptLift.Lift

namespace ScriptLift

namespace Machine

/-- What the machine may do in one move. -/
inductive Move (script : Script) (settings : LiftSettings) (m : Machine) : Machine → Prop
  | finish {act callers} : m.active = act :: callers → act.walk = none → act.work = [] →
      Move script settings m (m.finish act callers)
  | skip {act callers job work} : m.active = act :: callers → act.walk = none →
      act.work = job :: work → job.key ∈ act.done →
      Move script settings m { m with active := { act with work } :: callers }
  | start {act callers job work} : m.active = act :: callers → act.walk = none →
      act.work = job :: work → job.key ∉ act.done →
      Move script settings m { m with
        active := { act with work, done := job.key :: act.done, walk := some job.walk } :: callers }
  /-- The walk has left the program at its end. -/
  | leave {act callers walk} : m.active = act :: callers → act.walk = some walk →
      script.program.length ≤ walk.offset →
      Move script settings m { m with active := { act with walk := none } :: callers }
  /-- No instruction starts where the walk has come to. -/
  | lost {act callers walk} : m.active = act :: callers → act.walk = some walk →
      script.program.at? walk.offset = none → settings.strict = false →
      Move script settings m { m with
        tree := { m.tree with
          diagnostics := m.tree.diagnostics.error act.entry walk.start
            (Error.invalidOffset walk.offset).message }
        active := { act with walk := none } :: callers }
  | next {act callers walk ins offset ws} : m.active = act :: callers → act.walk = some walk →
      script.program.at? walk.offset = some ins →
      Site.visit ⟨ins, act.entry, walk.block, walk.start⟩ script m.callees
        ⟨m.tree, walk.context, act.outer, act.blocks, none⟩ = .ok (.next offset) ws →
      Move script settings m { m with
        tree := ws.tree
        active := { commit { act with last := max act.last walk.offset } ws with
          walk := some { walk with offset, context := ws.context } } :: callers }
  | stop {act callers walk ins ws} : m.active = act :: callers → act.walk = some walk →
      script.program.at? walk.offset = some ins →
      Site.visit ⟨ins, act.entry, walk.block, walk.start⟩ script m.callees
        ⟨m.tree, walk.context, act.outer, act.blocks, none⟩ = .ok .stop ws →
      Move script settings m { m with
        tree := ws.tree
        active := { commit { act with last := max act.last walk.offset } ws with
          walk := none } :: callers }
  | enter {act callers walk ins target ws} : m.active = act :: callers → act.walk = some walk →
      script.program.at? walk.offset = some ins →
      Site.visit ⟨ins, act.entry, walk.block, walk.start⟩ script m.callees
        ⟨m.tree, walk.context, act.outer, act.blocks, none⟩ = .ok (.enter target) ws →
      Move script settings m
        (begin { m with active := { act with last := max act.last walk.offset } :: callers } ""
          target walk.context.enter)
  | fault {act callers walk ins cause ws} : m.active = act :: callers → act.walk = some walk →
      script.program.at? walk.offset = some ins →
      Site.visit ⟨ins, act.entry, walk.block, walk.start⟩ script m.callees
        ⟨m.tree, walk.context, act.outer, act.blocks, none⟩ = .error cause ws →
      settings.strict = false →
      Move script settings m { m with
        tree := { ws.tree with
          diagnostics := ws.tree.diagnostics.error act.entry walk.start cause.message }
        active := { commit { act with last := max act.last walk.offset } ws with
          walk := none } :: callers }

variable {script : Script} {settings : LiftSettings} {m m' : Machine}

theorem first_mem {act : Activation} {callers : List Activation} (h : m.active = act :: callers) :
    act ∈ m.active := by
  rw [h]
  exact List.mem_cons_self

theorem caller_mem {act other : Activation} {callers : List Activation}
    (h : m.active = act :: callers) (hother : other ∈ callers) : other ∈ m.active := by
  rw [h]
  exact List.mem_cons_of_mem _ hother

theorem mem_work_commit {act : Activation} {ws : Workspace} {job : Job} :
    job ∈ (commit act ws).work ↔ ws.spawned = some job ∨ job ∈ act.work := by
  simp [commit]

theorem abandon_of_isFinal {e : Error} (h : e.isFinal) (m : Machine) (active : List Activation) :
    abandon settings m active e = .error e := by
  induction active with
  | nil => rfl
  | cons act callers ih => rw [abandon, if_pos h, ih]

/-- What becomes of an error: it was final, or it ends everything as the error of a block, or the
block is reported. -/
theorem abandon_cases (settings : LiftSettings) (m : Machine) (act : Activation)
    (callers : List Activation) (e : Error) :
    (e.isFinal ∧ abandon settings m (act :: callers) e = .error e) ∨
      (e.isFinal = false ∧ settings.strict ∧ abandon settings m (act :: callers) e =
        .error (.block act.entry act.blockStart e)) ∨
      (e.isFinal = false ∧ settings.strict = false ∧ abandon settings m (act :: callers) e =
        .ok { m with
          tree := { m.tree with
            diagnostics := m.tree.diagnostics.error act.entry act.blockStart e.message }
          active := { act with walk := none } :: callers }) := by
  cases hfinal : e.isFinal
  · cases hstrict : settings.strict
    · exact .inr (.inr ⟨rfl, rfl, by simp [abandon, hfinal, hstrict]⟩)
    · refine .inr (.inl ⟨rfl, rfl, ?_⟩)
      rw [abandon, if_neg (by simp [hfinal]), if_pos hstrict]
      exact abandon_of_isFinal rfl m callers
  · exact .inl ⟨rfl, abandon_of_isFinal hfinal m _⟩

theorem abandon_eq_ok {act : Activation} {callers : List Activation} {walk : Walk} {e : Error}
    (h : abandon settings m (act :: callers) e = .ok m') (hwalk : act.walk = some walk) :
    settings.strict = false ∧ m' = { m with
      tree := { m.tree with
        diagnostics := m.tree.diagnostics.error act.entry walk.start e.message }
      active := { act with walk := none } :: callers } := by
  have hstart : act.blockStart = walk.start := by rw [Activation.blockStart, hwalk]
  rcases abandon_cases settings m act callers e with
    ⟨-, herror⟩ | ⟨-, -, herror⟩ | ⟨-, hstrict, hok⟩
  · cases herror.symm.trans h
  · cases herror.symm.trans h
  · cases hok.symm.trans h
    rw [hstart]
    exact ⟨hstrict, rfl⟩

theorem move_of_advance {act : Activation} {callers : List Activation} {walk : Walk}
    {ins : Instruction} (hm : m.active = act :: callers) (hw : act.walk = some walk)
    (hat : script.program.at? walk.offset = some ins)
    (h : advance script settings m act callers walk ins = .ok m') :
    Move script settings m m' := by
  unfold advance at h
  simp only at h
  split at h
  · next hrun =>
    cases h
    exact .next hm hw hat hrun
  · next hrun =>
    cases h
    exact .stop hm hw hat hrun
  · next hrun =>
    split at h
    · rw [abandon_of_isFinal rfl] at h
      cases h
    · cases h
      exact .enter hm hw hat hrun
  · next hrun =>
    obtain ⟨hs, rfl⟩ := abandon_eq_ok h hw
    exact .fault hm hw hat hrun hs

theorem eq_ok_of_map {x : Except Error Machine} (h : some <$> x = .ok (some m)) : x = .ok m := by
  cases x with
  | error e => cases h
  | ok m =>
    cases h
    rfl

theorem map_some_ne_none {x : Except Error Machine} : some <$> x ≠ .ok none := by
  cases x <;> simp [Functor.map, Except.map]

theorem move_of_tick (h : m.tick script settings = .ok (some m')) : Move script settings m m' := by
  unfold tick at h
  split at h
  · cases h
  · next act callers hm =>
    split at h
    · next hwalk hwork =>
      cases h
      exact .finish hm hwalk hwork
    · next job work hwalk hwork =>
      by_cases hdone : job.key ∈ act.done
      · simp only [hdone, if_true, Except.ok.injEq, Option.some.injEq] at h
        subst h
        exact .skip hm hwalk hwork hdone
      · simp only [hdone, if_false, Except.ok.injEq, Option.some.injEq] at h
        subst h
        exact .start hm hwalk hwork hdone
    · next walk hwalk =>
      split at h
      · split at h
        · next hat =>
          have hrun := eq_ok_of_map h
          rw [hm] at hrun
          obtain ⟨hs, rfl⟩ := abandon_eq_ok hrun hwalk
          exact .lost hm hwalk hat hs
        · next ins hat => exact move_of_advance hm hwalk hat (eq_ok_of_map h)
      · next hle =>
        cases h
        exact .leave hm hwalk (Nat.le_of_not_lt hle)

/-- The innermost walk has not left the program. -/
def Within (script : Script) (m : Machine) : Prop :=
  ∀ act callers walk, m.active = act :: callers → act.walk = some walk →
    walk.offset < script.program.length

theorem tick_cases (h : m.tick script settings = .ok (some m')) :
    (m.Within script ∧ Move script settings m m') ∨
      ∃ act callers walk, m.active = act :: callers ∧ act.walk = some walk ∧
        script.program.length ≤ walk.offset ∧
        m' = { m with active := { act with walk := none } :: callers } := by
  by_cases hwithin : m.Within script
  · exact .inl ⟨hwithin, move_of_tick h⟩
  · simp only [Within, Classical.not_forall, Nat.not_lt] at hwithin
    obtain ⟨act, callers, walk, hm, hwalk, hend⟩ := hwithin
    simp only [tick, hm, hwalk, if_neg (Nat.not_lt.2 hend)] at h
    cases h
    exact .inr ⟨act, callers, walk, hm, hwalk, hend, rfl⟩

theorem active_of_rest (h : m.tick script settings = .ok none) : m.active = [] := by
  unfold tick at h
  split at h
  · assumption
  · split at h
    · cases h
    · cases h
    · split at h
      · split at h
        · exact absurd h map_some_ne_none
        · exact absurd h map_some_ne_none
      · cases h

/-- The machine after this many moves, if it gets so far. -/
def after (script : Script) (settings : LiftSettings) : Nat → Machine → Option Machine
  | 0, m => some m
  | count + 1, m =>
    match after script settings count m with
    | some mid =>
      match mid.tick script settings with
      | .ok next => next
      | .error _ => none
    | none => none

theorem after_succ_iff {count : Nat} {start : Machine} :
    after script settings (count + 1) start = some m' ↔
      ∃ m, after script settings count start = some m ∧ m.tick script settings = .ok (some m') := by
  rw [after]
  cases hafter : after script settings count start with
  | none => simp
  | some m => cases htick : m.tick script settings <;> simp [htick]

theorem after_succ {count : Nat} {start : Machine} (h : after script settings count start = some m)
    (htick : m.tick script settings = .ok (some m')) :
    after script settings (count + 1) start = some m' :=
  after_succ_iff.2 ⟨m, h, htick⟩

theorem after_of_tick {count : Nat} {last : Machine}
    (htick : m.tick script settings = .ok (some m'))
    (h : after script settings count m' = some last) :
    after script settings (count + 1) m = some last := by
  induction count generalizing last with
  | zero =>
    cases h
    exact after_succ (m := m) rfl htick
  | succ count ih =>
    obtain ⟨mid, hmid, hlast⟩ := after_succ_iff.1 h
    exact after_succ (ih hmid) hlast

/-- The machine has come to a result. -/
def Ends (script : Script) (settings : LiftSettings) (m : Machine) (result : Except Error Tree) :
    Prop :=
  (m.active = [] ∧ result = .ok m.tree) ∨
    ∃ e, m.tick script settings = .error e ∧ result = .error e

theorem run_eq : m.run script settings = match m.tick script settings with
    | .error e => some (.error e)
    | .ok none => some (.ok m.tree)
    | .ok (some next) => next.run script settings := by
  rw [run, loop_eq]
  cases m.tick script settings with
  | error e => rfl
  | ok next => cases next <;> rfl

theorem run_of_ends {result : Except Error Tree} (h : m.Ends script settings result) :
    m.run script settings = some result := by
  rw [run_eq]
  rcases h with ⟨hrest, rfl⟩ | ⟨e, htick, rfl⟩
  · simp [tick, hrest]
  · rw [htick]

theorem run_of_after {count : Nat} (h : after script settings count m = some m') :
    m.run script settings = m'.run script settings := by
  induction count generalizing m' with
  | zero =>
    cases h
    rfl
  | succ count ih =>
    obtain ⟨mid, hmid, htick⟩ := after_succ_iff.1 h
    rw [ih hmid, run_eq, htick]

/-- A run has a result exactly if it comes to it after some number of moves. -/
theorem run_eq_some_iff {result : Except Error Tree} : m.run script settings = some result ↔
    ∃ count last, after script settings count m = some last ∧ last.Ends script settings result := by
  constructor
  · intro h
    induction loop_eq_some_iff.1 h with
    | @stop m result hstop =>
      split at hstop <;> cases hstop
      · next e htick => exact ⟨0, m, rfl, .inr ⟨e, htick, rfl⟩⟩
      · next htick => exact ⟨0, m, rfl, .inl ⟨active_of_rest htick, rfl⟩⟩
    | next hnext hrest ih =>
      split at hnext <;> cases hnext
      next htick =>
        obtain ⟨count, last, hafter, hends⟩ := ih (loop_eq_some_iff.2 hrest)
        exact ⟨count + 1, last, after_of_tick htick hafter, hends⟩
  · rintro ⟨count, last, hafter, hends⟩
    rw [run_of_after hafter, run_of_ends hends]

theorem run_ticks {P : Machine → Prop} {tree : Tree}
    (hstep : ∀ {m m'}, P m → m.tick script settings = .ok (some m') → P m') (hm : P m)
    (h : m.run script settings = some (.ok tree)) :
    ∃ last, P last ∧ last.active = [] ∧ last.tree = tree := by
  obtain ⟨count, last, hafter, hends⟩ := run_eq_some_iff.1 h
  have hlast : P last := by
    clear hends
    induction count generalizing last with
    | zero =>
      cases hafter
      exact hm
    | succ count ih =>
      obtain ⟨mid, hmid, htick⟩ := after_succ_iff.1 hafter
      exact hstep (ih mid hmid) htick
  rcases hends with ⟨hrest, heq⟩ | ⟨e, -, heq⟩
  · cases heq
    exact ⟨last, hlast, hrest, rfl⟩
  · cases heq

theorem run_induction {P : Machine → Prop} {tree : Tree}
    (hstep : ∀ {m m'}, P m → Move script settings m m' → P m') (hm : P m)
    (h : m.run script settings = some (.ok tree)) :
    ∃ last, P last ∧ last.active = [] ∧ last.tree = tree :=
  run_ticks (fun hm htick => hstep hm (move_of_tick htick)) hm h

/-- The result of a run that ends within this many moves. -/
def runWithin (script : Script) (settings : LiftSettings) :
    Nat → Machine → Option (Except Error Tree)
  | 0, _ => none
  | count + 1, m =>
    match m.tick script settings with
    | .error e => some (.error e)
    | .ok none => some (.ok m.tree)
    | .ok (some next) => runWithin script settings count next

theorem run_of_runWithin {count : Nat} {result : Except Error Tree}
    (h : runWithin script settings count m = some result) : m.run script settings = some result := by
  induction count generalizing m with
  | zero => cases h
  | succ count ih =>
    rw [run_eq]
    rw [runWithin] at h
    cases htick : m.tick script settings with
    | error e => simpa only [htick] using h
    | ok next =>
      simp only [htick] at h ⊢
      cases next with
      | none => exact h
      | some next => exact ih h

end Machine

theorem Site.closed_grows (site : Site) (script : Script) :
    site.Closed script fun a b => a.tree.Grows b.tree where
  refl ws := Tree.Grows.refl ws.tree
  trans h g := h.trans g
  alloc ws node _ := Tree.Grows.alloc ws.tree _ node
  record ws node _ := Tree.Grows.record ws.tree _ node _ _
  label ws _ _ _ := Tree.Grows.pushStatement ws.tree _ _
  jump ws _ := (Tree.Grows.alloc ws.tree _ _).trans (Tree.Grows.record _ _ _ _ _)
  schedule ws offset _ := Tree.Grows.alloc ws.tree offset _
  slot ws id f := Tree.Grows.modifySlot ws.tree id f
  outer ws _ := Tree.Grows.refl ws.tree
  context ws _ _ := Tree.Grows.refl ws.tree
  warn _ _ := Tree.Grows.of_exprs_eq rfl

theorem Site.visit_grows (site : Site) (script : Script) (callees : List (Nat × SubId)) :
    Lift.Keeps (fun a b => a.tree.Grows b.tree) (site.visit script callees) :=
  (site.closed_grows script).keeps_visit callees
    (fun _ callee _ => (site.closed_grows script).keeps_call callee fun ws _ =>
      Tree.Grows.record ws.tree _ _ _ _)
    fun _ ws => Tree.Grows.record ws.tree _ _ _ _

theorem Site.closed_subroutines (site : Site) (script : Script) :
    site.Closed script fun a b =>
      b.tree.order = a.tree.order ∧ b.tree.subroutines = a.tree.subroutines where
  refl _ := ⟨rfl, rfl⟩
  trans h g := ⟨g.1.trans h.1, g.2.trans h.2⟩
  alloc _ _ _ := ⟨rfl, rfl⟩
  record _ _ _ := ⟨rfl, rfl⟩
  label _ _ _ _ := ⟨rfl, rfl⟩
  jump _ _ := ⟨rfl, rfl⟩
  schedule _ _ _ := ⟨rfl, rfl⟩
  slot _ _ _ := ⟨rfl, rfl⟩
  outer _ _ := ⟨rfl, rfl⟩
  context _ _ _ := ⟨rfl, rfl⟩
  warn _ _ := ⟨rfl, rfl⟩

theorem Site.visit_subroutines (site : Site) (script : Script) (callees : List (Nat × SubId)) :
    Lift.Keeps (fun a b => b.tree.order = a.tree.order ∧ b.tree.subroutines = a.tree.subroutines)
      (site.visit script callees) :=
  (site.closed_subroutines script).keeps_visit callees
    (fun _ callee _ => (site.closed_subroutines script).keeps_call callee fun _ _ => ⟨rfl, rfl⟩)
    fun _ _ => ⟨rfl, rfl⟩

/-- What was added are warnings about the subroutine that starts at `entry`. -/
def Diagnostics.Warns (entry : Nat) (old new : Diagnostics) : Prop :=
  ∃ more, new = old ++ more ∧ ∀ d ∈ more, d.severity = .warning ∧ d.subroutine = entry

namespace Diagnostics.Warns

variable {entry : Nat} {old mid new : Diagnostics}

theorem refl (entry : Nat) (ds : Diagnostics) : Warns entry ds ds := ⟨[], by simp, by simp⟩

theorem trans (h : Warns entry old mid) (g : Warns entry mid new) : Warns entry old new := by
  obtain ⟨first, rfl, hfirst⟩ := h
  obtain ⟨second, rfl, hsecond⟩ := g
  refine ⟨first ++ second, List.append_assoc .., fun d hd => ?_⟩
  rcases List.mem_append.1 hd with hd | hd
  · exact hfirst d hd
  · exact hsecond d hd

end Diagnostics.Warns

theorem Site.closed_warns (site : Site) (script : Script) :
    site.Closed script fun a b => a.tree.diagnostics.Warns site.entry b.tree.diagnostics where
  refl _ := .refl _ _
  trans h g := h.trans g
  alloc _ _ _ := .refl _ _
  record _ _ _ := .refl _ _
  label _ _ _ _ := .refl _ _
  jump _ _ := .refl _ _
  schedule _ _ _ := .refl _ _
  slot _ _ _ := .refl _ _
  outer _ _ := .refl _ _
  context _ _ _ := .refl _ _
  warn ws text := ⟨[⟨.warning, site.entry, site.start, text⟩], rfl, by simp⟩

theorem Site.visit_warns (site : Site) (script : Script) (callees : List (Nat × SubId)) :
    Lift.Keeps (fun a b => a.tree.diagnostics.Warns site.entry b.tree.diagnostics)
      (site.visit script callees) :=
  (site.closed_warns script).keeps_visit callees
    (fun _ callee _ => (site.closed_warns script).keeps_call callee fun _ _ => .refl _ _)
    fun _ _ => .refl _ _

namespace Machine

variable {script : Script} {settings : LiftSettings} {m m' : Machine}

theorem Move.grows (h : Move script settings m m') : m.tree.Grows m'.tree := by
  cases h with
  | finish => exact Tree.Grows.of_exprs_eq rfl
  | skip | start | leave => exact Tree.Grows.refl _
  | lost => exact Tree.Grows.of_exprs_eq rfl
  | next _ _ _ hrun | stop _ _ _ hrun => exact (Site.visit_grows _ _ _).ok hrun
  | enter => exact (Tree.Grows.alloc m.tree _ _).trans (Tree.Grows.of_exprs_eq rfl)
  | fault _ _ _ hrun =>
    exact ((Site.visit_grows _ _ _).error hrun).trans (Tree.Grows.of_exprs_eq rfl)

end Machine

theorem Lift.labels_induction {P : Tree × List (Nat × NodeId) → Prop} (hnil : P ({}, []))
    (hadd : ∀ tree known target, P (tree, known) →
      P (tree.alloc target .label, (target, tree.nextId) :: known)) (program : Program) :
    P (Lift.labels program) := by
  have hfold : ∀ (targets : List Nat) state, P state → P (targets.foldl Lift.addLabel state) := by
    intro targets
    induction targets with
    | nil => exact fun _ h => h
    | cons target targets ih =>
      intro state h
      refine ih (Lift.addLabel state target) ?_
      unfold Lift.addLabel
      split
      · exact h
      · exact hadd state.1 state.2 target h
  exact hfold _ _ hnil

theorem Lift.needsLabel_eq_true {ins : Instruction} : Lift.needsLabel ins = true ↔
    (ins.opcode = .jmp ∨ ins.opcode = .jz ∨ ins.opcode = .jnz) ∧ ins.jump ≤ 0 := by
  unfold Lift.needsLabel
  split <;> simp_all

theorem Lift.needsLabel_of_jump {ins : Instruction} (hop : ins.opcode.operation = .jump)
    (hjump : ¬0 < ins.jump) : Lift.needsLabel ins := by
  refine Lift.needsLabel_eq_true.2 ⟨.inl ?_, Int32.not_lt.1 hjump⟩
  cases hcode : ins.opcode <;> simp_all [Opcode.operation]

theorem Lift.needsLabel_of_branch {ins : Instruction}
    (hop : ins.opcode.operation = .branch) (hjump : ¬0 < ins.jump) :
    Lift.needsLabel ins := by
  refine Lift.needsLabel_eq_true.2 ⟨.inr ?_, Int32.not_lt.1 hjump⟩
  cases hcode : ins.opcode <;> simp_all [Opcode.operation]

theorem Lift.diagnostics_labels (program : Program) : (Lift.labels program).1.diagnostics = [] :=
  Lift.labels_induction (P := fun state => state.1.diagnostics = []) rfl (fun _ _ _ h => h) program

def Lift.script (program : Program) (routines : Routines) : Script :=
  { program, routines, labels := (Lift.labels program).2 }

def Lift.complete (tree : Tree) : Tree := Lift.nameSubroutines (Lift.collectGlobals tree)

theorem Lift.diagnostics_complete (tree : Tree) :
    (Lift.complete tree).diagnostics = tree.diagnostics := by
  unfold Lift.complete Lift.nameSubroutines
  split <;> rfl

theorem Lift.order_complete (tree : Tree) : (Lift.complete tree).order = tree.order := by
  unfold Lift.complete Lift.nameSubroutines
  split <;> rfl

theorem Lift.globals_complete (tree : Tree) :
    (Lift.complete tree).globals = (Lift.collectGlobals tree).globals := by
  unfold Lift.complete Lift.nameSubroutines
  split <;> rfl

theorem lift_eq (program : Program) (routines : Routines) (settings : LiftSettings) :
    lift program routines settings =
      ((Lift.start (Lift.labels program).1).run (Lift.script program routines) settings).map
        (Except.map Lift.complete) := rfl

theorem lift_eq_ok {program : Program} {routines : Routines} {settings : LiftSettings}
    {tree : Tree} (h : lift program routines settings = some (.ok tree)) :
    ∃ lifted, (Lift.start (Lift.labels program).1).run (Lift.script program routines) settings =
        some (.ok lifted) ∧ Lift.nameSubroutines (Lift.collectGlobals lifted) = tree := by
  rw [lift_eq, Option.map_eq_some_iff] at h
  obtain ⟨result, hrun, h⟩ := h
  cases result with
  | error e => cases h
  | ok lifted => exact ⟨lifted, hrun, Except.ok.inj h⟩

theorem lift_eq_error {program : Program} {routines : Routines} {settings : LiftSettings}
    {e : Error} : lift program routines settings = some (.error e) ↔
      (Lift.start (Lift.labels program).1).run (Lift.script program routines) settings =
        some (.error e) := by
  rw [lift_eq, Option.map_eq_some_iff]
  constructor
  · rintro ⟨result, hrun, h⟩
    cases result with
    | error _ =>
      cases h
      exact hrun
    | ok _ => cases h
  · exact fun hrun => ⟨.error e, hrun, rfl⟩

/-- The result of lifting if it ends within this many moves; the kernel can run it. -/
def liftWithin (count : Nat) (program : Program) (routines : Routines) (settings : LiftSettings) :
    Option (Except Error Tree) :=
  ((Lift.start (Lift.labels program).1).runWithin (Lift.script program routines) settings count).map
    (Except.map Lift.complete)

theorem lift_of_liftWithin {count : Nat} {program : Program} {routines : Routines}
    {settings : LiftSettings} {result : Except Error Tree}
    (h : liftWithin count program routines settings = some result) :
    lift program routines settings = some result := by
  obtain ⟨lifted, hrun, rfl⟩ := Option.map_eq_some_iff.1 h
  rw [lift_eq, Machine.run_of_runWithin hrun]
  rfl

/-- Whether lifting ends before long, with a tree that is as `p` says. -/
def liftsTo (program : Program) (routines : Routines) (settings : LiftSettings) (p : Tree → Bool) :
    Bool :=
  (liftWithin 256 program routines settings).any fun result => result.toOption.any p

theorem exists_of_lift (program : Program) (routines : Routines) (lifting : LiftSettings)
    (p : Tree → Bool) (h : liftsTo program routines lifting p = true) :
    ∃ tree, lift program routines lifting = some (.ok tree) ∧ p tree := by
  obtain ⟨result, hresult, hp⟩ := (Option.any_eq_true _ _).1 h
  have hlift := lift_of_liftWithin hresult
  cases result with
  | error e => cases hp
  | ok tree => exact ⟨tree, hlift, hp⟩

end ScriptLift
