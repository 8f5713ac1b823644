import ScriptLift.Proofs.Lift.Termination
import ScriptLift.Proofs.Reach

/-! Which subroutine makes words global.

A subroutine executes the whole of its code: whatever its entry leads to, calls left out. So it can
be read off the program whether a subroutine saves the base. The one that is called the initializer
is the second of the output, wherever the base is saved. -/
namespace ScriptLift

/-- Where the block starts that an instruction asks for. -/
def Instruction.asked? (program : Program) (ins : Instruction) : Option Nat :=
  match ins.opcode.operation with
  | .branch => if 0 < ins.jump then some ins.target else none
  | .storeState => ((program.at? ins.next).filter (·.opcode = .jmp)).map (·.next)
  | _ => none

theorem Instruction.asked?_of_request? {program : Program} {ins : Instruction} {ctx ctx' : Context}
    {offset : Nat} (h : ins.request? program ctx = some (offset, ctx')) :
    ins.asked? program = some offset := by
  unfold request? at h
  split at h
  · next hop =>
    split at h
    · split at h
      · next hjump =>
        cases h
        unfold asked?
        rw [hop]
        simp only [hjump, if_true]
      · cases h
    · cases h
  · next hop =>
    obtain ⟨jump, hjump, heq⟩ := Option.map_eq_some_iff.1 h
    cases heq
    unfold asked?
    rw [hop]
    simp only [hjump, Option.map_some]
  · cases h

namespace Site

variable {site : Site} {script : Script} {callees : List (Nat × SubId)} {flow : Flow}
  {ws ws' : Workspace}

theorem pop_of_visit (hop : site.ins.opcode.operation = .branch)
    (h : site.visit script callees ws = .ok flow ws') : ∃ popped, ws.context.pop = .ok popped := by
  obtain ⟨_, placed, hplaced, hrun⟩ := Lift.bind_eq_ok h
  have hcontext : placed.context = ws.context := by
    unfold placeLabel at hplaced
    cases hlabel : script.labels.lookup site.ins.offset <;>
      simp only [hlabel] at hplaced <;> cases hplaced <;> rfl
  simp only [execute, hop] at hrun
  obtain ⟨_, _, hbranch, -⟩ := Lift.bind_eq_ok hrun
  obtain ⟨_, _, hpop, -⟩ := Lift.bind_eq_ok hbranch
  rw [pop_eq, hcontext] at hpop
  cases hresult : ws.context.pop with
  | ok popped => exact ⟨popped, rfl⟩
  | error cause =>
    rw [hresult] at hpop
    cases hpop

/-- An instruction that succeeds has asked for its block. -/
theorem request?_of_visit (h : site.visit script callees ws = .ok flow ws') {offset : Nat}
    (hasked : site.ins.asked? script.program = some offset) :
    ∃ ctx, site.ins.request? script.program ws.context = some (offset, ctx) := by
  unfold Instruction.asked? at hasked
  split at hasked
  · next hop =>
    obtain ⟨popped, hpop⟩ := pop_of_visit hop h
    split at hasked
    · next hjump =>
      cases hasked
      refine ⟨popped.2, ?_⟩
      unfold Instruction.request?
      rw [hop, hpop]
      simp only [hjump, if_true]
    · cases hasked
  · next hop =>
    obtain ⟨jump, hjump, rfl⟩ := Option.map_eq_some_iff.1 hasked
    refine ⟨ws.context, ?_⟩
    unfold Instruction.request?
    rw [hop]
    simp only [hjump, Option.map_some]
  · cases hasked

end Site

namespace Program

variable (program : Program)

/-- Where a subroutine goes on from an offset: behind the instruction, and in the block that the
instruction asks for. -/
def ahead (offset : Nat) : Finset Nat :=
  match program.at? offset with
  | none => ∅
  | some ins =>
    ((ins.onward?.toList ++ (ins.asked? program).toList).filter (· < program.length)).toFinset

/-- The code of a subroutine at `start` comes to `offset`. -/
def Comprises (start offset : Nat) : Prop :=
  start < program.length ∧ Relation.ReflTransGen (fun a b => b ∈ program.ahead a) start offset

/-- The code of a subroutine at `start` saves the base somewhere. -/
def Saves (start : Nat) : Prop :=
  ∃ offset ins, program.Comprises start offset ∧ program.at? offset = some ins ∧
    ins.opcode.operation = .saveBase

variable {program} {start a b : Nat}

theorem mem_ahead : b ∈ program.ahead a ↔ b < program.length ∧ ∃ ins,
    program.at? a = some ins ∧ (ins.onward? = some b ∨ ins.asked? program = some b) := by
  unfold ahead
  split
  · next hnone => simp [hnone]
  · next ins hsome => simp [hsome, and_comm, ← and_or_left]

theorem Comprises.refl (h : start < program.length) : program.Comprises start start := ⟨h, .refl⟩

theorem Comprises.tail (h : program.Comprises start a) (hb : b ∈ program.ahead a) :
    program.Comprises start b :=
  ⟨h.1, h.2.tail hb⟩

theorem saves_iff : program.Saves start ↔ start < program.length ∧
    ∃ offset ∈ (Reach.widen program.ahead)^[program.length] {start},
      (program.at? offset).any fun ins => ins.opcode.operation = .saveBase := by
  have hiff : ∀ offset, start < program.length →
      (offset ∈ (Reach.widen program.ahead)^[program.length] {start} ↔
        Relation.ReflTransGen (fun a b => b ∈ program.ahead a) start offset) := by
    intro offset hstart
    refine Reach.mem_iterate_iff (Finset.mem_range.2 hstart) ?_ (Finset.card_range _).le
    exact fun x _ y hy => Finset.mem_range.2 (mem_ahead.1 hy).1
  constructor
  · rintro ⟨offset, ins, ⟨hstart, hreach⟩, hat, hop⟩
    exact ⟨hstart, offset, (hiff offset hstart).2 hreach, by simp [hat, hop]⟩
  · rintro ⟨hstart, offset, hmem, hany⟩
    obtain ⟨ins, hat, hop⟩ := (Option.any_eq_true _ _).1 hany
    exact ⟨offset, ins, ⟨hstart, (hiff offset hstart).1 hmem⟩, hat, of_decide_eq_true hop⟩

instance : Decidable (program.Saves start) := decidable_of_iff _ saves_iff.symm

end Program

namespace Activation

variable (program : Program) (came : Nat → Prop) (act : Activation)

/-- The subroutine has come to an offset within the program, or is there. -/
def Passes (offset : Nat) : Prop :=
  came offset ∨ program.length ≤ offset ∨ ∃ walk, act.walk = some walk ∧ walk.offset = offset

/-- The subroutine is past an offset, or a block of it waits there. -/
def Awaits (offset : Nat) : Prop :=
  act.Passes program came offset ∨ ∃ job ∈ act.work, job.start = offset

/-- A subroutine in progress stays within its code, and what it has not come to yet waits. -/
structure Surveys : Prop where
  entry : act.Awaits program came act.entry
  blocks : ∀ key ∈ act.blocks.map Prod.fst, act.Awaits program came key.1
  begun : ∀ key ∈ act.done, act.Passes program came key.1
  ahead : ∀ a b, came a → b ∈ program.ahead a → act.Awaits program came b
  walk : ∀ walk, act.walk = some walk → walk.offset < program.length →
    program.Comprises act.entry walk.offset
  work : ∀ job ∈ act.work, job.start < program.length → program.Comprises act.entry job.start

namespace Surveys

variable {program came act} {walk : Walk}

theorem start (program : Program) (sub : SubId) (entry : Nat) (root : NodeId) (context : Context) :
    (Activation.start sub entry root context).Surveys program fun _ => False := by
  have hentry : (Activation.start sub entry root context).Awaits program (fun _ => False) entry :=
    .inr ⟨_, List.mem_singleton_self _, rfl⟩
  refine ⟨hentry, fun key hkey => ?_, by simp [Activation.start], fun _ _ hcame => hcame.elim,
    by simp [Activation.start], fun job hjob hlt => ?_⟩
  · obtain rfl : key = (entry, context.depth) := by simpa [Activation.start, Job.key] using hkey
    exact hentry
  · rw [List.mem_singleton.1 hjob] at hlt ⊢
    exact .refl hlt

theorem skip {job : Job} {work : List Job} (h : act.Surveys program came)
    (hwork : act.work = job :: work) (hdone : job.key ∈ act.done) :
    { act with work }.Surveys program came := by
  have hawaits : ∀ {offset}, act.Awaits program came offset →
      { act with work }.Awaits program came offset := by
    rintro offset (hpast | ⟨other, hother, rfl⟩)
    · exact .inl hpast
    · rw [hwork] at hother
      rcases List.mem_cons.1 hother with rfl | hother
      · exact .inl (h.begun _ hdone)
      · exact .inr ⟨other, hother, rfl⟩
  refine ⟨hawaits h.entry, fun key hkey => hawaits (h.blocks key hkey), h.begun,
    fun a b hcame hb => hawaits (h.ahead a b hcame hb), h.walk, fun other hother => ?_⟩
  exact h.work other (hwork ▸ List.mem_cons_of_mem _ hother)

/-- A block is begun where it waited. -/
theorem take {job : Job} {work : List Job} (h : act.Surveys program came) (hwalk : act.walk = none)
    (hwork : act.work = job :: work) :
    { act with work, done := job.key :: act.done, walk := some job.walk }.Surveys program came := by
  let next := { act with work, done := job.key :: act.done, walk := some job.walk }
  have hjob : next.Passes program came job.start := .inr (.inr ⟨_, rfl, rfl⟩)
  have hpasses : ∀ {offset}, act.Passes program came offset → next.Passes program came offset := by
    rintro offset (hcame | hend | ⟨walk, hsome, -⟩)
    · exact .inl hcame
    · exact .inr (.inl hend)
    · cases hwalk.symm.trans hsome
  have hawaits : ∀ {offset}, act.Awaits program came offset → next.Awaits program came offset := by
    rintro offset (hpast | ⟨other, hother, rfl⟩)
    · exact .inl (hpasses hpast)
    · rw [hwork] at hother
      rcases List.mem_cons.1 hother with rfl | hother
      · exact .inl hjob
      · exact .inr ⟨other, hother, rfl⟩
  refine ⟨hawaits h.entry, fun key hkey => hawaits (h.blocks key hkey), fun key hkey => ?_,
    fun a b hcame hb => hawaits (h.ahead a b hcame hb), fun walk hsome hlt => ?_,
    fun other hother => ?_⟩
  · rcases List.mem_cons.1 hkey with rfl | hkey
    · exact hjob
    · exact hpasses (h.begun key hkey)
  · cases hsome
    exact h.work job (hwork ▸ List.mem_cons_self) hlt
  · exact h.work other (hwork ▸ List.mem_cons_of_mem _ hother)

theorem leave (h : act.Surveys program came) (hwalk : act.walk = some walk)
    (hend : program.length ≤ walk.offset) : { act with walk := none }.Surveys program came := by
  have hpasses : ∀ {offset}, act.Passes program came offset →
      { act with walk := none }.Passes program came offset := by
    rintro offset (hcame | hend | ⟨other, hsome, rfl⟩)
    · exact .inl hcame
    · exact .inr (.inl hend)
    · cases hwalk.symm.trans hsome
      exact .inr (.inl hend)
  have hawaits : ∀ {offset}, act.Awaits program came offset →
      { act with walk := none }.Awaits program came offset :=
    fun hoffset => hoffset.imp_left hpasses
  exact ⟨hawaits h.entry, fun key hkey => hawaits (h.blocks key hkey),
    fun key hkey => hpasses (h.begun key hkey), fun a b hcame hb => hawaits (h.ahead a b hcame hb),
    fun _ hsome => (by cases hsome), h.work⟩

/-- Behind an instruction the subroutine has come to it. What lies ahead of the instruction waits:
the walk goes on behind it, and the block that it asks for was there before or is opened. -/
theorem visited (h : act.Surveys program came) (hwalk : act.walk = some walk) {site : Site}
    (hlt : walk.offset < program.length) (hat : program.at? walk.offset = some site.ins)
    {before ws : Workspace} (hserves : site.Serves program before ws)
    (hblocks : before.blocks = act.blocks) (hnone : before.spawned = none)
    (hasked : ∀ offset, site.ins.asked? program = some offset →
      ∃ ctx, site.ins.request? program before.context = some (offset, ctx))
    {onward : Option Walk} (honward : onward.map (·.offset) = site.ins.onward?) (last : Nat) :
    { Machine.commit { act with last } ws with walk := onward }.Surveys program
      fun offset => came offset ∨ offset = walk.offset := by
  let next := { Machine.commit { act with last } ws with walk := onward }
  let now := fun offset => came offset ∨ offset = walk.offset
  have hpasses : ∀ {offset}, act.Passes program came offset → next.Passes program now offset := by
    rintro offset (hcame | hend | ⟨other, hsome, rfl⟩)
    · exact .inl (.inl hcame)
    · exact .inr (.inl hend)
    · cases hwalk.symm.trans hsome
      exact .inl (.inr rfl)
  have hspawned : ∀ job, ws.spawned = some job → job ∈ next.work :=
    fun job hjob => Machine.mem_work_commit.2 (.inl hjob)
  have hawaits : ∀ {offset}, act.Awaits program came offset → next.Awaits program now offset := by
    rintro offset (hpast | ⟨job, hjob, rfl⟩)
    · exact .inl (hpasses hpast)
    · exact .inr ⟨job, List.mem_append_right _ hjob, rfl⟩
  have hopened : ∀ job, ws.spawned = some job →
      site.ins.request? program before.context = some (job.start, job.context) :=
    fun job hjob => (hserves.opens hnone hjob).request
  have hcode : ∀ offset, site.ins.onward? = some offset ∨ site.ins.asked? program = some offset →
      offset < program.length → program.Comprises act.entry offset :=
    fun offset hoffset hin =>
      (h.walk walk hwalk hlt).tail (Program.mem_ahead.2 ⟨hin, site.ins, hat, hoffset⟩)
  -- The block that is asked for has a key among the blocks from then on.
  have hkeys : ∀ key ∈ next.blocks.map Prod.fst, next.Awaits program now key.1 := by
    intro key hkey
    have hkey : key ∈ ws.blocks.map Prod.fst := hkey
    cases hserves with
    | kept _ hsame =>
      rw [hsame, hblocks] at hkey
      exact hawaits (h.blocks key hkey)
    | @opened job _ _ _ _ hsame hjob =>
      rw [hsame, hblocks] at hkey
      rcases List.mem_cons.1 hkey with rfl | hkey
      · exact .inr ⟨job, hspawned job hjob, rfl⟩
      · exact hawaits (h.blocks key hkey)
  have hrequested : ∀ offset, site.ins.asked? program = some offset →
      next.Awaits program now offset := by
    intro offset hoffset
    obtain ⟨ctx, hrequest⟩ := hasked offset hoffset
    cases hserves with
    | kept hknown =>
      obtain ⟨block, hlookup⟩ := hknown offset ctx hrequest
      rw [hblocks] at hlookup
      have hmem := List.mem_map_of_mem (f := Prod.fst) (Site.mem_of_lookup hlookup)
      exact hawaits (h.blocks _ hmem)
    | @opened job hjob _ _ _ _ hsome =>
      cases hjob.symm.trans hrequest
      exact .inr ⟨job, hspawned job hsome, rfl⟩
  refine ⟨hawaits h.entry, hkeys, fun key hkey => hpasses (h.begun key hkey), ?_, ?_, ?_⟩
  · rintro a b (hcame | rfl) hb
    · exact hawaits (h.ahead a b hcame hb)
    · obtain ⟨-, ins, hins, hnext⟩ := Program.mem_ahead.1 hb
      cases hat.symm.trans hins
      rcases hnext with hnext | hnext
      · obtain ⟨walk', hsome, rfl⟩ := Option.map_eq_some_iff.1 (honward.trans hnext)
        exact .inl (.inr (.inr ⟨walk', hsome, rfl⟩))
      · exact hrequested b hnext
  · intro walk' hsome hin
    have hsome : onward = some walk' := hsome
    exact hcode _ (.inl (by rw [← honward, hsome, Option.map_some])) hin
  · intro job hjob hin
    rcases Machine.mem_work_commit.1 hjob with hjob | hjob
    · exact hcode _ (.inr (Instruction.asked?_of_request? (hopened job hjob))) hin
    · exact h.work job hjob hin

theorem came_of_drained (h : act.Surveys program came) (hwalk : act.walk = none)
    (hwork : act.work = []) {offset : Nat} (hoffset : program.Comprises act.entry offset) :
    came offset := by
  have hawaits : ∀ {offset}, act.Awaits program came offset → offset < program.length →
      came offset := by
    rintro offset ((hcame | hend | ⟨walk, hsome, -⟩) | ⟨job, hjob, -⟩) hlt
    · exact hcame
    · omega
    · cases hwalk.symm.trans hsome
    · rw [hwork] at hjob
      cases hjob
  obtain ⟨hstart, hreach⟩ := hoffset
  induction hreach with
  | refl => exact hawaits h.entry hstart
  | tail _ hstep ih => exact hawaits (h.ahead _ _ ih hstep) (Program.mem_ahead.1 hstep).1

end Surveys

end Activation

namespace Machine

variable {script : Script} {settings : LiftSettings} {m m' : Machine}

theorem Move.callee (h : Move script settings m m') {target : Nat} {sub : SubId}
    (hsub : m.callees.lookup target = some sub) : m'.callees.lookup target = some sub := by
  cases h with
  | @enter act callers walk ins entry ws _ _ _ hrun =>
    obtain ⟨-, hentry, hnone⟩ := Site.visit_enter hrun
    rw [hentry] at hnone
    change List.lookup target ((entry, m.tree.nextSubId) :: m.callees) = some sub
    rw [List.lookup_cons]
    split
    · next heq =>
      rw [beq_iff_eq] at heq
      rw [heq, hnone] at hsub
      cases hsub
    · exact hsub
  | _ => exact hsub

end Machine

namespace Lift

variable (program : Program) (routines : Routines) (settings : LiftSettings)

/-- Among the first `count` moves is one of `sub` at the instruction at `offset`. -/
def ComesTo (count : Nat) (sub : SubId) (offset : Nat) : Prop :=
  ∃ earlier < count, ∃ m visit, stage program routines settings earlier = some m ∧
    m.visit? program = some visit ∧ visit.act.sub = sub ∧ visit.walk.offset = offset

/-- A move of `sub` makes the words on its stack global. -/
def Promotes (sub : SubId) : Prop :=
  ∃ count m visit, stage program routines settings count = some m ∧
    m.visit? program = some visit ∧ visit.act.sub = sub ∧ visit.ins.opcode.operation = .saveBase

/-- Subroutines in progress survey their code; the others have come to all of it. -/
structure Surveyed (count : Nat) (m : Machine) : Prop where
  active : ∀ act ∈ m.active, ∃ came : Nat → Prop,
    (∀ offset, came offset → ComesTo program routines settings count act.sub offset) ∧
      act.Surveys program came
  left : ∀ target sub, m.callees.lookup target = some sub → (∃ act ∈ m.active, act.sub = sub) ∨
    ∀ offset, program.Comprises target offset →
      ComesTo program routines settings count sub offset

variable {program routines settings} {count : Nat} {m m' : Machine}

theorem ComesTo.mono {sub : SubId} {offset later : Nat}
    (h : ComesTo program routines settings count sub offset) (hle : count ≤ later) :
    ComesTo program routines settings later sub offset := by
  obtain ⟨earlier, hlt, hvisit⟩ := h
  exact ⟨earlier, Nat.lt_of_lt_of_le hlt hle, hvisit⟩

namespace Surveyed

variable {act act' : Activation} {callers : List Activation}

theorem first (h : Surveyed program routines settings count m) (hactive : m.active = act :: callers) :
    ∃ came : Nat → Prop,
      (∀ offset, came offset → ComesTo program routines settings count act.sub offset) ∧
        act.Surveys program came :=
  h.active act (Machine.first_mem hactive)

theorem others (h : Surveyed program routines settings count m) (hactive : m.active = act :: callers) :
    ∀ other ∈ callers, ∃ came : Nat → Prop,
      (∀ offset, came offset → ComesTo program routines settings (count + 1) other.sub offset) ∧
        other.Surveys program came := by
  intro other hother
  obtain ⟨came, hcame, hother⟩ := h.active other (Machine.caller_mem hactive hother)
  exact ⟨came, fun offset hoffset => (hcame offset hoffset).mono (Nat.le_succ _), hother⟩

/-- The innermost subroutine goes on. -/
theorem goesOn (h : Surveyed program routines settings count m) (hactive : m.active = act :: callers)
    (hactive' : m'.active = act' :: callers) (hsub : act'.sub = act.sub)
    (hcallees : m'.callees = m.callees) {came : Nat → Prop}
    (hcame : ∀ offset, came offset → ComesTo program routines settings (count + 1) act.sub offset)
    (hact : act'.Surveys program came) : Surveyed program routines settings (count + 1) m' where
  active other hother := by
    rw [hactive'] at hother
    rcases List.mem_cons.1 hother with rfl | hother
    · exact ⟨came, by rw [hsub]; exact hcame, hact⟩
    · exact h.others hactive other hother
  left target sub hlookup := by
    rw [hcallees] at hlookup
    rcases h.left target sub hlookup with ⟨other, hother, hothers⟩ | hleft
    · refine .inl ?_
      rw [hactive] at hother
      rw [hactive']
      rcases List.mem_cons.1 hother with rfl | hother
      · exact ⟨act', List.mem_cons_self, hsub.trans hothers⟩
      · exact ⟨other, List.mem_cons_of_mem _ hother, hothers⟩
    · exact .inr fun offset hoffset => (hleft offset hoffset).mono (Nat.le_succ _)

theorem finish (h : Surveyed program routines settings count m) (hentered : m.Entered)
    (hactive : m.active = act :: callers) (hwalk : act.walk = none) (hwork : act.work = []) :
    Surveyed program routines settings (count + 1) (m.finish act callers) where
  active := h.others hactive
  left target sub hlookup := by
    rcases h.left target sub hlookup with ⟨other, hother, rfl⟩ | hleft
    · rw [hactive] at hother
      rcases List.mem_cons.1 hother with rfl | hother
      · obtain ⟨came, hcame, hsurveys⟩ := h.first hactive
        have hentry := hentered.active other (Machine.first_mem hactive)
        have hstart := ((hentered.known _ _).1 hentry).2.symm.trans
          ((hentered.known _ _).1 hlookup).2
        refine .inr fun offset hoffset => (hcame offset ?_).mono (Nat.le_succ _)
        exact hsurveys.came_of_drained hwalk hwork (hstart ▸ hoffset)
      · exact .inl ⟨other, hother, rfl⟩
    · exact .inr fun offset hoffset => (hleft offset hoffset).mono (Nat.le_succ _)

theorem begin (h : Surveyed program routines settings count m) (name : String) (entry : Nat)
    (context : SubId → Context) :
    Surveyed program routines settings count (m.begin name entry context) where
  active act hact := by
    rcases List.mem_cons.1 hact with rfl | hact
    · exact ⟨_, fun _ hcame => hcame.elim, .start ..⟩
    · exact h.active act hact
  left target sub hlookup := by
    change List.lookup target ((entry, m.tree.nextSubId) :: m.callees) = some sub at hlookup
    rw [List.lookup_cons] at hlookup
    split at hlookup
    · cases hlookup
      exact .inl ⟨_, List.mem_cons_self, rfl⟩
    · rcases h.left target sub hlookup with ⟨act, hact, hsub⟩ | hleft
      · exact .inl ⟨act, List.mem_cons_of_mem _ hact, hsub⟩
      · exact .inr hleft

/-- The instruction of a walk is executed. -/
theorem visited (h : Surveyed program routines settings count m)
    (hstep : Step program routines settings count m m')
    {visit : Visit} (hvisit : m.visit? program = some visit) {flow : Flow} {ws : Workspace}
    (hrun : visit.site.visit (script program routines) m.callees (visit.start m) = .ok flow ws)
    {onward : Option Walk} (honward : onward.map (·.offset) = visit.ins.onward?)
    (hcallees : m'.callees = m.callees)
    (hactive' : m'.active = { Machine.commit
      { visit.act with last := max visit.act.last visit.walk.offset } ws with
        walk := onward } :: visit.callers) :
    Surveyed program routines settings (count + 1) m' := by
  obtain ⟨hactive, hwalk, hlt, hat⟩ := Machine.visit?_eq_some.1 hvisit
  obtain ⟨came, hcame, hsurveys⟩ := h.first hactive
  have hws : visit.outcome (script program routines) m = ws := congrArg Lift.left hrun
  have hserves := visit_serves hstep.before hvisit
  rw [hws] at hserves
  refine h.goesOn hactive hactive' rfl hcallees ?_ (hsurveys.visited hwalk hlt hat hserves rfl rfl
    (fun offset hasked => Site.request?_of_visit hrun hasked) honward _)
  rintro offset (hoffset | rfl)
  · exact (hcame offset hoffset).mono (Nat.le_succ _)
  · exact ⟨count, Nat.lt_succ_self _, m, visit, hstep.before, hvisit, rfl, rfl⟩

end Surveyed

/-- What one move of a strict run keeps. -/
theorem Step.surveyed (hstep : Step program routines settings count m m')
    (hstrict : settings.strict = true) (h : Surveyed program routines settings count m) :
    Surveyed program routines settings (count + 1) m' := by
  have hlater : ∀ {came : Nat → Prop} {sub},
      (∀ offset, came offset → ComesTo program routines settings count sub offset) →
      ∀ offset, came offset → ComesTo program routines settings (count + 1) sub offset :=
    fun hcame offset hoffset => (hcame offset hoffset).mono (Nat.le_succ _)
  rcases Machine.tick_cases hstep.tick with
    ⟨hwithin, hmove⟩ | ⟨act, callers, walk, hactive, hwalk, hend, rfl⟩
  · cases hmove with
    | finish hactive hwalk hwork => exact h.finish (stage_entered hstep.before) hactive hwalk hwork
    | skip hactive _ hwork hdone =>
      obtain ⟨came, hcame, hsurveys⟩ := h.first hactive
      exact h.goesOn hactive rfl rfl rfl (hlater hcame) (hsurveys.skip hwork hdone)
    | start hactive hwalk hwork =>
      obtain ⟨came, hcame, hsurveys⟩ := h.first hactive
      exact h.goesOn hactive rfl rfl rfl (hlater hcame) (hsurveys.take hwalk hwork)
    | leave hactive hwalk hend =>
      obtain ⟨came, hcame, hsurveys⟩ := h.first hactive
      exact h.goesOn hactive rfl rfl rfl (hlater hcame) (hsurveys.leave hwalk hend)
    | lost _ _ _ hlenient | fault _ _ _ _ hlenient => cases hstrict.symm.trans hlenient
    | @next act callers walk ins offset ws hactive hwalk hat hrun =>
      refine h.visited hstep (hwithin.visit? hactive hwalk hat) hrun ?_ rfl rfl
      exact (Site.visit_onward_next hrun).symm
    | @stop act callers walk ins ws hactive hwalk hat hrun =>
      refine h.visited hstep (hwithin.visit? hactive hwalk hat) hrun ?_ rfl rfl
      exact (Site.visit_onward_stop hrun).symm
    | @enter act callers walk ins target ws hactive hwalk hat hrun =>
      obtain ⟨came, hcame, hsurveys⟩ := h.first hactive
      have hlast : Surveyed program routines settings (count + 1)
          { m with active := { act with last := max act.last walk.offset } :: callers } :=
        h.goesOn hactive rfl rfl rfl (hlater hcame)
          ⟨hsurveys.entry, hsurveys.blocks, hsurveys.begun, hsurveys.ahead, hsurveys.walk,
            hsurveys.work⟩
      exact hlast.begin "" target walk.context.enter
  · obtain ⟨came, hcame, hsurveys⟩ := h.first hactive
    exact h.goesOn hactive rfl rfl rfl (hlater hcame) (hsurveys.leave hwalk hend)

theorem stage_surveyed (hstrict : settings.strict = true)
    (h : stage program routines settings count = some m) :
    Surveyed program routines settings count m := by
  refine stage_induction (P := Surveyed program routines settings) ?_
    (fun hstep hm => hstep.surveyed hstrict hm) h
  have hempty : Surveyed program routines settings 0 ⟨(labels program).1, [], []⟩ :=
    ⟨by simp, by simp⟩
  exact hempty.begin startName Program.entry Context.entering

/-- Up to a stage without subroutines in progress, each of them has come to its code and to nothing
else. -/
theorem comesTo_iff (hstrict : settings.strict = true)
    (h : stage program routines settings count = some m) (hrest : m.active = []) {target : Nat}
    {sub : SubId} (hsub : m.callees.lookup target = some sub) {offset : Nat} :
    ComesTo program routines settings count sub offset ↔ program.Comprises target offset := by
  constructor
  · rintro ⟨earlier, hlt, n, visit, hn, hvisit, rfl, rfl⟩
    obtain ⟨-, hwalk, hin, -⟩ := Machine.visit?_eq_some.1 hvisit
    have hmem := Machine.act_mem_of_visit? hvisit
    obtain ⟨came, -, hsurveys⟩ := (stage_surveyed hstrict hn).active _ hmem
    have hlookup := stage_persists (P := fun n => n.callees.lookup visit.act.entry =
        some visit.act.sub) (fun hstep hn => (Machine.move_of_tick hstep.tick).callee hn) hn h
      (Nat.le_of_lt hlt) ((stage_entered hn).active _ hmem)
    have hknown := (stage_entered h).known
    have hstart := ((hknown _ _).1 hlookup).2.symm.trans ((hknown _ _).1 hsub).2
    exact hstart ▸ hsurveys.walk _ hwalk hin
  · intro hoffset
    rcases (stage_surveyed hstrict h).left target sub hsub with ⟨act, hact, -⟩ | hleft
    · rw [hrest] at hact
      cases hact
    · exact hleft offset hoffset

end Lift

namespace Lift

/-- The name of the initializer goes to the second subroutine of the output, if there are globals. -/
theorem second_of_nameOf {tree : Tree} {sub : SubId}
    (hnone : ∀ other, tree.nameOf other ≠ globalsName)
    (h : (nameSubroutines tree).nameOf sub = globalsName) :
    tree.globals ≠ [] ∧ ∃ first rest, tree.order = first :: sub :: rest := by
  have hmain : ∀ {t : Tree} {main : SubId}, (nameMain t main).nameOf sub = globalsName →
      t.nameOf sub = globalsName := by
    intro t main hname
    rcases Tree.nameOf_modifySub t main _ sub with heq | ⟨-, heq⟩
    · exact heq.symm.trans hname
    · have hplaced : Placed globalsName := .inr rfl
      have hvalue := heq.symm.trans hname
      dsimp only at hvalue
      split at hvalue
      · exact absurd hvalue.symm hplaced.ne.2.1
      · exact absurd hvalue.symm hplaced.ne.2.2
  have hglobals : ∀ {second : SubId}, (nameGlobals tree second).nameOf sub = globalsName →
      sub = second := by
    intro second hname
    let named := tree.modifySub second fun s => { s with name := globalsName }
    have hnamed : (nameGlobals tree second).nameOf sub = named.nameOf sub :=
      Tree.nameOf_of_subroutines_eq rfl
    rcases Tree.nameOf_modifySub tree second (fun s => { s with name := globalsName }) sub with
      heq | ⟨heq, -⟩
    · exact absurd (heq.symm.trans (hnamed.symm.trans hname)) (hnone sub)
    · exact heq
  unfold nameSubroutines at h
  split at h
  · exact absurd (hmain h) (hnone sub)
  · next hsome horder =>
    exact ⟨by simp [hsome], _, _, hglobals (hmain h) ▸ horder⟩
  · next hsome horder =>
    exact ⟨by simp [hsome], _, _, hglobals h ▸ horder⟩
  · exact absurd h (hnone sub)

end Lift

section

variable {program : Program} {routines : Routines} {settings : LiftSettings} {tree : Tree}
  {sub : SubId}

/-- A subroutine of the output promotes its words exactly if its code saves the base. -/
theorem promotes_iff_saves (hstrict : settings.strict = true)
    (hlift : lift program routines settings = some (.ok tree)) (hsub : sub ∈ tree.order) :
    Lift.Promotes program routines settings sub ↔ program.Saves (tree.sub sub).start := by
  obtain ⟨lifted, hrun, rfl⟩ := lift_eq_ok hlift
  obtain ⟨count, last, hstage, hrest, rfl⟩ := Lift.exists_stage hrun
  change sub ∈ (Lift.complete last.tree).order at hsub
  have hstart := Lift.field_complete (·.start) (fun _ _ => rfl) last.tree sub
  have hentered := Lift.stage_entered hstage
  rw [Lift.order_complete, hentered.order] at hsub
  have hlookup := (hentered.known _ sub).2 ⟨hsub, hstart.symm⟩
  have hiff : ∀ {offset}, Lift.ComesTo program routines settings count sub offset ↔
      program.Comprises ((Lift.complete last.tree).sub sub).start offset :=
    Lift.comesTo_iff hstrict hstage hrest hlookup
  constructor
  · rintro ⟨earlier, m, visit, hm, hvisit, hact, hop⟩
    obtain ⟨hactive, -, -, hat⟩ := Machine.visit?_eq_some.1 hvisit
    -- Nothing is in progress behind the last stage.
    have hlt : earlier < count := by
      by_contra hle
      have hdone := Lift.stage_persists (P := fun n => n.active = []) (fun hstep hn => by
        have htick := hstep.tick
        simp [Machine.tick, hn] at htick) hstage hm (Nat.le_of_not_lt hle) hrest
      rw [hactive] at hdone
      cases hdone
    exact ⟨visit.walk.offset, visit.ins, hiff.1 ⟨earlier, hlt, m, visit, hm, hvisit, hact, rfl⟩,
      hat, hop⟩
  · rintro ⟨offset, ins, hcode, hat, hop⟩
    obtain ⟨earlier, -, m, visit, hm, hvisit, hact, rfl⟩ := hiff.2 hcode
    obtain ⟨-, -, -, hins⟩ := Machine.visit?_eq_some.1 hvisit
    cases hins.symm.trans hat
    exact ⟨earlier, m, visit, hm, hvisit, hact, hop⟩

/-- The subroutine that is called the initializer is the second of the output, in a tree that has
globals. It promotes its words exactly if the base is saved by the code at its entry. -/
theorem globals_promotes_iff (hstrict : settings.strict = true)
    (hlift : lift program routines settings = some (.ok tree)) (hname : tree.nameOf sub = globalsName) :
    tree.globals ≠ [] ∧ (∃ first rest, tree.order = first :: sub :: rest) ∧
      (Lift.Promotes program routines settings sub ↔ program.Saves (tree.sub sub).start) := by
  obtain ⟨lifted, hrun, rfl⟩ := lift_eq_ok hlift
  obtain ⟨last, hlast, -, rfl⟩ := Machine.run_induction (P := Machine.Named)
    (fun hm hmove => hmove.named hm) (Lift.start_named program) hrun
  have hnone : ∀ other, (Lift.collectGlobals last.tree).nameOf other ≠ globalsName := by
    intro other hother
    have hsame : (Lift.collectGlobals last.tree).nameOf other = last.tree.nameOf other :=
      Tree.nameOf_of_subroutines_eq rfl
    rw [hsame, hlast.name] at hother
    split at hother
    · exact absurd hother (by decide)
    · exact absurd hother (by decide)
  obtain ⟨hglobals, first, rest, horder⟩ := Lift.second_of_nameOf hnone hname
  have hsame : (Lift.complete last.tree).order = first :: sub :: rest :=
    (Lift.order_complete _).trans horder
  refine ⟨?_, ⟨first, rest, hsame⟩, promotes_iff_saves hstrict hlift ?_⟩
  · exact ne_of_eq_of_ne (Lift.globals_complete last.tree) hglobals
  · change sub ∈ (Lift.complete last.tree).order
    rw [hsame]
    exact List.mem_cons_of_mem _ List.mem_cons_self

end

/-- A subroutine that makes one word global while main runs. -/
def promotingCode (main : Int32) : List Instruction := [
  { opcode := .rsaddi },
  { opcode := .savebp },
  { opcode := .jsr, jump := main },
  { opcode := .restorebp },
  { opcode := .movsp, stack := -4 },
  { opcode := .retn }
]

/-- The initializer stands in front of main, as compilers lay them out. -/
def promotingScript : Program :=
  .ofList "" ([{ opcode := .jsr, jump := 8 }, { opcode := .retn }] ++ promotingCode 16 ++
    [{ opcode := .retn }])

theorem globals_promotes_promotingScript : ∃ tree sub,
    lift promotingScript {} .strictly = some (.ok tree) ∧ tree.nameOf sub = globalsName ∧
    Lift.Promotes promotingScript {} .strictly sub := by
  obtain ⟨tree, hlift, hcond⟩ := exists_of_lift promotingScript {} .strictly
    (fun tree => decide (∃ sub ∈ tree.order, tree.nameOf sub = globalsName ∧
      promotingScript.Saves (tree.sub sub).start)) (by decide +kernel)
  obtain ⟨sub, -, hname, hsaves⟩ := of_decide_eq_true hcond
  have hiff := (globals_promotes_iff rfl hlift hname).2.2
  exact ⟨tree, sub, hlift, hname, hiff.2 hsaves⟩

/-- The same code with main in front. -/
def swappedScript : Program :=
  .ofList "" ([{ opcode := .jsr, jump := 10 }, { opcode := .retn }, { opcode := .retn }] ++
    promotingCode (-6))

/-- Main is taken for the initializer here. -/
theorem not_forall_globals_promotes : ¬∀ (program : Program) (routines : Routines)
    (settings : LiftSettings) (tree : Tree) (sub : SubId), settings.strict = true →
      lift program routines settings = some (.ok tree) → tree.nameOf sub = globalsName →
      Lift.Promotes program routines settings sub := by
  intro h
  obtain ⟨tree, hlift, hcond⟩ := exists_of_lift swappedScript {} .strictly
    (fun tree => decide (∃ sub ∈ tree.order, tree.nameOf sub = globalsName ∧
      ¬swappedScript.Saves (tree.sub sub).start)) (by decide +kernel)
  obtain ⟨sub, hsub, hname, hsaves⟩ := of_decide_eq_true hcond
  have hpromotes := h swappedScript {} .strictly tree sub rfl hlift hname
  exact hsaves ((promotes_iff_saves rfl hlift hsub).1 hpromotes)

end ScriptLift
