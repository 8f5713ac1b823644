import Mathlib.Logic.Relation
import ScriptLift.Compact
import ScriptLift.Proofs.Dataflow.Coverage

namespace ScriptLift

namespace Facts

variable {facts : Facts} {tree : Tree} {routines : Routines}

theorem clear_record (e : Event) : (facts.record e).clear = facts.clear := by
  cases e <;> rfl

theorem clear_foldl_record (events : List Event) :
    (events.foldl record facts).clear = facts.clear := by
  induction events generalizing facts with
  | nil => rfl
  | cons e events ih => rw [List.foldl_cons, ih, clear_record]

@[simp] theorem clear_analyze : (facts.analyze tree routines).clear = facts.clear := by
  rw [analyze, clear_foldl_record]
  rfl

@[simp] theorem destinations_analyze :
    (facts.analyze tree routines).destinations = facts.destinations := by
  have h : (facts.analyze tree routines).clear.destinations = facts.clear.destinations := by
    rw [clear_analyze]
  exact h

@[simp] theorem worklist_analyze : (facts.analyze tree routines).worklist = facts.worklist := by
  have h : (facts.analyze tree routines).clear.worklist = facts.clear.worklist := by
    rw [clear_analyze]
  exact h

theorem record_worklist (e : Event) (worklist : List NodeId) :
    { facts with worklist }.record e = { facts.record e with worklist } := by
  cases e <;> rfl

theorem analyze_worklist (worklist : List NodeId) :
    { facts with worklist }.analyze tree routines =
      { facts.analyze tree routines with worklist } := by
  have hfold : ∀ (events : List Event) (facts : Facts),
      events.foldl record { facts with worklist } =
        { events.foldl record facts with worklist } := by
    intro events
    induction events with
    | nil => exact fun _ => rfl
    | cons e events ih =>
      intro facts
      rw [List.foldl_cons, List.foldl_cons, record_worklist, ih]
  exact hfold _ facts.clear

theorem foldl_pushBlock (blocks : List NodeId) :
    blocks.foldl pushBlock facts = { facts with worklist := blocks.reverse ++ facts.worklist } := by
  induction blocks generalizing facts with
  | nil => rfl
  | cons block blocks ih => simp [ih, pushBlock]

end Facts

namespace Draft

variable {settings : CompactSettings} {routines : Routines} {draft next : Draft}

/-- The facts are those of the tree. -/
def Current (routines : Routines) (draft : Draft) : Prop :=
  draft.facts = draft.facts.analyze draft.tree routines

theorem current_refresh (routines : Routines) (draft : Draft) :
    (draft.refresh routines).Current routines := by
  have hclear : (draft.facts.analyze draft.tree routines).clear = draft.facts.clear :=
    Facts.clear_analyze
  unfold Current refresh
  rw [Facts.analyze.eq_def (draft.facts.analyze draft.tree routines), hclear]
  rfl

def queue (draft : Draft) (worklist : List NodeId) : Draft :=
  { draft with facts := { draft.facts with worklist } }

theorem Current.queue (h : draft.Current routines) (worklist : List NodeId) :
    (draft.queue worklist).Current routines := by
  unfold Current Draft.queue
  rw [Facts.analyze_worklist]
  exact congrArg (fun facts : Facts => { facts with worklist }) h

theorem enqueueBlocks_eq (draft : Draft) :
    draft.enqueueBlocks =
      draft.queue (draft.tree.order.flatMap draft.facts.blocksOf ++ draft.facts.worklist) := by
  simp only [enqueueBlocks, Draft.queue]
  rw [Facts.foldl_pushBlock, List.reverse_reverse]

/-- One step of the rounds of compaction: a result is recovered, or a rewrite made. -/
inductive Step (settings : CompactSettings) (routines : Routines) : Draft → Draft → Prop where
  | recover {draft : Draft} {sub : SubId} {index : Nat} {formal : Formal}
    (hindex : draft.resultIndex? sub = some index)
    (hformal : (draft.tree.sub sub).formals[index]? = some formal) :
    Step settings routines draft ((draft.makeResult sub index formal).refresh routines)
  | rewrite {draft : Draft} {block : NodeId} {rewrite : Rewrite}
    (hlive : draft.facts.isLive block) (hrewrite : draft.rewrite? block settings = some rewrite) :
    Step settings routines draft ((rewrite.apply block draft).refresh routines)

/-- A step, or a change of the worklist. -/
inductive Change (settings : CompactSettings) (routines : Routines) : Draft → Draft → Prop where
  | queue (draft : Draft) (worklist : List NodeId) :
    Change settings routines draft (draft.queue worklist)
  | step {draft next : Draft} (h : Step settings routines draft next) :
    Change settings routines draft next

def Changes (settings : CompactSettings) (routines : Routines) : Draft → Draft → Prop :=
  Relation.ReflTransGen (Change settings routines)

theorem Step.current (h : Step settings routines draft next) : next.Current routines := by
  cases h with
  | recover => exact current_refresh _ _
  | rewrite => exact current_refresh _ _

theorem Change.current (h : Change settings routines draft next) (hdraft : draft.Current routines) :
    next.Current routines := by
  cases h with
  | queue worklist => exact hdraft.queue worklist
  | step h => exact h.current

/-- What every change keeps, a run keeps; the facts are up to date on the way. -/
theorem Changes.invariant (h : Changes settings routines draft next) (Inv : Draft → Prop)
    (hdraft : draft.Current routines) (hinv : Inv draft)
    (hstep : ∀ a b, a.Current routines → Inv a → Change settings routines a b → Inv b) :
    next.Current routines ∧ Inv next := by
  induction h with
  | refl => exact ⟨hdraft, hinv⟩
  | tail _ hchange ih => exact ⟨hchange.current ih.1, hstep _ _ ih.1 ih.2 hchange⟩

/-- What a part of the rounds may answer: it reports a change behind at least one step, and else leaves
all but the worklist. -/
inductive Runs (settings : CompactSettings) (routines : Routines) (draft : Draft) :
    Draft × Bool → Prop where
  | idle (worklist : List NodeId) : Runs settings routines draft (draft.queue worklist, false)
  | busy {mid next last : Draft} (hbefore : Changes settings routines draft mid)
    (hstep : Step settings routines mid next) (hafter : Changes settings routines next last) :
    Runs settings routines draft (last, true)

namespace Runs

variable {mid : Draft} {state : Draft × Bool}

theorem refl (draft : Draft) : Runs settings routines draft (draft, false) :=
  .idle draft.facts.worklist

theorem step (h : Step settings routines draft next) : Runs settings routines draft (next, true) :=
  .busy .refl h .refl

theorem changes (h : Runs settings routines draft state) : Changes settings routines draft state.1 := by
  cases h with
  | idle worklist => exact .single (.queue draft worklist)
  | busy hbefore hstep hafter => exact (hbefore.tail (.step hstep)).trans hafter

theorem trans {changed : Bool} (h : Runs settings routines draft (mid, changed))
    (g : Runs settings routines mid state) :
    Runs settings routines draft (state.1, changed || state.2) := by
  cases h with
  | idle worklist =>
    cases g with
    | idle later => exact .idle later
    | busy hbefore hstep hafter =>
      exact .busy (.head (.queue draft worklist) hbefore) hstep hafter
  | busy hbefore hstep hafter => exact .busy hbefore hstep (hafter.trans g.changes)

theorem eq_queue (h : Runs settings routines draft state) (hidle : state.2 = false) :
    ∃ worklist, state.1 = draft.queue worklist := by
  cases h with
  | idle worklist => exact ⟨worklist, rfl⟩
  | busy => cases hidle

end Runs

/-- A measure that every step lowers, as long as an invariant holds that no change breaks. -/
structure Lowers (settings : CompactSettings) (routines : Routines) (Inv : Draft → Prop)
    (measure : Draft → Nat) : Prop where
  change : ∀ {a b}, a.Current routines → Inv a → Change settings routines a b → Inv b
  queue : ∀ a worklist, measure (a.queue worklist) = measure a
  step : ∀ {a b}, a.Current routines → Inv a → Step settings routines a b → measure b < measure a

namespace Lowers

variable {Inv : Draft → Prop} {measure : Draft → Nat} {state : Draft × Bool}

theorem changes (h : Lowers settings routines Inv measure)
    (hchanges : Changes settings routines draft next) (hcurrent : draft.Current routines)
    (hdraft : Inv draft) : next.Current routines ∧ Inv next ∧ measure next ≤ measure draft := by
  refine hchanges.invariant (fun d => Inv d ∧ measure d ≤ measure draft) hcurrent
    ⟨hdraft, Nat.le_refl _⟩ fun a b ha hinv hchange => ⟨h.change ha hinv.1 hchange, ?_⟩
  cases hchange with
  | queue worklist => exact Nat.le_trans (Nat.le_of_eq (h.queue _ worklist)) hinv.2
  | step hstep => exact Nat.le_of_lt (Nat.lt_of_lt_of_le (h.step ha hinv.1 hstep) hinv.2)

theorem runs (h : Lowers settings routines Inv measure) (hruns : Runs settings routines draft state)
    (hchanged : state.2 = true) (hcurrent : draft.Current routines) (hdraft : Inv draft) :
    measure state.1 < measure draft := by
  cases hruns with
  | idle => cases hchanged
  | @busy mid next last hbefore hstep hafter =>
    obtain ⟨hmid, hinv, hle⟩ := h.changes hbefore hcurrent hdraft
    calc
      measure last ≤ measure next :=
        (h.changes hafter hstep.current (h.change hmid hinv (.step hstep))).2.2
      _ < measure mid := h.step hmid hinv hstep
      _ ≤ measure draft := hle

end Lowers

theorem runs_compactBlock (block : NodeId) (limit : Nat) (draft : Draft) :
    Runs settings routines draft (compactBlock settings routines block limit draft) := by
  induction limit generalizing draft with
  | zero => exact .refl draft
  | succ limit ih =>
    rw [compactBlock]
    split
    case isTrue hlive =>
      cases hrewrite : draft.rewrite? block settings with
      | none => exact .refl draft
      | some rewrite => exact (Runs.step (.rewrite hlive hrewrite)).trans (ih _)
    case isFalse => exact .refl draft

/-- A part of a round, done for one member of a list after the other. It has nothing to do where
`Idle` holds. -/
def Part {α : Type} (settings : CompactSettings) (routines : Routines)
    (f : Draft × Bool → α → Draft × Bool) (Idle : Draft → α → Prop) : Prop :=
  ∀ state x, ∃ next, Runs settings routines state.1 next ∧
    f state x = (next.1, state.2 || next.2) ∧ (next.2 = false ↔ Idle state.1 x)

/-- Compacting a block does nothing only if there is nothing to do: the limit is at least one. -/
theorem part_compactNext (settings : CompactSettings) (routines : Routines) :
    Part settings routines (compactNext settings routines)
    fun draft block => draft.facts.isLive block → draft.rewrite? block settings = none := by
  intro state block
  refine ⟨_, (Runs.idle state.1.facts.worklist.tail).trans (runs_compactBlock block _ _), rfl, ?_⟩
  obtain ⟨limit, hlimit⟩ : ∃ limit, max 1 settings.maxRewrites = limit + 1 :=
    ⟨max 1 settings.maxRewrites - 1, by omega⟩
  have hlive : (state.1.queue state.1.facts.worklist.tail).facts.isLive block =
    state.1.facts.isLive block := rfl
  have hrewrite : (state.1.queue state.1.facts.worklist.tail).rewrite? block settings =
    state.1.rewrite? block settings := rfl
  rw [hlimit, compactBlock, hlive, hrewrite, Bool.false_or]
  split
  case isTrue h => cases hsome : state.1.rewrite? block settings <;> simp [h, hsome]
  case isFalse h => simp [h]

theorem part_recoverResult (settings : CompactSettings) (routines : Routines) :
    Part settings routines (recoverResult routines)
    fun draft sub => draft.resultIndex? sub = none := by
  intro state sub
  unfold recoverResult
  split
  case h_1 index hindex =>
    have hlt : index < (state.1.tree.sub sub).formals.length := by
      unfold resultIndex? at hindex
      split at hindex
      · exact (List.findIdx?_eq_some_iff_getElem.1 hindex).1
      · cases hindex
    rw [List.getElem?_eq_getElem hlt]
    exact ⟨_, .step (.recover hindex (List.getElem?_eq_getElem hlt)), by simp, by simp [hindex]⟩
  case h_2 hindex => exact ⟨_, .refl state.1, by simp, by simp [hindex]⟩

theorem Part.foldl {α : Type} {f : Draft × Bool → α → Draft × Bool} {Idle : Draft → α → Prop}
    (hf : Part settings routines f Idle) (xs : List α) {state : Draft × Bool}
    (h : Runs settings routines draft state) : Runs settings routines draft (xs.foldl f state) := by
  induction xs generalizing state with
  | nil => exact h
  | cons x xs ih =>
    obtain ⟨next, hnext, heq, -⟩ := hf state x
    rw [List.foldl_cons, heq]
    exact ih (h.trans hnext)

theorem Part.foldl_snd {α : Type} {f : Draft × Bool → α → Draft × Bool} {Idle : Draft → α → Prop}
    (hf : Part settings routines f Idle)
    (hidle : ∀ draft worklist x, Idle (draft.queue worklist) x ↔ Idle draft x) (xs : List α)
    (state : Draft × Bool) :
    (xs.foldl f state).2 = false ↔ state.2 = false ∧ ∀ x ∈ xs, Idle state.1 x := by
  induction xs generalizing state with
  | nil => simp
  | cons x xs ih =>
    obtain ⟨next, hruns, heq, hnext⟩ := hf state x
    have hrest : next.2 = false → ((∀ y ∈ xs, Idle next.1 y) ↔ ∀ y ∈ xs, Idle state.1 y) := by
      intro hquiet
      obtain ⟨worklist, hqueue⟩ := hruns.eq_queue hquiet
      rw [hqueue]
      exact forall₂_congr fun y _ => hidle _ _ _
    rw [List.foldl_cons, ih, heq, Bool.or_eq_false_iff, List.forall_mem_cons, ← hnext]
    grind

theorem runs_recoverResults (draft : Draft) :
    Runs settings routines draft
      (if settings.recoverResults then draft.recoverResults routines else (draft, false)) := by
  split
  · exact (part_recoverResult _ _).foldl draft.tree.order (.refl draft)
  · exact .refl draft

theorem runs_compactBlocks (draft : Draft) :
    Runs settings routines draft (draft.compactBlocks settings routines) := by
  unfold compactBlocks
  rw [enqueueBlocks_eq]
  exact (part_compactNext _ _).foldl _ (.idle _)

theorem runs_round (settings : CompactSettings) (routines : Routines) (draft : Draft) :
    Runs settings routines draft (draft.round settings routines) :=
  (runs_recoverResults draft).trans (runs_compactBlocks _)

theorem runs_settle (limit : Nat) (draft : Draft) :
    Runs settings routines draft (settleWithin settings routines limit draft) := by
  induction limit generalizing draft with
  | zero => exact .refl draft
  | succ limit ih =>
    have hround := runs_round settings routines draft
    rw [settleWithin]
    generalize draft.round settings routines = state at hround ⊢
    obtain ⟨next, changed⟩ := state
    cases changed with
    | true => exact hround.trans (ih next)
    | false => exact hround

def rounds (settings : CompactSettings) (routines : Routines) : Nat → Draft → Draft
  | 0, draft => draft
  | count + 1, draft => rounds settings routines count (draft.round settings routines).1

theorem changes_rounds (count : Nat) (draft : Draft) :
    Changes settings routines draft (rounds settings routines count draft) := by
  induction count generalizing draft with
  | zero => exact .refl
  | succ count ih => exact (runs_round _ _ draft).changes.trans (ih _)

/-- All rounds before change something, and the next one does not. -/
structure Ends (settings : CompactSettings) (routines : Routines) (count : Nat) (draft : Draft) :
    Prop where
  busy : ∀ k < count, ((rounds settings routines k draft).round settings routines).2 = true
  quiet : ((rounds settings routines count draft).round settings routines).2 = false

/-- The rounds end before the limit on them. -/
def EndsInTime (settings : CompactSettings) (routines : Routines) (draft : Draft) : Prop :=
  ∃ count < Nat.pow (draft.tree.extent + 2) 12, Ends settings routines count draft

theorem Ends.unique {count other : Nat} (h : Ends settings routines count draft)
    (hother : Ends settings routines other draft) : count = other := by
  rcases Nat.lt_trichotomy count other with hlt | heq | hlt
  · exact Bool.noConfusion (h.quiet.symm.trans (hother.busy count hlt))
  · exact heq
  · exact Bool.noConfusion (hother.quiet.symm.trans (h.busy other hlt))

theorem Lowers.exists_ends {Inv : Draft → Prop} {measure : Draft → Nat}
    (h : Lowers settings routines Inv measure) (hcurrent : draft.Current routines)
    (hdraft : Inv draft) : ∃ count ≤ measure draft, Ends settings routines count draft := by
  induction hmeasure : measure draft using Nat.strongRecOn generalizing draft with
  | _ bound ih =>
    have hround := runs_round settings routines draft
    cases hchanged : (draft.round settings routines).2 with
    | false => exact ⟨0, Nat.zero_le _, fun k hk => absurd hk (Nat.not_lt_zero k), hchanged⟩
    | true =>
      have hless := h.runs hround hchanged hcurrent hdraft
      obtain ⟨hnext, hinv, -⟩ := h.changes hround.changes hcurrent hdraft
      obtain ⟨count, hcount, hbusy, hquiet⟩ := ih _ (hmeasure ▸ hless) hnext hinv rfl
      refine ⟨count + 1, by omega, fun k hk => ?_, hquiet⟩
      cases k with
      | zero => exact hchanged
      | succ k => exact hbusy k (by omega)

/-- The limit on the rounds does not matter beyond their end. -/
theorem Ends.settleWithin {count limit : Nat} (h : Ends settings routines count draft)
    (hlimit : count < limit) :
    settleWithin settings routines limit draft =
      (((rounds settings routines count draft).round settings routines).1, decide (0 < count)) := by
  induction count generalizing draft limit with
  | zero =>
    obtain ⟨limit, rfl⟩ := Nat.exists_eq_add_one_of_ne_zero (Nat.ne_of_gt hlimit)
    rw [Draft.settleWithin]
    simp only [show (draft.round settings routines).2 = false from h.quiet, Bool.false_eq_true,
      if_false]
    exact Prod.ext rfl h.quiet
  | succ count ih =>
    obtain ⟨limit, rfl⟩ := Nat.exists_eq_add_one_of_ne_zero (Nat.ne_of_gt (Nat.lt_of_le_of_lt
      (Nat.zero_le _) hlimit))
    have hrest : Ends settings routines count (draft.round settings routines).1 :=
      ⟨fun k hk => h.busy (k + 1) (by omega), h.quiet⟩
    rw [Draft.settleWithin]
    simp only [show (draft.round settings routines).2 = true from h.busy 0 (by omega), if_true]
    rw [ih hrest (by omega), rounds]
    simp

/-- A rewrite, with the draft that admits it. -/
structure Firing where
  draft : Draft
  block : NodeId
  rewrite : Rewrite
  deriving DecidableEq

section Firings

variable (settings : CompactSettings) (routines : Routines)

/-- The rewrites that compacting a block makes. -/
def blockFirings (block : NodeId) : Nat → Draft → List Firing
  | 0, _ => []
  | limit + 1, draft =>
    if draft.facts.isLive block then
      match draft.rewrite? block settings with
      | some rewrite =>
        ⟨draft, block, rewrite⟩ ::
          blockFirings block limit ((rewrite.apply block draft).refresh routines)
      | none => []
    else []

/-- The rewrites made for the blocks of a worklist. -/
def worklistFirings : List NodeId → Draft → List Firing
  | [], _ => []
  | block :: rest, draft =>
    blockFirings settings routines block (max 1 settings.maxRewrites)
        (draft.queue draft.facts.worklist.tail) ++
      worklistFirings rest (compactNext settings routines (draft, false) block).1

/-- The rewrites of one round, behind the results that it recovers. -/
def roundFirings (draft : Draft) : List Firing :=
  let recovered :=
    if settings.recoverResults then draft.recoverResults routines else (draft, false)
  let queued := recovered.1.enqueueBlocks
  worklistFirings settings routines queued.facts.worklist queued

def settleFirings : Nat → Draft → List Firing
  | 0, _ => []
  | limit + 1, draft =>
    roundFirings settings routines draft ++
      if (draft.round settings routines).2 then
        settleFirings limit (draft.round settings routines).1
      else []

/-- The draft that the rounds start from: without the start, globals folded. -/
def prepare (tree : Tree) : Draft :=
  let started := ({ tree : Draft }.dropSub startName).1.refresh routines
  if settings.foldGlobals then (started.foldGlobals routines).1 else started

/-- All rewrites that compacting a tree makes, in order. -/
def firings (tree : Tree) : List Firing :=
  if settings.enabled then
    let draft := prepare settings routines tree
    settleFirings settings routines (Nat.pow (draft.tree.extent + 2) 12) draft
  else []

end Firings

/-- The draft of a rewrite is one that the run comes through, and admits it. -/
structure Fires (settings : CompactSettings) (routines : Routines) (draft : Draft) (firing : Firing) :
    Prop where
  changes : Changes settings routines draft firing.draft
  live : firing.draft.facts.isLive firing.block
  rewrite : firing.draft.rewrite? firing.block settings = some firing.rewrite

theorem Fires.behind {mid : Draft} {firing : Firing} (h : Fires settings routines mid firing)
    (hmid : Changes settings routines draft mid) : Fires settings routines draft firing :=
  ⟨hmid.trans h.changes, h.live, h.rewrite⟩

theorem fires_block (block : NodeId) (limit : Nat) (draft : Draft) {firing : Firing}
    (h : firing ∈ blockFirings settings routines block limit draft) :
    Fires settings routines draft firing := by
  induction limit generalizing draft with
  | zero => cases h
  | succ limit ih =>
    rw [blockFirings] at h
    split at h
    case isTrue hlive =>
      cases hrewrite : draft.rewrite? block settings with
      | none => simp [hrewrite] at h
      | some rewrite =>
        rw [hrewrite] at h
        rcases List.mem_cons.1 h with rfl | h
        · exact ⟨.refl, hlive, hrewrite⟩
        · exact (ih _ h).behind (.single (.step (.rewrite hlive hrewrite)))
    case isFalse => cases h

theorem fires_worklist (blocks : List NodeId) (draft : Draft) {firing : Firing}
    (h : firing ∈ worklistFirings settings routines blocks draft) :
    Fires settings routines draft firing := by
  induction blocks generalizing draft with
  | nil => cases h
  | cons block blocks ih =>
    rcases List.mem_append.1 h with h | h
    · exact (fires_block block _ _ h).behind (.single (.queue draft _))
    · obtain ⟨next, hnext, heq, -⟩ := part_compactNext settings routines
        (draft, false) block
      refine (ih _ h).behind ?_
      rw [heq]
      exact hnext.changes

theorem fires_round (draft : Draft) {firing : Firing}
    (h : firing ∈ roundFirings settings routines draft) : Fires settings routines draft firing := by
  refine (fires_worklist _ _ h).behind ((runs_recoverResults draft).changes.tail ?_)
  rw [enqueueBlocks_eq]
  exact .queue _ _

theorem fires_settle (limit : Nat) (draft : Draft) {firing : Firing}
    (h : firing ∈ settleFirings settings routines limit draft) :
    Fires settings routines draft firing := by
  induction limit generalizing draft with
  | zero => cases h
  | succ limit ih =>
    rcases List.mem_append.1 h with h | h
    · exact fires_round draft h
    · split at h
      · exact (ih _ h).behind (runs_round _ _ draft).changes
      · cases h

end Draft

end ScriptLift
