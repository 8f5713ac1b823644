import ScriptLift.Proofs.Lift.Forms
import ScriptLift.Proofs.Lift.Sharing

/-! Whose words are where.

A subroutine begins with the words of its callers. What lies above the stack at its entry, it pushed
itself: words are pushed by the current subroutine, and a word that stays only ever sinks, as those
below it are taken away. So a word of a caller lies below the entry and has a position as an
argument, unless the stack is so deep that the position does not fit. -/
namespace ScriptLift

namespace Context

variable {ctx ctx' : Context} {size size' index : Nat} {word : Word}

/-- Whatever lies above the stack at the entry of the current subroutine is its own. -/
def OwnsAbove (ctx : Context) : Prop :=
  ∀ index word, ctx.word index = .ok word → ctx.top.entered ≤ index → word.owner = ctx.current

theorem getElem?_of_word (h : ctx.word index = .ok word) :
    ctx.stack.reverse[index]? = some word := by
  unfold Context.word at h
  split at h
  · next hget =>
    cases h
    exact hget
  · cases h

theorem Ordered.increasing (h : ctx.Ordered size) :
    ctx.stack.reverse.Pairwise fun lower upper => lower.slot.index < upper.slot.index :=
  List.pairwise_reverse.2 h.descending

theorem Ordered.mem_take_iff (h : ctx.Ordered size) (hword : ctx.word index = .ok word)
    {lower : Word} : lower ∈ ctx.stack.reverse.take index ↔
      lower ∈ ctx.stack ∧ lower.slot.index < word.slot.index := by
  have hget := getElem?_of_word hword
  obtain ⟨hlt, rfl⟩ := List.getElem?_eq_some_iff.1 hget
  have hpairwise := List.pairwise_iff_getElem.1 h.increasing
  constructor
  · intro hmem
    obtain ⟨i, hi, rfl⟩ := List.mem_take_iff_getElem.1 hmem
    exact ⟨List.mem_reverse.1 (List.getElem_mem _), hpairwise i index (by omega) hlt (by omega)⟩
  · rintro ⟨hmem, hless⟩
    obtain ⟨i, hi, rfl⟩ := List.mem_iff_getElem.1 (List.mem_reverse.2 hmem)
    rcases Nat.lt_trichotomy i index with hbelow | rfl | habove
    · exact List.mem_take_iff_getElem.2 ⟨i, by omega, rfl⟩
    · exact absurd hless (Nat.lt_irrefl _)
    · exact absurd hless (Nat.lt_asymm (hpairwise index i hlt hi habove))

/-- A word that stays on the stack sinks, if all that is pushed is newer. -/
theorem Ordered.sinks (h : ctx.Ordered size) (h' : ctx'.Ordered size')
    (hwords : ∀ word ∈ ctx'.stack, word ∈ ctx.stack ∨ size ≤ word.slot.index)
    (hindex : ctx'.word index = .ok word) (hold : word ∈ ctx.stack) :
    ∃ earlier, index ≤ earlier ∧ ctx.word earlier = .ok word := by
  obtain ⟨earlier, hearlier, hget⟩ := List.mem_iff_getElem.1 (List.mem_reverse.2 hold)
  have hword : ctx.word earlier = .ok word := by
    simp only [Context.word, List.getElem?_eq_getElem hearlier, hget]
  refine ⟨earlier, ?_, hword⟩
  obtain ⟨hlt, -⟩ := List.getElem?_eq_some_iff.1 (getElem?_of_word hindex)
  have hnodup : (ctx'.stack.reverse.take index).Nodup :=
    (List.take_sublist _ _).nodup (h'.increasing.imp fun hless heq => by
      rw [heq] at hless
      exact Nat.lt_irrefl _ hless)
  have hsub : ctx'.stack.reverse.take index ⊆ ctx.stack.reverse.take earlier := by
    intro lower hlower
    obtain ⟨hmem, hless⟩ := (h'.mem_take_iff hindex).1 hlower
    refine (h.mem_take_iff hword).2 ⟨(hwords lower hmem).resolve_right ?_, hless⟩
    have hbound := h.bound word hold
    omega
  calc index = (ctx'.stack.reverse.take index).length := by rw [List.length_take]; omega
    _ ≤ (ctx.stack.reverse.take earlier).length :=
      (List.subperm_of_subset hnodup hsub).length_le
    _ ≤ earlier := List.length_take_le ..

theorem OwnsAbove.follow (howns : ctx.OwnsAbove) (h : ctx.Ordered size) (h' : ctx'.Ordered size')
    (hcalls : ctx'.calls = ctx.calls)
    (hwords : ∀ word ∈ ctx'.stack, word ∈ ctx.stack ∨
      size ≤ word.slot.index ∧ word.owner = ctx.current) : ctx'.OwnsAbove := by
  have htop : ctx'.top = ctx.top := by rw [top, top, hcalls]
  intro index word hword hle
  rw [htop] at hle
  rw [current, htop]
  rcases hwords word (Site.mem_of_word hword) with hold | ⟨-, howner⟩
  · obtain ⟨earlier, hsinks, hearlier⟩ :=
      h.sinks h' (fun w hw => (hwords w hw).imp_right And.left) hword hold
    exact howns earlier word hearlier (Nat.le_trans hle hsinks)
  · exact howner

theorem ownsAbove_enter (ctx : Context) (sub : SubId) : (ctx.enter sub).OwnsAbove := by
  intro index word hword hle
  obtain ⟨hlt, -⟩ := List.getElem?_eq_some_iff.1 (getElem?_of_word hword)
  have hentered : ctx.stack.length ≤ index := hle
  have hlength : index < ctx.stack.length := by simpa [enter] using hlt
  omega

/-- A word of another subroutine that has no position lies very deep, or the stack at the entry is
very high. -/
theorem Unplaced.entered_gt {entered : Nat} (h : ctx.Unplaced index entered)
    (howns : ctx.OwnsAbove) : 2 ^ 29 < entered := by
  obtain ⟨⟨word, hword, howner⟩, rfl, hposition⟩ := h
  have hbelow : index < ctx.top.entered := by
    by_contra hle
    exact howner (howns index word hword (Nat.le_of_not_lt hle))
  omega

end Context

namespace Lift

variable (program : Program) (routines : Routines) (settings : LiftSettings)

/-- A context of a run: one that a block goes on with or waits for, or that an instruction leaves
behind, failing or not. -/
inductive Reached : Context → Prop
  | pending {count m act p} : stage program routines settings count = some m → act ∈ m.active →
      p ∈ act.pending → Reached p.2
  | behind {count m visit} : stage program routines settings count = some m →
      m.visit? program = some visit →
      Reached (visit.outcome (script program routines) m).context

variable {program routines settings} {count : Nat} {m : Machine} {visit : Visit} {ctx : Context}

theorem visit_ordered (h : stage program routines settings count = some m)
    (hvisit : m.visit? program = some visit) : visit.walk.context.Ordered m.tree.size :=
  (stage_recorded h _ (Machine.act_mem_of_visit? hvisit)).ordered _
    (Visit.mem_pending (Machine.walk_of_visit? hvisit))

theorem outcome_ownsAbove (h : stage program routines settings count = some m)
    (hvisit : m.visit? program = some visit) (howns : visit.walk.context.OwnsAbove) :
    (visit.outcome (script program routines) m).context.OwnsAbove := by
  have hordered := visit_ordered h hvisit
  have hfollows := (visit_trail h hvisit).context
  exact howns.follow hordered (hfollows.ordered hordered) hfollows.calls hfollows.word

theorem spawned_ownsAbove (h : stage program routines settings count = some m)
    (hvisit : m.visit? program = some visit) (howns : visit.walk.context.OwnsAbove) {job : Job}
    (hjob : (visit.outcome (script program routines) m).spawned = some job) :
    job.context.OwnsAbove := by
  obtain ⟨hsub, hcontext⟩ := Visit.context_of_spawned (Machine.walk_of_visit? hvisit)
    (visit_fills h hvisit) hjob
  have hordered := visit_ordered h hvisit
  refine howns.follow hordered (hordered.shrink hsub) ?_ fun word hword => .inl (hsub.subset hword)
  rw [hcontext]

theorem stage_ownsAbove (h : stage program routines settings count = some m) :
    ∀ act ∈ m.active, ∀ p ∈ act.pending, p.2.OwnsAbove := by
  refine active_induction (P := fun _ _ act => ∀ p ∈ act.pending, p.2.OwnsAbove)
    ?_ ?_ ?_ ?_ ?_ h
  · intro p hp
    obtain rfl := List.mem_singleton.1 hp
    exact Context.ownsAbove_enter { } _
  · exact fun _ hact => hact
  · exact fun hgoes hact p hp => hact p (hgoes.pending hp)
  · intro count m m' visit act' hstep hvisit _ _ hleads _ hact p hp
    have howns := hact _ (Visit.mem_pending (Machine.walk_of_visit? hvisit))
    rcases hleads.pending_cases hp with rfl | ⟨job, hjob, rfl⟩ | hp
    · exact outcome_ownsAbove hstep.before hvisit howns
    · exact spawned_ownsAbove hstep.before hvisit howns hjob
    · exact hact p hp
  · intro count m m' visit target ws _ _ _ act' _ _ _ p hp
    obtain rfl := List.mem_singleton.1 hp
    exact Context.ownsAbove_enter _ _

theorem Reached.ownsAbove (h : Reached program routines settings ctx) : ctx.OwnsAbove := by
  cases h with
  | pending hstage hact hp => exact stage_ownsAbove hstage _ hact _ hp
  | behind hstage hvisit =>
    exact outcome_ownsAbove hstage hvisit (stage_ownsAbove hstage _
      (Machine.act_mem_of_visit? hvisit) _ (Visit.mem_pending (Machine.walk_of_visit? hvisit)))

/-- A subroutine is entered with a stack that the run reached. -/
theorem stage_entry_reached (h : stage program routines settings count = some m) :
    ∀ act ∈ m.active, ∀ p ∈ act.pending,
      ∃ ctx, Reached program routines settings ctx ∧ p.2.top.entered = ctx.depth := by
  refine active_induction (P := fun _ _ act => ∀ p ∈ act.pending,
    ∃ ctx, Reached program routines settings ctx ∧ p.2.top.entered = ctx.depth) ?_ ?_ ?_ ?_ ?_ h
  · intro p hp
    have hfirst : stage program routines settings 0 = some (start (labels program).1) := rfl
    refine ⟨p.2, .pending hfirst List.mem_cons_self hp, ?_⟩
    obtain rfl := List.mem_singleton.1 hp
    rfl
  · exact fun _ hact => hact
  · exact fun hgoes hact p hp => hact p (hgoes.pending hp)
  · intro count m m' visit act' hstep hvisit _ _ hleads _ hact p hp
    have hwalk := Machine.walk_of_visit? hvisit
    have hsame : ∀ {ctx' : Context}, ctx'.calls = visit.walk.context.calls →
        ∃ ctx, Reached program routines settings ctx ∧ ctx'.top.entered = ctx.depth := by
      intro ctx' hcalls
      rw [Context.top, hcalls]
      exact hact _ (Visit.mem_pending hwalk)
    rcases hleads.pending_cases hp with rfl | ⟨job, hjob, rfl⟩ | hp
    · exact hsame (visit_trail hstep.before hvisit).context.calls
    · apply hsame
      rw [(Visit.context_of_spawned hwalk (visit_fills hstep.before hvisit) hjob).2]
    · exact hact p hp
  · intro count m m' visit target ws hstep hvisit _ act' _ _ _ p hp
    obtain rfl := List.mem_singleton.1 hp
    exact ⟨visit.walk.context, .pending hstep.before (Machine.act_mem_of_visit? hvisit)
      (Visit.mem_pending (Machine.walk_of_visit? hvisit)), rfl⟩

theorem Reached.exists_entry (h : Reached program routines settings ctx) :
    ∃ caller, Reached program routines settings caller ∧ ctx.top.entered = caller.depth := by
  cases h with
  | pending hstage hact hp => exact stage_entry_reached hstage _ hact _ hp
  | @behind count m visit hstage hvisit =>
    have hcalls : (visit.outcome (script program routines) m).context.calls =
        visit.walk.context.calls := (visit_trail hstage hvisit).context.calls
    rw [Context.top, hcalls]
    exact stage_entry_reached hstage _ (Machine.act_mem_of_visit? hvisit) _
      (Visit.mem_pending (Machine.walk_of_visit? hvisit))

theorem exists_deep_of_refused (h : stage program routines settings count = some m)
    (hvisit : m.visit? program = some visit) {offset index entered : Nat} {opcode : Opcode}
    {ws : Workspace}
    (hrun : visit.site.visit (script program routines) m.callees (visit.start m) =
      .error (.inconsistent offset opcode (.outerAboveEntry index entered)) ws) :
    ∃ ctx, Reached program routines settings ctx ∧ ctx.depth = entered ∧ 2 ^ 29 < entered := by
  have hws : visit.outcome (script program routines) m = ws := congrArg left hrun
  have hunplaced := visit_explains h hvisit hrun _ _ _ _ rfl
  have hreached : Reached program routines settings ws.context := hws ▸ .behind h hvisit
  obtain ⟨caller, hcaller, hdepth⟩ := hreached.exists_entry
  refine ⟨caller, hcaller, ?_, hunplaced.entered_gt hreached.ownsAbove⟩
  rw [← hdepth, hunplaced.frame]

end Lift

/-- In every context of a run, whatever lies above the stack at the entry of the current subroutine
was pushed by it. So where the stack stays below 2^29 words, no instruction refuses a word for lying
above the entry of the subroutine that uses it and being of another one. -/
theorem reached_words_owned (program : Program) (routines : Routines) (settings : LiftSettings) :
    (∀ ctx, Lift.Reached program routines settings ctx → ∀ index word,
      ctx.word index = .ok word → ctx.top.entered ≤ index → word.owner = ctx.current) ∧
    ((∀ ctx, Lift.Reached program routines settings ctx → ctx.depth < 2 ^ 29) →
      ∀ count m visit, Lift.stage program routines settings count = some m →
        m.visit? program = some visit → ∀ offset opcode index entered ws,
          visit.site.visit (Lift.script program routines) m.callees (visit.start m) ≠
            .error (.inconsistent offset opcode (.outerAboveEntry index entered)) ws) := by
  refine ⟨fun ctx hreached => hreached.ownsAbove, ?_⟩
  intro hshallow count m visit hstage hvisit offset opcode index entered ws hrun
  obtain ⟨ctx, hreached, hdepth, hdeep⟩ := Lift.exists_deep_of_refused hstage hvisit hrun
  have hbound := hshallow ctx hreached
  omega

namespace Lift

/-- The contexts of a run at one stage. -/
def contextsAt (program : Program) (routines : Routines) (settings : LiftSettings) (count : Nat) :
    List Context :=
  match stage program routines settings count with
  | none => []
  | some m => m.active.flatMap (fun act => act.pending.map Prod.snd) ++
      ((m.visit? program).map fun visit =>
        (visit.outcome (script program routines) m).context).toList

variable {program : Program} {routines : Routines} {settings : LiftSettings} {ctx : Context}
  {count : Nat} {m : Machine}

theorem reached_iff : Reached program routines settings ctx ↔
    ∃ count, ctx ∈ contextsAt program routines settings count := by
  constructor
  · intro h
    cases h with
    | @pending count m act p hstage hact hp =>
      refine ⟨count, ?_⟩
      rw [contextsAt, hstage]
      exact List.mem_append_left _ (List.mem_flatMap.2 ⟨act, hact, List.mem_map_of_mem hp⟩)
    | @behind count m visit hstage hvisit =>
      refine ⟨count, ?_⟩
      rw [contextsAt, hstage]
      exact List.mem_append_right _ (by simp [hvisit])
  · rintro ⟨count, hmem⟩
    unfold contextsAt at hmem
    split at hmem
    · cases hmem
    · next m hstage =>
      rcases List.mem_append.1 hmem with hmem | hmem
      · obtain ⟨act, hact, hmem⟩ := List.mem_flatMap.1 hmem
        obtain ⟨p, hp, rfl⟩ := List.mem_map.1 hmem
        exact .pending hstage hact hp
      · obtain ⟨visit, hvisit, rfl⟩ := Option.map_eq_some_iff.1 (Option.mem_toList.1 hmem)
        exact .behind hstage hvisit

theorem stage_lt_end {last : Nat} (h : stage program routines settings count = some m)
    (hend : stage program routines settings last = none) : count < last := by
  by_contra hle
  rcases Nat.lt_or_eq_of_le (Nat.le_of_not_lt hle) with hlt | rfl
  · obtain ⟨n, _, hstep⟩ := exists_step h hlt
    cases hend.symm.trans hstep.before
  · cases hend.symm.trans h

theorem Reached.exists_lt {last : Nat} (h : Reached program routines settings ctx)
    (hend : stage program routines settings last = none) :
    ∃ count < last, ctx ∈ contextsAt program routines settings count := by
  obtain ⟨count, hmem⟩ := reached_iff.1 h
  refine ⟨count, ?_, hmem⟩
  unfold contextsAt at hmem
  split at hmem
  · cases hmem
  · next m hstage => exact stage_lt_end hstage hend

end Lift

/-- A subroutine copies the word of its caller. -/
def frameScript : Program := .ofList "" [
  { opcode := .jsr, jump := 8 },
  { opcode := .retn },
  { opcode := .consti, value := some (.int 1) },
  { opcode := .jsr, jump := 14 },
  { opcode := .movsp, stack := -4 },
  { opcode := .retn },
  { opcode := .cptopsp, stack := -4, size := 4 },
  { opcode := .movsp, stack := -4 },
  { opcode := .retn }
]

/-- The copy lies above the entry and is the subroutine's own, the word below it is not. -/
theorem frameScript_words_owned :
    (∃ ctx word lower, Lift.Reached frameScript {} .strictly ctx ∧ ctx.top.entered = 1 ∧
      ctx.word 1 = .ok word ∧ word.owner = ctx.current ∧
      ctx.word 0 = .ok lower ∧ lower.owner ≠ ctx.current) ∧
    (∀ ctx, Lift.Reached frameScript {} .strictly ctx → ctx.depth < 2 ^ 29) ∧
    ∀ count m visit, Lift.stage frameScript {} .strictly count = some m →
      m.visit? frameScript = some visit → ∀ offset opcode index entered ws,
        visit.site.visit (Lift.script frameScript {}) m.callees (visit.start m) ≠
          .error (.inconsistent offset opcode (.outerAboveEntry index entered)) ws := by
  obtain ⟨howned, hrefused⟩ := reached_words_owned frameScript {} .strictly
  have hshallow : ∀ ctx, Lift.Reached frameScript {} .strictly ctx → ctx.depth < 2 ^ 29 := by
    intro ctx hreached
    have hend : Lift.stage frameScript {} .strictly 18 = none := by decide +kernel
    have hall : ∀ count < 18, ∀ ctx ∈ Lift.contextsAt frameScript {} .strictly count,
        ctx.depth < 3 := by decide +kernel
    obtain ⟨count, hlt, hmem⟩ := hreached.exists_lt hend
    have hdepth := hall count hlt ctx hmem
    omega
  refine ⟨?_, hshallow, hrefused hshallow⟩
  let ctx : Context :=
    { stack := [⟨⟨7⟩, ⟨2⟩⟩, ⟨⟨3⟩, ⟨1⟩⟩], calls := [⟨⟨2⟩, 1⟩, ⟨⟨1⟩, 0⟩, ⟨⟨0⟩, 0⟩] }
  have hreached : Lift.Reached frameScript {} .strictly ctx :=
    Lift.reached_iff.2 ⟨7, by decide +kernel⟩
  exact ⟨ctx, ⟨⟨7⟩, ⟨2⟩⟩, ⟨⟨3⟩, ⟨1⟩⟩, hreached, rfl, rfl, howned ctx hreached 1 _ rfl (by decide),
    rfl, by decide⟩

end ScriptLift
