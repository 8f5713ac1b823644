import ScriptLift.Proofs.Compact.Progress

namespace ScriptLift

namespace Event

variable {tree : Tree} {routines : Routines}

theorem sub_of_block_mem_walk {sub s : SubId} {b : NodeId} (pending : List (NodeId × Bool))
    (visited : List NodeId) (h : .block s b ∈ (walk tree routines sub pending visited).1) :
    s = sub := by
  fun_induction walk tree routines sub pending visited with
  | case1 => cases h
  | case2 visited id deferred rest hmem ih => exact ih h
  | case3 visited id deferred rest hmem later ih =>
    rcases List.mem_append.1 h with h | h
    · rcases List.mem_cons.1 h with heq | h
      · cases heq
        rfl
      · obtain ⟨n, -, hn⟩ := List.mem_flatMap.1 h
        exact absurd hn block_notMem_ofNode
    · exact ih h

theorem mem_order_of_block_mem_trace {s : SubId} {b : NodeId}
    (h : .block s b ∈ trace tree routines) : s ∈ tree.order := by
  have hfold : ∀ (subs : List SubId) (state : List Event × List NodeId),
      .block s b ∈ (subs.foldl (extend tree routines) state).1 → .block s b ∈ state.1 ∨ s ∈ subs := by
    intro subs
    induction subs with
    | nil => exact fun state h => .inl h
    | cons sub subs ih =>
      intro state h
      rcases ih _ h with h | h
      · rcases List.mem_append.1 h with h | h
        · exact .inl h
        · exact .inr (List.mem_cons.2 (.inl (sub_of_block_mem_walk _ _ h)))
      · exact .inr (List.mem_cons_of_mem _ h)
  rcases hfold tree.order ([], []) h with h | h
  · cases h
  · exact h

end Event

namespace Facts

variable {facts : Facts} {tree : Tree} {routines : Routines} {block : NodeId}

theorem exists_mem_blocksOf_analyze (h : (facts.analyze tree routines).isLive block) :
    ∃ sub ∈ tree.order, block ∈ (facts.analyze tree routines).blocksOf sub := by
  obtain ⟨sub, -, hmem, -⟩ :=
    (Event.covers_trace tree routines).1.walked block (isLive_analyze.1 h)
  refine ⟨sub, Event.mem_order_of_block_mem_trace hmem, ?_⟩
  rw [blocksOf_analyze, List.mem_filterMap]
  exact ⟨_, hmem, by simp [Event.blockOf]⟩

end Facts

namespace Draft

variable {settings : CompactSettings} {routines : Routines} {draft next : Draft} {block : NodeId}

/-- No result is to be recovered and no block to be rewritten. -/
structure Normal (settings : CompactSettings) (draft : Draft) : Prop where
  results : settings.recoverResults → ∀ sub ∈ draft.tree.order, draft.resultIndex? sub = none
  blocks : ∀ block, draft.facts.isLive block → draft.rewrite? block settings = none

theorem Normal.queue (h : draft.Normal settings) (worklist : List NodeId) :
    (draft.queue worklist).Normal settings :=
  ⟨h.results, h.blocks⟩

theorem recoverResults_snd (settings : CompactSettings) (routines : Routines)
    (draft : Draft) :
    (if settings.recoverResults then draft.recoverResults routines else (draft, false)).2 = false ↔
      (settings.recoverResults → ∀ sub ∈ draft.tree.order, draft.resultIndex? sub = none) := by
  split
  · next hrecover =>
    have hfold := (part_recoverResult settings routines).foldl_snd (fun _ _ _ => Iff.rfl)
      draft.tree.order (draft, false)
    simpa [hrecover, recoverResults] using hfold
  · next hrecover => simp [hrecover]

theorem compactBlocks_snd (h : draft.Current routines) :
    (draft.compactBlocks settings routines).2 = false ↔
      ∀ block, draft.facts.isLive block → draft.rewrite? block settings = none := by
  have hfold := (part_compactNext settings routines).foldl_snd (fun _ _ _ => Iff.rfl)
    draft.enqueueBlocks.facts.worklist (draft.enqueueBlocks, false)
  unfold compactBlocks
  rw [hfold, enqueueBlocks_eq]
  constructor
  · rintro ⟨-, hblocks⟩ block hlive
    rw [h] at hlive
    obtain ⟨sub, hsub, hmem⟩ := Facts.exists_mem_blocksOf_analyze hlive
    rw [← h] at hlive hmem
    exact hblocks block (List.mem_append_left _ (List.mem_flatMap.2 ⟨sub, hsub, hmem⟩)) hlive
  · exact fun hblocks => ⟨rfl, fun block _ => hblocks block⟩

/-- A round changes exactly the drafts that are not normal. -/
theorem round_snd (settings : CompactSettings) (h : draft.Current routines) :
    (draft.round settings routines).2 = false ↔ draft.Normal settings := by
  have hquiet := recoverResults_snd settings routines draft
  unfold round
  dsimp only
  rw [Bool.or_eq_false_iff]
  constructor
  · rintro ⟨hresults, hblocks⟩
    obtain ⟨worklist, hqueue⟩ := (runs_recoverResults draft).eq_queue hresults
    rw [hqueue, compactBlocks_snd (h.queue worklist)] at hblocks
    exact ⟨hquiet.1 hresults, hblocks⟩
  · intro hnormal
    obtain ⟨worklist, hqueue⟩ := (runs_recoverResults draft).eq_queue (hquiet.2 hnormal.results)
    rw [hqueue, compactBlocks_snd (h.queue worklist)]
    exact ⟨hquiet.2 hnormal.results, hnormal.blocks⟩

theorem Ends.normal {count : Nat} (h : Ends settings routines count draft)
    (hcurrent : (rounds settings routines count draft).Current routines) :
    (rounds settings routines count draft).Normal settings ∧
      ∃ worklist, ((rounds settings routines count draft).round settings routines).1 =
        (rounds settings routines count draft).queue worklist :=
  ⟨(round_snd _ hcurrent).1 h.quiet, (runs_round _ _ _).eq_queue h.quiet⟩

theorem settleWithin_normal {limit : Nat} (hlimit : draft.measure < limit)
    (hcurrent : draft.Current routines) (hdraft : draft.Proper) :
    (settleWithin settings routines limit draft).1.Normal settings := by
  have hlowers := lowers_measure settings routines
  obtain ⟨count, hcount, hends⟩ := hlowers.exists_ends hcurrent hdraft
  have hlast := (hlowers.changes (changes_rounds count draft) hcurrent hdraft).1
  obtain ⟨hnormal, worklist, hqueue⟩ := hends.normal hlast
  rw [hends.settleWithin (Nat.lt_of_le_of_lt hcount hlimit), hqueue]
  exact hnormal.queue worklist

theorem Normal.settle (h : draft.Normal settings) (hcurrent : draft.Current routines) :
    ∃ worklist, draft.settle settings routines = (draft.queue worklist, false) := by
  have hquiet := (round_snd _ hcurrent).2 h
  obtain ⟨worklist, hqueue⟩ := (runs_round _ _ draft).eq_queue hquiet
  have hpos : 0 < Nat.pow (draft.tree.extent + 2) 12 := Nat.pow_pos (by omega)
  obtain ⟨limit, hlimit⟩ := Nat.exists_eq_add_one_of_ne_zero (Nat.ne_of_gt hpos)
  refine ⟨worklist, ?_⟩
  rw [Draft.settle, hlimit, settleWithin]
  simp only [hquiet, Bool.false_eq_true, if_false]
  exact Prod.ext hqueue hquiet

end Draft

end ScriptLift
