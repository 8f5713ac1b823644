import ScriptLift.Proofs.Lift.Copies
import ScriptLift.Proofs.Semantics.Simulation

/-! What a copy downwards assigns.

The copied words lie at the top and go to words below, one by one. That has the effect of one parallel
copy exactly if no assignment writes what a later one reads. The words are assigned from the highest
on, but the destination lies below the source: where the two overlap, the highest of the destination
are copied words that are still to be read. Only arguments are apart from the words they stand for. -/
namespace ScriptLift

namespace Store

variable {W : Type} {s : Store W} {p : NodeId × NodeId} {pairs : List (NodeId × NodeId)}
  {id : NodeId} {c : Content W}

/-- The store behind assignments, each from a slot that holds something. -/
def transfer (s : Store W) : List (NodeId × NodeId) → Store W
  | [] => s
  | p :: pairs =>
    match s.content p.2 with
    | some c => (s.assign p.1 c).transfer pairs
    | none => s.transfer pairs

theorem transfer_cons (hc : s.content p.2 = some c) :
    s.transfer (p :: pairs) = (s.assign p.1 c).transfer pairs := by
  rw [transfer, hc]

theorem isSome_assign (slot : NodeId) (c : Content W) (h : (s.content id).isSome) :
    ((s.assign slot c).content id).isSome := by
  by_cases hid : id = slot
  · rw [hid, content_assign_self, Option.isSome_some]
  · rwa [content_assign_of_ne _ _ hid]

theorem content_transfer_of_notMem (hid : id ∉ pairs.map Prod.fst) :
    (s.transfer pairs).content id = s.content id := by
  induction pairs generalizing s with
  | nil => rfl
  | cons p pairs ih =>
    rw [List.map_cons, List.mem_cons, not_or] at hid
    unfold transfer
    split
    · rw [ih hid.2, content_assign_of_ne _ _ hid.1]
    · exact ih hid.2

theorem content_transfer_of_source (hsome : ∀ p ∈ pairs, (s.content p.2).isSome)
    (htargets : (pairs.map Prod.fst).Nodup) (hp : p ∈ pairs) (hsource : p.2 ∉ pairs.map Prod.fst) :
    (s.transfer pairs).content p.1 = s.content p.2 := by
  induction pairs generalizing s with
  | nil => cases hp
  | cons first pairs ih =>
    obtain ⟨c, hc⟩ := Option.isSome_iff_exists.1 (hsome first List.mem_cons_self)
    rw [List.map_cons, List.nodup_cons] at htargets
    rw [List.map_cons, List.mem_cons, not_or] at hsource
    rw [transfer_cons hc]
    rcases List.mem_cons.1 hp with rfl | hp
    · rw [content_transfer_of_notMem htargets.1, content_assign_self, hc]
    · rw [ih (fun q hq => isSome_assign _ _ (hsome q (List.mem_cons_of_mem _ hq))) htargets.2 hp
        hsource.2, content_assign_of_ne _ _ hsource.1]

theorem content_transfer (hsome : ∀ p ∈ pairs, (s.content p.2).isSome)
    (htargets : (pairs.map Prod.fst).Nodup) (hlater : pairs.Pairwise fun p q => q.2 ≠ p.1)
    (hp : p ∈ pairs) : (s.transfer pairs).content p.1 = s.content p.2 := by
  induction pairs generalizing s with
  | nil => cases hp
  | cons first pairs ih =>
    obtain ⟨c, hc⟩ := Option.isSome_iff_exists.1 (hsome first List.mem_cons_self)
    rw [List.map_cons, List.nodup_cons] at htargets
    obtain ⟨hfirst, hrest⟩ := List.pairwise_cons.1 hlater
    rw [transfer_cons hc]
    rcases List.mem_cons.1 hp with rfl | hp
    · rw [content_transfer_of_notMem htargets.1, content_assign_self, hc]
    · rw [ih (fun q hq => isSome_assign _ _ (hsome q (List.mem_cons_of_mem _ hq))) htargets.2
        hrest hp, content_assign_of_ne _ _ (hfirst p hp)]

/-- Only then, if all that is read and written can be told apart. -/
theorem pairwise_of_transfer (hsome : ∀ p ∈ pairs, (s.content p.2).isSome)
    (htargets : (pairs.map Prod.fst).Nodup) (hsources : (pairs.map Prod.snd).Nodup)
    (hapart : ∀ p ∈ pairs, s.content p.1 = s.content p.2 → p.1 = p.2)
    (h : ∀ p ∈ pairs, (s.transfer pairs).content p.1 = s.content p.2) :
    pairs.Pairwise fun p q => q.2 ≠ p.1 := by
  induction pairs generalizing s with
  | nil => exact .nil
  | cons first pairs ih =>
    obtain ⟨c, hc⟩ := Option.isSome_iff_exists.1 (hsome first List.mem_cons_self)
    rw [List.map_cons, List.nodup_cons] at htargets hsources
    rw [transfer_cons hc] at h
    have hsome' : ∀ q ∈ pairs, ((s.assign first.1 c).content q.2).isSome := fun q hq =>
      isSome_assign _ _ (hsome q (List.mem_cons_of_mem _ hq))
    have hfirst : ∀ q ∈ pairs, q.2 ≠ first.1 := by
      intro q hq heq
      -- The slot is not written again, so the later assignment takes what the first one put there.
      have hlast := content_transfer_of_source hsome' htargets.2 hq (heq ▸ htargets.1)
      rw [h q (List.mem_cons_of_mem _ hq), heq, content_assign_self, ← hc] at hlast
      have hsame := hapart first List.mem_cons_self hlast
      exact hsources.1 (List.mem_map.2 ⟨q, hq, heq.trans hsame⟩)
    have hne : ∀ q ∈ pairs, q.1 ≠ first.1 := fun q hq heq =>
      htargets.1 (List.mem_map.2 ⟨q, hq, heq⟩)
    refine List.pairwise_cons.2 ⟨hfirst, ih hsome' htargets.2 hsources.2 (fun q hq hcontent => ?_)
      fun q hq => ?_⟩
    · rw [content_assign_of_ne _ _ (hne q hq), content_assign_of_ne _ _ (hfirst q hq)] at hcontent
      exact hapart q (List.mem_cons_of_mem _ hq) hcontent
    · rw [h q (List.mem_cons_of_mem _ hq), content_assign_of_ne _ _ (hfirst q hq)]

end Store

namespace Meaning

variable {W : Type} {M : Meaning W} {routines : Routines} {tree old new : Tree}

/-- The statements that were added transfer contents. -/
theorem executeAll_assignments {size : Nat} {declares : Bool} {added : List NodeId}
    {pairs : List (NodeId × NodeId)}
    (hadded : List.Forall₂ (fun s p => size ≤ s.index ∧
      tree.node s = .binary .assign p.1 p.2 declares) added pairs) :
    ∀ {s : Store W}, (∀ p ∈ pairs, p.2.index < size ∧ tree.isSlot p.2 ∧ (s.content p.2).isSome) →
      M.executeAll routines tree added s = some (s.transfer pairs) := by
  induction hadded with
  | nil => exact fun _ => rfl
  | @cons statement p added pairs hstatement _ ih =>
    intro s hsources
    obtain ⟨hsize, hnode⟩ := hstatement
    obtain ⟨hlt, hslot, hsome⟩ := hsources p List.mem_cons_self
    obtain ⟨c, hc⟩ := Option.isSome_iff_exists.1 hsome
    have hfirst : M.execute routines tree statement s = some (s.assign p.1 c) :=
      execute_of_gives (Tree.lt_size_of_node_ne (by simp [hnode]))
        (by simp [Tree.kind, hnode, Node.kind])
        (gives_assign hnode (Nat.lt_of_lt_of_le hlt hsize) (gives_slot hslot hc))
        (by simp [hnode]) (by simp [hnode])
    have hrest := ih (s := s.assign p.1 c) fun q hq =>
      ⟨(hsources q (List.mem_cons_of_mem _ hq)).1, (hsources q (List.mem_cons_of_mem _ hq)).2.1,
        Store.isSome_assign _ _ (hsources q (List.mem_cons_of_mem _ hq)).2.2⟩
    rw [Store.transfer_cons hc, ← hrest]
    simp only [executeAll, List.foldlM_cons, hfirst]
    rfl

end Meaning

theorem Context.Ordered.eq_of_slot_eq {ctx : Context} {size i j : Nat} {word other : Word}
    (h : ctx.Ordered size) (hi : ctx.word i = .ok word) (hj : ctx.word j = .ok other)
    (hslot : word.slot = other.slot) : i = j := by
  obtain ⟨hi', rfl⟩ := List.getElem?_eq_some_iff.1 (getElem?_of_word hi)
  obtain ⟨hj', rfl⟩ := List.getElem?_eq_some_iff.1 (getElem?_of_word hj)
  have hless := List.pairwise_iff_getElem.1 h.increasing
  rcases Nat.lt_trichotomy i j with hlt | rfl | hlt
  · exact absurd (congrArg NodeId.index hslot) (Nat.ne_of_lt (hless i j hi' hj' hlt))
  · rfl
  · exact absurd (congrArg NodeId.index hslot) (Nat.ne_of_gt (hless j i hj' hi' hlt))

namespace Workspace

/-- No two words share a slot and none is an argument; arguments are told apart by position. -/
structure Separate (ws : Workspace) : Prop where
  ordered : ws.context.Ordered ws.tree.size
  words : ws.HasWords
  outer : ws.outer.Lists ws.tree

namespace Separate

variable {ws ws' : Workspace} {index other : Nat} {slot : NodeId}

/-- A slot is used for one word only. -/
theorem eq_of_uses (h : ws.Separate) (huses : ws.Uses index slot) (hother : ws.Uses other slot) :
    index = other := by
  have hword : ∀ {i word position}, ws.context.word i = .ok word →
      (position, word.slot) ∈ ws.outer → False := fun hword hmem =>
    (h.words _ (Site.mem_of_word hword)).storage?_ne (h.outer.slot _ hmem).storage?
  cases huses with
  | @direct word hi =>
    generalize hslot : word.slot = slot at hother
    cases hother with
    | direct hj => exact h.ordered.eq_of_slot_eq hi hj hslot
    | argument _ _ hmem => exact (hword hi (hslot ▸ hmem)).elim
  | argument _ _ hmem =>
    cases hother with
    | direct hj => exact (hword hj hmem).elim
    | argument _ _ hmem' =>
      obtain ⟨s, hs, -, hposition⟩ := h.outer.slot _ hmem
      obtain ⟨s', hs', -, hposition'⟩ := h.outer.slot _ hmem'
      cases hs.symm.trans hs'
      have heq := Option.some.inj (hposition.symm.trans hposition')
      simp only [Workspace.position] at heq
      omega

theorem eq_of_uses_slot (h : ws.Separate) {one two : NodeId} (huses : ws.Uses index one)
    (hother : ws.Uses index two) : one = two := by
  cases huses with
  | direct hword hdirect => exact (hother.eq_of_isDirect hword hdirect).symm
  | argument hword hdirect hmem =>
    have hmem' := hother.mem_of_not_isDirect hword hdirect
    have hpositions : (ws.outer.map Prod.fst).Nodup :=
      List.pairwise_map.2 (h.outer.descending.imp fun hlt => (Int.ne_of_lt hlt).symm)
    exact congrArg Prod.snd (List.inj_on_of_nodup_map hpositions hmem hmem' rfl)

theorem uses_word_iff (h : ws.Separate) (huses : ws.Uses index slot) {word : Word}
    (hother : ws.context.word other = .ok word) :
    slot = word.slot ↔ index = other ∧ ws.IsDirect word := by
  constructor
  · rintro rfl
    generalize hslot : word.slot = slot at huses
    cases huses with
    | @direct own hown hdirect =>
      obtain rfl := h.ordered.eq_of_slot_eq hown hother hslot.symm
      cases hown.symm.trans hother
      exact ⟨rfl, hdirect⟩
    | argument _ _ hmem =>
      subst hslot
      exact absurd (h.outer.slot _ hmem).storage? (h.words _ (Site.mem_of_word hother)).storage?_ne
  · rintro ⟨rfl, hdirect⟩
    exact huses.eq_of_isDirect hother hdirect

theorem of_slots_eq (h : ws.Separate) (hcontext : ws'.context = ws.context)
    (houter : ws'.outer = ws.outer) (hsize : ws.tree.size ≤ ws'.tree.size)
    (hslots : ∀ id, ws'.tree.slot? id = ws.tree.slot? id) : ws'.Separate where
  ordered := hcontext ▸ h.ordered.mono hsize
  words word hword := by
    rw [Tree.IsWord, hslots]
    exact h.words word (hcontext ▸ hword)
  outer := houter ▸ h.outer.of_slots_eq fun _ _ => hslots _

/-- Updates that leave the context alone keep this. -/
theorem changes (h : ws.Separate) {site : Site} {script : Script}
    (hchanges : site.Changes script ws ws') (hcontext : ws'.context = ws.context)
    (hgrow : ws.tree.Grows ws'.tree) : ws'.Separate := by
  -- Arguments of other subroutines are not touched.
  have hholds : ws.Holds (fun id => ws.tree.storage? id = some .argument ∧
      ¬∃ position, (position, id) ∈ ws.outer) ws.tree := by
    refine ⟨h.outer, fun entry hentry hother => hother.2 ⟨entry.1, hentry⟩, fun id => ?_,
      fun _ _ => rfl⟩
    refine ⟨fun hid => ?_, ?_⟩
    · by_cases hlisted : ∃ position, (position, id) ∈ ws.outer
      · exact .inl hlisted
      · exact .inr ⟨hid, hlisted⟩
    · rintro (⟨position, hmem⟩ | hother)
      · exact (h.outer.slot _ hmem).storage?
      · exact hother.1
  obtain ⟨hwords, hlast⟩ := Site.Changes.keeps
    (P := fun ws => ws.HasWords ∧ ws.Holds _ _)
    (fun hchange hmid => ⟨hchange.hasWords hmid.1, hchange.holds hmid.1 hmid.2⟩) hchanges
    ⟨h.words, hholds⟩
  exact ⟨hcontext ▸ h.ordered.mono hgrow.size, hwords, hlast.outer⟩

end Separate

end Workspace

namespace Site

open Lift Workspace

variable {site : Site} {ws ws' : Workspace} {start count i : Nat}

theorem copyWordDown_eq_ok (hblock : ws.tree.IsBlock site.block)
    (h : site.copyWordDown start count i ws = .ok () ws') :
    ∃ left right, ws.context.word (ws.context.depth - 1 - i) = .ok right ∧
      ws'.Uses (start + count - 1 - i) left ∧ ws.Retains ws' ∧ ws'.context = ws.context ∧
      Tree.AddsAssignments site.block false [(left, right.slot)] ws.tree ws'.tree := by
  obtain ⟨_, _, hget, hafter⟩ := bind_eq_ok h
  cases hget
  obtain ⟨right, _, hcheck, hafterRight⟩ := bind_eq_ok hafter
  obtain ⟨hright, rfl⟩ := check_eq_ok hcheck
  obtain ⟨left, mid, haccess, hafterLeft⟩ := bind_eq_ok hafterRight
  obtain ⟨-, huses, hretains, hcontext⟩ := access_eq_ok haccess
  obtain ⟨_, typed, hretype, hassign⟩ := bind_eq_ok hafterLeft
  obtain ⟨htyped, hsame, hgrow, hstatements⟩ : mid.Retains typed ∧ typed.context = mid.context ∧
      mid.tree.Grows typed.tree ∧
      typed.tree.statements site.block = mid.tree.statements site.block := by
    cases hretype
    dsimp only
    split
    · exact ⟨.modifySlot _ _ fun _ => rfl, rfl, .modifySlot _ _ _, Tree.statements_modifySlot _⟩
    · exact ⟨.refl _, rfl, .refl _, rfl⟩
  have haccessed := assigns_access hblock haccess
  obtain ⟨added, hnone, hnothing, -⟩ := haccessed.added
  obtain rfl := List.eq_nil_of_length_eq_zero hnone
  rw [List.append_nil] at hnothing
  have hlater := (hblock.mono haccessed.grows).mono hgrow
  cases hassign
  have hrecord : typed.Retains { typed with tree := (typed.tree.alloc site.ins.offset
      (.binary .assign left right.slot false)).pushStatement site.block typed.tree.nextId } :=
    (Retains.alloc typed site.ins.offset (by simp)).trans (.pushStatement _ _ _)
  exact ⟨left, right, hright, huses.mono (htyped.trans hrecord),
    hretains.trans (htyped.trans hrecord), hsame.trans hcontext,
    .behind haccessed.grows hnothing (.behind hgrow hstatements
      (.record hlater site.ins.offset left right.slot))⟩

/-- So many words were assigned, the highest of them first. -/
structure Transferred (site : Site) (start count : Nat) (pairs : List (NodeId × NodeId))
    (ws ws' : Workspace) : Prop where
  context : ws'.context = ws.context
  retains : ws.Retains ws'
  assigns : Tree.AddsAssignments site.block false pairs ws.tree ws'.tree
  pair : ∀ i p, pairs[i]? = some p → ws'.Uses (start + count - 1 - i) p.1 ∧
    ∃ word, ws.context.word (ws.context.depth - 1 - i) = .ok word ∧ p.2 = word.slot

theorem copyDown_eq_ok (hblock : ws.tree.IsBlock site.block)
    (h : site.copyDown ws = .ok () ws') : ∃ start pairs,
      site.addressed ws = .ok start ws ∧ site.ins.words ≤ ws.context.depth ∧
      pairs.length = site.ins.words ∧
      site.Transferred start site.ins.words pairs ws ws' := by
  obtain ⟨start, mid, haddressed, hafter⟩ := bind_eq_ok h
  obtain rfl := addressed_eq_ok haddressed
  obtain ⟨_, _, hget, hrequire⟩ := bind_eq_ok hafter
  cases hget
  obtain ⟨_, first, hrequired, hloop⟩ := bind_eq_ok hrequire
  obtain ⟨hle, rfl⟩ := require_eq_ok hrequired
  rw [List.range_eq_range'] at hloop
  have hnone : ∃ pairs : List (NodeId × NodeId), pairs.length = 0 ∧
      site.Transferred start site.ins.words pairs first first :=
    ⟨[], rfl, rfl, .refl first, .refl first.tree, by simp⟩
  have hdone := forM_range_induction
    (P := fun i last => ∃ pairs : List (NodeId × NodeId), pairs.length = i ∧
      site.Transferred start site.ins.words pairs first last) hnone ?_ hloop
  · obtain ⟨pairs, hlength, hpairs⟩ := hdone
    rw [Nat.zero_add] at hlength
    exact ⟨start, pairs, haddressed, of_decide_eq_true hle, hlength, hpairs⟩
  · rintro i last next - hi ⟨pairs, rfl, hlast⟩ hrun
    obtain ⟨left, right, hright, huses, hretains, hcontext, hadds⟩ :=
      copyWordDown_eq_ok (hblock.mono hlast.assigns.grows) hrun
    rw [hlast.context] at hright hcontext
    refine ⟨pairs ++ [(left, right.slot)], by simp, hcontext, hlast.retains.trans hretains,
      hlast.assigns.trans hadds, forall_getElem?_concat (fun j p hp => ?_)
        ⟨huses, right, hright, rfl⟩⟩
    exact ⟨(hlast.pair j p hp).1.mono hretains, (hlast.pair j p hp).2⟩

namespace Transferred

variable {pairs : List (NodeId × NodeId)}

theorem le_depth (h : site.Transferred start count pairs ws ws') (hlength : pairs.length = count)
    (hpos : 0 < count) : start + count ≤ ws.context.depth := by
  have hfirst : pairs[0]? = some pairs[0] := List.getElem?_eq_getElem (by omega)
  have hlt := (h.pair 0 _ hfirst).1.lt_depth
  rw [h.context] at hlt
  omega

theorem targets_nodup (h : site.Transferred start count pairs ws ws') (hsep : ws'.Separate)
    (hlength : pairs.length = count) : (pairs.map Prod.fst).Nodup := by
  refine List.pairwise_map.2 (List.pairwise_iff_getElem.2 fun i j hi hj hlt heq => ?_)
  have hlow := (h.pair i _ (List.getElem?_eq_getElem hi)).1
  have hhigh := (h.pair j _ (List.getElem?_eq_getElem hj)).1
  have hindex := hsep.eq_of_uses hlow (heq ▸ hhigh)
  omega

theorem sources_nodup (h : site.Transferred start count pairs ws ws') (hsep : ws.Separate)
    (hlength : pairs.length = count) (hle : count ≤ ws.context.depth) :
    (pairs.map Prod.snd).Nodup := by
  refine List.pairwise_map.2 (List.pairwise_iff_getElem.2 fun i j hi hj hlt heq => ?_)
  obtain ⟨word, hword, hslot⟩ := (h.pair i _ (List.getElem?_eq_getElem hi)).2
  obtain ⟨other, hother, hslot'⟩ := (h.pair j _ (List.getElem?_eq_getElem hj)).2
  have hindex := hsep.ordered.eq_of_slot_eq hword hother
    (hslot.symm.trans (heq.trans hslot'))
  omega

/-- An assignment writes what a later one reads exactly at a copied word that is assigned as it
is, if the words move at all. -/
theorem pairwise_iff (h : site.Transferred start count pairs ws ws') (hsep : ws'.Separate)
    (hlength : pairs.length = count) (hle : count ≤ ws.context.depth) :
    pairs.Pairwise (fun p q => q.2 ≠ p.1) ↔ start + count = ws.context.depth ∨
      ∀ index, ws.context.depth - count ≤ index → index < start + count →
        ∀ word, ws.context.word index = .ok word → ¬ws.IsDirect word := by
  -- The target of the assignment `i` is the source of the assignment `j` if their words are one.
  have hsame : ∀ i j (hi : i < pairs.length) (hj : j < pairs.length) word,
      ws.context.word (ws.context.depth - 1 - j) = .ok word → (pairs[j].2 = pairs[i].1 ↔
        start + count - 1 - i = ws.context.depth - 1 - j ∧ ws.IsDirect word) := by
    intro i j hi hj word hword
    obtain ⟨huses, -⟩ := h.pair i _ (List.getElem?_eq_getElem hi)
    obtain ⟨-, source, hsource, hslot⟩ := h.pair j _ (List.getElem?_eq_getElem hj)
    cases hsource.symm.trans hword
    have hlater : ws'.context.word (ws.context.depth - 1 - j) = .ok word := by
      rw [h.context, hword]
    rw [hslot, eq_comm, hsep.uses_word_iff huses hlater, h.retains.isDirect_iff]
  rw [List.pairwise_iff_getElem]
  constructor
  · intro hpairwise
    by_cases hstill : start + count = ws.context.depth
    · exact .inl hstill
    · refine .inr fun index hlow hhigh word hword hdirect => ?_
      have hindex := Context.lt_depth_of_word hword
      have hend := h.le_depth hlength (by omega)
      have hi : start + count - 1 - index < pairs.length := by omega
      have hj : ws.context.depth - 1 - index < pairs.length := by omega
      have hread : ws.context.depth - 1 - (ws.context.depth - 1 - index) = index := by omega
      refine hpairwise _ _ hi hj (by omega) ((hsame _ _ hi hj word (by rwa [hread])).2 ⟨?_, hdirect⟩)
      omega
  · intro hall i j hi hj hlt heq
    obtain ⟨-, word, hword, -⟩ := h.pair j _ (List.getElem?_eq_getElem hj)
    obtain ⟨hindex, hdirect⟩ := (hsame i j hi hj word hword).1 heq
    rcases hall with hstill | hall
    · omega
    · exact hall _ (by omega) (by omega) word hword hdirect

end Transferred

/-- Executed one behind the other, the assignments that a copy downwards adds have the effect of one
parallel copy: each word of the destination holds what the copied word of its number held before. -/
def CopiesAtOnce (site : Site) (script : Script) (callees : List (Nat × SubId))
    (ws : Workspace) : Prop :=
  ∀ start flow ws', site.addressed ws = .ok start ws →
    site.execute script callees ws = .ok flow ws' → ∃ added,
      ws'.tree.statements site.block = ws.tree.statements site.block ++ added ∧
      ∀ (W : Type) (M : Meaning W) (routines : Routines) (s : Store W),
        (∀ word ∈ ws.context.stack, (s.content word.slot).isSome) →
        ∃ s', M.executeAll routines ws'.tree added s = some s' ∧
          ∀ k < site.ins.words, ∀ target source, ws'.Uses (start + k) target →
            ws.context.word (ws.context.depth - site.ins.words + k) = .ok source →
            s'.content target = s.content source.slot

/-- The assignments transfer what the copied words hold. -/
theorem Transferred.executeAll {pairs : List (NodeId × NodeId)} {added : List NodeId} {W : Type}
    {s : Store W} (M : Meaning W) (routines : Routines)
    (h : site.Transferred start count pairs ws ws') (hsep : ws.Separate)
    (hadded : ws'.tree.statements site.block = ws.tree.statements site.block ++ added)
    (hsome : ∀ word ∈ ws.context.stack, (s.content word.slot).isSome) :
    (∀ p ∈ pairs, (s.content p.2).isSome) ∧
      M.executeAll routines ws'.tree added s = some (s.transfer pairs) := by
  obtain ⟨others, hothers, hnodes⟩ := h.assigns.added
  obtain rfl := List.append_cancel_left (hothers.symm.trans hadded)
  have hword : ∀ p ∈ pairs, ∃ word ∈ ws.context.stack, p.2 = word.slot := by
    intro p hp
    obtain ⟨i, hi⟩ := List.mem_iff_getElem?.1 hp
    obtain ⟨-, word, hword, hslot⟩ := h.pair i p hi
    exact ⟨word, mem_of_word hword, hslot⟩
  have hcontent : ∀ p ∈ pairs, (s.content p.2).isSome := by
    intro p hp
    obtain ⟨word, hmem, hslot⟩ := hword p hp
    rw [hslot]
    exact hsome word hmem
  refine ⟨hcontent, Meaning.executeAll_assignments hnodes fun p hp => ?_⟩
  obtain ⟨word, hmem, hslot⟩ := hword p hp
  have hlt := (hsep.words word hmem).index_lt
  obtain ⟨slot, hs, -⟩ := hsep.words word hmem
  refine ⟨hslot ▸ hlt, h.assigns.grows.isSlot ?_, hcontent p hp⟩
  rw [hslot, Tree.isSlot, hs, Option.isSome_some]

variable {script : Script} {callees : List (Nat × SubId)}

theorem execute_copyDown {flow : Flow} (hop : site.ins.opcode.operation = .copyDown)
    (hblock : ws.tree.IsBlock site.block) (hsep : ws.Separate)
    (hrun : site.execute script callees ws = .ok flow ws') :
    ∃ start pairs, site.addressed ws = .ok start ws ∧
      site.ins.words ≤ ws.context.depth ∧ pairs.length = site.ins.words ∧
      site.Transferred start site.ins.words pairs ws ws' ∧ ws'.Separate := by
  simp only [execute, hop] at hrun
  obtain ⟨_, last, hcopy, hflow⟩ := bind_eq_ok hrun
  cases hflow
  obtain ⟨start, pairs, haddressed, hle, hlength, hpairs⟩ := copyDown_eq_ok hblock hcopy
  have hchanges : site.Proceeds script ws site.copyDown fun _ _ => True :=
    proceeds_copyDown
  rw [Proceeds, hcopy] at hchanges
  exact ⟨start, pairs, haddressed, hle, hlength, hpairs,
    hsep.changes hchanges.1 hpairs.context hpairs.assigns.grows⟩

theorem copiesAtOnce_iff (hop : site.ins.opcode.operation = .copyDown)
    (hblock : ws.tree.IsBlock site.block) (hsep : ws.Separate) :
    site.CopiesAtOnce script callees ws ↔
      ∀ start flow ws', site.addressed ws = .ok start ws →
        site.execute script callees ws = .ok flow ws' →
        start + site.ins.words = ws.context.depth ∨
          ∀ index, ws.context.depth - site.ins.words ≤ index → index < start + site.ins.words →
            ∀ word, ws.context.word index = .ok word → ¬ws.IsDirect word := by
  refine forall_congr' fun start => forall_congr' fun flow => forall_congr' fun ws' =>
    imp_congr_right fun haddressed => imp_congr_right fun hrun => ?_
  obtain ⟨_, pairs, haddressed', hle, hlength, hpairs, hsep'⟩ :=
    execute_copyDown hop hblock hsep hrun
  cases haddressed'.symm.trans haddressed
  rw [← hpairs.pairwise_iff hsep' hlength hle]
  have htargets := hpairs.targets_nodup hsep' hlength
  constructor
  · rintro ⟨added, hadded, hlaw⟩
    -- Every slot holds a number of its own.
    let s : Store Int := { content := fun id => some (.word id.index) }
    have hsome : ∀ word ∈ ws.context.stack, (s.content word.slot).isSome := fun _ _ => rfl
    obtain ⟨s', hexecute, hcopied⟩ := hlaw Int .integers {} s hsome
    obtain ⟨hcontent, htransfer⟩ := hpairs.executeAll .integers {} hsep hadded hsome
    cases htransfer.symm.trans hexecute
    refine Store.pairwise_of_transfer hcontent htargets (hpairs.sources_nodup hsep hlength hle)
      (fun p _ hsame => ?_) fun p hp => ?_
    · obtain ⟨⟨target⟩, ⟨source⟩⟩ := p
      simpa [s, Int.ofNat_inj] using hsame
    · obtain ⟨i, hi⟩ := List.mem_iff_getElem?.1 hp
      obtain ⟨hlt, -⟩ := List.getElem?_eq_some_iff.1 hi
      obtain ⟨huses, word, hword, hslot⟩ := hpairs.pair i p hi
      rw [hslot]
      refine hcopied (site.ins.words - 1 - i) (by omega) p.1 word ?_ ?_
      · rwa [show start + (site.ins.words - 1 - i) = start + site.ins.words - 1 - i by omega]
      · rwa [show ws.context.depth - site.ins.words + (site.ins.words - 1 - i) =
          ws.context.depth - 1 - i by omega]
  · intro hpairwise
    obtain ⟨added, hadded, -⟩ := hpairs.assigns.added
    refine ⟨added, hadded, fun W M routines s hsome => ?_⟩
    obtain ⟨hcontent, htransfer⟩ := hpairs.executeAll M routines hsep hadded hsome
    refine ⟨_, htransfer, fun k hk target source huses hsource => ?_⟩
    have hi : pairs[site.ins.words - 1 - k]? = some pairs[site.ins.words - 1 - k] :=
      List.getElem?_eq_getElem (by omega)
    obtain ⟨htarget, word, hword, hslot⟩ := hpairs.pair _ _ hi
    rw [show start + site.ins.words - 1 - (site.ins.words - 1 - k) = start + k by omega] at htarget
    rw [show ws.context.depth - 1 - (site.ins.words - 1 - k) =
      ws.context.depth - site.ins.words + k by omega] at hword
    cases hsource.symm.trans hword
    rw [hsep'.eq_of_uses_slot huses htarget, ← hslot]
    exact Store.content_transfer hcontent htargets hpairwise (List.getElem_mem _)

end Site

namespace Lift

variable {program : Program} {routines : Routines} {settings : LiftSettings} {count : Nat}
  {m : Machine} {visit : Visit}

theorem found_separate (h : stage program routines settings count = some m)
    (hvisit : m.visit? program = some visit) :
    (visit.found (script program routines) m).tree.IsBlock visit.site.block ∧
      (visit.found (script program routines) m).Separate := by
  have hpending := Visit.mem_pending (Machine.walk_of_visit? hvisit)
  have hact := Machine.act_mem_of_visit? hvisit
  have hstart : (visit.start m).Separate :=
    ⟨visit_ordered h hvisit, stage_isWord h _ hact _ hpending, (stage_filed h).outer _ hact⟩
  exact ⟨((visit_fills h hvisit).pending _ hpending).mono Visit.found_grows,
    hstart.of_slots_eq (Site.context_placeLabel _) (Site.outer_placeLabel _)
      (Nat.le_of_eq (Site.size_placeLabel _).symm) (Site.slot?_placeLabel _)⟩

end Lift

/-- What a copy downwards does, wherever no two words share a slot. If it succeeds, it assigns to
each word of the destination what the copied word of its number stands for, from the highest word
down. Executed one behind the other, these assignments have the effect of one parallel copy if the
words stay where they are, or if each word that is copied and assigned as well is used through an
argument of its own. Otherwise they have not. Every instruction of a run finds such a workspace. -/
theorem copies_down_at_once_iff (site : Site) (script : Script)
    (callees : List (Nat × SubId)) (ws : Workspace)
    (hop : site.ins.opcode.operation = .copyDown) (hblock : ws.tree.IsBlock site.block)
    (hsep : ws.Separate) :
    (∀ flow ws', site.execute script callees ws = .ok flow ws' → ∃ start pairs,
      site.addressed ws = .ok start ws ∧ pairs.length = site.ins.words ∧
      site.ins.words ≤ ws.context.depth ∧
      site.Transferred start site.ins.words pairs ws ws') ∧
    (site.CopiesAtOnce script callees ws ↔
      ∀ start flow ws', site.addressed ws = .ok start ws →
        site.execute script callees ws = .ok flow ws' →
        start + site.ins.words = ws.context.depth ∨
          ∀ index, ws.context.depth - site.ins.words ≤ index → index < start + site.ins.words →
            ∀ word, ws.context.word index = .ok word → ¬ws.IsDirect word) ∧
    ∀ (program : Program) (routines : Routines) (settings : LiftSettings) (count : Nat)
      (m : Machine) (visit : Visit), Lift.stage program routines settings count = some m →
      m.visit? program = some visit →
      (visit.found (Lift.script program routines) m).tree.IsBlock visit.site.block ∧
        (visit.found (Lift.script program routines) m).Separate := by
  refine ⟨fun flow ws' hrun => ?_, Site.copiesAtOnce_iff hop hblock hsep, ?_⟩
  · obtain ⟨start, pairs, haddressed, hle, hlength, hpairs, -⟩ :=
      Site.execute_copyDown hop hblock hsep hrun
    exact ⟨start, pairs, haddressed, hlength, hle, hpairs⟩
  · exact fun program routines settings count m visit hstage hvisit =>
      Lift.found_separate hstage hvisit

/-- Three words of the subroutine in progress. -/
def tripleWorkspace : Workspace where
  tree := { exprs := #[⟨0, .block []⟩, ⟨0, .slot { type := .int }⟩, ⟨0, .slot { type := .int }⟩,
    ⟨0, .slot { type := .int }⟩] }
  context := { stack := [⟨⟨3⟩, ⟨0⟩⟩, ⟨⟨2⟩, ⟨0⟩⟩, ⟨⟨1⟩, ⟨0⟩⟩], calls := [⟨⟨0⟩, 0⟩] }

theorem tripleWorkspace_separate : tripleWorkspace.Separate where
  ordered := ⟨by decide, by decide⟩
  words := by
    intro word hword
    obtain rfl | rfl | rfl : word = ⟨⟨3⟩, ⟨0⟩⟩ ∨ word = ⟨⟨2⟩, ⟨0⟩⟩ ∨ word = ⟨⟨1⟩, ⟨0⟩⟩ := by
      simpa [tripleWorkspace] using hword
    all_goals exact ⟨{ type := .int }, rfl, by decide⟩
  outer := ⟨.nil, fun _ hentry => absurd hentry List.not_mem_nil,
    fun _ hentry => absurd hentry List.not_mem_nil⟩

/-- A copy of so many bytes to the lowest word. -/
def tripleSite (size : UInt16) : Site :=
  ⟨{ opcode := .cpdownsp, stack := -12, size }, 0, ⟨0⟩, 0⟩

/-- One word is copied over another. -/
theorem tripleWorkspace_copies_down : tripleWorkspace.tree.IsBlock (tripleSite 4).block ∧
    (tripleSite 4).ins.opcode.operation = .copyDown ∧ tripleWorkspace.Separate ∧
    (∃ flow ws', (tripleSite 4).execute { program := {}, routines := {} } [] tripleWorkspace =
      .ok flow ws') ∧
    (tripleSite 4).CopiesAtOnce { program := {}, routines := {} } [] tripleWorkspace ∧
    ∃ m visit, Lift.stage shortScript {} .strictly 5 = some m ∧
      m.visit? shortScript = some visit ∧
      (visit.found (Lift.script shortScript {}) m).Separate := by
  have hblock : tripleWorkspace.tree.IsBlock (tripleSite 4).block := ⟨by decide, by decide⟩
  obtain ⟨-, hlaw, hruns⟩ := copies_down_at_once_iff (tripleSite 4)
    { program := {}, routines := {} } [] tripleWorkspace rfl hblock tripleWorkspace_separate
  refine ⟨hblock, rfl, tripleWorkspace_separate, Lift.exists_of_accepts _ _ (by decide +kernel),
    hlaw.2 fun start flow ws' haddressed _ => .inr fun index hlow hhigh => ?_, ?_⟩
  · have hstart : (tripleSite 4).addressed tripleWorkspace = .ok 0 tripleWorkspace := rfl
    cases hstart.symm.trans haddressed
    change 3 - 1 ≤ index at hlow
    change index < 0 + 1 at hhigh
    omega
  · have hvisits : (Lift.stage shortScript {} .strictly 5).any fun m =>
        (m.visit? shortScript).isSome := by decide +kernel
    obtain ⟨m, hstage, hsome⟩ := (Option.any_eq_true _ _).1 hvisits
    obtain ⟨visit, hvisit⟩ := Option.isSome_iff_exists.1 hsome
    exact ⟨m, visit, hstage, hvisit, (hruns _ _ _ _ m visit hstage hvisit).2⟩

/-- Two words are copied one word down: the upper one is assigned first, and the lower one gets what
the upper one has got. -/
theorem not_forall_copies_down_at_once : ¬∀ (site : Site) (script : Script)
    (callees : List (Nat × SubId)) (ws : Workspace), site.ins.opcode.operation = .copyDown →
      ws.tree.IsBlock site.block → ws.Separate → site.CopiesAtOnce script callees ws := by
  intro hall
  have hblock : tripleWorkspace.tree.IsBlock (tripleSite 8).block := ⟨by decide, by decide⟩
  have hlaw := hall (tripleSite 8) { program := {}, routines := {} } [] tripleWorkspace rfl
    hblock tripleWorkspace_separate
  obtain ⟨flow, ws', hrun⟩ := Lift.exists_of_accepts
    ((tripleSite 8).execute { program := {}, routines := {} } []) tripleWorkspace (by decide +kernel)
  rcases (Site.copiesAtOnce_iff rfl hblock tripleWorkspace_separate).1 hlaw 0 flow ws' rfl hrun with
    hstill | hapart
  · exact absurd hstill (by decide)
  · exact hapart 1 (by decide) (by decide) ⟨⟨2⟩, ⟨0⟩⟩ rfl (.inl rfl)

end ScriptLift
