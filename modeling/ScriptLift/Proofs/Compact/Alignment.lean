import ScriptLift.Proofs.Compact.Recovery
import ScriptLift.Proofs.Lift.Entries

/-! Results and calls: an argument that becomes a result goes from all calls at once.

Formals and calls stay as many, whichever subroutine has its turn, since all calls that the walk comes
to are recorded, and each of them once. The facts are made anew behind every turn, and what the walk
comes to only gets less on the way. -/
namespace ScriptLift

namespace Draft

variable {routines : Routines} {draft : Draft} {sub : SubId} {index : Nat} {formal : Formal}
  {n : NodeId}

/-- The facts are up to date, subroutines start with blocks of their own, and every call that the walk
comes to stands in one place and passes as many arguments as its callee has. -/
structure Aligned (routines : Routines) (draft : Draft) : Prop where
  current : draft.Current routines
  closed : draft.tree.Closed
  rooted : draft.tree.Rooted
  roots : (draft.tree.order.map fun sub => (draft.tree.sub sub).root).Nodup
  once : ∀ n, draft.tree.kind n = .call → (draft.tree.walked routines).count n ≤ 1
  arity : ∀ n ∈ draft.tree.walked routines, ∀ callee arguments,
    draft.tree.node n = .call callee arguments →
      arguments.length = (draft.tree.sub callee).formals.length

theorem Aligned.callsOf (h : draft.Aligned routines) (sub : SubId) :
    draft.facts.callsOf sub = (draft.tree.walked routines).filter (draft.tree.isCallOf sub) := by
  rw [h.current]
  exact Facts.callsOf_analyze_eq sub

theorem isCallOf_iff {tree : Tree} {callee : SubId} :
    tree.isCallOf callee n ↔ ∃ arguments, tree.node n = .call callee arguments := by
  unfold Tree.isCallOf
  cases tree.node n <;> simp

theorem Aligned.mem_callsOf (h : draft.Aligned routines) : n ∈ draft.facts.callsOf sub ↔
    n ∈ draft.tree.walked routines ∧ ∃ arguments, draft.tree.node n = .call sub arguments := by
  rw [h.callsOf, List.mem_filter, isCallOf_iff]

theorem Aligned.nodup_callsOf (h : draft.Aligned routines) (sub : SubId) :
    (draft.facts.callsOf sub).Nodup := by
  rw [List.nodup_iff_count_le_one]
  intro n
  by_cases hmem : n ∈ draft.facts.callsOf sub
  · obtain ⟨-, arguments, hnode⟩ := h.mem_callsOf.1 hmem
    have hkind : draft.tree.kind n = .call := by rw [Tree.kind, hnode, Node.kind]
    rw [h.callsOf]
    exact Nat.le_trans (List.filter_sublist.count_le n) (h.once n hkind)
  · rw [List.count_eq_zero_of_not_mem hmem]
    exact Nat.zero_le 1

/-- The turn of a subroutine that answers an argument: it goes from the formals and from all calls of
the subroutine, its slot is declared first and answered by the returns, and calls that passed a slot
have it as their destination. Nothing else changes. -/
structure Turn (routines : Routines) (old new : Draft) (sub : SubId) (index : Nat) (formal : Formal) :
    Prop where
  chosen : old.resultIndex? sub = some index
  argument : (old.tree.sub sub).formals[index]? = some formal
  answers : new.tree.sub sub = answering index formal (old.tree.sub sub)
  others : ∀ other, other ≠ sub → new.tree.sub other = old.tree.sub other
  order : new.tree.order = old.tree.order
  storage : ∃ slot, old.tree.node formal.slot = .slot slot ∧
    new.tree.node formal.slot = .slot { slot with storage := .result }
  declared : new.tree.statements (old.tree.sub sub).root =
    formal.slot :: old.tree.statements (old.tree.sub sub).root
  calls : ∀ n ∈ old.tree.walked routines, ∀ callee arguments,
    old.tree.node n = .call callee arguments → new.tree.node n =
      .call callee (if callee = sub then arguments.eraseIdx index else arguments)
  returns : ∀ n value, old.tree.node n = .ret value → new.tree.node n =
    .ret (if n ∈ old.facts.returnsOf sub then some formal.slot else value)
  frame : ∀ n, n ≠ formal.slot → n ≠ (old.tree.sub sub).root → n ∉ old.facts.callsOf sub →
    n ∉ old.facts.returnsOf sub → new.tree.node n = old.tree.node n
  taken : ∀ n ∈ old.tree.walked routines, ∀ arguments, old.tree.node n = .call sub arguments →
    ∃ removed, arguments[index]? = some removed ∧ new.facts.destination? n =
      if old.tree.isSlot removed then some removed else old.facts.destination? n
  kept : ∀ n callee arguments, old.tree.node n = .call callee arguments → callee ≠ sub →
    new.facts.destination? n = old.facts.destination? n
  prunes : old.tree.Prunes new.tree formal.slot

theorem sub_makeResult {other : SubId}
    (hformal : (draft.tree.sub sub).formals[index]? = some formal) :
    (draft.makeResult sub index formal).tree.sub other =
      if other = sub then answering index formal (draft.tree.sub sub) else draft.tree.sub other := by
  have hedits := edits_makeResult draft sub index formal
  have hsame : (draft.makeResult sub index formal).tree.sub other =
      (draft.tree.modifySub sub (answering index formal)).sub other := by
    rw [Tree.sub, Tree.sub, hedits.subroutines, hedits.size]
  rw [hsame]
  split
  case isTrue heq =>
    subst heq
    exact Tree.sub_modifySub_self (lt_size_of_formal hformal)
  case isFalse hne => exact Tree.sub_modifySub_of_ne hne

/-- What a turn leaves is refreshed, which changes no destination. -/
theorem Aligned.turn (h : draft.Aligned routines) (hsub : sub ∈ draft.tree.order)
    (hindex : draft.resultIndex? sub = some index)
    (hformal : (draft.tree.sub sub).formals[index]? = some formal) :
    Turn routines draft ((draft.makeResult sub index formal).refresh routines) sub index formal := by
  have hcalls := h.nodup_callsOf sub
  have hroot := h.closed.root sub hsub
  have hslot := isSlot_of_resultIndex? h.current hindex hformal
  have hnode : ∀ n, (draft.makeResult sub index formal).tree.node n =
      draft.recoveredNode sub index formal n := node_makeResult hcalls hroot
  have hdestination : ∀ n,
      ((draft.makeResult sub index formal).refresh routines).facts.destination? n =
        if n ∈ draft.facts.callsOf sub then (draft.taken? index n).or (draft.facts.destination? n)
        else draft.facts.destination? n := fun n => by
    rw [refresh, Facts.destination?, Facts.destinations_analyze]
    exact destination?_makeResult hcalls hroot n
  constructor
  case chosen => exact hindex
  case argument => exact hformal
  case answers => exact (sub_makeResult hformal).trans (if_pos rfl)
  case others => exact fun other hother => (sub_makeResult hformal).trans (if_neg hother)
  case order => exact (edits_makeResult draft sub index formal).order
  case storage =>
    obtain ⟨slot, hwas⟩ := Tree.node_of_isSlot hslot
    refine ⟨slot, hwas, (hnode formal.slot).trans ?_⟩
    rw [recoveredNode, hwas]
    exact congrArg Node.slot (if_pos rfl)
  case declared =>
    have hwas := Tree.node_of_kind_block (h.rooted sub hsub)
    have hbehind := hnode (draft.tree.sub sub).root
    rw [recoveredNode, hwas] at hbehind
    have hnow : ((draft.makeResult sub index formal).refresh routines).tree.node
        (draft.tree.sub sub).root = .block (formal.slot :: draft.tree.statements _) :=
      hbehind.trans (congrArg Node.block (if_pos rfl))
    rw [Tree.statements, hnow]
  case calls =>
    intro n hn callee arguments hwas
    refine (hnode n).trans ?_
    rw [recoveredNode, hwas]
    have hiff : n ∈ draft.facts.callsOf sub ↔ callee = sub := by
      rw [h.mem_callsOf, hwas]
      simp [hn]
    exact congrArg (Node.call callee) (if_congr hiff rfl rfl)
  case returns =>
    intro n value hwas
    refine (hnode n).trans ?_
    rw [recoveredNode, hwas]
  case frame =>
    intro n hslot hroot hcall hreturn
    refine (hnode n).trans ?_
    rw [recoveredNode]
    cases hwas : draft.tree.node n <;> simp [hslot, hroot, hcall, hreturn]
  case taken =>
    intro n hn arguments hwas
    have hlength := h.arity n hn sub arguments hwas
    have hlt : index < arguments.length := by
      rw [hlength]
      exact (List.getElem?_eq_some_iff.1 hformal).1
    refine ⟨arguments[index], List.getElem?_eq_getElem hlt, ?_⟩
    rw [hdestination, if_pos (h.mem_callsOf.2 ⟨hn, arguments, hwas⟩), taken?, Tree.actual?, hwas]
    dsimp only
    rw [List.getElem?_eq_getElem hlt]
    by_cases hremoved : draft.tree.isSlot arguments[index] <;> simp [hremoved, Option.filter]
  case kept =>
    intro n callee arguments hwas hne
    rw [hdestination, if_neg]
    intro hmem
    obtain ⟨-, others, hcall⟩ := h.mem_callsOf.1 hmem
    rw [hwas] at hcall
    cases hcall
    exact hne rfl
  case prunes => exact prunes_makeResult hcalls h.closed hsub hslot

/-- Calls and their callees lose the same argument, so they stay aligned. -/
theorem Aligned.recover (h : draft.Aligned routines) (hsub : sub ∈ draft.tree.order)
    (hindex : draft.resultIndex? sub = some index)
    (hformal : (draft.tree.sub sub).formals[index]? = some formal) :
    ((draft.makeResult sub index formal).refresh routines).Aligned routines := by
  have hturn := h.turn hsub hindex hformal
  have hprunes := hturn.prunes
  have hapart : ∀ {n}, draft.tree.kind n = .call → n ≠ formal.slot := fun hkind =>
    hprunes.ne_of_kind (by simp [hkind])
  constructor
  case current => exact current_refresh routines _
  case closed =>
    have hrewires := (recovery_makeResult draft sub index formal).rewires
    refine hrewires.closed h.closed fun _ _ heq => ?_
    exact heq ▸ Tree.lt_size_of_isSlot
      (hrewires.kinds.isSlot (isSlot_of_resultIndex? h.current hindex hformal))
  case rooted =>
    intro other hother
    rw [hprunes.order] at hother
    rw [hprunes.root other hother, hprunes.kind]
    exact h.rooted other hother
  case roots =>
    rw [hprunes.order, List.map_congr_left hprunes.root]
    exact h.roots
  case once =>
    intro n hkind
    rw [hprunes.kind] at hkind
    exact Nat.le_trans (hprunes.count_walked (hapart hkind)) (h.once n hkind)
  case arity =>
    intro n hn callee arguments hnode
    have hkind : draft.tree.kind n = .call := by
      rw [← hprunes.kind, Tree.kind, hnode, Node.kind]
    obtain ⟨callee', passed, hwas⟩ := Tree.node_of_kind_call hkind
    have hwalked := (hprunes.mem_walked hn).resolve_right (hapart hkind)
    have hlength := h.arity n hwalked callee' passed hwas
    have hnow := hturn.calls n hwalked callee' passed hwas
    rw [hnode] at hnow
    cases hnow
    split
    · next heq =>
      subst heq
      rw [hturn.answers, answering, List.length_eraseIdx, List.length_eraseIdx, hlength]
    · next hne => rw [hturn.others callee hne, hlength]

/-- What a pass that settles results leaves: which argument becomes the result is decided once for
each subroutine, and holds for its formals, its calls and what it declares. -/
structure Settles (routines : Routines) (old new : Draft) (decision : SubId → Option (Nat × Formal)) :
    Prop where
  argument : ∀ sub index formal, decision sub = some (index, formal) →
    sub ∈ old.tree.order ∧ (old.tree.sub sub).formals[index]? = some formal
  order : new.tree.order = old.tree.order
  kind : ∀ n, new.tree.kind n = old.tree.kind n
  walked : ∀ n ∈ new.tree.walked routines, n ∈ old.tree.walked routines ∨ old.tree.kind n = .slot
  statements : ∀ block, ∀ s ∈ new.tree.statements block,
    old.tree.kind s = .slot ∨ s ∈ old.tree.statements block
  subs : ∀ sub, new.tree.sub sub =
    (decision sub).elim (old.tree.sub sub) fun d => answering d.1 d.2 (old.tree.sub sub)
  declared : ∀ sub ∈ old.tree.order, new.tree.statements (old.tree.sub sub).root =
    (decision sub).elim [] (fun d => [d.2.slot]) ++ old.tree.statements (old.tree.sub sub).root
  results : ∀ n, (old.tree.storage? n = some .result ∨
    ∃ sub d, decision sub = some d ∧ d.2.slot = n) → new.tree.storage? n = some .result
  calls : ∀ n ∈ new.tree.walked routines, ∀ callee arguments,
    old.tree.node n = .call callee arguments → new.tree.node n =
      .call callee ((decision callee).elim arguments fun d => arguments.eraseIdx d.1)
  taken : ∀ n ∈ new.tree.walked routines, ∀ callee arguments,
    old.tree.node n = .call callee arguments → ∀ d, decision callee = some d →
      ∃ removed, arguments[d.1]? = some removed ∧ new.facts.destination? n =
        if old.tree.isSlot removed then some removed else old.facts.destination? n
  kept : ∀ n callee arguments, old.tree.node n = .call callee arguments → decision callee = none →
    new.facts.destination? n = old.facts.destination? n

theorem Settles.unnested {old new : Draft} {decision : SubId → Option (Nat × Formal)}
    (h : Settles routines old new decision) (hnested : old.tree.Unnested) : new.tree.Unnested := by
  intro block s hs
  rw [h.kind]
  rcases h.statements block s hs with hslot | hwas
  · simp [hslot]
  · exact hnested block s hwas

theorem Settles.refl (routines : Routines) (draft : Draft) :
    Settles routines draft draft fun _ => none where
  argument _ _ _ h := by cases h
  order := rfl
  kind _ := rfl
  walked _ hn := .inl hn
  statements _ _ hs := .inr hs
  subs _ := rfl
  declared _ _ := rfl
  results _ h := by
    rcases h with hresult | ⟨_, _, hnone, -⟩
    · exact hresult
    · cases hnone
  calls _ _ _ _ hnode := hnode
  taken _ _ _ _ _ _ h := by cases h
  kept _ _ _ _ _ := rfl

namespace Turn

variable {old mid new : Draft} (h : Turn routines old mid sub index formal)
  (hold : old.Aligned routines)
include h

theorem root (other : SubId) : (mid.tree.sub other).root = (old.tree.sub other).root := by
  by_cases heq : other = sub
  · rw [heq, h.answers, answering]
  · rw [h.others other heq]

theorem walked (hmem : n ∈ mid.tree.walked routines) (hkind : old.tree.kind n = .call) :
    n ∈ old.tree.walked routines :=
  (h.prunes.mem_walked hmem).resolve_right (h.prunes.ne_of_kind (by simp [hkind]))

include hold

theorem node_eq (hslot : n ≠ formal.slot) (hroot : n ≠ (old.tree.sub sub).root)
    (hcall : ∀ arguments, old.tree.node n ≠ .call sub arguments) (hret : old.tree.kind n ≠ .ret) :
    mid.tree.node n = old.tree.node n := by
  refine h.frame n hslot hroot (fun hmem => ?_) fun hmem => ?_
  · obtain ⟨-, arguments, hnode⟩ := hold.mem_callsOf.1 hmem
    exact hcall arguments hnode
  · rw [hold.current] at hmem
    have hreturn := Facts.isReturn_of_mem_returnsOf hmem
    exact hret (by simpa [Tree.isReturn] using hreturn)

theorem node_of_call {callee : SubId} {arguments : List NodeId} (hsub : sub ∈ old.tree.order)
    (hnode : old.tree.node n = .call callee arguments) (hne : callee ≠ sub) :
    mid.tree.node n = .call callee arguments := by
  have hkind : old.tree.kind n = .call := by rw [Tree.kind, hnode, Node.kind]
  rw [← hnode]
  refine h.node_eq hold (h.prunes.ne_of_kind (by simp [hkind])) (fun heq => ?_)
    (fun others hcall => ?_) (by simp [hkind])
  · rw [heq, hold.rooted sub hsub] at hkind
    cases hkind
  · rw [hnode] at hcall
    cases hcall
    exact hne rfl

theorem statements_of_ne {other : SubId} (hsub : sub ∈ old.tree.order)
    (hother : other ∈ old.tree.order) (hne : other ≠ sub) :
    mid.tree.statements (old.tree.sub other).root =
      old.tree.statements (old.tree.sub other).root := by
  have hkind := hold.rooted other hother
  have hnode : mid.tree.node (old.tree.sub other).root = old.tree.node (old.tree.sub other).root := by
    refine h.node_eq hold (h.prunes.ne_of_kind (by simp [hkind])) (fun heq => ?_)
      (fun arguments hnode => ?_) (by simp [hkind])
    · exact hne (List.inj_on_of_nodup_map hold.roots hother hsub heq)
    · rw [Tree.kind, hnode] at hkind
      cases hkind
  rw [Tree.statements, Tree.statements, hnode]

theorem storage?_result (hsub : sub ∈ old.tree.order)
    (hresult : old.tree.storage? n = some .result ∨ n = formal.slot) :
    mid.tree.storage? n = some .result := by
  by_cases hn : n = formal.slot
  · obtain ⟨slot, -, hnow⟩ := h.storage
    rw [hn, Tree.storage?, Tree.slot?, hnow]
    rfl
  · have hresult := hresult.resolve_right hn
    obtain ⟨slot, hnode⟩ : ∃ slot, old.tree.node n = .slot slot := by
      refine Tree.node_of_isSlot ?_
      rw [Tree.storage?, Option.map_eq_some_iff] at hresult
      obtain ⟨slot, hslot, -⟩ := hresult
      rw [Tree.isSlot, hslot, Option.isSome_some]
    have hkind : old.tree.kind n = .slot := by rw [Tree.kind, hnode, Node.kind]
    have hsame : mid.tree.node n = old.tree.node n := by
      refine h.node_eq hold hn (fun heq => ?_) (fun arguments hcall => ?_) (by simp [hkind])
      · rw [heq, hold.rooted sub hsub] at hkind
        cases hkind
      · rw [hnode] at hcall
        cases hcall
    rw [Tree.storage?, Tree.slot?, hsame]
    exact hresult

omit h hold in
theorem decided_iff {decision : SubId → Option (Nat × Formal)} {other : SubId} {d : Nat × Formal} :
    Function.update decision sub (some (index, formal)) other = some d ↔
      (other = sub ∧ d = (index, formal)) ∨ (other ≠ sub ∧ decision other = some d) := by
  by_cases heq : other = sub
  · subst heq
    simp [eq_comm]
  · simp [heq]

/-- A turn, and what a pass without that subroutine settles behind it. -/
theorem settles {decision : SubId → Option (Nat × Formal)} (hsub : sub ∈ old.tree.order)
    (hnext : Settles routines mid new decision) (hnone : decision sub = none) :
    Settles routines old new (Function.update decision sub (some (index, formal))) := by
  -- What comes behind the turn leaves the subroutine alone, and the turn leaves all others alone.
  have hother : ∀ {other}, other ≠ sub →
      Function.update decision sub (some (index, formal)) other = decision other :=
    fun hne => Function.update_of_ne hne _ _
  have hself : Function.update decision sub (some (index, formal)) sub = some (index, formal) :=
    Function.update_self _ _ _
  have hwalked : ∀ {n callee arguments}, n ∈ new.tree.walked routines →
      old.tree.node n = .call callee arguments → n ∈ old.tree.walked routines := by
    intro n callee arguments hn hnode
    have hkind : old.tree.kind n = .call := by rw [Tree.kind, hnode, Node.kind]
    refine h.walked ((hnext.walked n hn).resolve_right fun hslot => ?_) hkind
    rw [h.prunes.kind, hkind] at hslot
    cases hslot
  constructor
  case argument =>
    intro other index' formal' hdecision
    rcases decided_iff.1 hdecision with ⟨rfl, heq⟩ | ⟨hne, hdecision⟩
    · cases heq
      exact ⟨hsub, h.argument⟩
    · obtain ⟨hmem, hformal⟩ := hnext.argument other index' formal' hdecision
      rw [h.others other hne] at hformal
      exact ⟨h.order ▸ hmem, hformal⟩
  case order => exact hnext.order.trans h.order
  case kind => exact fun n => (hnext.kind n).trans (h.prunes.kind n)
  case walked =>
    intro n hn
    rcases hnext.walked n hn with hmid | hslot
    · rcases h.prunes.mem_walked hmid with hmem | rfl
      · exact .inl hmem
      · exact .inr h.prunes.isSlot
    · exact .inr (h.prunes.kind n ▸ hslot)
  case statements =>
    intro block s hs
    rcases hnext.statements block s hs with hslot | hmid
    · exact .inl (h.prunes.kind s ▸ hslot)
    · rcases List.mem_cons.1 ((h.prunes.statements block).subset hmid) with rfl | hwas
      · exact .inl h.prunes.isSlot
      · exact .inr hwas
  case subs =>
    intro other
    rw [hnext.subs]
    by_cases heq : other = sub
    · subst heq
      rw [hself, hnone, Option.elim_none, Option.elim_some, h.answers]
    · rw [hother heq, h.others other heq]
  case declared =>
    intro other hmem
    have hnew := hnext.declared other (h.order.symm ▸ hmem)
    rw [h.root] at hnew
    rw [hnew]
    by_cases heq : other = sub
    · subst heq
      rw [hself, hnone, h.declared]
      rfl
    · rw [hother heq, h.statements_of_ne hold hsub hmem heq]
  case results =>
    intro n hn
    apply hnext.results
    rcases hn with hresult | ⟨other, d, hdecision, hslot⟩
    · exact .inl (h.storage?_result hold hsub (.inl hresult))
    · rcases decided_iff.1 hdecision with ⟨-, rfl⟩ | ⟨-, hdecision⟩
      · exact .inl (h.storage?_result hold hsub (.inr hslot.symm))
      · exact .inr ⟨other, d, hdecision, hslot⟩
  case calls =>
    intro n hn callee arguments hnode
    have hwas := hwalked hn hnode
    have hnow := h.calls n hwas callee arguments hnode
    rw [hnext.calls n hn callee _ hnow]
    by_cases heq : callee = sub
    · subst heq
      rw [hself, hnone, if_pos rfl]
      rfl
    · rw [hother heq, if_neg heq]
  case taken =>
    intro n hn callee arguments hnode d hdecision
    have hwas := hwalked hn hnode
    have hnow := h.calls n hwas callee arguments hnode
    rcases decided_iff.1 hdecision with ⟨rfl, rfl⟩ | ⟨hne, hdecision⟩
    · obtain ⟨removed, hremoved, hdestination⟩ := h.taken n hwas arguments hnode
      exact ⟨removed, hremoved, (hnext.kept n callee _ hnow hnone).trans hdestination⟩
    · rw [if_neg hne] at hnow
      obtain ⟨removed, hremoved, hdestination⟩ := hnext.taken n hn callee arguments hnow d hdecision
      rw [Tree.isSlot_eq_of_kind (h.prunes.kind removed), h.kept n callee arguments hnode hne]
        at hdestination
      exact ⟨removed, hremoved, hdestination⟩
  case kept =>
    intro n callee arguments hnode hdecision
    have hne : callee ≠ sub := by
      rintro rfl
      rw [hself] at hdecision
      cases hdecision
    rw [hother hne] at hdecision
    have hmid := h.node_of_call hold hsub hnode hne
    rw [hnext.kept n callee arguments hmid hdecision]
    exact h.kept n callee arguments hnode hne

end Turn

/-- What is decided when a subroutine has its turn: nothing is done, or an argument is answered. -/
def Takes (routines : Routines) (sub : SubId) (old new : Draft × Bool) :
    Option (Nat × Formal) → Prop
  | none => old.1.resultIndex? sub = none ∧ new = old
  | some (index, formal) => new.2 = true ∧ Turn routines old.1 new.1 sub index formal

theorem Aligned.takes {state : Draft × Bool} (h : state.1.Aligned routines)
    (hsub : sub ∈ state.1.tree.order) : (recoverResult routines state sub).1.Aligned routines ∧
      ∃ d, Takes routines sub state (recoverResult routines state sub) d := by
  rw [recoverResult]
  cases hindex : state.1.resultIndex? sub with
  | none => exact ⟨h, none, hindex, rfl⟩
  | some index =>
    dsimp only
    cases hformal : (state.1.tree.sub sub).formals[index]? with
    | none =>
      unfold resultIndex? at hindex
      split at hindex
      · have hlt := (List.findIdx?_eq_some_iff_getElem.1 hindex).1
        rw [List.getElem?_eq_getElem hlt] at hformal
        cases hformal
      · cases hindex
    | some formal =>
      exact ⟨h.recover hsub hindex hformal, some (index, formal), rfl, h.turn hsub hindex hformal⟩

/-- Every subroutine of the list takes its turn in a state that is aligned. -/
def TakeTurns (routines : Routines) (subs : List SubId) (start : Draft × Bool)
    (decision : SubId → Option (Nat × Formal)) : Prop :=
  ∀ before sub behind, subs = before ++ sub :: behind →
    let state := before.foldl (recoverResult routines) start
    state.1.Aligned routines ∧
      Takes routines sub state (recoverResult routines state sub) (decision sub)

/-- By induction on who is left: whoever has had a turn has no other. -/
theorem Aligned.settles {subs : List SubId} (hnodup : subs.Nodup) (start : Draft × Bool)
    (h : start.1.Aligned routines) (hsubs : subs ⊆ start.1.tree.order) :
    let final := subs.foldl (recoverResult routines) start
    final.1.Aligned routines ∧ ∃ decision, Settles routines start.1 final.1 decision ∧
      TakeTurns routines subs start decision ∧ ∀ sub ∉ subs, decision sub = none := by
  induction subs generalizing start with
  | nil =>
    refine ⟨h, fun _ => none, .refl routines start.1, fun before sub behind hsplit => ?_,
      fun _ _ => rfl⟩
    simp at hsplit
  | cons sub subs ih =>
    rw [List.nodup_cons] at hnodup
    have hsub : sub ∈ start.1.tree.order := hsubs List.mem_cons_self
    obtain ⟨hmid, d, htakes⟩ := h.takes hsub
    have horder : (recoverResult routines start sub).1.tree.order = start.1.tree.order := by
      cases d with
      | none => rw [htakes.2]
      | some d => exact htakes.2.order
    obtain ⟨hfinal, decision, hsettles, hturns, hothers⟩ := ih hnodup.2 _ hmid
      (fun other hother => horder ▸ hsubs (List.mem_cons_of_mem sub hother))
    have hnone := hothers sub hnodup.1
    refine ⟨hfinal, Function.update decision sub d, ?_, fun before other behind hsplit => ?_, ?_⟩
    · cases d with
      | none =>
        rw [← hnone, Function.update_eq_self]
        rw [htakes.2] at hsettles
        rw [List.foldl_cons, htakes.2]
        exact hsettles
      | some d => exact htakes.2.settles h hsub hsettles hnone
    · cases before with
      | nil =>
        cases hsplit
        rw [Function.update_self]
        exact ⟨h, htakes⟩
      | cons first before =>
        cases hsplit
        have hne : other ≠ sub := by
          rintro rfl
          exact hnodup.1 (by simp)
        rw [Function.update_of_ne hne]
        exact hturns before other behind rfl
    · intro other hother
      rw [List.mem_cons, not_or] at hother
      rw [Function.update_of_ne hother.1]
      exact hothers other hother.2

end Draft

open Draft

variable {routines : Routines} {draft : Draft}

/-- Recovering results keeps formals and calls aligned. For every subroutine that answers an argument,
the same argument goes from its formals and from each of its calls that the walk comes to, its slot
becomes the result and is declared first, and what was passed is the destination of the call; turn by
turn, the recorded returns answer it, and nothing else changes. Where no block stands as a statement,
the walk comes to all calls and returns of the output. -/
theorem recovery_keeps_alignment (h : draft.Aligned routines) :
    let final := (draft.recoverResults routines).1
    final.Aligned routines ∧
    (∃ decision, Settles routines draft final decision ∧
      TakeTurns routines draft.tree.order (draft, false) decision) ∧
    (draft.tree.Unnested → ∀ n, final.tree.InOutput n →
      final.tree.kind n = .call ∨ final.tree.kind n = .ret → n ∈ final.tree.walked routines) := by
  intro final
  have hnodup : draft.tree.order.Nodup := h.roots.of_map _
  obtain ⟨hfinal, decision, hsettles, hturns, -⟩ :=
    Aligned.settles hnodup (draft, false) h (List.Subset.refl _)
  refine ⟨hfinal, ⟨decision, hsettles, hturns⟩, fun hnested n hn hkind => ?_⟩
  have hwalkable : final.tree.Walkable :=
    ⟨hfinal.closed, hsettles.unnested hnested, hfinal.rooted⟩
  refine hwalkable.mem_walked hn ?_ ?_ <;>
    rcases hkind with hkind | hkind <;> simp [hkind]

/-- A main that asks another subroutine for a value and prints it. That one asks itself as well. -/
def askTree : Tree where
  exprs := #[⟨13, .block [⟨1⟩, ⟨2⟩, ⟨3⟩, ⟨4⟩]⟩, ⟨13, .slot { type := .int }⟩,
    ⟨17, .call ⟨1⟩ [⟨11⟩, ⟨1⟩]⟩, ⟨21, .action 1 [⟨1⟩]⟩, ⟨26, .ret none⟩,
    ⟨28, .block [⟨12⟩, ⟨13⟩, ⟨15⟩, ⟨8⟩, ⟨9⟩]⟩, ⟨28, .slot { type := .int, storage := .argument }⟩,
    ⟨44, .literal (.int 7)⟩, ⟨48, .binary .assign ⟨6⟩ ⟨7⟩ false⟩, ⟨52, .ret none⟩,
    ⟨28, .slot { type := .int, storage := .argument }⟩, ⟨15, .literal (.int 3)⟩,
    ⟨32, .action 1 [⟨10⟩]⟩, ⟨36, .slot { type := .int }⟩, ⟨38, .literal (.int 1)⟩,
    ⟨40, .call ⟨1⟩ [⟨14⟩, ⟨13⟩]⟩]
  subroutines := #[
    { name := "main", start := 13, stop := 26, root := ⟨0⟩ },
    { start := 28, stop := 52, root := ⟨5⟩,
      formals := [⟨⟨10⟩, .int, -8, false⟩, ⟨⟨6⟩, .int, -4, true⟩] }]
  order := [⟨0⟩, ⟨1⟩]

/-- The second argument becomes the result, of the call from main and of the one from within. -/
theorem recovery_keeps_alignment_askTree :
    let start := Draft.refresh { tree := askTree } {}
    let final := (start.recoverResults {}).1
    start.Aligned {} ∧ start.tree.Unnested ∧ final.Aligned {} ∧
      (final.tree.sub ⟨1⟩).formals = [⟨⟨10⟩, .int, -8, false⟩] ∧
      final.tree.node ⟨2⟩ = .call ⟨1⟩ [⟨11⟩] ∧ final.tree.node ⟨15⟩ = .call ⟨1⟩ [⟨14⟩] ∧
      final.tree.node ⟨9⟩ = .ret (some ⟨6⟩) ∧ final.tree.node ⟨4⟩ = .ret none ∧
      final.facts.destination? ⟨2⟩ = some ⟨1⟩ ∧ final.facts.destination? ⟨15⟩ = some ⟨13⟩ ∧
      final.tree.statements ⟨5⟩ = [⟨6⟩, ⟨12⟩, ⟨13⟩, ⟨15⟩, ⟨8⟩, ⟨9⟩] ∧
      ∀ n, final.tree.InOutput n → final.tree.kind n = .call ∨ final.tree.kind n = .ret →
        n ∈ final.tree.walked {} := by
  intro start final
  have honce : ∀ i < 16, askTree.kind ⟨i⟩ = .call → (askTree.walked {}).count ⟨i⟩ ≤ 1 := by
    decide +kernel
  have hcalls : ∀ n ∈ askTree.walked {}, askTree.kind n = .call → n = ⟨2⟩ ∨ n = ⟨15⟩ := by
    decide +kernel
  have hflat : ∀ i < 16, ∀ s ∈ askTree.statements ⟨i⟩, askTree.kind s ≠ .block := by decide +kernel
  have hnested : start.tree.Unnested := fun block s hs =>
    hflat block.index (Tree.lt_size_of_statement hs) s hs
  have haligned : start.Aligned {} := by
    refine ⟨Draft.current_refresh {} _, by decide +kernel, by decide +kernel, by decide +kernel,
      fun n hkind => ?_, fun n hn callee arguments hnode => ?_⟩
    · exact honce n.index (Tree.lt_size_of_kind_ne (by rw [hkind]; simp)) hkind
    · have hkind : start.tree.kind n = .call := by rw [Tree.kind, hnode, Node.kind]
      rcases hcalls n hn hkind with rfl | rfl <;> cases hnode <;> rfl
  obtain ⟨hfinal, -, hall⟩ := recovery_keeps_alignment haligned
  exact ⟨haligned, hnested, hfinal, by decide +kernel, by decide +kernel, by decide +kernel,
    by decide +kernel, by decide +kernel, by decide +kernel, by decide +kernel, by decide +kernel,
    hall hnested⟩

/-- A call in a block that stands as a statement. -/
def nestedCall : Tree where
  exprs := #[⟨13, .block [⟨1⟩]⟩, ⟨13, .block [⟨2⟩]⟩, ⟨15, .call ⟨1⟩ [⟨3⟩]⟩, ⟨13, .literal (.int 1)⟩,
    ⟨28, .block [⟨7⟩]⟩, ⟨28, .slot { type := .int, storage := .argument }⟩,
    ⟨28, .literal (.int 7)⟩, ⟨34, .binary .assign ⟨5⟩ ⟨6⟩ false⟩]
  subroutines := #[
    { name := "main", start := 13, stop := 26, root := ⟨0⟩ },
    { start := 28, stop := 42, root := ⟨4⟩, formals := [⟨⟨5⟩, .int, -4, true⟩] }]
  order := [⟨0⟩, ⟨1⟩]

/-- The walk does not come to it, and it keeps the argument that the subroutine loses. -/
theorem not_forall_recovery_keeps_arity : ¬∀ (routines : Routines) (draft : Draft),
    draft.Current routines → draft.tree.Closed → draft.tree.CycleFree → draft.tree.Rooted →
      (draft.tree.order.map fun sub => (draft.tree.sub sub).root).Nodup →
      (draft.tree.exprs.toList.flatMap (·.node.parts)).Nodup →
      (∀ n, draft.tree.InOutput n → ∀ callee arguments, draft.tree.node n = .call callee arguments →
        arguments.length = (draft.tree.sub callee).formals.length) →
      ∀ n, (draft.recoverResults routines).1.tree.InOutput n → ∀ callee arguments,
        (draft.recoverResults routines).1.tree.node n = .call callee arguments →
          arguments.length =
            ((draft.recoverResults routines).1.tree.sub callee).formals.length := by
  intro h
  let draft := Draft.refresh { tree := nestedCall } {}
  let final := (draft.recoverResults {}).1
  have hlayered : nestedCall.isLayered := by decide +kernel
  have hfree := (Tree.acyclic_of_isLayered hlayered).cycleFree
  have honly : ∀ i < 8, nestedCall.kind ⟨i⟩ = .call → i = 2 := by decide +kernel
  have harity : ∀ n, nestedCall.InOutput n → ∀ callee arguments,
      nestedCall.node n = .call callee arguments →
        arguments.length = (nestedCall.sub callee).formals.length := by
    intro n _ callee arguments hnode
    have hkind : nestedCall.kind n = .call := by rw [Tree.kind, hnode, Node.kind]
    have hlt : n.index < 8 := Tree.lt_size_of_kind_ne (by rw [hkind]; simp)
    obtain ⟨i⟩ := n
    obtain rfl := honly i hlt hkind
    cases hnode
    rfl
  have hstart : (final.tree.sub ⟨0⟩).root = ⟨0⟩ := by decide +kernel
  have hroot : final.tree.InOutput ⟨0⟩ := by
    refine ⟨⟨0⟩, by decide +kernel, ?_⟩
    rw [hstart]
  have hblock : final.tree.Holds ⟨0⟩ ⟨1⟩ := by
    unfold Tree.Holds
    decide +kernel
  have hcall : final.tree.Holds ⟨1⟩ ⟨2⟩ := by
    unfold Tree.Holds
    decide +kernel
  have hkept : final.tree.node ⟨2⟩ = .call ⟨1⟩ [⟨3⟩] := by decide +kernel
  have hlost : (final.tree.sub ⟨1⟩).formals.length = 0 := by decide +kernel
  have hlength := h {} draft (Draft.current_refresh {} _) (by decide +kernel) hfree
    (by decide +kernel) (by decide +kernel) (by decide +kernel) harity ⟨2⟩ ((hroot.step hblock).step hcall) _ _ hkept
  exact Nat.one_ne_zero (hlength.trans hlost)

end ScriptLift
