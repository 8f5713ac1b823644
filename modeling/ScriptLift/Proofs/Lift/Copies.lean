import ScriptLift.Proofs.Lift.Accesses
import ScriptLift.Proofs.Lift.Descents
import ScriptLift.Proofs.Semantics.Words

/-! What a copy to the top copies.

The words are copied one by one, from the lowest on, and each copy is pushed at once. So the stack
grows as fast as the index that is read next, and the index never passes the top if it lies below it
at first: a copy of more words than there are goes on with the copies that it has pushed itself. The
downward copy compares the number of words with the height of the stack, this one does not. -/
namespace ScriptLift

theorem forall_getElem?_concat {α : Type} {P : Nat → α → Prop} {xs : List α} {x : α}
    (h : ∀ i a, xs[i]? = some a → P i a) (hlast : P xs.length x) :
    ∀ i a, (xs ++ [x])[i]? = some a → P i a := by
  intro i a ha
  by_cases hi : i < xs.length
  · rw [List.getElem?_append_left hi] at ha
    exact h i a ha
  · obtain ⟨hlt, -⟩ := List.getElem?_eq_some_iff.1 ha
    obtain rfl : i = xs.length := by
      rw [List.length_append, List.length_singleton] at hlt
      omega
    rw [List.getElem?_concat_length] at ha
    cases ha
    exact hlast

namespace Tree

/-- These assignments were added to a block, one behind the other. -/
structure AddsAssignments (block : NodeId) (declares : Bool) (pairs : List (NodeId × NodeId))
    (old new : Tree) : Prop where
  grows : old.Grows new
  added : ∃ added : List NodeId, new.statements block = old.statements block ++ added ∧
    List.Forall₂ (fun s p => old.size ≤ s.index ∧
      new.node s = .binary .assign p.1 p.2 declares) added pairs

namespace AddsAssignments

variable {block : NodeId} {declares : Bool} {pairs more : List (NodeId × NodeId)}
  {tree old mid new : Tree}

theorem of_statements_eq (hgrow : old.Grows new)
    (h : new.statements block = old.statements block) :
    AddsAssignments block declares [] old new :=
  ⟨hgrow, [], by rw [h, List.append_nil], .nil⟩

theorem refl (tree : Tree) : AddsAssignments block declares [] tree tree :=
  of_statements_eq (.refl tree) rfl

theorem trans (h : AddsAssignments block declares pairs old mid)
    (g : AddsAssignments block declares more mid new) :
    AddsAssignments block declares (pairs ++ more) old new := by
  obtain ⟨added, hadded, hfirst⟩ := h.added
  obtain ⟨others, hothers, hsecond⟩ := g.added
  refine ⟨h.grows.trans g.grows, added ++ others, by rw [hothers, hadded, List.append_assoc],
    List.rel_append (hfirst.imp fun s p hs => ?_) (hsecond.imp fun s p hs => ?_)⟩
  · exact ⟨hs.1, g.grows.node_of_eq hs.2 (by simp [Node.kind]) (by simp [Node.kind])⟩
  · exact ⟨Nat.le_trans h.grows.size hs.1, hs.2⟩

theorem behind (h : old.Grows mid) (hsame : mid.statements block = old.statements block)
    (g : AddsAssignments block declares pairs mid new) :
    AddsAssignments block declares pairs old new :=
  (of_statements_eq h hsame).trans g

theorem record (hblock : tree.IsBlock block) (offset : Nat) (left right : NodeId) :
    AddsAssignments block declares [(left, right)] tree
      ((tree.alloc offset (.binary .assign left right declares)).pushStatement block
        tree.nextId) := by
  have hgrow := Grows.alloc tree offset (.binary .assign left right declares)
  have hlater := hblock.mono hgrow
  have hpush := Grows.pushStatement
    (tree.alloc offset (.binary .assign left right declares)) block tree.nextId
  refine ⟨hgrow.trans hpush, [tree.nextId], ?_, .cons ⟨Nat.le_refl _, ?_⟩ .nil⟩
  · rw [pushStatement, statements_modifyStatements_self _ hlater.kind hlater.lt,
      statements_alloc (by simp)]
  · exact hpush.node_of_eq node_alloc_nextId (by simp [Node.kind]) (by simp [Node.kind])

end AddsAssignments

end Tree

namespace Workspace

/-- Each pair is a word that was pushed and what its declaration assigns to it. -/
structure Copies (block : NodeId) (pairs : List (NodeId × NodeId)) (a b : Workspace) : Prop where
  retains : a.Retains b
  stack : b.context.stack =
    (pairs.map fun p => (⟨p.1, a.context.current⟩ : Word)).reverse ++ a.context.stack
  declares : Tree.AddsAssignments block true pairs a.tree b.tree

/-- The word `i` from `start` on can be copied: it is there and can be used, or it is a copy by then
because `start` lies below the top. -/
def Offers (ws : Workspace) (start i : Nat) : Prop :=
  start < ws.context.depth ∧ (start + i < ws.context.depth → ws.Usable (start + i))

variable {block : NodeId} {pairs : List (NodeId × NodeId)} {a b c ws : Workspace} {start : Nat}

namespace Copies

theorem refl (ws : Workspace) : Copies block [] ws ws := ⟨.refl ws, rfl, .refl ws.tree⟩

theorem depth (h : Copies block pairs a b) : b.context.depth = a.context.depth + pairs.length := by
  rw [Context.depth, h.stack, List.length_append, List.length_reverse, List.length_map,
    Nat.add_comm, Context.depth]

theorem word (h : Copies block pairs a b) {i : Nat} {p : NodeId × NodeId}
    (hp : pairs[i]? = some p) :
    b.context.word (a.context.depth + i) = .ok ⟨p.1, a.context.current⟩ := by
  have hget : b.context.stack.reverse[a.context.depth + i]? = some ⟨p.1, a.context.current⟩ := by
    rw [h.stack, List.reverse_append, List.reverse_reverse,
      List.getElem?_append_right (by simp [Context.depth]), List.getElem?_map]
    simp [Context.depth, hp]
  rw [Context.word, hget]

theorem snoc (h : Copies block pairs a b) {copy source : NodeId} (hretains : b.Retains c)
    (hcontext : c.context.stack = ⟨copy, b.context.current⟩ :: b.context.stack)
    (hadds : Tree.AddsAssignments block true [(copy, source)] b.tree c.tree) :
    Copies block (pairs ++ [(copy, source)]) a c where
  retains := h.retains.trans hretains
  stack := by
    rw [hcontext, h.stack, h.retains.current, List.map_append, List.reverse_append]
    rfl
  declares := h.declares.trans hadds

theorem usable_iff (h : Copies block pairs a b) :
    b.Usable (start + pairs.length) ↔ a.Offers start pairs.length := by
  constructor
  · intro husable
    have hlt := husable.lt_depth
    rw [h.depth] at hlt
    exact ⟨by omega, fun hold => (h.retains.usable_iff hold).1 husable⟩
  · rintro ⟨hlt, hold⟩
    by_cases hindex : start + pairs.length < a.context.depth
    · exact (h.retains.usable_iff hindex).2 (hold hindex)
    · obtain ⟨i, hi⟩ : ∃ i, start + pairs.length = a.context.depth + i :=
        ⟨start + pairs.length - a.context.depth, by omega⟩
      have hcopy : pairs[i]? = some pairs[i] := List.getElem?_eq_getElem (by omega)
      rw [hi]
      exact ⟨_, h.word hcopy, .inl (.inl h.retains.current.symm)⟩

theorem eq_of_uses (h : Copies block pairs a b) {i : Nat} {p : NodeId × NodeId} {slot : NodeId}
    (hp : pairs[i]? = some p) (huses : b.Uses (a.context.depth + i) slot) : slot = p.1 :=
  huses.eq_of_isDirect (h.word hp) (.inl h.retains.current.symm)

end Copies

end Workspace

namespace Site

open Lift Workspace

variable {site : Site} {ws mid ws' : Workspace} {start count i : Nat}

theorem copyWordTop_of_usable (hblock : ws.tree.IsBlock site.block)
    (husable : ws.Usable (start + i)) (count : Nat) :
    ∃ copy source ws', site.copyWordTop start count i ws = .ok () ws' ∧
      ws'.Uses (start + i) source ∧ ws.Retains ws' ∧
      ws'.context.stack = ⟨copy, ws.context.current⟩ :: ws.context.stack ∧
      Tree.AddsAssignments site.block true [(copy, source)] ws.tree ws'.tree := by
  obtain ⟨source, mid, haccess, huses, hretains, hcontext⟩ :=
    access_of_usable husable site .read
  let suffix := if 1 < count then some (toString i) else none
  let slot : Slot := { type := mid.tree.type source, suffix }
  let placed : Workspace := { mid with tree := mid.tree.alloc site.ins.offset (.slot slot) }
  let declared : Workspace := { mid with
    tree := (placed.tree.alloc site.ins.offset
      (.binary .assign mid.tree.nextId source true)).pushStatement site.block placed.tree.nextId }
  let pushed : Workspace := { declared with context := mid.context.push mid.tree.nextId }
  have hplaced : mid.Retains placed := .alloc mid _ (by
    rintro _ ⟨⟩
    simp [slot])
  have hdeclared : placed.Retains declared :=
    (Retains.alloc placed site.ins.offset (by simp)).trans (.pushStatement _ _ _)
  have hkeep : mid.Retains pushed := (hplaced.trans hdeclared).trans (.push declared _)
  have haccessed := assigns_access hblock haccess
  have hgrow : mid.tree.Grows placed.tree := .alloc _ _ _
  refine ⟨mid.tree.nextId, source, pushed, ?_, huses.mono hkeep, hretains.trans hkeep, ?_, ?_⟩
  · rw [copyWordTop, bind_of_ok haccess]
    rfl
  · rw [← hcontext]
    rfl
  · obtain ⟨added, hnone, hsame, -⟩ := haccessed.added
    obtain rfl := List.eq_nil_of_length_eq_zero hnone
    rw [List.append_nil] at hsame
    refine .behind haccessed.grows hsame (.behind hgrow (Tree.statements_alloc (by simp)) ?_)
    exact .record ((hblock.mono haccessed.grows).mono hgrow) site.ins.offset _ _

theorem copyWordTop_of_not_usable (h : ¬ws.Usable (start + i)) (site : Site) (count : Nat) :
    ∃ cause, site.copyWordTop start count i ws =
      .error (.inconsistent site.ins.offset site.ins.opcode cause) ws := by
  obtain ⟨cause, haccess⟩ := access_of_not_usable h site .read
  exact ⟨cause, bind_of_error haccess⟩

/-- So many words were copied, each as it was found. -/
structure Copied (site : Site) (start : Nat) (pairs : List (NodeId × NodeId))
    (ws ws' : Workspace) : Prop where
  copies : ws.Copies site.block pairs ws'
  uses : ∀ i p, pairs[i]? = some p → ws'.Uses (start + i) p.2
  offers : ∀ i < pairs.length, ws.Offers start i

/-- The loop goes on to its end, or up to a word that is not offered. -/
theorem copyWordsTop (hblock : ws.tree.IsBlock site.block) (count more : Nat) :
    ∀ {pairs mid}, site.Copied start pairs ws mid →
      (∃ pairs' ws', (List.range' pairs.length more).forM (site.copyWordTop start count) mid =
          .ok () ws' ∧ pairs'.length = pairs.length + more ∧ site.Copied start pairs' ws ws') ∨
      ∃ i cause ws', (List.range' pairs.length more).forM (site.copyWordTop start count) mid =
          .error (.inconsistent site.ins.offset site.ins.opcode cause) ws' ∧
        i < pairs.length + more ∧ ¬ws.Offers start i := by
  induction more with
  | zero => exact fun {pairs mid} hmid => .inl ⟨pairs, mid, rfl, rfl, hmid⟩
  | succ more ih =>
    intro pairs mid hmid
    rw [List.range'_succ]
    by_cases husable : mid.Usable (start + pairs.length)
    · obtain ⟨copy, source, next, hrun, huses, hretains, hstack, hadds⟩ :=
        copyWordTop_of_usable (hblock.mono hmid.copies.declares.grows) husable count
      have hnext : site.Copied start (pairs ++ [(copy, source)]) ws next := by
        refine ⟨hmid.copies.snoc hretains hstack hadds, forall_getElem?_concat
          (fun i p hp => (hmid.uses i p hp).mono hretains) huses, fun i hi => ?_⟩
        rw [List.length_append, List.length_singleton] at hi
        rcases Nat.lt_succ_iff_lt_or_eq.1 hi with hi | rfl
        · exact hmid.offers i hi
        · exact hmid.copies.usable_iff.1 husable
      have hrest := ih hnext
      rw [List.length_append, List.length_singleton, Nat.add_right_comm, Nat.add_assoc] at hrest
      have hloop : ∀ rest : List Nat,
          (pairs.length :: rest).forM (site.copyWordTop start count) mid =
            rest.forM (site.copyWordTop start count) next := fun _ => bind_of_ok hrun
      rw [hloop]
      exact hrest
    · obtain ⟨cause, hrun⟩ := copyWordTop_of_not_usable husable site count
      refine .inr ⟨pairs.length, cause, mid, bind_of_error hrun, by omega, fun hoffers => ?_⟩
      exact husable (hmid.copies.usable_iff.2 hoffers)

theorem copyTop_cases (hblock : ws.tree.IsBlock site.block)
    (hstart : site.addressed ws = .ok start ws) :
    (∃ pairs ws', site.copyTop ws = .ok () ws' ∧ pairs.length = site.ins.words ∧
      site.Copied start pairs ws ws') ∨
    ∃ i cause ws', site.copyTop ws =
        .error (.inconsistent site.ins.offset site.ins.opcode cause) ws' ∧
      i < site.ins.words ∧ ¬ws.Offers start i := by
  have hfirst : site.Copied start [] ws ws :=
    ⟨.refl ws, fun _ _ hp => absurd hp (by simp), fun _ hi => absurd hi (Nat.not_lt_zero _)⟩
  have hrun : site.copyTop ws =
      (List.range' 0 site.ins.words).forM (site.copyWordTop start site.ins.words) ws := by
    rw [copyTop, bind_of_ok hstart, List.range_eq_range']
    rfl
  have hloop := copyWordsTop hblock site.ins.words site.ins.words hfirst
  rw [List.length_nil, Nat.zero_add, ← hrun] at hloop
  exact hloop

variable {script : Script} {callees : List (Nat × SubId)}

theorem execute_copyTop_cases (script : Script) (callees : List (Nat × SubId))
    (hop : site.ins.opcode.operation = .copyTop)
    (hblock : ws.tree.IsBlock site.block) (hstart : site.addressed ws = .ok start ws) :
    (∃ pairs ws', site.execute script callees ws = .ok (.next site.ins.next) ws' ∧
      pairs.length = site.ins.words ∧ site.Copied start pairs ws ws') ∨
    ∃ i cause ws', site.execute script callees ws =
        .error (.inconsistent site.ins.offset site.ins.opcode cause) ws' ∧
      i < site.ins.words ∧ ¬ws.Offers start i := by
  simp only [execute, hop]
  rcases copyTop_cases hblock hstart with ⟨pairs, ws', hrun, hpairs⟩ | ⟨i, cause, ws', hrun, hi⟩
  · exact .inl ⟨pairs, ws', bind_of_ok hrun, hpairs⟩
  · exact .inr ⟨i, cause, ws', bind_of_error hrun, hi⟩

theorem addressed_of_execute {flow : Flow} (hop : site.ins.opcode.operation = .copyTop)
    (hrun : site.execute script callees ws = .ok flow ws') :
    ∃ start, site.addressed ws = .ok start ws := by
  simp only [execute, hop] at hrun
  obtain ⟨_, _, hcopy, -⟩ := bind_eq_ok hrun
  obtain ⟨start, mid, haddressed, -⟩ := bind_eq_ok hcopy
  obtain rfl := addressed_eq_ok haddressed
  exact ⟨start, haddressed⟩

/-- What is copied to the top was there before, word by word, and what would reach beyond the top is
refused. -/
structure CopiesPresent (site : Site) (script : Script)
    (callees : List (Nat × SubId)) (ws : Workspace) : Prop where
  present : ∀ flow ws', site.execute script callees ws = .ok flow ws' → ∃ start pairs,
    site.addressed ws = .ok start ws ∧ pairs.length = site.ins.words ∧
    ws.Copies site.block pairs ws' ∧
    ∀ i p, pairs[i]? = some p → start + i < ws.context.depth ∧ ws'.Uses (start + i) p.2
  refused : ∀ start, site.addressed ws = .ok start ws →
    ws.context.depth < start + site.ins.words → ∃ cause ws', site.execute script callees ws =
      .error (.inconsistent site.ins.offset site.ins.opcode cause) ws'

theorem copiesPresent_iff (hop : site.ins.opcode.operation = .copyTop)
    (hblock : ws.tree.IsBlock site.block) : site.CopiesPresent script callees ws ↔
      ∀ start, site.addressed ws = .ok start ws →
        start + site.ins.words ≤ ws.context.depth ∨ ∃ i < site.ins.words, ¬ws.Offers start i := by
  constructor
  · intro hlaw start hstart
    by_cases hle : start + site.ins.words ≤ ws.context.depth
    · exact .inl hle
    · obtain ⟨cause, ws', hfail⟩ := hlaw.refused start hstart (Nat.lt_of_not_le hle)
      rcases execute_copyTop_cases script callees hop hblock hstart with
        ⟨_, _, hrun, -⟩ | ⟨i, _, _, -, hi, hoffers⟩
      · cases hrun.symm.trans hfail
      · exact .inr ⟨i, hi, hoffers⟩
  · intro hall
    refine ⟨fun flow ws' hrun => ?_, fun start hstart hlt => ?_⟩
    · obtain ⟨start, hstart⟩ := addressed_of_execute hop hrun
      rcases execute_copyTop_cases script callees hop hblock hstart with
        ⟨pairs, _, hok, hlength, hcopied⟩ | ⟨_, _, _, herror, -⟩
      · cases hok.symm.trans hrun
        have hle : start + site.ins.words ≤ ws.context.depth := by
          refine (hall start hstart).resolve_right ?_
          rintro ⟨i, hi, hoffers⟩
          exact hoffers (hcopied.offers i (hlength ▸ hi))
        refine ⟨start, pairs, hstart, hlength, hcopied.copies, fun i p hp => ?_⟩
        obtain ⟨hlt, -⟩ := List.getElem?_eq_some_iff.1 hp
        exact ⟨by omega, hcopied.uses i p hp⟩
      · cases herror.symm.trans hrun
    · rcases execute_copyTop_cases script callees hop hblock hstart with
        ⟨_, _, _, hlength, hcopied⟩ | ⟨_, cause, ws', herror, -⟩
      · rcases hall start hstart with hle | ⟨i, hi, hoffers⟩
        · omega
        · exact absurd (hcopied.offers i (hlength ▸ hi)) hoffers
      · exact ⟨cause, ws', herror⟩

end Site

/-- What a copy to the top does, for every stack, offset and size. It succeeds exactly if the first
word lies below the top and all words of the region that are there can be used. Then it pushes and
declares so many words, one for each that it copies; where the region reaches beyond the top, the
words from there on are copies of its own first copies. If it fails behind its address, it is for an
inconsistency. So it copies only what was there, and refuses what is not, unless a region that begins
below the top and reaches beyond it can be used as far as it is there. -/
theorem copies_to_top (site : Site) (script : Script)
    (callees : List (Nat × SubId)) (ws : Workspace)
    (hop : site.ins.opcode.operation = .copyTop) (hblock : ws.tree.IsBlock site.block) :
    (∀ flow ws', site.execute script callees ws = .ok flow ws' → ∃ start pairs,
      site.addressed ws = .ok start ws ∧ pairs.length = site.ins.words ∧
      ws.Copies site.block pairs ws' ∧ ∀ i p, pairs[i]? = some p →
        (start + i < ws.context.depth → ws'.Uses (start + i) p.2) ∧
        ∀ k, start + i = ws.context.depth + k → ∃ q, pairs[k]? = some q ∧ p.2 = q.1) ∧
    (∀ start, site.addressed ws = .ok start ws →
      ((∃ flow ws', site.execute script callees ws = .ok flow ws') ↔
        ∀ i < site.ins.words, ws.Offers start i) ∧
      ∀ fault ws', site.execute script callees ws = .error fault ws' →
        ∃ cause, fault = .inconsistent site.ins.offset site.ins.opcode cause) ∧
    (site.CopiesPresent script callees ws ↔ ∀ start, site.addressed ws = .ok start ws →
      start + site.ins.words ≤ ws.context.depth ∨ ∃ i < site.ins.words, ¬ws.Offers start i) := by
  refine ⟨fun flow ws' hrun => ?_, fun start hstart => ?_, Site.copiesPresent_iff hop hblock⟩
  · obtain ⟨start, hstart⟩ := Site.addressed_of_execute hop hrun
    rcases Site.execute_copyTop_cases script callees hop hblock hstart with
      ⟨pairs, _, hok, hlength, hcopied⟩ | ⟨_, _, _, herror, -⟩
    · cases hok.symm.trans hrun
      refine ⟨start, pairs, hstart, hlength, hcopied.copies, fun i p hp => ?_⟩
      have huses := hcopied.uses i p hp
      refine ⟨fun _ => huses, fun k hk => ?_⟩
      obtain ⟨hlt, -⟩ := List.getElem?_eq_some_iff.1 hp
      have hbelow := (hcopied.offers i hlt).1
      have hcopy : pairs[k]? = some pairs[k] := List.getElem?_eq_getElem (by omega)
      rw [hk] at huses
      exact ⟨_, hcopy, hcopied.copies.eq_of_uses hcopy huses⟩
    · cases herror.symm.trans hrun
  · rcases Site.execute_copyTop_cases script callees hop hblock hstart with
      ⟨_, ws', hok, hlength, hcopied⟩ | ⟨i, cause, ws', herror, hi, hoffers⟩
    · refine ⟨iff_of_true ⟨_, ws', hok⟩ fun i hi => hcopied.offers i (hlength ▸ hi), ?_⟩
      intro fault last hfail
      cases hok.symm.trans hfail
    · refine ⟨iff_of_false ?_ fun hall => hoffers (hall i hi), ?_⟩
      · rintro ⟨flow, last, hok⟩
        cases herror.symm.trans hok
      · intro fault last hfail
        cases herror.symm.trans hfail
        exact ⟨cause, rfl⟩

/-- Two words of the subroutine in progress. -/
def pairWorkspace : Workspace where
  tree := { exprs := #[⟨0, .block []⟩, ⟨0, .slot { type := .int }⟩, ⟨0, .slot { type := .int }⟩] }
  context := { stack := [⟨⟨2⟩, ⟨0⟩⟩, ⟨⟨1⟩, ⟨0⟩⟩], calls := [⟨⟨0⟩, 0⟩] }

/-- A copy of two words from here on. -/
def pairSite (stack : Int32) : Site := ⟨{ opcode := .cptopsp, stack, size := 8 }, 0, ⟨0⟩, 0⟩

/-- Both words are copied to the top. -/
theorem pairWorkspace_copies : pairWorkspace.tree.IsBlock (pairSite (-8)).block ∧
    (pairSite (-8)).ins.opcode.operation = .copyTop ∧
    (pairSite (-8)).CopiesPresent { program := {}, routines := {} } [] pairWorkspace ∧
    ∃ flow ws', (pairSite (-8)).execute { program := {}, routines := {} } [] pairWorkspace =
      .ok flow ws' ∧ ws'.context.depth = 4 := by
  have hblock : pairWorkspace.tree.IsBlock (pairSite (-8)).block := ⟨by decide, by decide⟩
  obtain ⟨hpairs, -, hlaw⟩ := copies_to_top (pairSite (-8))
    { program := {}, routines := {} } [] pairWorkspace rfl hblock
  have hstart : (pairSite (-8)).addressed pairWorkspace = .ok 0 pairWorkspace := rfl
  refine ⟨hblock, rfl, hlaw.2 fun start haddressed => .inl ?_, ?_⟩
  · cases hstart.symm.trans haddressed
    decide
  · obtain ⟨flow, ws', hrun⟩ := Lift.exists_of_accepts
      ((pairSite (-8)).execute { program := {}, routines := {} } []) pairWorkspace (by decide +kernel)
    obtain ⟨start, pairs, -, hlength, hcopies, -⟩ := hpairs flow ws' hrun
    refine ⟨flow, ws', hrun, ?_⟩
    rw [hcopies.depth, hlength]
    decide

/-- A copy of two words from the topmost one on is not refused: the second is the first copy. -/
theorem not_forall_copies_present : ¬∀ (site : Site) (script : Script)
    (callees : List (Nat × SubId)) (ws : Workspace), site.ins.opcode.operation = .copyTop →
      ws.tree.IsBlock site.block → site.CopiesPresent script callees ws := by
  intro hall
  have hlaw := hall (pairSite (-4)) { program := {}, routines := {} } [] pairWorkspace rfl
    ⟨by decide, by decide⟩
  obtain ⟨cause, ws', herror⟩ := hlaw.refused 1 rfl (by decide)
  obtain ⟨flow, last, hok⟩ := Lift.exists_of_accepts
    ((pairSite (-4)).execute { program := {}, routines := {} } []) pairWorkspace (by decide +kernel)
  cases hok.symm.trans herror

end ScriptLift
