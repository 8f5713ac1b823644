import Mathlib.Data.List.Nodup
import Mathlib.Data.List.TakeWhile
import ScriptLift.Tree

/-! The subroutines of a tree and the order in which they are listed.

A new subroutine is put in front of the first one listed that does not start before it. In a list that is
in order, those that start before it come first, so that this place is found by halving as well as by
going through the list from its front. The list is in order whatever was added and removed before. -/
namespace ScriptLift

section Halving

variable {α : Type} {p : α → Bool} {x : α} {xs : List α}

/-- Halves a stretch of `size` elements from `base` on until there is one left. It goes on with the rear
half if `p` holds where this one begins, and with the front half if not. -/
def bisectFrom (p : α → Bool) (xs : List α) (base size : Nat) : Nat :=
  if 1 < size then
    let middle := base + size / 2
    bisectFrom p xs (if xs[middle]?.any p then middle else base) (size - size / 2)
  else if xs[base]?.any p then base + 1 else base

/-- How many elements there are in front of the first one that `p` does not hold of, in a list where it
holds of none behind it. -/
def bisect (p : α → Bool) (xs : List α) : Nat := bisectFrom p xs 0 xs.length

/-- If `p` holds of an element, it holds of all in front of it. -/
def HoldsFirst (p : α → Bool) (xs : List α) : Prop := xs.Pairwise fun a b => p b → p a

theorem HoldsFirst.not_of_mem_dropWhile (h : HoldsFirst p xs) : ∀ a ∈ xs.dropWhile p, ¬p a := by
  induction xs with
  | nil => simp
  | cons b xs ih =>
    obtain ⟨hfirst, hrest⟩ := List.pairwise_cons.1 h
    by_cases hp : p b
    · rw [List.dropWhile_cons_of_pos hp]
      exact ih hrest
    · rw [List.dropWhile_cons_of_neg hp]
      intro a ha hpa
      rcases List.mem_cons.1 ha with rfl | hmem
      · exact hp hpa
      · exact hp (hfirst a hmem hpa)

theorem HoldsFirst.any_getElem?_iff (h : HoldsFirst p xs) (i : Nat) :
    xs[i]?.any p ↔ i < (xs.takeWhile p).length := by
  induction xs generalizing i with
  | nil => simp
  | cons a xs ih =>
    obtain ⟨hfirst, hrest⟩ := List.pairwise_cons.1 h
    by_cases hp : p a
    · rw [List.takeWhile_cons_of_pos hp, List.length_cons]
      cases i with
      | zero => simp [hp]
      | succ i => simpa using ih hrest i
    · rw [List.takeWhile_cons_of_neg hp]
      cases i with
      | zero => simp [hp]
      | succ i =>
        rw [List.getElem?_cons_succ]
        cases hget : xs[i]? with
        | none => simp
        | some b =>
          have hb : ¬p b := fun hpb => hp (hfirst b (List.mem_of_getElem? hget) hpb)
          simp [hb]

/-- The stretch always holds the place that is looked for. -/
theorem bisectFrom_eq {place : Nat} (hplace : ∀ i, xs[i]?.any p ↔ i < place) {base size : Nat}
    (hbase : base ≤ place) (hsize : place ≤ base + size) : bisectFrom p xs base size = place := by
  fun_induction bisectFrom p xs base size with
  | case1 base size hlt middle ih =>
    have hmiddle := hplace middle
    apply ih
    · split
      · next hany => exact Nat.le_of_lt (hmiddle.1 hany)
      · exact hbase
    -- If the place is in the front half, it is within the new stretch: the rear half is no shorter.
    · split
      · omega
      · next hany =>
        have hle := Nat.le_of_not_lt fun hlt => hany (hmiddle.2 hlt)
        omega
  | case2 base size hle hany =>
    have hlt := (hplace base).1 hany
    omega
  | case3 base size hle hany =>
    have hge := Nat.le_of_not_lt fun hlt => hany ((hplace base).2 hlt)
    omega

theorem HoldsFirst.bisect_eq (h : HoldsFirst p xs) : bisect p xs = (xs.takeWhile p).length :=
  bisectFrom_eq h.any_getElem?_iff (Nat.zero_le _)
    (by simpa using (List.takeWhile_sublist p).length_le)

theorem insertIdx_takeWhile (p : α → Bool) (x : α) (xs : List α) :
    xs.insertIdx (xs.takeWhile p).length x = xs.takeWhile p ++ x :: xs.dropWhile p := by
  induction xs with
  | nil => rfl
  | cons a xs ih =>
    by_cases hp : p a
    · simp [hp, ih]
    · simp [hp]

theorem HoldsFirst.pairwise_insert {R : α → α → Prop} (hfirst : HoldsFirst p xs)
    (hbefore : ∀ a ∈ xs, p a → R a x) (hbehind : ∀ a ∈ xs, ¬p a → R x a) (h : xs.Pairwise R) :
    (xs.takeWhile p ++ x :: xs.dropWhile p).Pairwise R := by
  rw [← List.takeWhile_append_dropWhile (p := p) (l := xs), List.pairwise_append] at h
  obtain ⟨hfront, hrear, hacross⟩ := h
  refine List.pairwise_append.2 ⟨hfront, List.pairwise_cons.2 ⟨fun b hb => ?_, hrear⟩,
    fun a ha b hb => ?_⟩
  · exact hbehind b ((List.dropWhile_sublist p).subset hb) (hfirst.not_of_mem_dropWhile b hb)
  · rcases List.mem_cons.1 hb with rfl | hmem
    · exact hbefore a ((List.takeWhile_sublist p).subset ha) (List.mem_takeWhile_imp ha)
    · exact hacross a ha b hmem

end Halving

namespace Tree

variable {tree new : Tree} {sub other : SubId} {s : Subroutine} {f : Subroutine → Subroutine}

def HasSub (tree : Tree) (sub : SubId) : Prop := sub.index < tree.subroutines.size

theorem HasSub.ne_nextSubId (h : tree.HasSub sub) : sub ≠ tree.nextSubId := by
  rintro rfl
  exact Nat.lt_irrefl _ h

theorem sub_of_subroutines_eq (h : new.subroutines = tree.subroutines) (hsub : tree.HasSub sub) :
    new.sub sub = tree.sub sub := by
  have hget : tree.subroutines[sub.index]? = some tree.subroutines[sub.index] :=
    Array.getElem?_eq_getElem hsub
  simp only [Tree.sub, h, hget, Option.getD_some]

theorem start_of_subroutines_eq (h : new.subroutines = tree.subroutines) :
    (new.sub sub).start = (tree.sub sub).start := by
  simp only [Tree.sub, h]
  cases tree.subroutines[sub.index]? <;> rfl

theorem hasSub_addSub : (tree.addSub s).HasSub sub ↔ tree.HasSub sub ∨ sub = tree.nextSubId := by
  cases sub
  simp only [HasSub, addSub, Array.size_push, nextSubId, SubId.mk.injEq]
  omega

theorem sub_addSub_nextSubId : (tree.addSub s).sub tree.nextSubId = s := by
  simp [Tree.sub, addSub, nextSubId]

theorem sub_addSub (h : tree.HasSub sub) : (tree.addSub s).sub sub = tree.sub sub := by
  have hget : (tree.subroutines.push s)[sub.index]? = tree.subroutines[sub.index]? := by
    rw [Array.getElem?_push, if_neg (Nat.ne_of_lt h)]
  have hsome : tree.subroutines[sub.index]? = some tree.subroutines[sub.index] :=
    Array.getElem?_eq_getElem h
  simp only [Tree.sub, addSub, hget, hsome, Option.getD_some]

theorem mem_order_addSub :
    sub ∈ (tree.addSub s).order ↔ sub ∈ tree.order ∨ sub = tree.nextSubId := by
  let before := fun id => decide ((tree.sub id).start < s.start)
  have hsplit : sub ∈ tree.order ↔
      sub ∈ tree.order.takeWhile before ∨ sub ∈ tree.order.dropWhile before := by
    rw [← List.mem_append, List.takeWhile_append_dropWhile]
  rw [hsplit, addSub, List.mem_append, List.mem_cons, or_right_comm, or_assoc]

theorem hasSub_modifySub : (tree.modifySub sub f).HasSub other ↔ tree.HasSub other := by
  simp [HasSub, modifySub]

theorem sub_modifySub_self (h : tree.HasSub sub) :
    (tree.modifySub sub f).sub sub = f (tree.sub sub) := by
  have hsome : tree.subroutines[sub.index]? = some tree.subroutines[sub.index] :=
    Array.getElem?_eq_getElem h
  simp [Tree.sub, modifySub, Array.getElem?_modify, hsome]

theorem sub_modifySub_of_ne (h : other ≠ sub) :
    (tree.modifySub sub f).sub other = tree.sub other := by
  have hindex : sub.index ≠ other.index := by
    intro heq
    cases sub
    cases other
    exact h (congrArg SubId.mk heq.symm)
  simp [Tree.sub, modifySub, Array.getElem?_modify, hindex, Tree.size]

theorem field_modifySub {α : Type} (g : Subroutine → α) (hg : ∀ s, g (f s) = g s) :
    g ((tree.modifySub sub f).sub other) = g (tree.sub other) := by
  by_cases hother : other = sub
  · subst hother
    by_cases hsub : tree.HasSub other
    · rw [sub_modifySub_self hsub, hg]
    · have hnone : tree.subroutines[other.index]? = none :=
        Array.getElem?_eq_none (Nat.le_of_not_lt hsub)
      simp [Tree.sub, modifySub, Array.getElem?_modify, hnone, Tree.size]
  · rw [sub_modifySub_of_ne hother]

def starts (tree : Tree) : Array Nat := tree.subroutines.map (·.start)

theorem start_eq (tree : Tree) (sub : SubId) :
    (tree.sub sub).start = tree.starts[sub.index]?.getD 0 := by
  rw [starts, Array.getElem?_map, Tree.sub]
  cases tree.subroutines[sub.index]? <;> rfl

theorem hasSub_iff_starts : tree.HasSub sub ↔ sub.index < tree.starts.size := by
  simp [HasSub, starts]

/-- A revision of the output of a tree. -/
inductive Revision where
  /-- A subroutine that starts at an offset was added, and got the handle. -/
  | added (sub : SubId) (start : Nat)
  | removed (sub : SubId)

/-- An empty tree was revised like this, the last revision first. In between, all else may change, but
not the offsets where subroutines start. -/
inductive Revised : List Revision → Tree → Prop
  | empty : Revised [] {}
  | add {history : List Revision} {tree : Tree} (s : Subroutine) :
    Revised history tree → Revised (.added tree.nextSubId s.start :: history) (tree.addSub s)
  | remove {history : List Revision} {tree : Tree} (sub : SubId) :
    Revised history tree → Revised (.removed sub :: history) (tree.removeSub sub)
  | keep {history : List Revision} {tree new : Tree} : new.order = tree.order →
    new.starts = tree.starts → Revised history tree → Revised history new

/-- The handles that were given, the last one first. -/
def given (history : List Revision) : List SubId :=
  history.filterMap fun
    | .added sub _ => some sub
    | .removed _ => none

/-- The handle was given, and not removed since. -/
def Stands (history : List Revision) (sub : SubId) : Prop :=
  ∃ since start before, history = since ++ .added sub start :: before ∧ .removed sub ∉ since

/-- The first one starts in front of the other one, or at the same offset, where it was added later. -/
def ListedBefore (history : List Revision) (tree : Tree) (a b : SubId) : Prop :=
  (tree.sub a).start < (tree.sub b).start ∨
    (tree.sub a).start = (tree.sub b).start ∧ [a, b].Sublist (given history)

variable {history : List Revision} {revision : Revision}

theorem stands_cons_iff : Stands (revision :: history) sub ↔
    (∃ start, revision = .added sub start) ∨ revision ≠ .removed sub ∧ Stands history sub := by
  constructor
  · rintro ⟨since, start, before, heq, hnot⟩
    cases since with
    | nil => exact .inl ⟨start, (List.cons.inj heq).1⟩
    | cons last since =>
      obtain ⟨rfl, rfl⟩ := List.cons.inj heq
      obtain ⟨hlast, hsince⟩ := not_or.1 (mt List.mem_cons.2 hnot)
      exact .inr ⟨Ne.symm hlast, since, start, before, rfl, hsince⟩
  · rintro (⟨start, rfl⟩ | ⟨hne, since, start, before, rfl, hnot⟩)
    · exact ⟨[], start, history, rfl, List.not_mem_nil⟩
    · exact ⟨revision :: since, start, before, rfl,
        fun hmem => (List.mem_cons.1 hmem).elim hne.symm hnot⟩

theorem stands_added {start : Nat} :
    Stands (.added other start :: history) sub ↔ sub = other ∨ Stands history sub := by
  rw [stands_cons_iff]
  simp [eq_comm]

theorem stands_removed :
    Stands (.removed other :: history) sub ↔ sub ≠ other ∧ Stands history sub := by
  rw [stands_cons_iff]
  simp [eq_comm]

theorem Stands.mem_given (h : Stands history sub) : sub ∈ given history := by
  obtain ⟨since, start, before, rfl, -⟩ := h
  simp [given]

/-- The output is what the revisions make of it. -/
structure Reflects (history : List Revision) (tree : Tree) : Prop where
  added : ∀ sub, sub ∈ given history ↔ tree.HasSub sub
  once : (given history).Nodup
  start : ∀ sub start, .added sub start ∈ history → (tree.sub sub).start = start
  order : ∀ sub, sub ∈ tree.order ↔ Stands history sub
  nodup : tree.order.Nodup
  sorted : tree.order.Pairwise (ListedBefore history tree)

namespace Reflects

theorem empty : Reflects [] {} where
  added sub := by simp [given, HasSub]
  once := List.nodup_nil
  start _ _ h := by cases h
  order sub := by simp [Stands]
  nodup := List.nodup_nil
  sorted := List.Pairwise.nil

theorem holdsFirst (h : Reflects history tree) (start : Nat) :
    HoldsFirst (fun sub => decide ((tree.sub sub).start < start)) tree.order := by
  refine h.sorted.imp fun {a b} hab hb => ?_
  have hlt := of_decide_eq_true hb
  exact decide_eq_true (by rcases hab with hab | ⟨heq, -⟩ <;> omega)

theorem hasSub (h : Reflects history tree) (hsub : sub ∈ tree.order) : tree.HasSub sub :=
  (h.added sub).1 ((h.order sub).1 hsub).mem_given

theorem add (h : Reflects history tree) (s : Subroutine) :
    Reflects (.added tree.nextSubId s.start :: history) (tree.addSub s) where
  added sub := by
    rw [hasSub_addSub, ← h.added]
    exact List.mem_cons.trans Or.comm
  once := List.nodup_cons.2 ⟨fun hmem => ((h.added _).1 hmem).ne_nextSubId rfl, h.once⟩
  start sub start hmem := by
    rcases List.mem_cons.1 hmem with heq | hold
    · cases heq
      exact congrArg Subroutine.start sub_addSub_nextSubId
    · have hsub : tree.HasSub sub := (h.added sub).1 (List.mem_filterMap.2 ⟨_, hold, rfl⟩)
      rw [sub_addSub hsub]
      exact h.start sub start hold
  order sub := by
    rw [mem_order_addSub, h.order, stands_added]
    exact Or.comm
  nodup := by
    refine List.nodup_middle.2 ?_
    rw [List.takeWhile_append_dropWhile]
    exact List.nodup_cons.2 ⟨fun hmem => (h.hasSub hmem).ne_nextSubId rfl, h.nodup⟩
  sorted := by
    have hold : ∀ sub ∈ tree.order, ((tree.addSub s).sub sub).start = (tree.sub sub).start :=
      fun sub hsub => congrArg Subroutine.start (sub_addSub (h.hasSub hsub))
    have hnew : ((tree.addSub s).sub tree.nextSubId).start = s.start :=
      congrArg Subroutine.start sub_addSub_nextSubId
    refine (h.holdsFirst s.start).pairwise_insert (fun a ha hlt => ?_) (fun a ha hge => ?_)
      (h.sorted.imp_of_mem fun {a b} ha hb hab => ?_)
    · refine .inl ?_
      rw [hold a ha, hnew]
      exact of_decide_eq_true hlt
    · have hle := Nat.le_of_not_lt fun hlt => hge (decide_eq_true hlt)
      rw [← hold a ha, ← hnew] at hle
      rcases Nat.lt_or_eq_of_le hle with hlt | heq
      · exact .inl hlt
      · have hmem := ((h.order a).1 ha).mem_given
        exact .inr ⟨heq, (List.singleton_sublist.2 hmem).cons_cons _⟩
    · unfold ListedBefore
      rw [hold a ha, hold b hb]
      exact hab.imp id fun ⟨heq, hlater⟩ => ⟨heq, hlater.cons _⟩

theorem remove (h : Reflects history tree) (sub : SubId) :
    Reflects (.removed sub :: history) (tree.removeSub sub) where
  added := h.added
  once := h.once
  start other start hmem := h.start other start ((List.mem_cons.1 hmem).resolve_left nofun)
  order other := by
    rw [stands_removed, ← h.order, removeSub, List.mem_filter, decide_eq_true_iff]
    exact And.comm
  nodup := h.nodup.filter _
  sorted := h.sorted.filter _

theorem keep (h : Reflects history tree) (horder : new.order = tree.order)
    (hstarts : new.starts = tree.starts) : Reflects history new where
  added sub := by rw [h.added, hasSub_iff_starts, hasSub_iff_starts, hstarts]
  once := h.once
  start sub start hmem := by rw [start_eq, hstarts, ← start_eq, h.start sub start hmem]
  order sub := by rw [horder, h.order]
  nodup := horder ▸ h.nodup
  sorted := by
    have hstart : ∀ sub, (new.sub sub).start = (tree.sub sub).start := by
      intro sub
      rw [start_eq, hstarts, ← start_eq]
    rw [horder]
    refine h.sorted.imp fun {a b} hab => ?_
    rw [ListedBefore, hstart a, hstart b]
    exact hab

end Reflects

theorem Revised.reflects (h : Revised history tree) : Reflects history tree := by
  induction h with
  | empty => exact .empty
  | add s _ ih => exact ih.add s
  | remove sub _ ih => exact ih.remove sub
  | keep horder hstarts _ ih => exact ih.keep horder hstarts

theorem order_addSub_of_holdsFirst {s : Subroutine}
    (h : HoldsFirst (fun sub => decide ((tree.sub sub).start < s.start)) tree.order) :
    (tree.addSub s).order = tree.order.insertIdx
      (bisect (fun sub => decide ((tree.sub sub).start < s.start)) tree.order) tree.nextSubId := by
  rw [h.bisect_eq, insertIdx_takeWhile, addSub]

/-- The output of a tree holds the subroutines that were added and not removed since, each of them once
and no others, by where they start; of those that start at one offset, the last one added comes first. The
place of a new one is found by halving. No handle is given twice, and a subroutine starts where it was
added. -/
theorem output_order (h : Revised history tree) :
    tree.order.Nodup ∧ (∀ sub, sub ∈ tree.order ↔ Stands history sub) ∧
    tree.order.Pairwise (ListedBefore history tree) ∧
    (given history).Nodup ∧
    (∀ sub start, .added sub start ∈ history → (tree.sub sub).start = start) ∧
    ∀ s : Subroutine, (tree.addSub s).order = tree.order.insertIdx
      (bisect (fun sub => decide ((tree.sub sub).start < s.start)) tree.order) tree.nextSubId := by
  have hreflects := h.reflects
  exact ⟨hreflects.nodup, hreflects.order, hreflects.sorted, hreflects.once, hreflects.start,
    fun s => order_addSub_of_holdsFirst (hreflects.holdsFirst s.start)⟩

/-- A subroutine is added at the offset of another one after the first of the output was removed. -/
theorem output_order_revisedTree :
    let starting := fun start => ({ start, stop := start, root := ⟨0⟩ } : Subroutine)
    let earlier := ((({} : Tree).addSub (starting 13)).addSub (starting 40)).addSub (starting 21)
    let tree := (earlier.removeSub ⟨0⟩).addSub (starting 21)
    let history : List Revision :=
      [.added ⟨3⟩ 21, .removed ⟨0⟩, .added ⟨2⟩ 21, .added ⟨1⟩ 40, .added ⟨0⟩ 13]
    Revised history tree ∧ tree.order = [⟨3⟩, ⟨2⟩, ⟨1⟩] ∧ tree.order.Pairwise (ListedBefore history tree) ∧
      Stands history ⟨2⟩ ∧ ¬Stands history ⟨0⟩ ∧ (tree.sub ⟨3⟩).start = 21 ∧
      (tree.addSub (starting 40)).order = [⟨3⟩, ⟨2⟩, ⟨4⟩, ⟨1⟩] := by
  intro starting earlier tree history
  have hearlier : Revised [.added ⟨2⟩ 21, .added ⟨1⟩ 40, .added ⟨0⟩ 13] earlier :=
    .add (starting 21) (.add (starting 40) (.add (starting 13) .empty))
  have hrevised : Revised history tree := .add (starting 21) (.remove ⟨0⟩ hearlier)
  obtain ⟨-, hmem, hsorted, -, hstart, hplace⟩ := output_order hrevised
  refine ⟨hrevised, rfl, hsorted, (hmem ⟨2⟩).1 (by decide), fun h => ?_, hstart ⟨3⟩ 21 ?_, ?_⟩
  · exact absurd ((hmem ⟨0⟩).2 h) (by decide)
  · exact List.mem_cons_self
  · rw [hplace (starting 40)]
    decide +kernel

end Tree

end ScriptLift
