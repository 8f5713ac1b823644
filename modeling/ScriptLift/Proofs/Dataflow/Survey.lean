import ScriptLift.Proofs.Compact.Counts
import ScriptLift.Proofs.Compact.Termination
import ScriptLift.Proofs.Dataflow.Definitions

/-! The facts of a tree, entry by entry.

A survey says without fuel what the walk comes to: which blocks, for which subroutine and on which
way, and which nodes in each of them, once for every way that operands lead there from a statement.
There is one survey of every tree whose output has no cycle, and the facts are read off it. -/
namespace ScriptLift

/-- A node of a statement, and the operands that lead to it from there. -/
structure Place where
  roles : List Role
  node : NodeId
  deriving DecidableEq

/-- A block that was found: for every block on the way the operands that lead from one of its
statements to the next block. -/
structure Found where
  way : List (List Role)
  block : NodeId
  deriving DecidableEq

/-- A block on the way is itself the argument of an engine call. -/
def deferring (way : List (List Role)) : Bool :=
  way.any fun roles => roles.getLast?.any Role.isDeferring

/-- A block that the walk opened: for which subroutine, on which way, and what stands there. -/
structure Opened where
  sub : SubId
  way : List (List Role)
  block : NodeId
  places : List Place
  deriving DecidableEq

def Node.assigned? : Node → Option NodeId
  | .binary .assign _ right _ => some right
  | _ => none

namespace Tree

variable (tree : Tree) (routines : Routines)

def opening (block : NodeId) : List Place := (tree.statements block).map (Place.mk [])

def inwards (place : Place) : List Place :=
  ((tree.node place.node).operands.filter fun operand => tree.isInner operand.2).map fun operand =>
    ⟨place.roles ++ [operand.1], operand.2⟩

def blocksAt (place : Place) : List Place :=
  ((tree.node place.node).operands.filter fun operand => tree.kind operand.2 = .block).map
    fun operand => ⟨place.roles ++ [operand.1], operand.2⟩

def found (way : List (List Role)) (places : List Place) : List Found :=
  (places.flatMap tree.blocksAt).map fun place => ⟨way ++ [place.roles], place.node⟩

/-- What a stack of nodes comes to: the top one, then its operands, then the rest. -/
inductive Unfolds (tree : Tree) : List Place → List Place → Prop where
  | nil : Unfolds tree [] []
  | node {place : Place} {rest places : List Place}
    (h : Unfolds tree (tree.inwards place ++ rest) places) :
    Unfolds tree (place :: rest) (place :: places)

/-- The visits of one subroutine. Blocks found wait on a stack, and none is visited twice. -/
inductive Discovers (tree : Tree) (sub : SubId) : List Found → List NodeId → List Opened → Prop where
  | done (visited : List NodeId) : Discovers tree sub [] visited []
  | again {block : Found} {pending : List Found} {visited : List NodeId} {visits : List Opened}
    (hvisited : block.block ∈ visited) (h : Discovers tree sub pending visited visits) :
    Discovers tree sub (block :: pending) visited visits
  | visit {block : Found} {pending : List Found} {visited : List NodeId} {visits : List Opened}
    {places : List Place} (hvisited : block.block ∉ visited)
    (hplaces : tree.Unfolds (tree.opening block.block) places)
    (h : Discovers tree sub ((tree.found block.way places).reverse ++ pending)
      (block.block :: visited) visits) :
    Discovers tree sub (block :: pending) visited (⟨sub, block.way, block.block, places⟩ :: visits)

/-- The visits of several subroutines, one after the other. -/
inductive SurveysFrom (tree : Tree) : List SubId → List NodeId → List Opened → Prop where
  | done (visited : List NodeId) : SurveysFrom tree [] visited []
  | sub {sub : SubId} {subs : List SubId} {visited : List NodeId} {visits more : List Opened}
    (hvisits : tree.Discovers sub [⟨[], (tree.sub sub).root⟩] visited visits)
    (h : SurveysFrom tree subs ((visits.map (·.block)).reverse ++ visited) more) :
    SurveysFrom tree (sub :: subs) visited (visits ++ more)

/-- The visits of a walk through the output. -/
def Surveys (visits : List Opened) : Prop := tree.SurveysFrom tree.order [] visits

/-- The second block is an operand of a statement of the first, or of something within it. -/
def Opens (block next : NodeId) : Prop :=
  tree.kind next = .block ∧
    ∃ s ∈ tree.statements block, Relation.TransGen tree.HasOperand s next

/-- The root of a subroutine of the output, or a block that operands lead to from there. -/
def Live (block : NodeId) : Prop :=
  ∃ sub ∈ tree.order, Relation.ReflTransGen tree.Opens (tree.sub sub).root block

/-- Operands with these roles lead from the first node to the second. -/
inductive Follows (tree : Tree) (a : NodeId) : List Role → NodeId → Prop where
  | refl : Follows tree a [] a
  | tail {roles : List Role} {b c : NodeId} {role : Role} (h : Follows tree a roles b)
    (hoperand : (role, c) ∈ (tree.node b).operands) : Follows tree a (roles ++ [role]) c

/-- A way from one block to another. -/
inductive Finds (tree : Tree) (a : NodeId) : List (List Role) → NodeId → Prop where
  | refl : Finds tree a [] a
  | tail {way : List (List Role)} {b c s : NodeId} {roles : List Role} (h : Finds tree a way b)
    (hs : s ∈ tree.statements b) (hroles : tree.Follows s roles c) (hkind : tree.kind c = .block) :
    Finds tree a (way ++ [roles]) c

def readAt? (slot id : NodeId) (operand : Role × NodeId) : Option Read :=
  if operand.2 = slot ∧ tree.isSlot slot ∧ readsAt (tree.node id) operand.1 then
    some ⟨id, operand.1⟩
  else none

def writeAt? (slot id : NodeId) (operand : Role × NodeId) : Option Write :=
  if operand.2 = slot ∧ tree.isSlot slot ∧ tree.writesAt routines (tree.node id) operand.1 then
    some ⟨id, (tree.node id).assigned?⟩
  else none

def isGotoTo (label id : NodeId) : Bool := tree.node id = .goto label

def isCallOf (callee : SubId) (id : NodeId) : Bool :=
  match tree.node id with
  | .call other _ => other = callee
  | _ => false

def isReturn (id : NodeId) : Bool := tree.kind id = .ret

variable {tree} {routines}

section Unfolding

variable {ps qs all other : List Place} {place : Place} {id : NodeId}

theorem Unfolds.append (h : tree.Unfolds ps all) (g : tree.Unfolds qs other) :
    tree.Unfolds (ps ++ qs) (all ++ other) := by
  induction h with
  | nil => exact g
  | node _ ih =>
    rw [List.append_assoc] at ih
    exact .node ih

theorem Unfolds.unique (h : tree.Unfolds ps all) (g : tree.Unfolds ps other) : all = other := by
  induction h generalizing other with
  | nil =>
    cases g
    rfl
  | node _ ih =>
    cases g with
    | node g => rw [ih g]

theorem inwards_eq (place : Place) :
    (tree.inwards place).map (·.node) = tree.innerOperands place.node := by
  simp only [inwards, innerOperands, List.map_map, List.filter_map]
  rfl

/-- Each part unfolds into the nodes of a walk, so all of them do. -/
theorem exists_unfolds (h : ∀ p ∈ ps, ∃ all, tree.Unfolds [p] all ∧
    all.map (·.node) = tree.within tree.size p.node) :
    ∃ all, tree.Unfolds ps all ∧
      all.map (·.node) = (ps.map (·.node)).flatMap (tree.within tree.size) := by
  induction ps with
  | nil => exact ⟨[], .nil, rfl⟩
  | cons p ps ih =>
    rw [List.forall_mem_cons] at h
    obtain ⟨first, hfirst, hnodes⟩ := h.1
    obtain ⟨rest, hrest, hmore⟩ := ih h.2
    refine ⟨first ++ rest, hfirst.append hrest, ?_⟩
    rw [List.map_append, hnodes, hmore, List.map_cons, List.flatMap_cons]

theorem Closed.exists_unfolds (hclosed : tree.Closed) (hground : tree.Grounded id)
    (hlt : id.index < tree.size) (roles : List Role) : ∃ all, tree.Unfolds [⟨roles, id⟩] all ∧
      all.map (·.node) = tree.within tree.size id := by
  induction hground generalizing roles with
  | intro id hacc ih =>
    have hparts : ∀ p ∈ tree.inwards ⟨roles, id⟩, ∃ all, tree.Unfolds [p] all ∧
        all.map (·.node) = tree.within tree.size p.node := by
      intro p hp
      have hinner : tree.Inner id p.node := by
        rw [Inner, ← inwards_eq ⟨roles, id⟩]
        exact List.mem_map_of_mem hp
      exact ih p.node hinner.descends (hclosed.descent hinner.descends) p.roles
    obtain ⟨all, hall, hnodes⟩ := Tree.exists_unfolds hparts
    refine ⟨⟨roles, id⟩ :: all, .node (by rwa [List.append_nil]), ?_⟩
    rw [List.map_cons, hnodes, inwards_eq, ← hclosed.within_size (.intro id hacc) hlt]

theorem CycleFree.exists_unfolds (hfree : tree.CycleFree) (hclosed : tree.Closed) {block : NodeId}
    (hblock : tree.InOutput block) : ∃ places, tree.Unfolds (tree.opening block) places ∧
      places.map (·.node) = tree.nodesOf block := by
  have hparts : ∀ p ∈ tree.opening block, ∃ all, tree.Unfolds [p] all ∧
      all.map (·.node) = tree.within tree.size p.node := by
    intro p hp
    obtain ⟨s, hs, rfl⟩ := List.mem_map.1 hp
    have hground := hfree.grounded_of_inOutput hclosed (hblock.step (holds_of_statement hs))
    exact hclosed.exists_unfolds hground (hclosed.statement hs) []
  obtain ⟨places, hplaces, hnodes⟩ := Tree.exists_unfolds hparts
  refine ⟨places, hplaces, hnodes.trans ?_⟩
  simp [opening, nodesOf, Function.comp_def]

end Unfolding

section Discovering

variable {sub : SubId} {subs : List SubId} {pending : List Found} {visited : List NodeId}
  {visits other : List Opened}

theorem Discovers.unique (h : tree.Discovers sub pending visited visits)
    (g : tree.Discovers sub pending visited other) : visits = other := by
  induction h generalizing other with
  | done =>
    cases g
    rfl
  | again hvisited _ ih =>
    cases g with
    | again _ g => exact ih g
    | visit hnot => exact absurd hvisited hnot
  | visit hnot hplaces _ ih =>
    cases g with
    | again hvisited => exact absurd hvisited hnot
    | visit _ hplaces' g =>
      obtain rfl := hplaces.unique hplaces'
      rw [ih g]

theorem SurveysFrom.unique (h : tree.SurveysFrom subs visited visits)
    (g : tree.SurveysFrom subs visited other) : visits = other := by
  induction h generalizing other with
  | done =>
    cases g
    rfl
  | sub hvisits _ ih =>
    cases g with
    | sub hvisits' g =>
      obtain rfl := hvisits.unique hvisits'
      rw [ih g]

end Discovering

section Walking

variable {block : NodeId} {way : List (List Role)} {places : List Place} {pending : List Found}
  {visited : List NodeId} {sub : SubId} {subs : List SubId}

theorem deferring_append (way : List (List Role)) (roles : List Role) (role : Role) :
    deferring (way ++ [roles ++ [role]]) = (deferring way || role.isDeferring) := by
  simp [deferring]

theorem map_found (hnodes : places.map (·.node) = tree.nodesOf block) :
    (tree.found way places).map (fun f => (f.block, deferring f.way)) =
      tree.nestedBlocks (deferring way) block := by
  rw [nestedBlocks, ← hnodes, List.flatMap_map, found, List.map_map, List.map_flatMap]
  refine List.flatMap_congr fun place _ => ?_
  simp [blocksAt, operandBlocks, deferring_append]

theorem mem_found {f : Found} (h : f ∈ tree.found way places) : ∃ place ∈ places, ∃ role,
    (role, f.block) ∈ (tree.node place.node).operands ∧ tree.kind f.block = .block ∧
      f.way = way ++ [place.roles ++ [role]] := by
  obtain ⟨p, hp, rfl⟩ := List.mem_map.1 h
  obtain ⟨place, hplace, hp⟩ := List.mem_flatMap.1 hp
  obtain ⟨operand, hoperand, rfl⟩ := List.mem_map.1 hp
  obtain ⟨hmem, hkind⟩ := List.mem_filter.1 hoperand
  exact ⟨place, hplace, operand.1, hmem, by simpa using hkind, rfl⟩

end Walking

end Tree

namespace Event

variable {tree : Tree} {routines : Routines}

def ofOpened (tree : Tree) (routines : Routines) (visit : Opened) : List Event :=
  .block visit.sub visit.block ::
    visit.places.flatMap fun place =>
      ofNode tree routines visit.sub (deferring visit.way) place.node

theorem ofOpened_eq (sub : SubId) (way : List (List Role)) {block : NodeId} {places : List Place}
    (hnodes : places.map (·.node) = tree.nodesOf block) :
    ofOpened tree routines ⟨sub, way, block, places⟩ = .block sub block ::
      (tree.nodesOf block).flatMap (ofNode tree routines sub (deferring way)) := by
  rw [ofOpened, ← hnodes, List.flatMap_map]

section Walking

variable (hclosed : tree.Closed) (hfree : tree.CycleFree)
include hclosed hfree

theorem exists_discovers (sub : SubId) (pending : List (NodeId × Bool)) (visited : List NodeId)
    (blocks : List Found) (hblocks : blocks.map (fun f => (f.block, deferring f.way)) = pending)
    (houtput : ∀ f ∈ blocks, tree.InOutput f.block) :
    ∃ visits, tree.Discovers sub blocks visited visits ∧
      (walk tree routines sub pending visited).1 = visits.flatMap (ofOpened tree routines) ∧
      (walk tree routines sub pending visited).2 = (visits.map (·.block)).reverse ++ visited := by
  fun_induction walk tree routines sub pending visited generalizing blocks with
  | case1 visited =>
    obtain rfl := List.map_eq_nil_iff.1 hblocks
    exact ⟨[], .done visited, rfl, rfl⟩
  | case2 visited id deferred rest hmem ih =>
    obtain ⟨f, blocks, rfl, hf, hrest⟩ := List.map_eq_cons_iff.1 hblocks
    cases hf
    obtain ⟨visits, hvisits, hevents, hvisited⟩ :=
      ih blocks hrest fun f hf => houtput f (List.mem_cons_of_mem _ hf)
    exact ⟨visits, .again hmem hvisits, hevents, hvisited⟩
  | case3 visited id deferred rest hmem later ih =>
    obtain ⟨f, blocks, rfl, hf, hrest⟩ := List.map_eq_cons_iff.1 hblocks
    cases hf
    rw [List.forall_mem_cons] at houtput
    obtain ⟨places, hplaces, hnodes⟩ := hfree.exists_unfolds hclosed houtput.1
    have hnested : ((tree.found f.way places).reverse ++ blocks).map
        (fun f => (f.block, deferring f.way)) =
          (tree.nestedBlocks (deferring f.way) f.block).reverse ++ rest := by
      rw [List.map_append, List.map_reverse, Tree.map_found hnodes, hrest]
    have hmore : ∀ g ∈ (tree.found f.way places).reverse ++ blocks, tree.InOutput g.block := by
      intro g hg
      rcases List.mem_append.1 hg with hg | hg
      · have hmem : (g.block, deferring g.way) ∈ tree.nestedBlocks (deferring f.way) f.block := by
          rw [← Tree.map_found hnodes]
          exact List.mem_map_of_mem (f := fun f : Found => (f.block, deferring f.way))
            (List.mem_reverse.1 hg)
        exact houtput.1.trans (Tree.holds_of_descends (Tree.reaches_of_nestedBlocks hmem))
      · exact houtput.2 g hg
    obtain ⟨visits, hvisits, hevents, hvisited⟩ := ih _ hnested hmore
    refine ⟨_, .visit hmem hplaces hvisits, ?_, ?_⟩
    · rw [List.flatMap_cons, ← hevents, ofOpened_eq _ _ hnodes]
    · rw [hvisited]
      simp

/-- Every tree whose output is free of cycles has a survey, and its events are those of the walk. -/
theorem exists_surveys (routines : Routines) : ∃ visits, tree.Surveys visits ∧
    trace tree routines = visits.flatMap (ofOpened tree routines) ∧
    visited tree routines = (visits.map (·.block)).reverse := by
  have hfold : ∀ (subs : List SubId) (state : List Event × List NodeId), subs ⊆ tree.order →
      ∃ visits, tree.SurveysFrom subs state.2 visits ∧
        (subs.foldl (extend tree routines) state).1 =
          state.1 ++ visits.flatMap (ofOpened tree routines) ∧
        (subs.foldl (extend tree routines) state).2 =
          (visits.map (·.block)).reverse ++ state.2 := by
    intro subs
    induction subs with
    | nil => exact fun state _ => ⟨[], .done state.2, by simp, by simp⟩
    | cons sub subs ih =>
      intro state hsubs
      rw [List.cons_subset] at hsubs
      obtain ⟨first, hfirst, hevents, hvisited⟩ := @exists_discovers _ routines hclosed hfree sub
        [((tree.sub sub).root, false)] state.2 [⟨[], (tree.sub sub).root⟩] rfl
        (fun f hf => by
          rw [List.mem_singleton.1 hf]
          exact ⟨sub, hsubs.1, .refl⟩)
      obtain ⟨more, hmore, hevents', hvisited'⟩ := ih (extend tree routines state sub) hsubs.2
      have hnext : (extend tree routines state sub).2 = (first.map (·.block)).reverse ++ state.2 :=
        hvisited
      rw [hnext] at hmore hvisited'
      refine ⟨first ++ more, .sub hfirst hmore, ?_, ?_⟩
      · rw [List.foldl_cons, hevents', extend, hevents, List.flatMap_append, List.append_assoc]
      · rw [List.foldl_cons, hvisited']
        simp
  obtain ⟨visits, hvisits, hevents, hvisited⟩ := hfold tree.order ([], []) (List.Subset.refl _)
  exact ⟨visits, hvisits, by simpa [trace] using hevents, by simpa [visited] using hvisited⟩

end Walking

end Event

namespace Tree

variable {tree : Tree} {routines : Routines} {a b c s n : NodeId} {sub : SubId}
  {subs : List SubId} {pending : List Found} {visited : List NodeId} {visits : List Opened}

theorem inner_of_hasOperand (h : Relation.ReflTransGen tree.HasOperand s n)
    (hn : tree.HasOperand n c) : Relation.ReflTransGen tree.Inner s n := by
  induction h generalizing c with
  | refl => exact .refl
  | tail _ hstep ih =>
    obtain ⟨operand, hoperand, rfl⟩ := List.mem_map.1 hn
    have hkind := @kind_ne_of_operand _ _ operand.2 operand.1 hoperand
    exact (ih hstep).tail (List.mem_filter.2 ⟨hstep, by simp [hkind]⟩)

/-- The walk finds in a block what operands lead to from there. -/
theorem Closed.opens_iff (hclosed : tree.Closed) :
    tree.Opens b c ↔ c ∈ (tree.nestedBlocks false b).map (·.1) := by
  constructor
  · rintro ⟨hkind, s, hs, hreaches⟩
    obtain ⟨n, hn, hc⟩ := Relation.TransGen.tail'_iff.1 hreaches
    have hmem := hclosed.mem_within (hclosed.statement hs) (inner_of_hasOperand hn hc)
    obtain ⟨operand, hoperand, rfl⟩ := List.mem_map.1 hc
    refine List.mem_map.2 ⟨(operand.2, operand.1.isDeferring), ?_, rfl⟩
    refine List.mem_flatMap.2 ⟨n, List.mem_flatMap.2 ⟨s, hs, hmem⟩, List.mem_map.2 ⟨operand, ?_⟩⟩
    exact ⟨List.mem_filter.2 ⟨hoperand, by simpa using hkind⟩, by simp⟩
  · intro h
    obtain ⟨p, hp, rfl⟩ := List.mem_map.1 h
    obtain ⟨n, hn, hp⟩ := List.mem_flatMap.1 hp
    obtain ⟨operand, hoperand, rfl⟩ := List.mem_map.1 hp
    obtain ⟨hmem, hkind⟩ := List.mem_filter.1 hoperand
    obtain ⟨s, hs, hwithin⟩ := List.mem_flatMap.1 hn
    have hreaches : Relation.ReflTransGen tree.HasOperand s n :=
      Relation.ReflTransGen.mono (fun _ _ h => (List.mem_filter.1 h).1) _ _
        (inner_of_mem_within hwithin)
    exact ⟨by simpa using hkind, s, hs, .tail' hreaches (List.mem_map_of_mem hmem)⟩

theorem Closed.mem_visited_iff (hclosed : tree.Closed) :
    b ∈ Event.visited tree routines ↔ tree.Live b := by
  constructor
  · refine Event.visited_induction (P := tree.Live) (fun sub hsub => ⟨sub, hsub, .refl⟩) ?_ b
    rintro b ⟨sub, hsub, hreaches⟩ c hc
    exact ⟨sub, hsub, hreaches.tail (hclosed.opens_iff.2 (List.mem_map_of_mem hc))⟩
  · rintro ⟨sub, hsub, hreaches⟩
    obtain ⟨hcovers, hroots⟩ := Event.covers_trace tree routines
    induction hreaches with
    | refl => exact hroots sub hsub
    | tail _ hstep ih =>
      obtain ⟨p, hp, rfl⟩ := List.mem_map.1 (hclosed.opens_iff.1 hstep)
      simpa using hcovers.nested _ ih p hp

theorem Unfolds.induction {ps all : List Place} {P : Place → Prop} (h : tree.Unfolds ps all)
    (hstep : ∀ p, P p → ∀ q ∈ tree.inwards p, P q) (hps : ∀ p ∈ ps, P p) : ∀ p ∈ all, P p := by
  induction h with
  | nil => exact hps
  | @node place rest places _ ih =>
    rw [List.forall_mem_cons] at hps ⊢
    refine ⟨hps.1, ih fun q hq => ?_⟩
    exact (List.mem_append.1 hq).elim (hstep place hps.1 q) (hps.2 q)

theorem Unfolds.follows {places : List Place} (h : tree.Unfolds (tree.opening b) places) :
    ∀ place ∈ places, ∃ s ∈ tree.statements b, tree.Follows s place.roles place.node := by
  refine h.induction ?_ ?_
  · rintro p ⟨s, hs, hfollows⟩ q hq
    obtain ⟨operand, hoperand, rfl⟩ := List.mem_map.1 hq
    exact ⟨s, hs, hfollows.tail (List.mem_filter.1 hoperand).1⟩
  · intro p hp
    obtain ⟨s, hs, rfl⟩ := List.mem_map.1 hp
    exact ⟨s, hs, .refl⟩

theorem Discovers.finds (h : tree.Discovers sub pending visited visits)
    (hpending : ∀ f ∈ pending, tree.Finds a f.way f.block) :
    ∀ v ∈ visits, v.sub = sub ∧ tree.Finds a v.way v.block ∧
      tree.Unfolds (tree.opening v.block) v.places := by
  induction h with
  | done => simp
  | again _ _ ih => exact ih fun f hf => hpending f (List.mem_cons_of_mem _ hf)
  | @visit block pending visited visits places _ hplaces _ ih =>
    rw [List.forall_mem_cons] at hpending ⊢
    refine ⟨⟨rfl, hpending.1, hplaces⟩, ih fun f hf => ?_⟩
    rcases List.mem_append.1 hf with hf | hf
    · obtain ⟨place, hplace, role, hoperand, hkind, hway⟩ := mem_found (List.mem_reverse.1 hf)
      obtain ⟨s, hs, hfollows⟩ := hplaces.follows place hplace
      rw [hway]
      exact hpending.1.tail hs (hfollows.tail hoperand) hkind
    · exact hpending.2 f hf

theorem SurveysFrom.finds (h : tree.SurveysFrom subs visited visits) :
    ∀ v ∈ visits, v.sub ∈ subs ∧ tree.Finds (tree.sub v.sub).root v.way v.block ∧
      tree.Unfolds (tree.opening v.block) v.places := by
  induction h with
  | done => simp
  | @sub sub subs visited visits more hvisits _ ih =>
    intro v hv
    rcases List.mem_append.1 hv with hv | hv
    · obtain ⟨rfl, hfinds, hplaces⟩ := hvisits.finds (a := (tree.sub sub).root) (fun f hf => by
        rw [List.mem_singleton.1 hf]
        exact .refl) v hv
      exact ⟨List.mem_cons_self, hfinds, hplaces⟩
    · obtain ⟨hsub, hrest⟩ := ih v hv
      exact ⟨List.mem_cons_of_mem _ hsub, hrest⟩

end Tree

section Lists

variable {α β : Type}

theorem flatMap_filter_eq (p : α → Bool) (f : α → List β) (xs : List α) :
    (xs.filter p).flatMap f = xs.flatMap fun x => if p x then f x else [] := by
  induction xs with
  | nil => rfl
  | cons x xs ih =>
    rw [List.flatMap_cons, ← ih]
    by_cases h : p x <;> simp [h]

theorem filter_map_eq (p : β → Bool) (f : α → β) (xs : List α) :
    (xs.map f).filter p = xs.flatMap fun x => if p (f x) then [f x] else [] := by
  rw [List.map_eq_flatMap, List.filter_flatMap]
  refine List.flatMap_congr fun x _ => ?_
  by_cases h : p (f x) <;> simp [h]

theorem flatMap_toList (f : α → Option β) (xs : List α) :
    xs.flatMap (fun x => (f x).toList) = xs.filterMap f := by
  induction xs with
  | nil => rfl
  | cons x xs ih =>
    rw [List.flatMap_cons, ih, List.filterMap_cons]
    cases f x <;> rfl

end Lists

namespace Event

variable {tree : Tree} {routines : Routines} {sub : SubId} {deferred : Bool} {id slot : NodeId}
  {α : Type} {pick : Event → Option α}

theorem filterMap_ofNode {of : Role × NodeId → Option α}
    (hcontrol : ∀ e ∈ ofControl tree sub deferred id, pick e = none)
    (hslot : ∀ o : Role × NodeId, tree.isSlot o.2 →
      (ofSlot tree routines id o.1 o.2).filterMap pick = (of o).toList)
    (hnone : ∀ o : Role × NodeId, ¬tree.isSlot o.2 → of o = none) :
    (ofNode tree routines sub deferred id).filterMap pick =
      (tree.node id).operands.filterMap of := by
  have hnil : (ofControl tree sub deferred id).filterMap pick = [] :=
    List.filterMap_eq_nil_iff.2 hcontrol
  rw [ofNode, List.filterMap_append, hnil, List.nil_append, List.filterMap_flatMap,
    ← flatMap_toList, flatMap_filter_eq]
  refine List.flatMap_congr fun o _ => ?_
  by_cases h : tree.isSlot o.2
  · rw [if_pos h, hslot o h]
  · rw [if_neg h, hnone o h]
    rfl

theorem filterMap_readOf_ofNode : (ofNode tree routines sub deferred id).filterMap (readOf slot) =
    (tree.node id).operands.filterMap (tree.readAt? slot id) := by
  refine filterMap_ofNode (fun e he => ?_) (fun o ho => ?_) fun o ho => ?_
  · have hnone := (mem_ofControl he).1
    cases e with
    | read s r => exact absurd rfl (hnone s r)
    | _ => rfl
  · by_cases heq : o.2 = slot
    · subst heq
      unfold ofSlot Tree.readAt? Tree.readsAt
      split <;> (try split) <;> simp_all [readOf]
    · unfold ofSlot Tree.readAt?
      split <;> (try split) <;> simp_all [readOf]
  · rw [Tree.readAt?, if_neg]
    rintro ⟨rfl, hslot, -⟩
    exact ho hslot

theorem filterMap_writeOf_ofNode :
    (ofNode tree routines sub deferred id).filterMap (writeOf slot) =
      (tree.node id).operands.filterMap (tree.writeAt? routines slot id) := by
  refine filterMap_ofNode (fun e he => ?_) (fun o ho => ?_) fun o ho => ?_
  · have hnone := (mem_ofControl he).2.1
    cases e with
    | write s w => exact absurd rfl (hnone s w)
    | _ => rfl
  · by_cases heq : o.2 = slot
    · subst heq
      unfold ofSlot Tree.writeAt? Tree.writesAt
      split <;> (try split) <;> simp_all [writeOf, Node.assigned?, List.filterMap_cons]
    · unfold ofSlot Tree.writeAt?
      split <;> (try split) <;> simp_all [writeOf]
  · rw [Tree.writeAt?, if_neg]
    rintro ⟨rfl, hslot, -⟩
    exact ho hslot

theorem filterMap_ofNode_control
    (hslots : ∀ s r w, pick (.read s r) = none ∧ pick (.write s w) = none) :
    (ofNode tree routines sub deferred id).filterMap pick =
      (ofControl tree sub deferred id).filterMap pick := by
  rw [ofNode, List.filterMap_append, List.filterMap_flatMap]
  refine (congrArg _ (List.flatMap_eq_nil_iff.2 fun o _ => ?_)).trans (List.append_nil _)
  unfold ofSlot
  split <;> (try split) <;> simp [hslots _ _ ⟨id, none⟩, hslots _ ⟨id, o.1⟩]

def callOf (callee : SubId) : Event → Option NodeId
  | .call c node => if c = callee then some node else none
  | _ => none

def returnOf (sub : SubId) : Event → Option NodeId
  | .ret s node => if s = sub then some node else none
  | _ => none

theorem filterMap_gotoOf_ofNode (label : NodeId) :
    (ofNode tree routines sub deferred id).filterMap (gotoOf label) =
      if tree.isGotoTo label id then [id] else [] := by
  rw [filterMap_ofNode_control fun _ _ _ => ⟨rfl, rfl⟩]
  cases hnode : tree.node id with
  | goto target => by_cases h : target = label <;> simp [ofControl, Tree.isGotoTo, hnode, gotoOf, h]
  | ret value => cases deferred <;> simp [ofControl, Tree.isGotoTo, hnode, gotoOf]
  | _ => simp [ofControl, Tree.isGotoTo, hnode, gotoOf]

theorem filterMap_callOf_ofNode (callee : SubId) :
    (ofNode tree routines sub deferred id).filterMap (callOf callee) =
      if tree.isCallOf callee id then [id] else [] := by
  rw [filterMap_ofNode_control fun _ _ _ => ⟨rfl, rfl⟩]
  cases hnode : tree.node id with
  | call other _ => by_cases h : other = callee <;> simp [ofControl, Tree.isCallOf, hnode, callOf, h]
  | ret value => cases deferred <;> simp [ofControl, Tree.isCallOf, hnode, callOf]
  | _ => simp [ofControl, Tree.isCallOf, hnode, callOf]

theorem filterMap_returnOf_ofNode (owner : SubId) :
    (ofNode tree routines sub deferred id).filterMap (returnOf owner) =
      if sub = owner ∧ ¬deferred then if tree.isReturn id then [id] else [] else [] := by
  rw [filterMap_ofNode_control fun _ _ _ => ⟨rfl, rfl⟩]
  have hkind : tree.isReturn id = decide ((tree.node id).kind = .ret) := rfl
  cases hnode : tree.node id with
  | ret value =>
    by_cases h : sub = owner <;> cases deferred <;>
      simp [ofControl, hkind, hnode, Node.kind, returnOf, h]
  | _ => simp [ofControl, hkind, hnode, Node.kind, returnOf]

theorem filterMap_blockOf_ofNode (owner : SubId) :
    (ofNode tree routines sub deferred id).filterMap (blockOf owner) = [] := by
  rw [List.filterMap_eq_nil_iff]
  intro e he
  cases e with
  | block s b => exact absurd he block_notMem_ofNode
  | _ => rfl

theorem filterMap_ofOpened {visits : List Opened} (own : Opened → List α)
    {each : Opened → NodeId → List α}
    (hblock : ∀ v : Opened, (pick (.block v.sub v.block)).toList = own v)
    (hnode : ∀ (v : Opened) id,
      (ofNode tree routines v.sub (deferring v.way) id).filterMap pick = each v id) :
    (visits.flatMap (ofOpened tree routines)).filterMap pick =
      visits.flatMap fun v => own v ++ v.places.flatMap fun p => each v p.node := by
  rw [List.filterMap_flatMap]
  refine List.flatMap_congr fun v _ => ?_
  have hplaces : (v.places.flatMap fun p =>
      ofNode tree routines v.sub (deferring v.way) p.node).filterMap pick =
        v.places.flatMap fun p => each v p.node := by
    rw [List.filterMap_flatMap]
    exact List.flatMap_congr fun p _ => hnode v p.node
  rw [ofOpened, List.filterMap_cons, hplaces, ← hblock v]
  cases pick (.block v.sub v.block) <;> rfl

end Event

namespace Facts

variable {facts : Facts} {tree : Tree} {routines : Routines}

theorem callsOf_record (e : Event) (sub : SubId) :
    (facts.record e).callsOf sub = facts.callsOf sub ++ (e.callOf sub).toList := by
  cases e <;> simp [record, callsOf, Event.callOf, Index.get_add, sub_index_eq_iff]
  split <;> rfl

theorem returnsOf_record (e : Event) (sub : SubId) :
    (facts.record e).returnsOf sub = facts.returnsOf sub ++ (e.returnOf sub).toList := by
  cases e <;> simp [record, returnsOf, Event.returnOf, Index.get_add, sub_index_eq_iff]
  split <;> rfl

theorem callsOf_analyze (sub : SubId) : (facts.analyze tree routines).callsOf sub =
    (Event.trace tree routines).filterMap (Event.callOf sub) := by
  have hclear : facts.clear.callsOf sub = [] := Index.get_empty _
  rw [analyze, foldl_record (callsOf · sub) (fun _ e => callsOf_record e sub), hclear,
    List.nil_append]

theorem returnsOf_analyze (sub : SubId) : (facts.analyze tree routines).returnsOf sub =
    (Event.trace tree routines).filterMap (Event.returnOf sub) := by
  have hclear : facts.clear.returnsOf sub = [] := Index.get_empty _
  rw [analyze, foldl_record (returnsOf · sub) (fun _ e => returnsOf_record e sub), hclear,
    List.nil_append]

/-- The facts are those of a survey: each list with all its entries, in order, and nothing else. -/
structure ReadsOff (facts : Facts) (tree : Tree) (routines : Routines) (visits : List Opened) :
    Prop where
  live : ∀ block, facts.isLive block ↔ tree.Live block
  /-- Each live block is listed once, for one subroutine. -/
  listed : ∀ block, tree.Live block → ∃ sub ∈ tree.order,
    ∀ other, (facts.blocksOf other).count block = if other = sub then 1 else 0
  blocks : ∀ sub, facts.blocksOf sub = (visits.filter (·.sub = sub)).map (·.block)
  reads : ∀ slot, facts.readsOf slot = visits.flatMap fun v => v.places.flatMap fun p =>
    (tree.node p.node).operands.filterMap (tree.readAt? slot p.node)
  writes : ∀ slot, facts.writesOf slot = visits.flatMap fun v => v.places.flatMap fun p =>
    (tree.node p.node).operands.filterMap (tree.writeAt? routines slot p.node)
  gotos : ∀ label, facts.gotosTo label = visits.flatMap fun v =>
    (v.places.map (·.node)).filter (tree.isGotoTo label)
  calls : ∀ callee, facts.callsOf callee = visits.flatMap fun v =>
    (v.places.map (·.node)).filter (tree.isCallOf callee)
  returns : ∀ sub, facts.returnsOf sub =
    (visits.filter fun v => v.sub = sub ∧ ¬deferring v.way).flatMap fun v =>
      (v.places.map (·.node)).filter tree.isReturn

theorem count_blocks {visits : List Opened} (hnodup : (visits.map (·.block)).Nodup) {v : Opened}
    (hv : v ∈ visits) (sub : SubId) :
    ((visits.filter (·.sub = sub)).map (·.block)).count v.block = if sub = v.sub then 1 else 0 := by
  split
  case isTrue heq =>
    refine List.count_eq_one_of_mem (hnodup.sublist (List.filter_sublist.map _)) ?_
    exact List.mem_map_of_mem (List.mem_filter.2 ⟨hv, by simp [heq]⟩)
  case isFalse hne =>
    refine List.count_eq_zero_of_not_mem fun hmem => hne ?_
    obtain ⟨w, hw, hblock⟩ := List.mem_map.1 hmem
    obtain ⟨hw, hsub⟩ := List.mem_filter.1 hw
    rw [← List.inj_on_of_nodup_map hnodup hw hv hblock]
    exact (by simpa using hsub : w.sub = sub).symm

theorem readsOff_analyze (facts : Facts) (hclosed : tree.Closed) {visits : List Opened}
    (hvisits : tree.Surveys visits)
    (htrace : Event.trace tree routines = visits.flatMap (Event.ofOpened tree routines))
    (hvisited : Event.visited tree routines = (visits.map (·.block)).reverse) :
    (facts.analyze tree routines).ReadsOff tree routines visits := by
  have hblocks : ∀ sub, (facts.analyze tree routines).blocksOf sub =
      (visits.filter (·.sub = sub)).map (·.block) := by
    intro sub
    rw [blocksOf_analyze, htrace, Event.filterMap_ofOpened
      (fun v => if v.sub = sub then [v.block] else [])
      (fun v => by simp only [Event.blockOf]; split <;> rfl)
      (fun v id => Event.filterMap_blockOf_ofNode sub), List.map_eq_flatMap, flatMap_filter_eq]
    refine List.flatMap_congr fun v _ => ?_
    simp
  constructor
  · intro block
    rw [isLive_analyze, hclosed.mem_visited_iff]
  · intro block hlive
    have hmem : block ∈ Event.visited tree routines := hclosed.mem_visited_iff.2 hlive
    rw [hvisited, List.mem_reverse] at hmem
    obtain ⟨v, hv, rfl⟩ := List.mem_map.1 hmem
    obtain ⟨stops, -, -, hnodup⟩ := Event.trace_eq tree routines
    rw [hvisited, List.nodup_reverse] at hnodup
    refine ⟨v.sub, (hvisits.finds v hv).1, fun other => ?_⟩
    rw [hblocks, count_blocks hnodup hv]
  · exact hblocks
  · intro slot
    rw [readsOf_analyze, htrace, Event.filterMap_ofOpened (fun _ => []) (fun _ => rfl)
      fun v id => Event.filterMap_readOf_ofNode]
    rfl
  · intro slot
    rw [writesOf_analyze, htrace, Event.filterMap_ofOpened (fun _ => []) (fun _ => rfl)
      fun v id => Event.filterMap_writeOf_ofNode]
    rfl
  · intro label
    rw [gotosTo_analyze, htrace, Event.filterMap_ofOpened (fun _ => []) (fun _ => rfl)
      fun v id => Event.filterMap_gotoOf_ofNode label]
    exact List.flatMap_congr fun v _ => (filter_map_eq _ _ _).symm
  · intro callee
    rw [callsOf_analyze, htrace, Event.filterMap_ofOpened (fun _ => []) (fun _ => rfl)
      fun v id => Event.filterMap_callOf_ofNode callee]
    exact List.flatMap_congr fun v _ => (filter_map_eq _ _ _).symm
  · intro sub
    rw [returnsOf_analyze, htrace, Event.filterMap_ofOpened (fun _ => []) (fun _ => rfl)
      fun v id => Event.filterMap_returnOf_ofNode sub, flatMap_filter_eq]
    refine List.flatMap_congr fun v _ => ?_
    by_cases h : v.sub = sub ∧ ¬deferring v.way
    · rw [if_pos (by simpa using h), filter_map_eq]
      simp only [if_pos h]
      rfl
    · rw [if_neg (by simpa using h)]
      simp only [if_neg h]
      simp

end Facts

/-- The facts of a tree whose output is free of cycles are those of its only survey, whatever was
recorded before: the live blocks are those that operands lead to from the roots of the output, each
was found on a way of operands, and each list has an entry for each place that it is about. -/
theorem facts_eq_survey (routines : Routines) {tree : Tree} (hclosed : tree.Closed)
    (hfree : tree.CycleFree) :
    ∃ visits, tree.Surveys visits ∧ (∀ other, tree.Surveys other → other = visits) ∧
      (∀ v ∈ visits, v.sub ∈ tree.order ∧ tree.Finds (tree.sub v.sub).root v.way v.block ∧
        tree.Unfolds (tree.opening v.block) v.places) ∧
      ∀ facts : Facts, (facts.analyze tree routines).ReadsOff tree routines visits := by
  obtain ⟨visits, hvisits, htrace, hvisited⟩ := Event.exists_surveys hclosed hfree routines
  exact ⟨visits, hvisits, fun other hother => hother.unique hvisits, hvisits.finds,
    fun facts => facts.readsOff_analyze hclosed hvisits htrace hvisited⟩

/-- An engine call that defers a block, an assignment and a return. -/
def deferTree : Tree where
  exprs := #[⟨13, .block [⟨3⟩, ⟨6⟩, ⟨7⟩]⟩, ⟨40, .block [⟨2⟩]⟩, ⟨42, .ret none⟩, ⟨20, .action 7 [⟨1⟩]⟩,
    ⟨25, .slot { type := .int }⟩, ⟨27, .literal (.int 1)⟩, ⟨25, .binary .assign ⟨4⟩ ⟨5⟩ true⟩,
    ⟨30, .ret none⟩]
  subroutines := #[{ start := 13, stop := 30, root := ⟨0⟩ }]
  order := [⟨0⟩]

/-- The return of the deferred block is not one of the subroutine. -/
theorem facts_eq_survey_deferTree :
    let facts := ({} : Facts).analyze deferTree {}
    deferTree.Closed ∧ deferTree.CycleFree ∧ facts.blocksOf ⟨0⟩ = [⟨0⟩, ⟨1⟩] ∧
      facts.returnsOf ⟨0⟩ = [⟨7⟩] ∧ facts.writesOf ⟨4⟩ = [⟨⟨6⟩, some ⟨5⟩⟩] ∧
      facts.readsOf ⟨4⟩ = [] := by
  have hclosed : deferTree.Closed := by decide +kernel
  have hlayered : deferTree.isLayered := by decide +kernel
  have hfree := (Tree.acyclic_of_isLayered hlayered).cycleFree
  have hroot : deferTree.Unfolds (deferTree.opening ⟨0⟩)
      [⟨[], ⟨3⟩⟩, ⟨[], ⟨6⟩⟩, ⟨[.right], ⟨5⟩⟩, ⟨[], ⟨7⟩⟩] :=
    .node (.node (.node (.node .nil)))
  have hdeferred : deferTree.Unfolds (deferTree.opening ⟨1⟩) [⟨[], ⟨2⟩⟩] := .node .nil
  have hsurvey : deferTree.Surveys [
      ⟨⟨0⟩, [], ⟨0⟩, [⟨[], ⟨3⟩⟩, ⟨[], ⟨6⟩⟩, ⟨[.right], ⟨5⟩⟩, ⟨[], ⟨7⟩⟩]⟩,
      ⟨⟨0⟩, [[.actionArgument 0]], ⟨1⟩, [⟨[], ⟨2⟩⟩]⟩] :=
    @Tree.SurveysFrom.sub _ _ _ _ [_, _] _
      (.visit (by decide) hroot (.visit (by decide) hdeferred (.done _))) (.done _)
  obtain ⟨visits, -, honly, -, hreads⟩ := facts_eq_survey {} hclosed hfree
  obtain rfl := honly _ hsurvey
  have hfacts := hreads {}
  exact ⟨hclosed, hfree, hfacts.blocks ⟨0⟩, hfacts.returns ⟨0⟩, hfacts.writes ⟨4⟩,
    hfacts.reads ⟨4⟩⟩

/-- An engine call whose argument is no block, but holds one that returns. -/
def branchTree : Tree where
  exprs := #[⟨13, .block [⟨5⟩]⟩, ⟨20, .block [⟨2⟩]⟩, ⟨20, .ret none⟩, ⟨15, .literal (.int 1)⟩,
    ⟨17, .conditional ⟨3⟩ ⟨1⟩⟩, ⟨22, .action 1 [⟨4⟩]⟩]
  subroutines := #[{ start := 13, stop := 22, root := ⟨0⟩ }]
  order := [⟨0⟩]

/-- Its return counts, although the way there crosses the argument. -/
theorem not_forall_returnsOf_eq_of_crossing : ¬∀ (routines : Routines) (tree : Tree),
    tree.Closed → tree.CycleFree → tree.Rooted → ∀ visits, tree.Surveys visits →
      ∀ sub, (({} : Facts).analyze tree routines).returnsOf sub =
        (visits.filter fun v => v.sub = sub ∧ ¬v.way.any (·.any Role.isDeferring)).flatMap fun v =>
          (v.places.map (·.node)).filter tree.isReturn := by
  intro h
  have hlayered : branchTree.isLayered := by decide +kernel
  have hroot : branchTree.Unfolds (branchTree.opening ⟨0⟩)
      [⟨[], ⟨5⟩⟩, ⟨[.actionArgument 0], ⟨4⟩⟩, ⟨[.actionArgument 0, .test], ⟨3⟩⟩] :=
    .node (.node (.node .nil))
  have hbranch : branchTree.Unfolds (branchTree.opening ⟨1⟩) [⟨[], ⟨2⟩⟩] := .node .nil
  have hsurvey : branchTree.Surveys [
      ⟨⟨0⟩, [], ⟨0⟩, [⟨[], ⟨5⟩⟩, ⟨[.actionArgument 0], ⟨4⟩⟩, ⟨[.actionArgument 0, .test], ⟨3⟩⟩]⟩,
      ⟨⟨0⟩, [[.actionArgument 0, .branch]], ⟨1⟩, [⟨[], ⟨2⟩⟩]⟩] :=
    @Tree.SurveysFrom.sub _ _ _ _ [_, _] _
      (.visit (by decide) hroot (.visit (by decide) hbranch (.done _))) (.done _)
  have hreturns := h {} branchTree (by decide +kernel) (Tree.acyclic_of_isLayered hlayered).cycleFree
    (by decide +kernel) _ hsurvey ⟨0⟩
  have hrecorded : (({} : Facts).analyze branchTree {}).returnsOf ⟨0⟩ = [⟨2⟩] := by decide +kernel
  cases hrecorded.symm.trans hreturns

end ScriptLift
