import ScriptLift.Source
import ScriptLift.Proofs.Compact.Rewiring
import ScriptLift.Proofs.Compact.Termination
import ScriptLift.Proofs.Dataflow.Walks
import ScriptLift.Proofs.Tree.Levels

/-! Texts without a memory.

The plain text of a tree is laid out without a cache: a block stands for its statements anew, wherever
it is met. The cache holds for a block and a level what the plain text of the block is there, from its
first entry to the last, so nobody sees that a text was laid out before; neither does it show how many
levels are laid out at most, once these are as many as the nodes. -/
namespace ScriptLift

@[simp] theorem Node.parts_action (routine : UInt16) (arguments : List NodeId) :
    (Node.action routine arguments).parts = arguments :=
  List.ext_getElem (by simp [parts, operands]) (by simp [parts, operands])

namespace Source

section Definitions

variable (tree : Tree) (routines : Routines) (settings : SourceSettings)

/-- The lines of a statement, its expressions down to `depth` levels; `nested` lays out the branch of a
conditional. -/
def plainLines (depth : Nat) (nested : NodeId → Except Error String) (level : Nat)
    (statement : NodeId) : Except Error String :=
  match tree.node statement with
  | .label => .ok (indentation settings level ++ labelText tree statement ++ ":\n")
  | .conditional test branch => do
    let condition ← textTo tree routines depth test
    let body ← nested branch
    return indentation settings (level + 1) ++ "if (" ++ condition ++ ")\n" ++ body
  | _ => do
    let line ← statementText tree (textTo tree routines depth) statement
    return indentation settings (level + 1) ++ line ++ ";\n"

/-- A block, with at most `rest` levels of blocks. -/
def plainTo (depth : Nat) : Nat → Nat → NodeId → Except Error String
  | 0, _, _ => .ok ""
  | rest + 1, level, block => do
    let body ← (tree.statements block).mapM
      (plainLines tree routines settings depth (plainTo depth rest (level + 1)) level)
    let outer := indentation settings level
    return outer ++ "\x7b\n" ++ String.join body ++ outer ++ "\x7d\n"

def plainSubroutines (depth : Nat) (first : Bool) : List Subroutine → Output
  | [] => {}
  | sub :: rest =>
    let above := (if first then [] else ["\n"]) ++ heading tree settings sub
    match plainTo tree routines settings depth depth 0 sub.root with
    | .error e => { pieces := above, failure := some e }
    | .ok text =>
      let later := plainSubroutines depth false rest
      { later with pieces := above ++ text :: later.pieces }

/-- The plain text, `depth` levels of it. -/
def plainOutput (depth : Nat) : Output :=
  let later := plainSubroutines tree routines settings depth tree.globals.isEmpty
    tree.output.reverse
  { later with pieces := tree.globals.filterMap (globalLine tree) ++ later.pieces }

end Definitions

def Output.text (out : Output) : Except Error String :=
  match out.failure with
  | none => .ok (String.join out.pieces)
  | some e => .error e

/-- What a sink that takes `limit` bytes is left with. -/
def Output.into (out : Output) (limit : Nat) : Except Error Nat :=
  let bytes := total (·.utf8ByteSize) out.pieces
  if limit < bytes then .error .sink
  else
    match out.failure with
    | none => .ok bytes
    | some e => .error e

variable {tree : Tree} {routines : Routines} {settings : SourceSettings} {α β : Type}

/-- Each entry is the plain text of its block, laid out from the level on. -/
def Truthful (tree : Tree) (routines : Routines) (settings : SourceSettings) (cache : Cache) :
    Prop :=
  ∀ rest level block text, rest + level = tree.size →
    cache.lookup (block, level) = some text →
    plainTo tree routines settings (tree.size + 1) (rest + 1) level block = .ok text

/-- From a truthful cache it comes to the same result as `y`, and leaves the cache truthful. -/
def Render.Follows (tree : Tree) (routines : Routines) (settings : SourceSettings) (x : Render α)
    (y : Except Error α) : Prop :=
  ∀ cache, Truthful tree routines settings cache →
    match y with
    | .ok a => ∃ cache', x cache = .ok (a, cache') ∧ Truthful tree routines settings cache'
    | .error e => x cache = .error e

namespace Render

theorem follows_pure (a : α) : Follows tree routines settings (pure a) (.ok a) :=
  fun cache hcache => ⟨cache, rfl, hcache⟩

theorem follows_lift (y : Except Error α) : Follows tree routines settings (liftM y) y := by
  intro cache hcache
  cases y with
  | error e => rfl
  | ok a => exact ⟨cache, rfl, hcache⟩

theorem bind_ok {x : Render α} {f : α → Render β} {a : α} {cache mid : Cache}
    (h : x cache = .ok (a, mid)) : (x >>= f) cache = f a mid := by
  change (x cache >>= fun p => f p.1 p.2) = _
  rw [h]
  rfl

theorem get_run (cache : Cache) : (get : Render Cache) cache = .ok (cache, cache) := rfl

theorem bind_error {x : Render α} {f : α → Render β} {e : Error} {cache : Cache}
    (h : x cache = .error e) : (x >>= f) cache = .error e := by
  change (x cache >>= fun p => f p.1 p.2) = _
  rw [h]
  rfl

theorem follows_bind {x : Render α} {y : Except Error α} {f : α → Render β}
    {g : α → Except Error β} (hx : Follows tree routines settings x y)
    (hf : ∀ a, Follows tree routines settings (f a) (g a)) :
    Follows tree routines settings (x >>= f) (y >>= g) := by
  intro cache hcache
  have hfirst := hx cache hcache
  cases y with
  | error e => exact bind_error hfirst
  | ok a =>
    obtain ⟨mid, hfirst, hmid⟩ := hfirst
    rw [bind_ok hfirst]
    exact hf a mid hmid

theorem follows_mapM {f : α → Render β} {g : α → Except Error β}
    (h : ∀ a, Follows tree routines settings (f a) (g a)) (xs : List α) :
    Follows tree routines settings (xs.mapM f) (xs.mapM g) := by
  induction xs with
  | nil => exact follows_pure []
  | cons a xs ih =>
    rw [List.mapM_cons, List.mapM_cons]
    exact follows_bind (h a) fun b => follows_bind ih fun bs => follows_pure (b :: bs)

end Render

open Render

theorem follows_lines {nested : NodeId → Render String} {plain : NodeId → Except Error String}
    (h : ∀ id, Follows tree routines settings (nested id) (plain id)) (level : Nat)
    (statement : NodeId) :
    Follows tree routines settings (lines tree routines settings nested level statement)
      (plainLines tree routines settings (tree.size + 1) plain level statement) := by
  unfold lines plainLines
  cases tree.node statement with
  | label => exact follows_pure _
  | conditional test branch =>
    exact follows_bind (follows_lift _) fun _ => follows_bind (h branch) fun _ => follows_pure _
  | _ => exact follows_bind (follows_lift _) fun _ => follows_pure _

theorem Truthful.insert {cache : Cache} (h : Truthful tree routines settings cache)
    {rest level : Nat} {block : NodeId} {text : String} (hrest : rest + level = tree.size)
    (htext : plainTo tree routines settings (tree.size + 1) (rest + 1) level block = .ok text) :
    Truthful tree routines settings (((block, level), text) :: cache) := by
  intro other level' block' text' hother hfound
  rw [List.lookup_cons] at hfound
  split at hfound
  · next heq =>
    simp only [beq_iff_eq, Prod.mk.injEq] at heq
    obtain ⟨rfl, rfl⟩ := heq
    obtain rfl : other = rest := by omega
    rw [htext, Option.some.inj hfound]
  · exact h other level' block' text' hother hfound

theorem blockTo_known {rest level : Nat} {block : NodeId} {cache : Cache} {known : String}
    (h : cache.lookup (block, level) = some known) :
    blockTo tree routines settings (rest + 1) level block cache = .ok (known, cache) := by
  unfold blockTo
  rw [bind_ok (get_run cache), h]
  rfl

theorem blockTo_unknown {rest level : Nat} {block : NodeId} {cache : Cache}
    (h : cache.lookup (block, level) = none) :
    blockTo tree routines settings (rest + 1) level block cache =
      ((tree.statements block).mapM (lines tree routines settings
        (blockTo tree routines settings rest (level + 1)) level) >>= fun body =>
          (do
            let outer := indentation settings level
            let whole := outer ++ "\x7b\n" ++ String.join body ++ outer ++ "\x7d\n"
            modify (((block, level), whole) :: ·)
            return whole : Render String)) cache := by
  conv_lhs => unfold blockTo
  rw [bind_ok (get_run cache), h]

/-- At its level a block is laid out as the plain text has it: of the levels of blocks, as many are
left as the levels above the block leave. -/
theorem follows_blockTo {rest level : Nat} (block : NodeId) (hrest : rest + level = tree.size + 1) :
    Follows tree routines settings (blockTo tree routines settings rest level block)
      (plainTo tree routines settings (tree.size + 1) rest level block) := by
  induction rest generalizing level block with
  | zero => exact follows_pure ""
  | succ rest ih =>
    intro cache hcache
    cases hknown : cache.lookup (block, level) with
    | some known =>
      rw [hcache rest level block known (by omega) hknown]
      exact ⟨cache, blockTo_known hknown, hcache⟩
    | none =>
      have hnested : ∀ id, Follows tree routines settings
          (blockTo tree routines settings rest (level + 1) id)
          (plainTo tree routines settings (tree.size + 1) rest (level + 1) id) :=
        fun id => ih id (by omega)
      have hbody := follows_mapM (follows_lines hnested level) (tree.statements block) cache hcache
      rw [blockTo_unknown hknown]
      cases hplain : (tree.statements block).mapM (plainLines tree routines settings (tree.size + 1)
          (plainTo tree routines settings (tree.size + 1) rest (level + 1)) level) with
      | error e =>
        rw [hplain] at hbody
        have htext : plainTo tree routines settings (tree.size + 1) (rest + 1) level block =
            .error e := by
          rw [plainTo, hplain]
          rfl
        rw [htext]
        exact bind_error hbody
      | ok body =>
        rw [hplain] at hbody
        obtain ⟨mid, hrun, hmid⟩ := hbody
        have htext : plainTo tree routines settings (tree.size + 1) (rest + 1) level block =
            .ok (indentation settings level ++ "\x7b\n" ++ String.join body ++
              indentation settings level ++ "\x7d\n") := by
          rw [plainTo, hplain]
          rfl
        rw [htext]
        exact ⟨_, bind_ok hrun, hmid.insert (by omega) htext⟩

theorem subroutines_eq_plain (first : Bool) {cache : Cache}
    (h : Truthful tree routines settings cache) (subs : List Subroutine) :
    subroutines tree routines settings first cache subs =
      plainSubroutines tree routines settings (tree.size + 1) first subs := by
  induction subs generalizing first cache with
  | nil => rfl
  | cons sub subs ih =>
    have hlevels : tree.size + 1 + 0 = tree.size + 1 := rfl
    have hbody := follows_blockTo sub.root hlevels cache h
    unfold subroutines plainSubroutines body
    cases hplain : plainTo tree routines settings (tree.size + 1) (tree.size + 1) 0 sub.root with
    | error e =>
      rw [hplain] at hbody
      rw [hbody]
    | ok text =>
      rw [hplain] at hbody
      obtain ⟨mid, hrun, hmid⟩ := hbody
      rw [hrun]
      simp only [ih false hmid]

theorem mapM_congr {f g : α → Except Error β} {xs : List α} (h : ∀ x ∈ xs, f x = g x) :
    xs.mapM f = xs.mapM g := by
  induction xs with
  | nil => rfl
  | cons x xs ih =>
    rw [List.mapM_cons, List.mapM_cons, h x List.mem_cons_self,
      ih fun y hy => h y (List.mem_cons_of_mem x hy)]

theorem joined_congr {f g : NodeId → Except Error String} {parts : List NodeId} (separator : String)
    (h : ∀ n ∈ parts, f n = g n) : joined separator f parts = joined separator g parts := by
  rw [joined, joined, mapM_congr h]

variable (tree) in
theorem statementText_congr {f g : NodeId → Except Error String} {id : NodeId} (h : f id = g id) :
    statementText tree f id = statementText tree g id := by
  unfold statementText
  split
  · rfl
  · exact h

/-- The text of a node is made from the texts of what it holds. -/
theorem textTo_congr {id : NodeId} {m n : Nat}
    (h : ∀ child, tree.Holds id child → textTo tree routines m child = textTo tree routines n child) :
    textTo tree routines (m + 1) id = textTo tree routines (n + 1) id := by
  simp only [Tree.Holds, Tree.below_eq_parts] at h
  unfold textTo
  cases hnode : tree.node id with
  | literal | slot | label | goto => rfl
  | block statements =>
    rw [hnode] at h
    have hjoined := joined_congr " " fun s (hs : s ∈ statements) =>
      congrArg ((· ++ ";") <$> ·) (statementText_congr tree (h s hs))
    simp only [hjoined]
  | ret value =>
    cases value with
    | none => rfl
    | some value => simp only [h value (by simp [hnode, Node.parts, Node.operands])]
  | conditional test branch =>
    simp only [h test (by simp [hnode, Node.parts, Node.operands]),
      h branch (by simp [hnode, Node.parts, Node.operands])]
  | action routine arguments =>
    rw [hnode, Node.parts_action] at h
    simp only [joined_congr ", " h]
  | call callee arguments =>
    rw [hnode, Node.parts_call] at h
    simp only [joined_congr ", " h]
  | vector x y z =>
    rw [hnode] at h
    have hparts : ∀ part ∈ [x, y, z], textTo tree routines m part = textTo tree routines n part := h
    simp only [joined_congr ", " hparts]
  | component whole index =>
    simp only [operandText, h whole (by simp [hnode, Node.parts, Node.operands])]
  | unary op operand =>
    simp only [operandText, h operand (by simp [hnode, Node.parts, Node.operands])]
  | binary op left right declares =>
    have hleft := h left (by simp [hnode, Node.parts, Node.operands])
    have hright := h right (by simp [hnode, Node.parts, Node.operands])
    cases op <;> simp only [operandText, hleft, hright]

theorem textTo_eq_textTo (hclosed : tree.Closed) (hfree : tree.CycleFree) {id : NodeId}
    (hid : tree.InOutput id) {m n : Nat} (hm : tree.levels id ≤ m) (hn : tree.levels id ≤ n) :
    textTo tree routines m id = textTo tree routines n id := by
  have hpos : 0 < tree.levels id := Tree.levels_pos id
  induction m generalizing id n with
  | zero => omega
  | succ m ih =>
    obtain ⟨n, rfl⟩ : ∃ k, n = k + 1 := ⟨n - 1, by omega⟩
    refine textTo_congr fun child hchild => ?_
    have hless := hid.levels_lt hclosed hfree hchild
    exact ih (hid.step hchild) (by omega) (by omega) (Tree.levels_pos child)

theorem plainLines_congr {statement : NodeId} {f g : NodeId → Except Error String} {m n : Nat}
    (htext : textTo tree routines m statement = textTo tree routines n statement)
    (hbelow : ∀ child, tree.Holds statement child →
      textTo tree routines m child = textTo tree routines n child ∧ f child = g child)
    (level : Nat) : plainLines tree routines settings m f level statement =
      plainLines tree routines settings n g level statement := by
  simp only [Tree.Holds, Tree.below_eq_parts] at hbelow
  have hline := statementText_congr tree htext
  unfold plainLines
  cases hnode : tree.node statement with
  | label => rfl
  | conditional test branch =>
    have htest := hbelow test (by simp [hnode, Node.parts, Node.operands])
    have hbranch := hbelow branch (by simp [hnode, Node.parts, Node.operands])
    simp only [htest.1, hbranch.2]
  | _ => simp only [hline]

theorem plainTo_eq_plainTo (hclosed : tree.Closed) (hfree : tree.CycleFree) {block : NodeId}
    (hblock : tree.InOutput block) {m n rest left : Nat} (hm : tree.levels block ≤ m)
    (hn : tree.levels block ≤ n) (hrest : tree.levels block ≤ rest)
    (hleft : tree.levels block ≤ left) (level : Nat) :
    plainTo tree routines settings m rest level block =
      plainTo tree routines settings n left level block := by
  have hpos : 0 < tree.levels block := Tree.levels_pos block
  induction rest generalizing block left level with
  | zero => omega
  | succ rest ih =>
    obtain ⟨left, rfl⟩ : ∃ k, left = k + 1 := ⟨left - 1, by omega⟩
    have hlines : ∀ s ∈ tree.statements block,
        plainLines tree routines settings m
            (plainTo tree routines settings m rest (level + 1)) level s =
          plainLines tree routines settings n
            (plainTo tree routines settings n left (level + 1)) level s := by
      intro s hs
      have hstep := Tree.holds_of_statement hs
      have hless := hblock.levels_lt hclosed hfree hstep
      have hstatement := hblock.step hstep
      refine plainLines_congr (textTo_eq_textTo hclosed hfree hstatement (by omega) (by omega))
        (fun child hchild => ?_) level
      have hlower := hstatement.levels_lt hclosed hfree hchild
      have hin := hstatement.step hchild
      exact ⟨textTo_eq_textTo hclosed hfree hin (by omega) (by omega),
        ih hin (by omega) (by omega) (by omega) (by omega) (level + 1) (Tree.levels_pos child)⟩
    simp only [plainTo, mapM_congr hlines]

theorem inOutput_root {sub : Subroutine} (h : sub ∈ tree.output) : tree.InOutput sub.root := by
  obtain ⟨id, hid, rfl⟩ := List.mem_map.1 h
  exact ⟨id, hid, .refl⟩

variable (routines settings) in
theorem plainSubroutines_eq (hclosed : tree.Closed) (hfree : tree.CycleFree) {m n : Nat}
    (hm : tree.size ≤ m) (hn : tree.size ≤ n) (first : Bool) {subs : List Subroutine}
    (hsubs : ∀ sub ∈ subs, sub ∈ tree.output) :
    plainSubroutines tree routines settings m first subs =
      plainSubroutines tree routines settings n first subs := by
  induction subs generalizing first with
  | nil => rfl
  | cons sub subs ih =>
    have hroot := inOutput_root (hsubs sub List.mem_cons_self)
    have hlevels := Tree.levels_le (hclosed.lt_size hroot)
    have hbody : plainTo tree routines settings m m 0 sub.root =
        plainTo tree routines settings n n 0 sub.root :=
      plainTo_eq_plainTo hclosed hfree hroot (by omega) (by omega) (by omega) (by omega) 0
    simp only [plainSubroutines, hbody,
      ih false fun other hother => hsubs other (List.mem_cons_of_mem sub hother)]

theorem output_eq_plainOutput (routines : Routines) (settings : SourceSettings)
    (hclosed : tree.Closed) (hfree : tree.CycleFree) {depth : Nat} (hdepth : tree.size ≤ depth) :
    output tree routines settings = plainOutput tree routines settings depth := by
  have hempty : Truthful tree routines settings [] := fun _ _ _ _ _ h => by cases h
  have hsubs := plainSubroutines_eq routines settings hclosed hfree (Nat.le_succ tree.size) hdepth
    tree.globals.isEmpty fun sub => List.mem_reverse.1
  simp only [output, plainOutput, subroutines_eq_plain _ hempty, hsubs]

/-- A tree without cycles has its plain text, or fails where the plain text does, and a sink is left
with what it is left with of the plain text; no matter which blocks are shared, and for any number of
levels that is not below the number of nodes. -/
theorem render_eq_plain (routines : Routines) (settings : SourceSettings) (hclosed : tree.Closed)
    (hfree : tree.CycleFree) {depth : Nat} (hdepth : tree.size ≤ depth) :
    output tree routines settings = plainOutput tree routines settings depth ∧
    render tree routines settings = (plainOutput tree routines settings depth).text ∧
    ∀ limit, renderInto tree routines settings limit =
      (plainOutput tree routines settings depth).into limit := by
  have heq := output_eq_plainOutput routines settings hclosed hfree hdepth
  exact ⟨heq, congrArg Output.text heq, fun limit => congrArg (·.into limit) heq⟩

/-- One block behind conditionals of two subroutines, and at two levels of the first. -/
def sharedTree : Tree where
  exprs := #[⟨13, .block [⟨1⟩, ⟨2⟩]⟩, ⟨13, .conditional ⟨3⟩ ⟨4⟩⟩, ⟨20, .conditional ⟨3⟩ ⟨5⟩⟩,
    ⟨13, .literal (.int 1)⟩, ⟨18, .block [⟨2⟩]⟩, ⟨30, .block [⟨6⟩]⟩, ⟨30, .action 1 []⟩,
    ⟨40, .block [⟨2⟩]⟩]
  subroutines := #[
    { name := "main", start := 13, stop := 32, root := ⟨0⟩ },
    { start := 40, stop := 50, root := ⟨7⟩ }]
  order := [⟨0⟩, ⟨1⟩]

/-- With the routine its text stands twice at one level and once at another; without it there is no
text, and the sink is told of what it cannot take first. -/
theorem render_eq_plain_sharedTree :
    let shown := plainOutput sharedTree showRoutines {} 8
    let unknown := plainOutput sharedTree {} {} 8
    sharedTree.Closed ∧ sharedTree.CycleFree ∧
    output sharedTree showRoutines {} = shown ∧ shown.text = .ok
      ("void fun_00000028()\n\x7b\n    if (1)\n    \x7b\n        PrintInteger();\n    \x7d\n\x7d\n\n" ++
        "void main()\n\x7b\n    if (1)\n    \x7b\n        if (1)\n        \x7b\n" ++
        "            PrintInteger();\n        \x7d\n    \x7d\n" ++
        "    if (1)\n    \x7b\n        PrintInteger();\n    \x7d\n\x7d\n") ∧
    render sharedTree {} {} = unknown.text ∧
    unknown.text = .error (.unknownRoutine 1) ∧
    renderInto sharedTree {} {} 19 = unknown.into 19 ∧ unknown.into 19 = .error .sink := by
  intro shown unknown
  have hclosed : sharedTree.Closed := by decide +kernel
  have hlayered : sharedTree.isLayered := by decide +kernel
  have hfree := (Tree.acyclic_of_isLayered hlayered).cycleFree
  obtain ⟨hshown, -, -⟩ := render_eq_plain showRoutines {} hclosed hfree (Nat.le_refl 8)
  obtain ⟨-, hunknown, hinto⟩ := render_eq_plain {} {} hclosed hfree (Nat.le_refl 8)
  exact ⟨hclosed, hfree, hshown, by decide +kernel, hunknown, by decide +kernel, hinto 19,
    by decide +kernel⟩

end Source

end ScriptLift
