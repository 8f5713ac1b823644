import ScriptLift.Compact.Rewrite
import ScriptLift.Settings

/-! The rules: which rewrite a block admits. Searches are bounded here; `Unbounded` has the rules as they
run. -/
namespace ScriptLift

namespace Tree

variable (tree : Tree)

/-- The call of a block that holds nothing else but a bare return. -/
def onlyCall? (block : NodeId) : Option NodeId :=
  match tree.statements block with
  | [call, ret] =>
    if (tree.kind call).isCall ∧ tree.isBareReturn ret then some call else none
  | _ => none

def componentOf? (id : NodeId) (index : Nat) : Option NodeId :=
  match tree.node id with
  | .component whole i => if i = index then some whole else none
  | _ => none

/-- The vector that `id` takes apart and recomposes. -/
def recomposed? (id : NodeId) : Option NodeId :=
  match tree.node id with
  | .vector x y z =>
    match tree.componentOf? x 0, tree.componentOf? y 1, tree.componentOf? z 2 with
    | some a, some b, some c => if a = b ∧ b = c then some a else none
    | _, _, _ => none
  | _ => none

def isKept (value : NodeId) : Bool :=
  (tree.kind value).isCall || (tree.kind value).isUnary || (tree.kind value).isBinary

end Tree

/-- Whether a value may stand where a slot is read. -/
def Read.admitsValue (read : Read) (kind : Kind) : Bool :=
  match read.role with
  | .actionArgument _ | .callArgument _ | .component _ => true
  | .operand => kind.isUnary && !kind.isStep
  | .left => kind.isBinary && kind ≠ .binary .assign
  | .right => kind.isBinary
  | .value | .test | .branch | .source => false

namespace Draft

variable (draft : Draft) (block : NodeId)

/-- Whether all reads of a slot come behind the statement at `index`. -/
def readsFollow (slot : NodeId) (index : Nat) : Bool :=
  (draft.facts.readsOf slot).all fun read =>
    match draft.tree.statementHolding? block read.node true with
    | some position => index < position
    | none => false

/-- The only assignment to a declared slot, if it comes behind the declaration and before all reads. -/
def initializer? (slot : NodeId) (index : Nat) : Option NodeId :=
  match draft.facts.writesOf slot with
  | [⟨assign, some _⟩] =>
    match (draft.tree.statements block).idxOf? assign with
    | some position =>
      if index < position ∧ draft.readsFollow block slot position then some assign else none
    | none => none
  | _ => none

/-- A bare declaration goes if its slot is unused, or if an assignment can declare it. -/
def declarationAt? (statement : NodeId) (index : Nat) : Option Rewrite :=
  match draft.tree.storage? statement with
  | some .own =>
    if draft.facts.readsOf statement = [] ∧ draft.facts.writesOf statement = [] then
      some (.dropDeclaration index)
    else (draft.initializer? block statement index).map (.mergeDeclaration index)
  | some .result => (draft.initializer? block statement index).map (.mergeDeclaration index)
  | _ => none

def declaration? : Option Rewrite :=
  (draft.tree.statements block).zipIdx.findSome? fun (statement, index) =>
    draft.declarationAt? block statement index

/-- A deferred action that only makes one call. -/
def deferredCallAt? (id : NodeId) : Option Rewrite :=
  match draft.tree.node id with
  | .action _ arguments =>
    arguments.zipIdx.findSome? fun (argument, index) =>
      (draft.tree.onlyCall? argument).map (.collapseAction id index)
  | _ => none

def deferredCall? : Option Rewrite :=
  (draft.tree.statements block).findSome? fun statement =>
    (draft.tree.subtree false statement).findSome? draft.deferredCallAt?

/-- A call whose result has a place to go. -/
def pendingCall? : Option Rewrite :=
  (draft.tree.statements block).zipIdx.findSome? fun (statement, index) =>
    if draft.tree.kind statement = .call then
      (draft.facts.destination? statement).map (.assignCall index statement)
    else none

/-- Whether `moved` may go past `crossed`: there is no label, only one side has effects, and nothing
that is crossed writes a slot that is moved. -/
def mayCross (moved crossed : List NodeId) : Bool :=
  !crossed.any (fun id => draft.tree.kind id = .label) &&
    !(moved.any draft.tree.hasEffect && crossed.any draft.tree.hasEffect) &&
    (moved.filter draft.tree.isSlot).all fun slot =>
      (draft.facts.writesOf slot).all fun write => !crossed.contains write.node

/-- Whether `value` may move over the statements `between`. -/
def canMove (value : NodeId) (between : List NodeId) : Bool :=
  draft.mayCross (draft.tree.subtree true value) (between.flatMap (draft.tree.subtree true))

/-- A temporary that is assigned once, where it is declared, and read once, with its value. -/
def temporary? (statement : NodeId) : Option (NodeId × NodeId × Read) :=
  match draft.tree.node statement with
  | .binary .assign slot value true =>
    if draft.tree.storage? slot = some .own then
      match draft.facts.writesOf slot, draft.facts.readsOf slot with
      | [write], [read] =>
        if write.node = statement ∧ read.admitsValue (draft.tree.kind read.node) then
          some (slot, value, read)
        else none
      | _, _ => none
    else none
  | _ => none

/-- A temporary whose value may move to where it is read, later in this block. -/
def inliningAt? (statement : NodeId) (index : Nat) : Option Inlining :=
  match draft.temporary? statement with
  | some (slot, value, read) =>
    match draft.tree.statementHolding? block read.node false with
    | some consumer =>
      let between := ((draft.tree.statements block).take consumer).drop (index + 1)
      if index < consumer ∧ draft.canMove value between then
        some { index, slot, value, read, consumer }
      else none
    | none => none
  | none => none

def inlining? : Option Rewrite :=
  (draft.tree.statements block).zipIdx.findSome? fun (statement, index) =>
    (draft.inliningAt? block statement index).map .inlineValue

/-- An operand that recomposes a vector. -/
def vectorAt? (id : NodeId) : Option Rewrite :=
  (draft.tree.node id).operands.findSome? fun (role, operand) =>
    (draft.tree.recomposed? operand).map (.collapseVector id role)

def vector? : Option Rewrite :=
  (draft.tree.statements block).findSome? fun statement =>
    (draft.tree.subtree false statement).findSome? draft.vectorAt?

/-- An assignment to a slot that nothing reads. -/
def deadAssignment? : Option Rewrite :=
  (draft.tree.statements block).zipIdx.findSome? fun (statement, index) =>
    match draft.tree.node statement with
    | .binary .assign slot value _ =>
      if draft.tree.storage? slot = some .own ∧ draft.facts.readsOf slot = [] then
        some (if draft.tree.isKept value then .keepValue index value else .dropAssignment index)
      else none
    | _ => none

def unusedLabel? : Option Rewrite :=
  (draft.tree.statements block).zipIdx.findSome? fun (statement, index) =>
    if draft.tree.kind statement = .label ∧ draft.facts.gotosTo statement = [] then
      some (.dropLabel index)
    else none

/-- The first rewrite that applies, rules before statements. -/
def rewrite? (settings : CompactSettings) : Option Rewrite :=
  draft.declaration? block <|>
  draft.deferredCall? block <|>
  draft.pendingCall? block <|>
  (if settings.inlineTemporaries then draft.inlining? block <|> draft.vector? block else none) <|>
  draft.deadAssignment? block <|>
  draft.unusedLabel? block

end Draft

end ScriptLift
