import ScriptLift.Proofs.Source.Formula
import ScriptLift.Proofs.Source.Plain

namespace ScriptLift

def Tree.slotName (tree : Tree) (id : NodeId) : String :=
  match tree.slot? id with
  | some slot => Expr.slotName (tree.offset id) slot
  | none => ""

/-- The name of a routine; one that the table does not know has none. -/
def Routines.nameOf (routines : Routines) (id : UInt16) : String :=
  match routines.get? id with
  | some routine => routine.name
  | none => ""

/-- Slots and routines to build expressions from. All of them have names, since these are identifiers;
those of slots are pairwise different and those of routines, too. -/
structure Vocabulary (tree : Tree) (routines : Routines) where
  slots : Set NodeId
  actions : Set UInt16
  slot_identifier : ∀ id ∈ slots, Source.Identifier (tree.slotName id)
  slot_injOn : Set.InjOn tree.slotName slots
  action_identifier : ∀ id ∈ actions, Source.Identifier (routines.nameOf id)
  action_injOn : Set.InjOn routines.nameOf actions
  action_ne_vector : ∀ id ∈ actions, routines.nameOf id ≠ "vector"

namespace Vocabulary

variable {tree : Tree} {routines : Routines} (vocabulary : Vocabulary tree routines)

def lexicon : Lexicon vocabulary.slots vocabulary.actions where
  slot s := tree.slotName s
  routine r := routines.nameOf r
  slot_identifier s := vocabulary.slot_identifier s s.2
  slot_injective := vocabulary.slot_injOn.injective
  routine_identifier r := vocabulary.action_identifier r r.2
  routine_injective := vocabulary.action_injOn.injective
  routine_ne_vector r := vocabulary.action_ne_vector r r.2

/-- The node is built as the formula says. -/
inductive Spells : NodeId → Formula vocabulary.slots vocabulary.actions → Prop
  | slot (s : vocabulary.slots) : Spells s (.slot s)
  | number {id : NodeId} {value : Int32} {n : Nat} :
    tree.node id = .literal (.int value) → value.toInt = n → Spells id (.number n)
  | vector {id x y z : NodeId} {f g h : Formula vocabulary.slots vocabulary.actions} :
    tree.node id = .vector x y z → Spells x f → Spells y g → Spells z h →
      Spells id (.vector f g h)
  | component {id : NodeId} {s : vocabulary.slots} {i : Fin 3} :
    tree.node id = .component s i → Spells id (.component s i)
  | action {id : NodeId} {r : vocabulary.actions} {arguments : List NodeId}
      {fs : List (Formula vocabulary.slots vocabulary.actions)} :
    tree.node id = .action r arguments → arguments.length = fs.length →
      (∀ p ∈ arguments.zip fs, Spells p.1 p.2) → Spells id (.action r fs)
  | unary {id operand : NodeId} {op : UnaryOp.Pure}
      {f : Formula vocabulary.slots vocabulary.actions} :
    tree.node id = .unary op operand → Spells operand f → Spells id (.unary op f)
  | binary {id left right : NodeId} {op : BinaryOp.Pure} {declares : Bool}
      {f g : Formula vocabulary.slots vocabulary.actions} :
    tree.node id = .binary op left right declares → Spells left f → Spells right g →
      Spells id (.binary op f g)

variable {vocabulary} {id n : NodeId} {f : Formula vocabulary.slots vocabulary.actions}

theorem slot_spec (s : vocabulary.slots) : ∃ slot, tree.node s = .slot slot ∧
    tree.slotName s = Expr.slotName (tree.offset s) slot := by
  have hname := (vocabulary.slot_identifier s s.2).1
  unfold Tree.slotName Tree.slot? at hname ⊢
  cases hnode : tree.node s with
  | slot slot => exact ⟨slot, rfl, rfl⟩
  | _ => simp [hnode] at hname

theorem action_spec (r : vocabulary.actions) : ∃ routine, routines.get? r = some routine ∧
    routines.nameOf r = routine.name := by
  have hname := (vocabulary.action_identifier r r.2).1
  unfold Routines.nameOf at hname ⊢
  cases hroutine : routines.get? r with
  | none => simp [hroutine] at hname
  | some routine => exact ⟨routine, rfl, rfl⟩

theorem acc_of_parts (h : ∀ n ∈ (tree.node id).parts, Acc (Function.swap tree.Holds) n) :
    Acc (Function.swap tree.Holds) id :=
  Acc.intro id fun n hn => h n (by rwa [← Tree.below_eq_parts])

namespace Spells

theorem lt_size (h : vocabulary.Spells id f) : id.index < tree.size := by
  apply Tree.lt_size_of_node_ne
  cases h with
  | slot s =>
    obtain ⟨slot, hnode, -⟩ := slot_spec s
    simp [hnode]
  | number hnode | vector hnode | component hnode | action hnode | unary hnode | binary hnode =>
    simp [hnode]

theorem isBinary_eq (h : vocabulary.Spells id f) : (tree.kind id).isBinary = f.isBinary := by
  cases h with
  | slot s =>
    obtain ⟨slot, hnode, -⟩ := slot_spec s
    rw [Tree.kind, hnode]
    rfl
  | number hnode | vector hnode | component hnode | action hnode | unary hnode | binary hnode =>
    rw [Tree.kind, hnode]
    rfl

/-- All ways down from a spelled node end. -/
theorem acc (h : vocabulary.Spells id f) : Acc (Function.swap tree.Holds) id := by
  induction h with
  | slot s =>
    obtain ⟨slot, hnode, -⟩ := slot_spec s
    exact acc_of_parts (by simp [hnode, Node.parts, Node.operands])
  | number hnode => exact acc_of_parts (by simp [hnode, Node.parts, Node.operands])
  | vector hnode _ _ _ hx hy hz =>
    exact acc_of_parts (by simp [hnode, Node.parts, Node.operands, hx, hy, hz])
  | @component _ s _ hnode =>
    obtain ⟨slot, hslot, -⟩ := slot_spec s
    have hleaf : Acc (Function.swap tree.Holds) s.1 :=
      acc_of_parts (by simp [hslot, Node.parts, Node.operands])
    exact acc_of_parts (by simp [hnode, Node.parts, Node.operands, hleaf])
  | @action _ _ arguments fs hnode hlength _ ih =>
    refine acc_of_parts fun n hn => ?_
    rw [hnode, Node.parts_action] at hn
    obtain ⟨i, hi, rfl⟩ := List.getElem_of_mem hn
    exact ih (arguments[i], fs[i]) (List.mem_iff_getElem.2 ⟨i, by simp; omega, by simp⟩)
  | unary hnode _ ih => exact acc_of_parts (by simp [hnode, Node.parts, Node.operands, ih])
  | binary hnode _ _ hl hr =>
    exact acc_of_parts (by simp [hnode, Node.parts, Node.operands, hl, hr])

theorem levels_lt {g : Formula vocabulary.slots vocabulary.actions} (h : vocabulary.Spells id f)
    (hn : n ∈ (tree.node id).parts) (hg : vocabulary.Spells n g) :
    tree.levels n < tree.levels id := by
  rw [← Tree.below_eq_parts] at hn
  exact Tree.levels_lt h.lt_size hn hg.lt_size fun hback =>
    Reach.not_cycle_of_acc h.acc (.head' hn hback)

end Spells

open Source

variable {names : Lexicon vocabulary.slots vocabulary.actions}
  {text : NodeId → Except Error String}

theorem operandText_eq (h : vocabulary.Spells id f)
    (htext : text id = .ok (String.ofList (f.chars names))) :
    operandText tree text id = .ok (String.ofList (f.operand names)) := by
  have hbrackets : operandText tree text id = .ok (if f.isBinary then
      "(" ++ String.ofList (f.chars names) ++ ")" else String.ofList (f.chars names)) := by
    rw [operandText, htext, h.isBinary_eq]
    rfl
  rw [hbrackets, Formula.operand]
  cases f.isBinary with
  | false => rfl
  | true => exact congrArg Except.ok (String.toList_inj.1 (by simp [Formula.bracketed]))

theorem mapM_eq {fs : List (Formula vocabulary.slots vocabulary.actions)} {arguments : List NodeId}
    (hlength : arguments.length = fs.length)
    (h : ∀ p ∈ arguments.zip fs, text p.1 = .ok (String.ofList (p.2.chars names))) :
    arguments.mapM text = .ok (fs.map fun f => String.ofList (f.chars names)) := by
  induction fs generalizing arguments with
  | nil =>
    obtain rfl := List.length_eq_zero_iff.1 hlength
    rfl
  | cons f fs ih =>
    obtain ⟨n, arguments, rfl⟩ := List.exists_cons_of_length_eq_add_one hlength
    rw [List.mapM_cons, h (n, f) List.mem_cons_self,
      ih (Nat.succ.inj hlength) fun p hp => h p (List.mem_cons_of_mem _ hp)]
    rfl

theorem enclosed_eq_intercalate (texts : List (List Char)) :
    Formula.enclosed texts = [',', ' '].intercalate texts ++ [')'] := by
  have hfollowing : ∀ text, text ++ Formula.following texts.tail =
      [',', ' '].intercalate (text :: texts.tail) ++ [')'] := by
    generalize texts.tail = texts
    induction texts with
    | nil => simp [Formula.following]
    | cons next texts ih =>
      intro text
      rw [Formula.following, ih next]
      simp
  cases texts with
  | nil => rfl
  | cons text texts => exact hfollowing text

theorem joined_eq {fs : List (Formula vocabulary.slots vocabulary.actions)} {arguments : List NodeId}
    (name : String) (hlength : arguments.length = fs.length)
    (h : ∀ p ∈ arguments.zip fs, text p.1 = .ok (String.ofList (p.2.chars names))) :
    (do return name ++ "(" ++ (← joined ", " text arguments) ++ ")" : Except Error String) =
      .ok (String.ofList (name.toList ++ '(' ::
        Formula.enclosed (fs.map (Formula.chars names)))) := by
  rw [joined, mapM_eq hlength h]
  refine congrArg Except.ok (String.toList_inj.1 ?_)
  rw [enclosed_eq_intercalate]
  simp [String.toList_intercalate, Function.comp_def]

/-- With levels enough, the text of a node is that of the formula it spells. -/
theorem Spells.textTo_eq (h : vocabulary.Spells id f) {depth : Nat}
    (hdepth : tree.levels id ≤ depth) : textTo tree routines depth id =
      .ok (String.ofList (f.chars vocabulary.lexicon)) := by
  induction depth generalizing id f with
  | zero => exact absurd (Tree.levels_pos id) (Nat.not_lt.2 hdepth)
  | succ depth ih =>
    have hpart : ∀ {n g}, n ∈ (tree.node id).parts → vocabulary.Spells n g →
        textTo tree routines depth n = .ok (String.ofList (g.chars vocabulary.lexicon)) := by
      intro n g hn hg
      have hlower := h.levels_lt hn hg
      exact ih hg (by omega)
    unfold textTo
    cases h with
    | slot s =>
      obtain ⟨slot, hnode, hname⟩ := slot_spec s
      rw [hnode, Formula.chars, String.ofList_toList]
      exact congrArg Except.ok hname.symm
    | @number _ value n hnode hvalue =>
      have htext : (Literal.int value).text = toString n := by
        rw [Literal.text, hvalue]
        rfl
      rw [hnode, Formula.chars, String.ofList_toList]
      exact congrArg Except.ok htext
    | @vector _ x y z f g h hnode hx hy hz =>
      have harguments : ∀ p ∈ [x, y, z].zip [f, g, h], textTo tree routines depth p.1 =
          .ok (String.ofList (p.2.chars vocabulary.lexicon)) := by
        have htextx := hpart (by simp [hnode, Node.parts, Node.operands]) hx
        have htexty := hpart (by simp [hnode, Node.parts, Node.operands]) hy
        have htextz := hpart (by simp [hnode, Node.parts, Node.operands]) hz
        simp [htextx, htexty, htextz]
      have hopen : "vector(" = "vector" ++ "(" := by decide +kernel
      have hcall := joined_eq "vector" rfl harguments
      rw [hnode, Formula.chars, Formula.vectorName_eq]
      dsimp only [List.map_cons, List.map_nil] at hcall ⊢
      rw [hopen]
      exact hcall
    | @component _ s i hnode =>
      have hwhole := operandText_eq (.slot s)
        (hpart (by simp [hnode, Node.parts, Node.operands]) (.slot s))
      rw [hnode]
      dsimp only
      rw [hwhole]
      refine congrArg Except.ok (String.toList_inj.1 ?_)
      simp [Formula.operand, Formula.bracketed, Formula.isBinary, Formula.chars]
    | @action _ r arguments fs hnode hlength harguments =>
      have htexts : ∀ p ∈ arguments.zip fs, textTo tree routines depth p.1 =
          .ok (String.ofList (p.2.chars vocabulary.lexicon)) := fun p hp =>
        hpart (by rw [hnode, Node.parts_action]; exact (List.of_mem_zip hp).1) (harguments p hp)
      obtain ⟨routine, hroutine, hname⟩ := action_spec r
      have hword : vocabulary.lexicon.routine r = routine.name := hname
      rw [hnode, Formula.chars, hword]
      dsimp only
      rw [hroutine]
      exact joined_eq routine.name hlength htexts
    | @unary _ operand op f hnode hf =>
      have hoperand := operandText_eq hf (hpart (by simp [hnode, Node.parts, Node.operands]) hf)
      rw [hnode]
      dsimp only
      rw [hoperand, Formula.chars]
      refine congrArg Except.ok (String.toList_inj.1 ?_)
      simp [op.2, Formula.operand]
    | @binary _ left right op declares f g hnode hf hg =>
      have hleft := operandText_eq hf (hpart (by simp [hnode, Node.parts, Node.operands]) hf)
      have hright := operandText_eq hg (hpart (by simp [hnode, Node.parts, Node.operands]) hg)
      obtain ⟨op, hop⟩ := op
      have htext : (do
            let a ← operandText tree (textTo tree routines depth) left
            let b ← operandText tree (textTo tree routines depth) right
            return a ++ " " ++ op.symbol ++ " " ++ b : Except Error String) =
          .ok (String.ofList ((Formula.binary ⟨op, hop⟩ f g).chars vocabulary.lexicon)) := by
        rw [hleft, hright, Formula.chars_binary]
        refine congrArg Except.ok (String.toList_inj.1 ?_)
        simp
      rw [hnode]
      cases op with
      | assign => exact absurd rfl hop
      | _ => exact htext

/-- Two expressions over a vocabulary have the same text if and only if they are built alike: by the
same operators, routines, slots, components and numbers at the same places. -/
theorem text_eq_text_iff {a b : NodeId} {f g : Formula vocabulary.slots vocabulary.actions}
    (ha : vocabulary.Spells a f) (hb : vocabulary.Spells b g) :
    Source.text tree routines a = Source.text tree routines b ↔ f = g := by
  have htext : ∀ {id f}, vocabulary.Spells id f → Source.text tree routines id =
      .ok (String.ofList (f.chars vocabulary.lexicon)) := fun h =>
    h.textTo_eq ((Tree.levels_le h.lt_size).trans (Nat.le_succ _))
  rw [htext ha, htext hb]
  constructor
  · intro h
    have hchars := congrArg String.toList (Except.ok.inj h)
    rw [String.toList_ofList, String.toList_ofList] at hchars
    exact Formula.chars_injective hchars
  · rintro rfl
    rfl

end Vocabulary

/-- A sign in front of a difference and one in front of its first operand, and two actions of both. -/
def signedTree : Tree where
  exprs := #[⟨13, .slot { type := .int, storage := .argument }⟩,
    ⟨20, .slot { type := .vector, storage := .global }⟩, ⟨26, .literal (.int 7)⟩,
    ⟨32, .binary .subtract ⟨0⟩ ⟨0⟩ false⟩, ⟨34, .unary .negate ⟨3⟩⟩, ⟨36, .unary .negate ⟨0⟩⟩,
    ⟨38, .binary .subtract ⟨5⟩ ⟨0⟩ false⟩, ⟨40, .component ⟨1⟩ 2⟩, ⟨42, .vector ⟨6⟩ ⟨2⟩ ⟨7⟩⟩,
    ⟨44, .action 1 [⟨8⟩, ⟨4⟩]⟩, ⟨50, .unary .negate ⟨0⟩⟩, ⟨52, .binary .subtract ⟨10⟩ ⟨0⟩ false⟩,
    ⟨54, .vector ⟨11⟩ ⟨2⟩ ⟨7⟩⟩, ⟨56, .action 1 [⟨12⟩, ⟨4⟩]⟩]

theorem identifier_signedTree : ∀ id ∈ ({⟨0⟩, ⟨1⟩} : Set NodeId),
    Source.Identifier (signedTree.slotName id) := by
  have hargument : signedTree.slotName ⟨0⟩ = "arg_0" := by decide +kernel
  have hvector : signedTree.slotName ⟨1⟩ = "glob_00000014" := by decide +kernel
  rintro id (rfl | rfl)
  · simp [hargument, Source.Identifier, Source.marks]
  · simp [hvector, Source.Identifier, Source.marks]

theorem injOn_signedTree : Set.InjOn signedTree.slotName {⟨0⟩, ⟨1⟩} := by
  have hne : signedTree.slotName ⟨0⟩ ≠ signedTree.slotName ⟨1⟩ := by decide +kernel
  rintro a (rfl | rfl) b (rfl | rfl) h
  · rfl
  · exact absurd h hne
  · exact absurd h.symm hne
  · rfl

theorem identifier_showRoutines : ∀ id ∈ ({1} : Set UInt16),
    Source.Identifier (showRoutines.nameOf id) ∧ showRoutines.nameOf id ≠ "vector" := by
  have hname : showRoutines.nameOf 1 = "PrintInteger" := by decide +kernel
  rintro id rfl
  simp [hname, Source.Identifier, Source.marks]

def signedVocabulary : Vocabulary signedTree showRoutines where
  slots := {⟨0⟩, ⟨1⟩}
  actions := {1}
  slot_identifier := identifier_signedTree
  slot_injOn := injOn_signedTree
  action_identifier id hid := (identifier_showRoutines id hid).1
  action_injOn := Set.injOn_singleton _ _
  action_ne_vector id hid := (identifier_showRoutines id hid).2

/-- The signs are told apart, and the two actions are not. -/
theorem text_eq_text_iff_signedTree :
    ∃ f g call : Formula signedVocabulary.slots signedVocabulary.actions,
      signedVocabulary.Spells ⟨4⟩ f ∧ signedVocabulary.Spells ⟨6⟩ g ∧ f ≠ g ∧
      Source.text signedTree showRoutines ⟨4⟩ ≠ Source.text signedTree showRoutines ⟨6⟩ ∧
      signedVocabulary.Spells ⟨9⟩ call ∧ signedVocabulary.Spells ⟨13⟩ call ∧
      Source.text signedTree showRoutines ⟨9⟩ = Source.text signedTree showRoutines ⟨13⟩ ∧
      Source.text signedTree showRoutines ⟨9⟩ = .ok
        "PrintInteger(vector(-arg_0 - arg_0, 7, glob_00000014.z), -(arg_0 - arg_0))" := by
  let argument : signedVocabulary.slots := ⟨⟨0⟩, .inl rfl⟩
  let vector : signedVocabulary.slots := ⟨⟨1⟩, .inr rfl⟩
  let routine : signedVocabulary.actions := ⟨1, rfl⟩
  let negate : UnaryOp.Pure := ⟨.negate, rfl⟩
  let subtract : BinaryOp.Pure := ⟨.subtract, by decide⟩
  let f : Formula signedVocabulary.slots signedVocabulary.actions :=
    .unary negate (.binary subtract (.slot argument) (.slot argument))
  let g : Formula signedVocabulary.slots signedVocabulary.actions :=
    .binary subtract (.unary negate (.slot argument)) (.slot argument)
  let inner : Formula signedVocabulary.slots signedVocabulary.actions :=
    .vector g (.number 7) (.component vector 2)
  have hargument := Vocabulary.Spells.slot argument
  have hf : signedVocabulary.Spells ⟨4⟩ f := .unary rfl (.binary rfl hargument hargument)
  have hg : signedVocabulary.Spells ⟨6⟩ g := .binary rfl (.unary rfl hargument) hargument
  have hg' : signedVocabulary.Spells ⟨11⟩ g := .binary rfl (.unary rfl hargument) hargument
  have hvector : ∀ {id n}, signedTree.node id = .vector n ⟨2⟩ ⟨7⟩ → signedVocabulary.Spells n g →
      signedVocabulary.Spells id inner :=
    fun hnode hn => .vector hnode hn (.number rfl rfl) (.component rfl)
  have hcall : ∀ {id n}, signedTree.node id = .action 1 [n, ⟨4⟩] → signedVocabulary.Spells n inner →
      signedVocabulary.Spells id (.action routine [inner, f]) :=
    fun hnode hn => .action hnode rfl (by simp [hn, hf])
  have hne : f ≠ g := by simp [f, g]
  let call : Formula signedVocabulary.slots signedVocabulary.actions := .action routine [inner, f]
  have hfirst : signedVocabulary.Spells ⟨9⟩ call := hcall rfl (hvector rfl hg)
  have hsecond : signedVocabulary.Spells ⟨13⟩ call := hcall rfl (hvector rfl hg')
  exact ⟨f, g, call, hf, hg, hne, fun heq => hne ((Vocabulary.text_eq_text_iff hf hg).1 heq), hfirst,
    hsecond, (Vocabulary.text_eq_text_iff hfirst hsecond).2 rfl, by decide +kernel⟩

end ScriptLift
