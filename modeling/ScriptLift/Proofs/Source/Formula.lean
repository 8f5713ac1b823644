import Mathlib.Data.Fintype.Basic
import Mathlib.Data.List.Nodup
import Mathlib.Tactic.FinCases
import ScriptLift.Source.Expression

/-! Unique readability of expressions.

Formulas are the expressions of slots, numbers, vectors, components, actions and the operators that
write nothing. Only a binary operand stands in parentheses. A formula can be read off its text all the
same, also off the front of a longer one, as long as what follows cannot continue it. -/
namespace ScriptLift

/-- The operators in front of an operand that do not write it back. -/
abbrev UnaryOp.Pure := {op : UnaryOp // op.isStep = false}

/-- The operators between two operands that do not assign. -/
abbrev BinaryOp.Pure := {op : BinaryOp // op ≠ .assign}

/-- An expression over slots `σ` and routines `ρ`. -/
inductive Formula (σ ρ : Type) where
  | slot (s : σ)
  | number (n : Nat)
  | vector (x y z : Formula σ ρ)
  | component (whole : σ) (index : Fin 3)
  | action (routine : ρ) (arguments : List (Formula σ ρ))
  | unary (op : UnaryOp.Pure) (operand : Formula σ ρ)
  | binary (op : BinaryOp.Pure) (left right : Formula σ ρ)

namespace Source

/-- The characters that may follow a name or a number, or stand in front of one. -/
def marks : List Char := [' ', '(', ')', ',', '.', '-', '!', '~']

/-- Names of letters, digits and underscores are identifiers if they do not begin with a digit, and so
are all others without a mark. -/
def Identifier (name : String) : Prop :=
  name ≠ "" ∧ (∀ c ∈ name.toList, c ∉ marks) ∧ ∀ c ∈ name.toList.head?, ¬c.isDigit

end Source

open Source

/-- Identifiers for slots and routines, those of slots pairwise different and those of routines, too;
a slot may share its name with a routine. -/
structure Lexicon (σ ρ : Type) where
  slot : σ → String
  routine : ρ → String
  slot_identifier : ∀ s, Identifier (slot s)
  slot_injective : Function.Injective slot
  routine_identifier : ∀ r, Identifier (routine r)
  routine_injective : Function.Injective routine
  routine_ne_vector : ∀ r, routine r ≠ "vector"

theorem UnaryOp.Pure.symbol_sign (op : UnaryOp.Pure) :
    ∃ c ∈ ['-', '!', '~'], op.1.symbol.toList = [c] := by
  obtain ⟨op, hop⟩ := op
  cases op with
  | negate => exact ⟨'-', by decide, by simp [symbol]⟩
  | not => exact ⟨'!', by decide, by simp [symbol]⟩
  | complement => exact ⟨'~', by decide, by simp [symbol]⟩
  | increment | decrement => cases hop

theorem UnaryOp.symbol_injective : Function.Injective UnaryOp.symbol := by
  have hnodup : (UnaryOp.all.map UnaryOp.symbol).Nodup := by decide +kernel
  have hall : ∀ op, op ∈ UnaryOp.all := fun op => by cases op <;> decide
  exact fun a b h => List.inj_on_of_nodup_map hnodup (hall a) (hall b) h

theorem BinaryOp.symbol_injective : Function.Injective BinaryOp.symbol := by
  have hnodup : (BinaryOp.all.map BinaryOp.symbol).Nodup := by decide +kernel
  have hall : ∀ op, op ∈ BinaryOp.all := fun op => by cases op <;> decide
  exact fun a b h => List.inj_on_of_nodup_map hnodup (hall a) (hall b) h

theorem BinaryOp.symbol_plain (op : BinaryOp) : ∀ c ∈ op.symbol.toList, c ∉ [' '] := by
  cases op <;> simp [symbol]

namespace Formula

variable {σ ρ : Type}

@[elab_as_elim]
theorem induction {motive : Formula σ ρ → Prop} (slot : ∀ s, motive (.slot s))
    (number : ∀ n, motive (.number n))
    (vector : ∀ x y z, motive x → motive y → motive z → motive (.vector x y z))
    (component : ∀ s i, motive (.component s i))
    (action : ∀ r arguments, (∀ f ∈ arguments, motive f) → motive (.action r arguments))
    (unary : ∀ op f, motive f → motive (.unary op f))
    (binary : ∀ op f g, motive f → motive g → motive (.binary op f g)) : ∀ f, motive f
  | .slot s => slot s
  | .number n => number n
  | .vector x y z => vector x y z (induction slot number vector component action unary binary x)
      (induction slot number vector component action unary binary y)
      (induction slot number vector component action unary binary z)
  | .component s i => component s i
  | .action r arguments => action r arguments fun f _ =>
      induction slot number vector component action unary binary f
  | .unary op f => unary op f (induction slot number vector component action unary binary f)
  | .binary op f g => binary op f g (induction slot number vector component action unary binary f)
      (induction slot number vector component action unary binary g)

def isBinary : Formula σ ρ → Bool
  | .binary .. => true
  | _ => false

/-- What stands behind an argument, the closing parenthesis included. -/
def following : List (List Char) → List Char
  | [] => [')']
  | text :: texts => ',' :: ' ' :: (text ++ following texts)

def enclosed : List (List Char) → List Char
  | [] => [')']
  | text :: texts => text ++ following texts

def bracketed (brackets : Bool) (text : List Char) : List Char :=
  if brackets then '(' :: (text ++ [')']) else text

def vectorName : List Char := ['v', 'e', 'c', 't', 'o', 'r']

theorem vectorName_eq : vectorName = "vector".toList := by simp [vectorName]

variable (names : Lexicon σ ρ)

/-- The text of a formula, character by character. -/
def chars : Formula σ ρ → List Char
  | .slot s => (names.slot s).toList
  | .number n => (toString n).toList
  | .vector x y z => vectorName ++ '(' :: enclosed [chars x, chars y, chars z]
  | .component s i => (names.slot s).toList ++ '.' :: (componentName i).toList
  | .action r arguments => (names.routine r).toList ++ '(' :: enclosed (arguments.map chars)
  | .unary op f => op.1.symbol.toList ++ bracketed f.isBinary (chars f)
  | .binary op f g => bracketed f.isBinary (chars f) ++
      ' ' :: (op.1.symbol.toList ++ ' ' :: bracketed g.isBinary (chars g))

def operand (f : Formula σ ρ) : List Char := bracketed f.isBinary (f.chars names)

/-- The text begins with one of these characters, if with any. -/
def Begins (heads text : List Char) : Prop := ∀ c ∈ text.head?, c ∈ heads

@[simp] theorem begins_nil (heads : List Char) : Begins heads [] := fun _ h => by cases h

@[simp] theorem begins_cons {heads text : List Char} {c : Char} :
    Begins heads (c :: text) ↔ c ∈ heads := by
  simp [Begins]

theorem Begins.mono {heads more text : List Char} (h : Begins heads text) (hsub : heads ⊆ more) :
    Begins more text :=
  fun c hc => hsub (h c hc)

/-- What may follow an operand. -/
abbrev Stops (text : List Char) : Prop := Begins [' ', ',', ')'] text

/-- What may follow an argument. -/
abbrev Closes (text : List Char) : Prop := Begins [',', ')'] text

theorem Closes.stops {text : List Char} (h : Closes text) : Stops text :=
  h.mono (List.subset_cons_self _ _)

/-- A word ends where the first of the characters stands that it does not have. -/
theorem word_unique {heads w w' rest rest' : List Char} (hw : ∀ c ∈ w, c ∉ heads)
    (hw' : ∀ c ∈ w', c ∉ heads) (hrest : Begins heads rest) (hrest' : Begins heads rest')
    (h : w ++ rest = w' ++ rest') : w = w' ∧ rest = rest' := by
  induction w generalizing w' with
  | nil =>
    cases w' with
    | nil => exact ⟨rfl, h⟩
    | cons c w' =>
      obtain rfl : rest = c :: (w' ++ rest') := h
      exact absurd (begins_cons.1 hrest) (hw' c List.mem_cons_self)
  | cons c w ih =>
    cases w' with
    | nil =>
      obtain rfl : c :: (w ++ rest) = rest' := h
      exact absurd (begins_cons.1 hrest') (hw c List.mem_cons_self)
    | cons c' w' =>
      rw [List.cons_append, List.cons_append, List.cons.injEq] at h
      obtain ⟨rfl, h⟩ := h
      obtain ⟨rfl, rfl⟩ := ih (fun d hd => hw d (List.mem_cons_of_mem c hd))
        (fun d hd => hw' d (List.mem_cons_of_mem c hd)) h
      exact ⟨rfl, rfl⟩

/-- The name or the number at the front of the text; operators and parentheses have none. -/
def word : Formula σ ρ → List Char
  | .slot s | .component s _ => (names.slot s).toList
  | .number n => (toString n).toList
  | .vector .. => vectorName
  | .action r _ => (names.routine r).toList
  | .unary .. | .binary .. => []

/-- What stands behind the word. -/
def tail : Formula σ ρ → List Char
  | .slot _ | .number _ => []
  | .component _ i => '.' :: (componentName i).toList
  | .vector x y z => '(' :: enclosed [x.chars names, y.chars names, z.chars names]
  | .action _ arguments => '(' :: enclosed (arguments.map (chars names))
  | .unary op f => op.1.symbol.toList ++ f.operand names
  | .binary op f g => '(' :: ((Formula.binary op f g).chars names ++ [')'])

variable {names}

theorem operand_eq (f : Formula σ ρ) : f.operand names = f.word names ++ f.tail names := by
  cases f <;> simp [operand, bracketed, isBinary, chars, word, tail]

theorem operand_eq_chars {f : Formula σ ρ} (h : f.isBinary = false) :
    f.operand names = f.chars names := by
  rw [operand, h]
  rfl

theorem chars_binary (op : BinaryOp.Pure) (f g : Formula σ ρ) :
    (Formula.binary op f g).chars names =
      f.operand names ++ ' ' :: (op.1.symbol.toList ++ ' ' :: g.operand names) := by
  rw [chars, operand, operand]

theorem toList_toString (n : Nat) : (toString n).toList = Nat.toDigits 10 n := by
  rw [Nat.toString_eq_ofList_toDigits, String.toList_ofList]

theorem isDigit_of_mem_toString {n : Nat} {c : Char} (h : c ∈ (toString n).toList) : c.isDigit := by
  rw [toList_toString] at h
  exact Nat.isDigit_of_mem_toDigits (by decide) (by decide) h

theorem not_mem_marks_of_isDigit {c : Char} (h : c.isDigit) : c ∉ marks := by
  intro hmark
  have hall : ∀ d ∈ marks, d.isDigit = false := by simp [marks]
  simp [hall c hmark] at h

theorem word_plain (f : Formula σ ρ) : ∀ c ∈ f.word names, c ∉ marks := by
  cases f with
  | slot s | component s i => exact (names.slot_identifier s).2.1
  | number n => exact fun c hc => not_mem_marks_of_isDigit (isDigit_of_mem_toString hc)
  | vector x y z =>
    have hplain : ∀ c ∈ vectorName, c ∉ marks := by simp [vectorName, marks]
    exact hplain
  | action r arguments => exact (names.routine_identifier r).2.1
  | unary | binary => simp [word]

variable (names) in
theorem tail_head (f : Formula σ ρ) :
    ∀ c ∈ (f.tail names).head?, c ∈ marks ∧ c ∉ [' ', ',', ')'] := by
  cases f with
  | slot | number => simp [tail]
  | unary op f =>
    obtain ⟨c, hc, hsymbol⟩ := op.symbol_sign
    have hmark : ∀ c ∈ ['-', '!', '~'], c ∈ marks ∧ c ∉ [' ', ',', ')'] := by simp [marks]
    simpa [tail, hsymbol] using hmark c hc
  | _ => simp [tail, marks]

theorem tail_begins (f : Formula σ ρ) {rest : List Char} (h : Stops rest) :
    Begins marks (f.tail names ++ rest) := by
  cases htail : f.tail names with
  | nil => exact h.mono (by decide)
  | cons c text => exact begins_cons.2 (f.tail_head names c (by rw [htail]; rfl)).1

theorem tail_head_eq {f g : Formula σ ρ} {rest rest' : List Char} (hrest : Stops rest)
    (hrest' : Stops rest') (h : f.tail names ++ rest = g.tail names ++ rest') :
    (f.tail names).head? = (g.tail names).head? := by
  have hf := f.tail_head names
  have hg := g.tail_head names
  cases htail : f.tail names with
  | nil =>
    cases htail' : g.tail names with
    | nil => rfl
    | cons c text =>
      rw [htail, htail'] at h
      obtain rfl : rest = c :: (text ++ rest') := h
      exact absurd (begins_cons.1 hrest) (hg c (by rw [htail']; rfl)).2
  | cons c text =>
    cases htail' : g.tail names with
    | nil =>
      rw [htail, htail'] at h
      obtain rfl : c :: (text ++ rest) = rest' := h
      exact absurd (begins_cons.1 hrest') (hf c (by rw [htail]; rfl)).2
    | cons c' text' =>
      rw [htail, htail'] at h
      rw [(List.cons.inj h).1]
      rfl

theorem operand_split {f g : Formula σ ρ} {rest rest' : List Char} (hrest : Stops rest)
    (hrest' : Stops rest') (h : f.operand names ++ rest = g.operand names ++ rest') :
    f.word names = g.word names ∧ (f.tail names).head? = (g.tail names).head? ∧
      f.tail names ++ rest = g.tail names ++ rest' := by
  rw [operand_eq, operand_eq, List.append_assoc, List.append_assoc] at h
  obtain ⟨hword, htail⟩ := word_unique f.word_plain g.word_plain (f.tail_begins hrest)
    (g.tail_begins hrest') h
  exact ⟨hword, tail_head_eq hrest hrest' htail, htail⟩

theorem slot_ne_nil (s : σ) : (names.slot s).toList ≠ [] :=
  fun h => (names.slot_identifier s).1 (String.toList_eq_nil_iff.1 h)

theorem routine_ne_nil (r : ρ) : (names.routine r).toList ≠ [] :=
  fun h => (names.routine_identifier r).1 (String.toList_eq_nil_iff.1 h)

theorem toString_ne_nil (n : Nat) : (toString n).toList ≠ [] := by
  rw [toList_toString]
  exact Nat.toDigits_ne_nil

theorem toString_injective : Function.Injective fun n : Nat => (toString n).toList := by
  intro n n' h
  simpa [toList_toString] using congrArg (Nat.ofDigitChars 10 · 0) h

theorem slot_ne_toString (s : σ) (n : Nat) : (names.slot s).toList ≠ (toString n).toList := by
  intro h
  obtain ⟨c, text, hdigits⟩ := List.exists_cons_of_ne_nil (toString_ne_nil n)
  have hmem : c ∈ (toString n).toList := by rw [hdigits]; exact List.mem_cons_self
  have hdigit := isDigit_of_mem_toString hmem
  exact (names.slot_identifier s).2.2 c (by rw [h, hdigits]; rfl) hdigit

theorem vectorName_ne_nil : vectorName ≠ [] := by simp [vectorName]

theorem word_eq_nil {f : Formula σ ρ} (h : f.word names = []) :
    (∃ op g, f = .unary op g) ∨ ∃ op l r, f = .binary op l r := by
  cases f with
  | slot s | component s i => exact absurd h (slot_ne_nil s)
  | number n => exact absurd h (toString_ne_nil n)
  | vector x y z => exact absurd h vectorName_ne_nil
  | action r arguments => exact absurd h (routine_ne_nil r)
  | unary op g => exact .inl ⟨op, g, rfl⟩
  | binary op l r => exact .inr ⟨op, l, r, rfl⟩

theorem operand_ne_close (f : Formula σ ρ) {rest rest' : List Char} (hrest : Stops rest) :
    f.operand names ++ rest ≠ ')' :: rest' := by
  intro h
  rw [operand_eq, List.append_assoc, ← List.nil_append (')' :: rest')] at h
  obtain ⟨hword, htail⟩ := word_unique f.word_plain (by simp) (f.tail_begins hrest)
    (begins_cons.2 (by decide)) h
  rcases word_eq_nil hword with ⟨op, g, rfl⟩ | ⟨op, l, r, rfl⟩
  · obtain ⟨c, hc, hsymbol⟩ := op.symbol_sign
    rw [tail, hsymbol] at htail
    obtain ⟨rfl, -⟩ := List.cons.inj htail
    simp at hc
  · simp [tail] at htail

theorem chars_ne_close (f : Formula σ ρ) {rest rest' : List Char} (hrest : Closes rest) :
    f.chars names ++ rest ≠ ')' :: rest' := by
  cases f with
  | binary op f g =>
    rw [chars_binary, List.append_assoc]
    exact f.operand_ne_close (by simp)
  | _ =>
    rw [← operand_eq_chars (by rfl)]
    exact operand_ne_close _ hrest.stops

variable (names) in
/-- The formula can be read off as an operand, where a space, a comma, a parenthesis or nothing follows. -/
def ReadsAsOperand (f : Formula σ ρ) : Prop :=
  ∀ g rest rest', Stops rest → Stops rest' → f.operand names ++ rest = g.operand names ++ rest' →
    f = g ∧ rest = rest'

variable (names) in
/-- The formula can be read off on its own, where a comma, a parenthesis or nothing follows. -/
def Reads (f : Formula σ ρ) : Prop :=
  ∀ g rest rest', Closes rest → Closes rest' → f.chars names ++ rest = g.chars names ++ rest' →
    f = g ∧ rest = rest'

theorem ReadsAsOperand.reads {f : Formula σ ρ} (h : f.ReadsAsOperand names)
    (hbinary : f.isBinary = false) : f.Reads names := by
  intro g rest rest' hrest hrest' heq
  rw [← operand_eq_chars hbinary] at heq
  cases g with
  | binary op l r =>
    -- the operation goes on with a space, where nothing can that closes
    rw [chars_binary, List.append_assoc, List.cons_append] at heq
    obtain ⟨-, rfl⟩ := h l rest _ hrest.stops (by simp) heq
    simp at hrest
  | _ =>
    rw [← operand_eq_chars (by rfl)] at heq
    exact h _ rest rest' hrest.stops hrest'.stops heq

theorem Reads.binary (op : BinaryOp.Pure) {l r : Formula σ ρ} (hl : l.ReadsAsOperand names)
    (hr : r.ReadsAsOperand names) : (Formula.binary op l r).Reads names := by
  intro g rest rest' hrest hrest' heq
  rw [chars_binary, List.append_assoc, List.cons_append, List.append_assoc, List.cons_append] at heq
  cases g with
  | binary op' l' r' =>
    rw [chars_binary, List.append_assoc, List.cons_append, List.append_assoc,
      List.cons_append] at heq
    obtain ⟨rfl, hbehind⟩ := hl l' _ _ (by simp) (by simp) heq
    obtain ⟨hsymbol, hright⟩ := word_unique op.1.symbol_plain op'.1.symbol_plain (by simp)
      (by simp) (List.cons.inj hbehind).2
    obtain rfl : op = op' := Subtype.ext (BinaryOp.symbol_injective (String.toList_inj.1 hsymbol))
    obtain ⟨rfl, rfl⟩ := hr r' rest rest' hrest.stops hrest'.stops (List.cons.inj hright).2
    exact ⟨rfl, rfl⟩
  | _ =>
    -- what is no operation would be the left operand, with nothing of the operator behind it
    rw [← operand_eq_chars (by rfl)] at heq
    obtain ⟨-, rfl⟩ := hl _ _ rest' (by simp) hrest'.stops heq
    simp at hrest'

theorem closes_following (texts : List (List Char)) (rest : List Char) :
    Closes (following texts ++ rest) := by
  cases texts <;> simp [following]

theorem following_unique {fs gs : List (Formula σ ρ)} {rest rest' : List Char}
    (hreads : ∀ f ∈ fs, f.Reads names)
    (h : following (fs.map (chars names)) ++ rest = following (gs.map (chars names)) ++ rest') :
    fs = gs ∧ rest = rest' := by
  induction fs generalizing gs with
  | nil =>
    cases gs with
    | nil => exact ⟨rfl, (List.cons.inj h).2⟩
    | cons g gs => simp [following] at h
  | cons f fs ih =>
    cases gs with
    | nil => simp [following] at h
    | cons g gs =>
      simp only [List.map_cons, following, List.cons_append, List.append_assoc, List.cons.injEq,
        true_and] at h
      obtain ⟨rfl, hbehind⟩ := hreads f List.mem_cons_self g _ _ (closes_following _ _)
        (closes_following _ _) h
      obtain ⟨rfl, rfl⟩ := ih (fun f' hf' => hreads f' (List.mem_cons_of_mem f hf')) hbehind
      exact ⟨rfl, rfl⟩

/-- Arguments can be read off up to the closing parenthesis. -/
theorem enclosed_unique {fs gs : List (Formula σ ρ)} {rest rest' : List Char}
    (hreads : ∀ f ∈ fs, f.Reads names)
    (h : enclosed (fs.map (chars names)) ++ rest = enclosed (gs.map (chars names)) ++ rest') :
    fs = gs ∧ rest = rest' := by
  cases fs with
  | nil =>
    cases gs with
    | nil => exact ⟨rfl, (List.cons.inj h).2⟩
    | cons g gs =>
      simp only [List.map_cons, enclosed, List.append_assoc] at h
      exact absurd h.symm (g.chars_ne_close (closes_following _ _))
  | cons f fs =>
    cases gs with
    | nil =>
      simp only [List.map_cons, enclosed, List.append_assoc] at h
      exact absurd h (f.chars_ne_close (closes_following _ _))
    | cons g gs =>
      simp only [List.map_cons, enclosed, List.append_assoc] at h
      obtain ⟨rfl, hbehind⟩ := hreads f List.mem_cons_self g _ _ (closes_following _ _)
        (closes_following _ _) h
      obtain ⟨rfl, rfl⟩ := following_unique (fun f' hf' => hreads f' (List.mem_cons_of_mem f hf'))
        hbehind
      exact ⟨rfl, rfl⟩

theorem ReadsAsOperand.slot (s : σ) : (Formula.slot s : Formula σ ρ).ReadsAsOperand names := by
  intro g rest rest' hrest hrest' heq
  obtain ⟨hword, hhead, htail⟩ := operand_split hrest hrest' heq
  cases g with
  | slot s' =>
    obtain rfl := names.slot_injective (String.toList_inj.1 hword)
    exact ⟨rfl, htail⟩
  | number n => exact absurd hword (slot_ne_toString s n)
  | unary | binary => exact absurd hword (slot_ne_nil s)
  | _ => simp [tail] at hhead

theorem ReadsAsOperand.number (n : Nat) :
    (Formula.number n : Formula σ ρ).ReadsAsOperand names := by
  intro g rest rest' hrest hrest' heq
  obtain ⟨hword, hhead, htail⟩ := operand_split hrest hrest' heq
  cases g with
  | slot s => exact absurd hword.symm (slot_ne_toString s n)
  | number n' =>
    obtain rfl : n = n' := toString_injective hword
    exact ⟨rfl, htail⟩
  | unary | binary => exact absurd hword (toString_ne_nil n)
  | _ => simp [tail] at hhead

theorem componentName_unique {i j : Fin 3} {rest rest' : List Char}
    (h : (componentName i).toList ++ rest = (componentName j).toList ++ rest') :
    i = j ∧ rest = rest' := by
  fin_cases i <;> fin_cases j <;> simp_all [componentName]

theorem ReadsAsOperand.component (s : σ) (i : Fin 3) :
    (Formula.component s i : Formula σ ρ).ReadsAsOperand names := by
  intro g rest rest' hrest hrest' heq
  obtain ⟨hword, hhead, htail⟩ := operand_split hrest hrest' heq
  cases g with
  | component s' j =>
    obtain rfl := names.slot_injective (String.toList_inj.1 hword)
    obtain ⟨rfl, rfl⟩ := componentName_unique (List.cons.inj htail).2
    exact ⟨rfl, rfl⟩
  | unary | binary => exact absurd hword (slot_ne_nil s)
  | _ => simp [tail] at hhead

theorem ReadsAsOperand.vector {x y z : Formula σ ρ} (hx : x.Reads names) (hy : y.Reads names)
    (hz : z.Reads names) : (Formula.vector x y z).ReadsAsOperand names := by
  intro g rest rest' hrest hrest' heq
  obtain ⟨hword, hhead, htail⟩ := operand_split hrest hrest' heq
  cases g with
  | vector x' y' z' =>
    have hbehind : enclosed ([x, y, z].map (chars names)) ++ rest =
        enclosed ([x', y', z'].map (chars names)) ++ rest' := (List.cons.inj htail).2
    simpa using enclosed_unique (by simp [hx, hy, hz]) hbehind
  | action r arguments =>
    exact absurd (String.toList_inj.1 (hword.symm.trans vectorName_eq)) (names.routine_ne_vector r)
  | unary | binary => exact absurd hword vectorName_ne_nil
  | _ => simp [tail] at hhead

theorem ReadsAsOperand.action (r : ρ) {arguments : List (Formula σ ρ)}
    (h : ∀ f ∈ arguments, f.Reads names) :
    (Formula.action r arguments).ReadsAsOperand names := by
  intro g rest rest' hrest hrest' heq
  obtain ⟨hword, hhead, htail⟩ := operand_split hrest hrest' heq
  cases g with
  | vector x y z =>
    exact absurd (String.toList_inj.1 (hword.trans vectorName_eq)) (names.routine_ne_vector r)
  | action r' arguments' =>
    obtain rfl := names.routine_injective (String.toList_inj.1 hword)
    obtain ⟨rfl, rfl⟩ := enclosed_unique h (List.cons.inj htail).2
    exact ⟨rfl, rfl⟩
  | unary | binary => exact absurd hword (routine_ne_nil r)
  | _ => simp [tail] at hhead

theorem ReadsAsOperand.unary (op : UnaryOp.Pure) {f : Formula σ ρ} (h : f.ReadsAsOperand names) :
    (Formula.unary op f).ReadsAsOperand names := by
  intro g rest rest' hrest hrest' heq
  obtain ⟨hword, hhead, htail⟩ := operand_split hrest hrest' heq
  obtain ⟨c, hc, hsymbol⟩ := op.symbol_sign
  rcases word_eq_nil hword.symm with ⟨op', f', rfl⟩ | ⟨op', l, r, rfl⟩
  · obtain ⟨c', -, hsymbol'⟩ := op'.symbol_sign
    rw [tail, tail, hsymbol, hsymbol'] at htail
    obtain ⟨rfl, hoperand⟩ := List.cons.inj htail
    obtain rfl : op = op' :=
      Subtype.ext (UnaryOp.symbol_injective (String.toList_inj.1 (hsymbol.trans hsymbol'.symm)))
    obtain ⟨rfl, rfl⟩ := h f' rest rest' hrest hrest' hoperand
    exact ⟨rfl, rfl⟩
  · rw [tail, tail, hsymbol] at hhead
    obtain rfl : c = '(' := Option.some.inj hhead
    simp at hc

theorem Reads.asOperand {op : BinaryOp.Pure} {l r : Formula σ ρ}
    (h : (Formula.binary op l r).Reads names) : (Formula.binary op l r).ReadsAsOperand names := by
  intro g rest rest' hrest hrest' heq
  obtain ⟨hword, hhead, htail⟩ := operand_split hrest hrest' heq
  rcases word_eq_nil hword.symm with ⟨op', f', rfl⟩ | ⟨op', l', r', rfl⟩
  · obtain ⟨c, hc, hsymbol⟩ := op'.symbol_sign
    rw [tail, tail, hsymbol] at hhead
    obtain rfl : '(' = c := Option.some.inj hhead
    simp at hc
  · simp only [tail, List.cons_append, List.append_assoc, List.cons.injEq, true_and] at htail
    obtain ⟨heq', hclose⟩ := h _ _ _ (by simp) (by simp) htail
    exact ⟨heq', (List.cons.inj hclose).2⟩

variable (names) in
theorem reads (f : Formula σ ρ) : f.Reads names ∧ f.ReadsAsOperand names := by
  -- an operation is read on its own first, and what else there is as an operand
  induction f using Formula.induction with
  | slot s => exact ⟨(ReadsAsOperand.slot s).reads rfl, .slot s⟩
  | number n => exact ⟨(ReadsAsOperand.number n).reads rfl, .number n⟩
  | vector x y z hx hy hz =>
    have h := ReadsAsOperand.vector hx.1 hy.1 hz.1
    exact ⟨h.reads rfl, h⟩
  | component s i => exact ⟨(ReadsAsOperand.component s i).reads rfl, .component s i⟩
  | action r arguments ih =>
    have h := ReadsAsOperand.action r fun f hf => (ih f hf).1
    exact ⟨h.reads rfl, h⟩
  | unary op f ih =>
    have h := ReadsAsOperand.unary op ih.2
    exact ⟨h.reads rfl, h⟩
  | binary op l r hl hr =>
    have h := Reads.binary op hl.2 hr.2
    exact ⟨h, h.asOperand⟩

theorem chars_injective : Function.Injective (chars names) := by
  intro f g h
  refine ((f.reads names).1 g [] [] (begins_nil _) (begins_nil _) ?_).1
  rw [List.append_nil, List.append_nil, h]

end Formula

end ScriptLift
