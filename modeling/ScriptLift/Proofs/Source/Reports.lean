import ScriptLift.Pipeline
import ScriptLift.Proofs.Compact.Output
import ScriptLift.Proofs.Compact.Searches
import ScriptLift.Proofs.Lift.Strictness

namespace ScriptLift

namespace Source

/-- Ends with its last line. -/
def Whole (text : String) : Prop := text = "" ∨ ∃ init, text = init ++ "\n"

/-- One of the lines of `text` is `line`. -/
def HasLine (text line : String) : Prop :=
  ∃ above below, Whole above ∧ text = above ++ line ++ "\n" ++ below

theorem whole_newline (init : String) : Whole (init ++ "\n") := .inr ⟨init, rfl⟩

theorem whole_ending (init : String) {last : String} (h : ∃ s, last = s ++ "\n") :
    Whole (init ++ last) := by
  obtain ⟨s, rfl⟩ := h
  rw [← String.append_assoc]
  exact whole_newline _

theorem Whole.append {a b : String} (ha : Whole a) (hb : Whole b) : Whole (a ++ b) := by
  rcases hb with rfl | hb
  · rwa [String.append_empty]
  · exact whole_ending a hb

theorem whole_join {pieces : List String} (h : ∀ piece ∈ pieces, Whole piece) :
    Whole (String.join pieces) := by
  induction pieces with
  | nil => exact .inl String.join_nil
  | cons piece pieces ih =>
    rw [String.join_cons]
    exact (h piece List.mem_cons_self).append (ih fun p hp => h p (List.mem_cons_of_mem _ hp))

theorem hasLine_join {pieces : List String} (h : ∀ piece ∈ pieces, Whole piece) {line : String}
    (hline : line ++ "\n" ∈ pieces) : HasLine (String.join pieces) line := by
  obtain ⟨above, below, rfl⟩ := List.append_of_mem hline
  refine ⟨String.join above, String.join below, whole_join fun p hp => h p ?_, ?_⟩
  · exact List.mem_append_left _ hp
  · simp only [String.join_append, String.join_cons, String.append_assoc]

theorem HasLine.length_lt {text line : String} (h : HasLine text line) :
    line.length < text.length := by
  obtain ⟨above, below, -, rfl⟩ := h
  have hone : "\n".length = 1 := by decide
  simp only [String.length_append, hone]
  omega

namespace Render

variable {α β : Type} {cache cache' : Cache}

theorem bind_eq_ok {x : Render α} {f : α → Render β} {b : β}
    (h : (x >>= f) cache = .ok (b, cache')) :
    ∃ a mid, x cache = .ok (a, mid) ∧ f a mid = .ok (b, cache') := by
  change (x cache >>= fun p => f p.1 p.2) = _ at h
  cases hx : x cache with
  | error e =>
    rw [hx] at h
    cases h
  | ok p =>
    rw [hx] at h
    exact ⟨p.1, p.2, rfl, h⟩

def Keeps (x : Render α) : Prop :=
  ∀ {cache : Cache} {a : α} {cache' : Cache}, x cache = .ok (a, cache') →
    (∀ entry ∈ cache, Whole entry.2) → ∀ entry ∈ cache', Whole entry.2

theorem keeps_pure (a : α) : Keeps (pure a : Render α) := by
  intro cache a cache' h hcache
  cases h
  exact hcache

theorem keeps_lift (x : Except Error α) : Keeps (liftM x : Render α) := by
  intro cache a cache' h hcache
  cases x with
  | error e => cases h
  | ok a =>
    cases h
    exact hcache

theorem keeps_bind {x : Render α} {f : α → Render β} (hx : Keeps x) (hf : ∀ a, Keeps (f a)) :
    Keeps (x >>= f) := by
  intro cache b cache' h hcache
  obtain ⟨a, mid, hfirst, hlast⟩ := bind_eq_ok h
  exact hf a hlast (hx hfirst hcache)

theorem keeps_mapM {f : α → Render β} (hf : ∀ a, Keeps (f a)) (xs : List α) :
    Keeps (xs.mapM f) := by
  induction xs with
  | nil => exact keeps_pure []
  | cons a xs ih =>
    rw [List.mapM_cons]
    exact keeps_bind (hf a) fun b => keeps_bind ih fun bs => keeps_pure (b :: bs)

end Render

variable {tree : Tree} {routines : Routines} {settings : SourceSettings}

theorem keeps_lines {nested : NodeId → Render String} (h : ∀ id, Render.Keeps (nested id))
    (level : Nat) (statement : NodeId) :
    Render.Keeps (lines tree routines settings nested level statement) := by
  unfold lines
  split
  · exact Render.keeps_pure _
  · exact Render.keeps_bind (Render.keeps_lift _) fun _ =>
      Render.keeps_bind (h _) fun _ => Render.keeps_pure _
  · exact Render.keeps_bind (Render.keeps_lift _) fun _ => Render.keeps_pure _

theorem whole_blockTo (depth level : Nat) (block : NodeId) {cache cache' : Cache} {text : String}
    (h : blockTo tree routines settings depth level block cache = .ok (text, cache'))
    (hcache : ∀ entry ∈ cache, Whole entry.2) :
    Whole text ∧ ∀ entry ∈ cache', Whole entry.2 := by
  induction depth generalizing level block cache cache' text with
  | zero =>
    cases h
    exact ⟨.inl rfl, hcache⟩
  | succ depth ih =>
    have hnested : ∀ id, Render.Keeps (blockTo tree routines settings depth (level + 1) id) :=
      fun id _ _ _ hrun hwhole => (ih (level + 1) id hrun hwhole).2
    unfold blockTo at h
    obtain ⟨_, _, hget, h⟩ := Render.bind_eq_ok h
    cases hget
    cases hknown : cache.lookup (block, level) with
    | some known =>
      rw [hknown] at h
      cases h
      obtain ⟨before, behind, rfl, -⟩ := List.lookup_eq_some_iff.1 hknown
      exact ⟨hcache ((block, level), text) (by simp), hcache⟩
    | none =>
      rw [hknown] at h
      obtain ⟨body, filled, hbody, h⟩ := Render.bind_eq_ok h
      have hfilled := Render.keeps_mapM (fun s => keeps_lines hnested level s) _ hbody hcache
      cases h
      have hwhole : Whole (indentation settings level ++ "\x7b\n" ++ String.join body ++
          indentation settings level ++ "\x7d\n") := whole_ending _ ⟨"\x7d", by decide⟩
      refine ⟨hwhole, fun entry hentry => ?_⟩
      rcases List.mem_cons.1 hentry with rfl | hentry
      · exact hwhole
      · exact hfilled entry hentry

theorem whole_globalLine {global : Global} {line : String}
    (h : globalLine tree global = some line) : Whole line := by
  obtain ⟨slot, -, rfl⟩ := Option.map_eq_some_iff.1 h
  dsimp only
  split
  · exact whole_ending _ ⟨";", by decide⟩
  · exact whole_ending _ ⟨";", by decide⟩

theorem whole_heading {sub : Subroutine} {piece : String} (h : piece ∈ heading tree settings sub) :
    Whole piece := by
  rcases List.mem_append.1 h with h | h
  · split at h
    · obtain ⟨d, -, rfl⟩ := List.mem_map.1 h
      exact whole_newline _
    · cases h
  · rw [List.mem_singleton.1 h]
    exact whole_ending _ ⟨")", by decide⟩

/-- Nothing fails on the way to a text, and every subroutine has its heading in it. -/
theorem pieces_subroutines (first : Bool) (cache : Cache) (subs : List Subroutine)
    (hcache : ∀ entry ∈ cache, Whole entry.2)
    (h : (subroutines tree routines settings first cache subs).failure = none) :
    (∀ piece ∈ (subroutines tree routines settings first cache subs).pieces, Whole piece) ∧
      ∀ sub ∈ subs, heading tree settings sub ⊆
        (subroutines tree routines settings first cache subs).pieces := by
  induction subs generalizing first cache with
  | nil => exact ⟨by simp [subroutines], by simp⟩
  | cons sub subs ih =>
    cases hbody : body tree routines settings sub.root cache with
    | error e => simp [subroutines, hbody] at h
    | ok result =>
      obtain ⟨text, cache'⟩ := result
      obtain ⟨htext, hcache'⟩ := whole_blockTo _ _ _ hbody hcache
      simp only [subroutines, hbody] at h ⊢
      obtain ⟨hwhole, hheadings⟩ := ih false cache' hcache' h
      constructor
      · intro piece hpiece
        simp only [List.mem_append, List.mem_cons] at hpiece
        rcases hpiece with (hpiece | hpiece) | rfl | hpiece
        · split at hpiece
          · cases hpiece
          · rw [List.mem_singleton.1 hpiece]
            exact .inr ⟨"", by decide⟩
        · exact whole_heading hpiece
        · exact htext
        · exact hwhole piece hpiece
      · intro other hother piece hpiece
        simp only [List.mem_append, List.mem_cons]
        rcases List.mem_cons.1 hother with rfl | hother
        · exact .inl (.inr hpiece)
        · exact .inr (.inr (hheadings other hother hpiece))

/-- A report is a line of the text if the output has the subroutine that it is about. -/
theorem hasLine_render {text : String} (h : render tree routines settings = .ok text)
    (hsettings : settings.diagnostics) {d : Diagnostic} (hd : d ∈ tree.diagnostics)
    {sub : Subroutine} (hsub : sub ∈ tree.output) (hstart : sub.start = d.subroutine) :
    HasLine text ("// " ++ d.text) := by
  unfold render at h
  dsimp only at h
  split at h
  · next hnone =>
    cases h
    obtain ⟨hwhole, hheadings⟩ :=
      pieces_subroutines tree.globals.isEmpty [] tree.output.reverse (by simp) hnone
    apply hasLine_join
    · intro piece hpiece
      rcases List.mem_append.1 hpiece with hpiece | hpiece
      · obtain ⟨global, -, hline⟩ := List.mem_filterMap.1 hpiece
        exact whole_globalLine hline
      · exact hwhole piece hpiece
    · refine List.mem_append_right _ (hheadings sub (List.mem_reverse.2 hsub) ?_)
      refine List.mem_append_left _ ?_
      rw [if_pos hsettings]
      exact List.mem_map.2 ⟨d, List.mem_filter.2 ⟨hd, by simp [hstart]⟩, rfl⟩
  · cases h

end Source

/-- The report is about a subroutine that goes with its place. -/
def Tree.Silences (tree : Tree) (settings : CompactSettings) (d : Diagnostic) : Prop :=
  ∃ sub ∈ tree.order, (tree.sub sub).start = d.subroutine ∧ tree.Drops settings sub

instance (tree : Tree) (settings : CompactSettings) (d : Diagnostic) :
    Decidable (tree.Silences settings d) :=
  inferInstanceAs (Decidable (∃ sub ∈ tree.order, _ ∧ _))

theorem decompile_eq_ok {program : Program} {routines : Routines} {settings : Settings}
    {text : String} (h : decompile program routines settings = some (.ok text)) :
    ∃ tree, lift program routines settings.lift = some (.ok tree) ∧
      Source.render ((Optimizer.dataFlow routines settings.compact).run tree).1 routines
        settings.source = .ok text := by
  obtain ⟨lifted, hlift, hrest⟩ := Option.bind_eq_some_iff.1 h
  cases lifted with
  | error e => cases hrest
  | ok tree =>
    obtain ⟨compacted, hcompacted, hrender⟩ := Option.bind_eq_some_iff.1 hrest
    obtain rfl := eq_of_optimize hlift hcompacted
    exact ⟨tree, hlift, Option.some.inj hrender⟩

theorem exists_of_decompile (program : Program) (routines : Routines) (settings : Settings)
    (p : Tree → String → Bool) (h : liftsTo program routines settings.lift fun tree =>
      tree.isLayered && (Source.render ((Optimizer.dataFlow routines settings.compact).run tree).1 routines
        settings.source).toOption.any (p tree)) :
    ∃ tree text, lift program routines settings.lift = some (.ok tree) ∧
      decompile program routines settings = some (.ok text) ∧ p tree text := by
  obtain ⟨tree, hlift, hp⟩ := exists_of_lift program routines settings.lift _ h
  obtain ⟨hlayered, hp⟩ := Bool.and_eq_true_iff.1 hp
  cases hrender : Source.render ((Optimizer.dataFlow routines settings.compact).run tree).1 routines
      settings.source with
  | error e => simp [hrender, Except.toOption] at hp
  | ok text =>
    refine ⟨tree, text, hlift, ?_, by simpa [hrender, Except.toOption] using hp⟩
    have hfree := (Tree.acyclic_of_isLayered hlayered).cycleFree
    rw [decompile, hlift, ← hrender]
    simp [optimize_of_cycleFree hlift hfree]

/-- Of the reports made while lifting, all are lines of the text but those about the start and, if
globals are folded, their initializer. These subroutines are not part of the output any more, and
their reports go with them. -/
theorem decompile_reports {program : Program} {routines : Routines} {settings : Settings}
    {text : String} (h : decompile program routines settings = some (.ok text))
    (henabled : settings.compact.enabled) (hreports : settings.source.diagnostics) :
    ∃ tree, lift program routines settings.lift = some (.ok tree) ∧ ∀ d ∈ tree.diagnostics,
      (¬tree.Silences settings.compact d → Source.HasLine text ("// " ++ d.text)) ∧
      (tree.Silences settings.compact d →
        ∀ sub ∈ ((Optimizer.dataFlow routines settings.compact).run tree).1.output,
          sub.start ≠ d.subroutine) := by
  obtain ⟨tree, hlift, h⟩ := decompile_eq_ok h
  have hentered := lift_entered hlift
  have hretains := retains_compacted hlift henabled
  refine ⟨tree, hlift, fun d hd => ⟨fun hloud => ?_, ?_⟩⟩
  · obtain ⟨sub, hsub, hstart⟩ := hentered.reports d hd
    have hkept := (hretains.order sub).2 ⟨hsub, fun hdrops => hloud ⟨sub, hsub, hstart, hdrops⟩⟩
    exact Source.hasLine_render h hreports (hretains.diagnostics ▸ hd)
      (List.mem_map.2 ⟨sub, hkept, rfl⟩) ((hretains.start sub).trans hstart)
  · rintro ⟨dropped, hdropped, hstart, hdrops⟩ s hs heq
    obtain ⟨sub, hsub, rfl⟩ := List.mem_map.1 hs
    obtain ⟨hin, hstays⟩ := (hretains.order sub).1 hsub
    rw [hretains.start] at heq
    cases hentered.distinct sub hin dropped hdropped (heq.trans hstart.symm)
    exact hstays hdrops

/-- Both the start and the main subroutine fail; the second failure is a line of the text. -/
theorem decompile_reports_brokenScript : ∃ text tree d,
    decompile brokenScript {} {} = some (.ok text) ∧ lift brokenScript {} {} = some (.ok tree) ∧
    d ∈ tree.diagnostics ∧ d.severity = .error ∧ ¬tree.Silences {} d ∧
    Source.HasLine text ("// " ++ d.text) := by
  obtain ⟨tree, text, hlift, htext, hloud⟩ := exists_of_decompile brokenScript {} {}
    (fun tree _ => tree.diagnostics.any fun d => d.severity = .error ∧ ¬tree.Silences {} d)
    (by decide +kernel)
  obtain ⟨d, hd, hcond⟩ := List.any_eq_true.1 hloud
  rw [decide_eq_true_eq] at hcond
  obtain ⟨same, hsame, hlines⟩ := decompile_reports htext rfl rfl
  cases hlift.symm.trans hsame
  exact ⟨text, tree, d, htext, hlift, hd, hcond.1, hcond.2, (hlines d hd).1 hcond.2⟩

/-- The start adds what is not there behind the call of an empty main subroutine. -/
def silentScript : Program := .ofList "" [
  { opcode := .jsr, jump := 8 },
  { opcode := .addii },
  { opcode := .retn }
]

/-- A failure of the start leaves no line. -/
theorem not_forall_decompile_reports : ¬∀ (program : Program) (routines : Routines)
    (settings : Settings) (text : String) (tree : Tree),
    settings.lift.strict = false → settings.compact.enabled → settings.source.diagnostics →
    decompile program routines settings = some (.ok text) →
    lift program routines settings.lift = some (.ok tree) →
      ∀ d ∈ tree.diagnostics, d.severity = .error → Source.HasLine text ("// " ++ d.text) := by
  intro h
  obtain ⟨tree, text, hlift, htext, hcond⟩ := exists_of_decompile silentScript {} {}
    (fun tree text => text.length ≤ 20 && tree.diagnostics.any fun d =>
      d.severity = .error ∧ 20 ≤ d.text.length) (by decide +kernel)
  obtain ⟨hshort, hlong⟩ := Bool.and_eq_true_iff.1 hcond
  obtain ⟨d, hd, hcond⟩ := List.any_eq_true.1 hlong
  rw [decide_eq_true_eq] at hcond hshort
  have hline := (h _ _ _ text tree rfl rfl rfl htext hlift d hd hcond.1).length_lt
  rw [String.length_append] at hline
  omega

end ScriptLift
