import TemplateAnalysis.Proofs.Scope.Tree
import TemplateAnalysis.Template.Outline

namespace TemplateAnalysis

/-- The kinds of names that a template can declare. -/
def IdentifierKind.isDeclared : IdentifierKind → Bool
  | hostVariable | undefinedVariable | templateRef | link => false
  | _ => true

namespace Template.Outline

/-- The names that a state has declared, or is about to declare, are of the kinds that a template can
    declare; the names of templates and the links are of their own kinds and report no error. -/
structure Declares (state : State) : Prop where
  scopes : ∀ id binding, binding ∈ state.scopes.bindingsOf id → binding.kind.isDeclared = true
  pending : ∀ block ∈ state.blocks, ∀ pair ∈ block.pending, pair.2.kind.isDeclared = true
  templates : ∀ template ∈ state.templates, template.kind = .templateRef ∧ template.error = none
  links : ∀ link ∈ state.links, link.kind = .link ∧ link.error = none

namespace Declares

variable {state : State}

theorem define (hdeclares : Declares state) (scope : ScopeId) {binding : Binding}
    (hkind : binding.kind.isDeclared = true) : Declares (state.define scope binding) where
  scopes id declared hmem := by
    rcases ScopeTree.mem_bindingsOf_define _ _ _ hmem with rfl | hmem
    · exact hkind
    · exact hdeclares.scopes id declared hmem
  pending := hdeclares.pending
  templates := hdeclares.templates
  links := hdeclares.links

theorem defineAll (hdeclares : Declares state) (scope : ScopeId) {bindings : List Binding}
    (hkinds : ∀ binding ∈ bindings, binding.kind.isDeclared = true) :
    Declares (state.defineAll scope bindings) := by
  induction bindings generalizing state with
  | nil => exact hdeclares
  | cons binding rest ih =>
    obtain ⟨hkind, hrest⟩ := List.forall_mem_cons.mp hkinds
    exact ih (hdeclares.define scope hkind) hrest

/-- All names of one kind can be declared if the kind is right. -/
theorem defineNames (hdeclares : Declares state) (scope : ScopeId) {kind : IdentifierKind}
    (hkind : kind.isDeclared = true) (visibleFrom : Token → Position) (names : List Token) :
    Declares (state.defineAll scope (names.map fun name => bind kind (visibleFrom name) name)) :=
  hdeclares.defineAll scope fun binding hmem => by
    obtain ⟨name, _, rfl⟩ := List.mem_map.mp hmem
    exact hkind

theorem record (hdeclares : Declares state) (scope : ScopeId) (mentions : Mentions) :
    Declares (state.record scope mentions) where
  scopes := hdeclares.scopes
  pending := hdeclares.pending
  templates template hmem := by
    rcases List.mem_append.mp hmem with hmem | hmem
    · exact hdeclares.templates template hmem
    · obtain ⟨name, _, rfl⟩ := List.mem_map.mp hmem
      exact ⟨rfl, rfl⟩
  links link hmem := by
    rcases List.mem_append.mp hmem with hmem | hmem
    · exact hdeclares.links link hmem
    · obtain ⟨name, _, rfl⟩ := List.mem_map.mp hmem
      exact ⟨rfl, rfl⟩

theorem addScope (hdeclares : Declares state) (kind : ScopeKind) (word : Token) :
    Declares (state.addScope kind word) where
  scopes id declared hmem := by
    rw [State.addScope, ScopeTree.bindingsOf_insert] at hmem
    split at hmem
    · cases hmem
    · exact hdeclares.scopes id declared hmem
  pending := hdeclares.pending
  templates := hdeclares.templates
  links := hdeclares.links

theorem startBody (hdeclares : Declares state) (scope : ScopeId) (start : Position) :
    Declares (state.startBody scope start) where
  scopes id declared hmem := by
    rw [State.startBody, ScopeTree.bindingsOf_setStart] at hmem
    exact hdeclares.scopes id declared hmem
  pending := hdeclares.pending
  templates := hdeclares.templates
  links := hdeclares.links

theorem push (hdeclares : Declares state) {block : OpenBlock}
    (hpending : ∀ pair ∈ block.pending, pair.2.kind.isDeclared = true) :
    Declares (state.push block) where
  scopes := hdeclares.scopes
  pending := List.forall_mem_cons.mpr ⟨hpending, hdeclares.pending⟩
  templates := hdeclares.templates
  links := hdeclares.links

theorem settle (hdeclares : Declares state) (after : Position) {pending : List (ScopeId × Binding)}
    (hpending : ∀ pair ∈ pending, pair.2.kind.isDeclared = true) :
    Declares (State.settle after state pending) := by
  induction pending generalizing state with
  | nil => exact hdeclares
  | cons pair rest ih =>
    obtain ⟨hpair, hrest⟩ := List.forall_mem_cons.mp hpending
    exact ih (hdeclares.define pair.1 hpair) hrest

theorem close (hdeclares : Declares state) {block : OpenBlock} (stop after : Position)
    (hpending : ∀ pair ∈ block.pending, pair.2.kind.isDeclared = true) :
    Declares (state.close block stop after) := by
  rw [State.close]
  split
  next scope hscope =>
    have hclosed : Declares { state with scopes := state.scopes.close scope stop } := by
      refine ⟨fun id declared hmem => ?_, hdeclares.pending, hdeclares.templates, hdeclares.links⟩
      rw [ScopeTree.bindingsOf_close] at hmem
      exact hdeclares.scopes id declared hmem
    exact hclosed.settle after hpending
  next => exact hdeclares.settle after hpending

theorem closeAll (hdeclares : Declares state) (blocks : List OpenBlock) (stop after : Position)
    (hpending : ∀ block ∈ blocks, ∀ pair ∈ block.pending, pair.2.kind.isDeclared = true) :
    Declares (blocks.foldl (·.close · stop after) state) := by
  induction blocks generalizing state with
  | nil => exact hdeclares
  | cons block rest ih =>
    obtain ⟨hblock, hrest⟩ := List.forall_mem_cons.mp hpending
    exact ih (hdeclares.close stop after hblock) hrest

theorem closeAtEnd (hdeclares : Declares state) (blocks : List OpenBlock) (stop : Position)
    (hpending : ∀ block ∈ blocks, ∀ pair ∈ block.pending, pair.2.kind.isDeclared = true) :
    Declares (blocks.foldl (State.closeAtEnd stop) state) := by
  induction blocks generalizing state with
  | nil => exact hdeclares
  | cons block rest ih =>
    obtain ⟨hblock, hrest⟩ := List.forall_mem_cons.mp hpending
    refine ih ?_ hrest
    have hclosed := hdeclares.close stop stop hblock
    simp only [State.closeAtEnd]
    split
    · refine ⟨fun id declared hmem => ?_, hclosed.pending, hclosed.templates, hclosed.links⟩
      rw [ScopeTree.bindingsOf_closeAtEnd] at hmem
      exact hclosed.scopes id declared hmem
    · exact hclosed

end Declares

open Declares

theorem declares_loopTargets (targets : List Token) :
    ∀ binding ∈ loopTargets targets, binding.kind.isDeclared = true := by
  cases targets with
  | nil => exact fun binding hmem => by cases hmem
  | cons key values =>
    refine List.forall_mem_cons.mpr ⟨rfl, fun binding hmem => ?_⟩
    obtain ⟨value, _, rfl⟩ := List.mem_map.mp hmem
    rfl

theorem declares_implicitBindings (anchor : Range) (visibleFrom : Position) :
    ∀ binding ∈ implicitBindings anchor visibleFrom, binding.kind.isDeclared = true := by
  intro binding hmem
  obtain ⟨name, _, rfl⟩ := List.mem_map.mp hmem
  rfl

theorem declares_apply {state : State} {tag : Tag} {statement : Statement}
    (hdeclares : Declares state) : Declares (apply state tag statement) := by
  have hnone : ∀ pair ∈ ([] : List (ScopeId × Binding)), pair.2.kind.isDeclared = true :=
    fun pair hmem => by cases hmem
  cases statement with
  | other | endRaw => exact hdeclares
  | evaluate mentions => exact hdeclares.record _ mentions
  | beginIf condition => exact (hdeclares.record _ condition).push hnone
  | beginFor word targets sequence filter =>
    have htargets := (hdeclares.addScope .loop word).defineAll state.scopes.nextId
      (declares_loopTargets targets)
    exact ((((htargets.record _ sequence).record _ filter).startBody _ tag.after).define _ rfl).push
      hnone
  | otherwise =>
    simp only [apply, endLoopBody]
    split
    next scope pending outer hblocks =>
      have hpending := hdeclares.pending
      rw [hblocks, List.forall_mem_cons] at hpending
      refine ⟨fun id declared hmem => ?_, List.forall_mem_cons.mpr hpending, hdeclares.templates,
        hdeclares.links⟩
      rw [ScopeTree.bindingsOf_close] at hmem
      exact hdeclares.scopes id declared hmem
    next => exact hdeclares
  | assign targets value =>
    exact (hdeclares.record _ value).defineNames _ rfl (fun _ => tag.after) targets
  | beginSet targets mentions =>
    refine (hdeclares.record _ mentions).push fun pair hmem => ?_
    obtain ⟨target, _, rfl⟩ := List.mem_map.mp hmem
    rfl
  | beginWith word names values =>
    exact ((((hdeclares.addScope .withBlock word).record _ values).startBody _ tag.after).defineNames
      _ rfl (fun _ => tag.after) names).push hnone
  | beginMacro word name parameters defaults =>
    exact ((((((hdeclares.addScope .macroBody word).defineNames _ rfl
      (fun name => name.start.position) name.toList).defineNames _ rfl
        (fun parameter => parameter.stop.position) parameters).record _ defaults).startBody _
          tag.after).defineAll _ (declares_implicitBindings _ _)).push hnone
  | beginCall word parameters mentions =>
    exact ((((hdeclares.addScope .call word).defineNames _ rfl
      (fun parameter => parameter.stop.position) parameters).record _ mentions).startBody _
        tag.after).push hnone
  | beginBlock word name =>
    exact (((hdeclares.addScope .block word).defineNames _ rfl (fun name => name.start.position)
      name.toList).startBody _ tag.after).push hnone
  | beginFilter mentions => exact (hdeclares.record _ mentions).push hnone
  | beginRaw => exact ⟨hdeclares.scopes, hdeclares.pending, hdeclares.templates, hdeclares.links⟩
  | importTemplate mentions alias? =>
    exact (hdeclares.record _ mentions).defineNames _ rfl (fun _ => tag.after) alias?.toList
  | importNames mentions names =>
    exact (hdeclares.record _ mentions).defineNames _ rfl (fun _ => tag.after) names
  | endBlock kind =>
    simp only [apply, endBlock]
    split
    next => exact hdeclares
    next block outer houter =>
      have hblocks : state.blocks = (state.blocks.takeWhile (·.kind != kind) ++ [block]) ++ outer := by
        rw [List.append_assoc, List.singleton_append, ← houter, List.takeWhile_append_dropWhile]
      have hpending := hdeclares.pending
      rw [hblocks, List.forall_mem_append] at hpending
      have houterDeclares : Declares { state with blocks := outer } :=
        ⟨hdeclares.scopes, hpending.2, hdeclares.templates, hdeclares.links⟩
      exact houterDeclares.closeAll _ _ _ hpending.1

theorem declares_foldl {state : State} (tags : List Tag) (hdeclares : Declares state) :
    Declares (tags.foldl step state) := by
  induction tags generalizing state with
  | nil => exact hdeclares
  | cons tag rest ih =>
    refine ih ?_
    simp only [step]
    split
    · split
      · exact ⟨hdeclares.scopes, hdeclares.pending, hdeclares.templates, hdeclares.links⟩
      · exact hdeclares
    · exact declares_apply hdeclares

theorem declares_finish (source : Source) :
    Declares (finish source.endPosition ((Tag.ofTokens source.endPosition
      (tokenize source.chars)).foldl step { scopes := .ofEnd source.endPosition })) := by
  have hinitial : Declares { scopes := .ofEnd source.endPosition } := by
    refine ⟨fun id binding hmem => ?_, fun block hmem => ?_, fun template hmem => ?_,
      fun link hmem => ?_⟩
    · cases id with
      | zero => cases hmem
      | succ id => cases hmem
    all_goals cases hmem
  let tags := Tag.ofTokens source.endPosition (tokenize source.chars)
  let state := tags.foldl step { scopes := .ofEnd source.endPosition }
  have hread : Declares state := declares_foldl tags hinitial
  have hclosing : Declares { state with blocks := [] } :=
    ⟨hread.scopes, fun block hmem => absurd hmem List.not_mem_nil, hread.templates, hread.links⟩
  exact hclosing.closeAtEnd state.blocks source.endPosition hread.pending

/-- A template declares nothing but names of the kinds for declarations. -/
theorem isDeclared_of_mem_bindings {source : Source} {binding : Binding}
    (hmem : binding ∈ (ofSource source).scopes.bindings) : binding.kind.isDeclared = true := by
  obtain ⟨id, hmem⟩ := (ScopeTree.mem_bindings _).mp hmem
  exact (declares_finish source).scopes id binding hmem

end Template.Outline

end TemplateAnalysis
