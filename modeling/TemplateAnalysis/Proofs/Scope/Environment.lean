import Mathlib.Data.List.Basic
import TemplateAnalysis.Proofs.Scope.Tree

namespace TemplateAnalysis

/-- What a name refers to. -/
structure Declaration where
  name : String
  kind : IdentifierKind
  range : Range
  implicit : Bool := false
  deriving DecidableEq

/-- A binding without the position from which on it is visible. -/
def Declaration.ofBinding (binding : Binding) : Declaration :=
  { name := binding.name, kind := binding.kind, range := binding.range, implicit := binding.implicit }

/-- The declarations of a statement that has names of its own, the last one first. -/
abbrev Frame := List Declaration

/-- The frames around a part of a template. -/
inductive Environment
  | outermost (frame : Frame)
  | inner (frame : Frame) (outer : Environment)

namespace Environment

/-- The last declaration of a name in the innermost frame that has one. -/
def lookup (name : String) : Environment → Option Declaration
  | outermost frame => frame.find? (·.name == name)
  | inner frame outer => (frame.find? (·.name == name)).or (outer.lookup name)

/-- Adds declarations to the innermost frame, one after the other. -/
def declare (declarations : List Declaration) : Environment → Environment
  | outermost frame => outermost (declarations.reverse ++ frame)
  | inner frame outer => inner (declarations.reverse ++ frame) outer

/-- The environment around the innermost frame. -/
def outer? : Environment → Option Environment
  | outermost _ => none
  | inner _ outer => some outer

@[simp] theorem outer?_declare (environment : Environment) (declarations : List Declaration) :
    (environment.declare declarations).outer? = environment.outer? := by
  cases environment <;> rfl

theorem eq_inner {environment around : Environment} (houter : environment.outer? = some around) :
    ∃ frame, environment = inner frame around := by
  cases environment with
  | outermost frame => cases houter
  | inner frame outer => exact ⟨frame, congrArg (inner frame) (Option.some.inj houter)⟩

@[simp] theorem declare_nil (environment : Environment) : environment.declare [] = environment := by
  cases environment <;> rfl

end Environment

namespace Scope

/-- The bindings of a name to which references can refer. -/
def named (name : String) (bindings : List Binding) : List Binding :=
  bindings.filter fun binding => binding.kind.bindsReferences && binding.name == name

section Latest

variable {binding : Binding} {before after : List Binding}

theorem latest_some (hafter : ∀ other ∈ after, other.visibleFrom < binding.visibleFrom) :
    latest (some binding) after = some binding := by
  induction after with
  | nil => rfl
  | cons other rest ih =>
    obtain ⟨hother, hrest⟩ := List.forall_mem_cons.mp hafter
    rw [latest, if_neg (not_le_of_gt hother), ih hrest]

/-- A binding counts if none before it is visible later and all after it are visible earlier. -/
theorem latest_eq_some {best : Option Binding}
    (hbest : ∀ other ∈ best, other.visibleFrom ≤ binding.visibleFrom)
    (hbefore : ∀ other ∈ before, other.visibleFrom ≤ binding.visibleFrom)
    (hafter : ∀ other ∈ after, other.visibleFrom < binding.visibleFrom) :
    latest best (before ++ binding :: after) = some binding := by
  induction before generalizing best with
  | nil =>
    cases best with
    | none => exact latest_some hafter
    | some other =>
      have hother : other.visibleFrom ≤ binding.visibleFrom := hbest other rfl
      rw [List.nil_append, latest, if_pos hother, latest_some hafter]
  | cons first rest ih =>
    obtain ⟨hfirst, hrest⟩ := List.forall_mem_cons.mp hbefore
    rw [List.cons_append]
    cases best with
    | none =>
      refine ih ?_ hrest
      rintro other ⟨⟩
      exact hfirst
    | some other =>
      rw [latest]
      refine ih ?_ hrest
      split
      · rintro another ⟨⟩
        exact hfirst
      · exact hbest

end Latest

section AddBinding

variable {binding : Binding} {bindings : List Binding}

/-- At most one binding has a name and a kind that cannot be declared twice. -/
def Single (bindings : List Binding) : Prop :=
  (bindings.map fun binding => (binding.name, binding.kind)).Pairwise fun first second =>
    first.2.isRedefinable = false → first ≠ second

theorem clashes_iff {other : Binding} :
    clashes binding other = true ↔ (other.name, other.kind) = (binding.name, binding.kind) := by
  simp [clashes]

theorem replaceBinding_split (hclash : bindings.any (clashes binding) = true) :
    ∃ before old after, bindings = before ++ old :: after ∧ clashes binding old = true ∧
      replaceBinding binding bindings = before ++ binding :: after := by
  induction bindings with
  | nil => cases hclash
  | cons other rest ih =>
    rw [replaceBinding]
    by_cases hother : clashes binding other = true
    · rw [if_pos hother]
      exact ⟨[], other, rest, rfl, hother, rfl⟩
    · rw [List.any_cons, Bool.or_eq_true] at hclash
      obtain ⟨before, old, after, rfl, hold, hreplaced⟩ := ih (hclash.resolve_left hother)
      rw [if_neg hother, hreplaced]
      exact ⟨other :: before, old, after, rfl, hold, rfl⟩

/-- A new binding comes after all others, or in the place of one that it replaces. No binding after it
    has the same name and kind. -/
theorem addBinding_split (binding : Binding) (hsingle : Single bindings) :
    ∃ before old after, bindings = before ++ (old ++ after) ∧ addBinding binding bindings = before ++ binding :: after ∧
      (∀ other ∈ old, clashes binding other = true) ∧ (∀ other ∈ after, clashes binding other = false) ∧
      Single (before ++ binding :: after) := by
  unfold addBinding
  split
  next hreplaced =>
    rw [Bool.and_eq_true, Bool.not_eq_true'] at hreplaced
    obtain ⟨hkind, hclash⟩ := hreplaced
    obtain ⟨before, old, after, rfl, hold, hsame⟩ := replaceBinding_split hclash
    have hkey : (old.name, old.kind) = (binding.name, binding.kind) := clashes_iff.mp hold
    have hkeys : Single (before ++ binding :: after) := by
      rw [Single, List.map_append, List.map_cons, hkey] at hsingle
      rwa [Single, List.map_append, List.map_cons]
    refine ⟨before, [old], after, rfl, hsame, by simpa using hold, fun other hother => ?_, hkeys⟩
    rw [Single, List.map_append, List.map_cons, List.pairwise_append, List.pairwise_cons] at hkeys
    have hne := hkeys.2.1.1 _ (List.mem_map_of_mem hother) hkind
    rw [← Bool.not_eq_true, clashes_iff]
    exact fun heq => hne heq.symm
  next hfree =>
    refine ⟨bindings, [], [], by simp, rfl, by simp, by simp, ?_⟩
    rw [Single, List.map_append, List.pairwise_append]
    refine ⟨hsingle, List.pairwise_singleton _ _, fun key hmem last hlast hkind heq => hfree ?_⟩
    rw [List.map_singleton, List.mem_singleton] at hlast
    obtain ⟨other, hother, rfl⟩ := List.mem_map.mp hmem
    rw [Bool.and_eq_true, Bool.not_eq_true', List.any_eq_true]
    rw [heq, hlast] at hkind
    exact ⟨hkind, other, hother, clashes_iff.mpr (heq.trans hlast)⟩

theorem single_addBinding (hsingle : Single bindings) : Single (addBinding binding bindings) := by
  obtain ⟨before, old, after, _, hadded, _, _, hkeys⟩ := addBinding_split binding hsingle
  rwa [hadded]

/-- A new binding changes nothing for the names to which it is no candidate. -/
theorem named_addBinding_of_ne (hsingle : Single bindings) {name : String}
    (hother : (binding.kind.bindsReferences && binding.name == name) = false) :
    named name (addBinding binding bindings) = named name bindings := by
  obtain ⟨before, old, after, hsplit, hadded, hold, _, _⟩ := addBinding_split binding hsingle
  have hdropped : old.filter (fun binding => binding.kind.bindsReferences && binding.name == name) = [] := by
    rw [List.filter_eq_nil_iff]
    intro replaced hmem
    obtain ⟨hname, hkind⟩ := Prod.mk.inj (clashes_iff.mp (hold replaced hmem))
    rw [hname, hkind, hother]
    exact Bool.false_ne_true
  rw [named, named, hadded, hsplit, List.filter_append, List.filter_append, List.filter_append, hdropped,
    List.filter_cons_of_neg (by rw [hother]; exact Bool.false_ne_true), List.nil_append]

end AddBinding

/-- Whether a binding may be declared after another one: it is visible later, or at the same position with
    the same kind. -/
def Precedes (first second : Binding) : Prop :=
  first.visibleFrom < second.visibleFrom ∨
    first.visibleFrom = second.visibleFrom ∧ first.kind = second.kind

theorem Precedes.le {first second : Binding} (hprecedes : Precedes first second) :
    first.visibleFrom ≤ second.visibleFrom := by
  rcases hprecedes with hlt | ⟨heq, _⟩
  · exact hlt.le
  · exact heq.le

/-- A binding that is declared after all others counts for its name. -/
theorem latest_addBinding {binding : Binding} {bindings : List Binding} (hsingle : Single bindings)
    (hbinds : binding.kind.bindsReferences = true)
    (hprecedes : ∀ other ∈ bindings, Precedes other binding) :
    latest none (named binding.name (addBinding binding bindings)) = some binding := by
  obtain ⟨before, old, after, hsplit, hadded, _, hafter, _⟩ := addBinding_split binding hsingle
  subst hsplit
  rw [hadded, named, List.filter_append, List.filter_cons_of_pos (by simp [hbinds])]
  refine latest_eq_some (by rintro other ⟨⟩) (fun other hother => ?_) fun other hother => ?_
  · exact (hprecedes other (List.mem_append_left _ (List.mem_filter.mp hother).1)).le
  · obtain ⟨hmem, hname⟩ := List.mem_filter.mp hother
    simp only [Bool.and_eq_true, beq_iff_eq] at hname
    have hclash := hafter other hmem
    rw [← Bool.not_eq_true, clashes_iff] at hclash
    rcases hprecedes other (by simp [hmem]) with hlt | ⟨_, hkind⟩
    · exact hlt
    · exact absurd (Prod.ext hname.2 hkind) hclash

/-- The bindings of a scope make up a frame: each is visible at a position, and a name has the same
    declaration in both. -/
structure Describes (now : Position) (bindings : List Binding) (frame : Frame) : Prop where
  visible : ∀ binding ∈ bindings, binding.visibleFrom ≤ now
  single : Single bindings
  found : ∀ name, (latest none (named name bindings)).map Declaration.ofBinding =
    frame.find? (·.name == name)

namespace Describes

variable {now later : Position} {binding : Binding} {bindings added : List Binding} {frame : Frame}

theorem nil (now : Position) : Describes now [] [] :=
  ⟨by simp, List.Pairwise.nil, fun _ => rfl⟩

theorem mono (hdescribes : Describes now bindings frame) (hle : now ≤ later) :
    Describes later bindings frame :=
  ⟨fun binding hmem => (hdescribes.visible binding hmem).trans hle, hdescribes.single, hdescribes.found⟩

theorem visible_add (hdescribes : Describes now bindings frame) (hvisible : binding.visibleFrom ≤ later)
    (hle : now ≤ later) : ∀ other ∈ addBinding binding bindings, other.visibleFrom ≤ later := by
  intro other hother
  rcases ScopeTree.mem_addBinding hother with rfl | hmem
  · exact hvisible
  · exact (hdescribes.visible other hmem).trans hle

theorem add (hdescribes : Describes now bindings frame) (hbinds : binding.kind.bindsReferences = true)
    (hprecedes : ∀ other ∈ bindings, Precedes other binding) (hvisible : binding.visibleFrom ≤ later)
    (hle : now ≤ later) :
    Describes later (addBinding binding bindings) (.ofBinding binding :: frame) where
  visible := hdescribes.visible_add hvisible hle
  single := single_addBinding hdescribes.single
  found name := by
    by_cases hname : binding.name = name
    · subst hname
      rw [latest_addBinding hdescribes.single hbinds hprecedes, List.find?_cons_of_pos]
      · rfl
      · exact beq_self_eq_true binding.name
    · have hother : (binding.name == name) = false := beq_eq_false_iff_ne.mpr hname
      rw [named_addBinding_of_ne hdescribes.single (by rw [hother, Bool.and_false]), hdescribes.found,
        List.find?_cons_of_neg]
      exact (hother ▸ Bool.false_ne_true : ¬ (binding.name == name) = true)

/-- A name that is no variable makes no declaration. -/
theorem add_of_not_binds (hdescribes : Describes now bindings frame)
    (hbinds : binding.kind.bindsReferences = false) (hvisible : binding.visibleFrom ≤ later)
    (hle : now ≤ later) : Describes later (addBinding binding bindings) frame where
  visible := hdescribes.visible_add hvisible hle
  single := single_addBinding hdescribes.single
  found name := by
    rw [named_addBinding_of_ne hdescribes.single (by rw [hbinds, Bool.false_and]), hdescribes.found]

/-- Bindings that are declared one after the other are the newest declarations of the frame. -/
theorem addAll (hdescribes : Describes now bindings frame)
    (hbinds : ∀ binding ∈ added, binding.kind.bindsReferences = true)
    (hprecedes : ∀ binding ∈ added, ∀ other ∈ bindings, Precedes other binding)
    (hordered : added.Pairwise Precedes) (hvisible : ∀ binding ∈ added, binding.visibleFrom ≤ later)
    (hle : now ≤ later) :
    Describes later (added.foldl (fun bindings binding => addBinding binding bindings) bindings)
      ((added.map Declaration.ofBinding).reverse ++ frame) := by
  induction added generalizing now bindings frame with
  | nil => exact hdescribes.mono hle
  | cons binding rest ih =>
    obtain ⟨hbinding, hbinds⟩ := List.forall_mem_cons.mp hbinds
    obtain ⟨hbefore, hprecedes⟩ := List.forall_mem_cons.mp hprecedes
    obtain ⟨hfirst, hordered⟩ := List.pairwise_cons.mp hordered
    obtain ⟨hnow, hvisible⟩ := List.forall_mem_cons.mp hvisible
    rw [List.foldl_cons, List.map_cons, List.reverse_cons, List.append_assoc, List.singleton_append]
    refine ih (hdescribes.add hbinding hbefore hnow hle) hbinds ?_ hordered hvisible (le_refl later)
    intro next hnext other hother
    rcases ScopeTree.mem_addBinding hother with rfl | hmem
    · exact hfirst next hnext
    · exact hprecedes next hnext other hmem

end Describes

end Scope

end TemplateAnalysis
