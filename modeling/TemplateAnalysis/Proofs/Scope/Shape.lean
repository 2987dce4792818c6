import TemplateAnalysis.Proofs.Scope.Tree

namespace TemplateAnalysis

namespace Scope

/-- A scope without what it declares. -/
def shape (scope : Scope) : Scope :=
  { scope with bindings := [] }

/-- The scope with its start at a position. -/
def startAt (start : Position) (scope : Scope) : Scope :=
  { scope with range := { start, stop := max scope.range.stop start } }

/-- The scope with its end at a position. -/
def endAt (stop : Position) (scope : Scope) : Scope :=
  { scope with range := { scope.range with stop := max stop scope.range.start } }

/-- The scope that the end of the file ends. -/
def endAtFile (stop : Position) (scope : Scope) : Scope :=
  { scope.endAt stop with openEnded := true }

theorem endAt_eq {scope : Scope} {stop : Position} (hle : scope.range.start ≤ stop) :
    scope.endAt stop = { scope with range := { start := scope.range.start, stop } } := by
  rw [endAt, max_eq_left hle]

theorem endAtFile_eq {scope : Scope} {stop : Position} (hle : scope.range.start ≤ stop) :
    scope.endAtFile stop =
      { scope with range := { start := scope.range.start, stop }, openEnded := true } := by
  rw [endAtFile, endAt_eq hle]

end Scope

/-- The scope behind others is changed by its number. -/
theorem modify_length (before later : List Scope) (scope : Scope) (change : Scope → Scope) :
    (before ++ scope :: later).modify before.length change = before ++ change scope :: later := by
  induction before with
  | nil => rfl
  | cons first rest ih => rw [List.cons_append, List.length_cons, List.modify_succ_cons, ih]; rfl

namespace ScopeTree

/-- The scopes of a tree without what they declare. -/
def shapes (tree : ScopeTree) : List Scope :=
  tree.scopes.map Scope.shape

variable (tree : ScopeTree) (id : ScopeId)

@[simp] theorem length_shapes : tree.shapes.length = tree.nextId :=
  List.length_map _

theorem shapes_modify {change : Scope → Scope}
    (hchange : ∀ scope : Scope, (change scope).shape = change scope.shape) :
    (tree.modify id change).shapes = tree.shapes.modify id change := by
  refine List.ext_getElem? fun other => ?_
  rw [shapes, shapes, List.getElem?_map, scopes_modify, List.getElem?_modify, List.getElem?_map]
  split <;> cases tree.scopes[other]? <;> simp [hchange]

@[simp] theorem shapes_define (binding : Binding) : (tree.define id binding).shapes = tree.shapes := by
  refine List.ext_getElem? fun other => ?_
  rw [shapes, shapes, List.getElem?_map, define, scopes_modify, List.getElem?_map]
  split <;> cases tree.scopes[other]? <;> rfl

theorem shapes_setStart (start : Position) :
    (tree.setStart id start).shapes = tree.shapes.modify id (Scope.startAt start) :=
  shapes_modify tree id fun _ => rfl

theorem shapes_close (stop : Position) :
    (tree.close id stop).shapes = tree.shapes.modify id (Scope.endAt stop) :=
  shapes_modify tree id fun _ => rfl

theorem shapes_closeAtEnd (stop : Position) :
    (tree.closeAtEnd id stop).shapes = tree.shapes.modify id (Scope.endAtFile stop) := by
  have hended : (tree.closeAtEnd id stop).shapes =
      (tree.close id stop).shapes.modify id fun scope => { scope with openEnded := true } :=
    shapes_modify _ id fun _ => rfl
  rw [hended, shapes_close, List.modify_modify_eq]
  rfl

theorem exists_shapes_insert (kind : ScopeKind) (parent : ScopeId) (start : Position) :
    ∃ range, (tree.insert kind parent start).shapes =
      tree.shapes ++ [{ kind, range, parent := some parent }] :=
  ⟨_, List.map_append⟩

end ScopeTree

end TemplateAnalysis
