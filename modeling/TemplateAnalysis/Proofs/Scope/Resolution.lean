import TemplateAnalysis.Proofs.Scope.Environment

namespace TemplateAnalysis.ScopeTree

/-- Declares names in a scope, one after the other. -/
def defineAll (tree : ScopeTree) (id : ScopeId) (bindings : List Binding) : ScopeTree :=
  bindings.foldl (·.define id ·) tree

section DefineAll

variable (tree : ScopeTree) (id other : ScopeId) (bindings : List Binding)

@[simp] theorem nextId_defineAll : (tree.defineAll id bindings).nextId = tree.nextId := by
  induction bindings generalizing tree with
  | nil => rfl
  | cons binding rest ih => exact (ih (tree.define id binding)).trans (nextId_define tree id binding)

@[simp] theorem parent?_defineAll : (tree.defineAll id bindings).parent? other = tree.parent? other := by
  induction bindings generalizing tree with
  | nil => rfl
  | cons binding rest ih =>
    exact (ih (tree.define id binding)).trans (parent?_define tree id other binding)

theorem bindingsOf_defineAll_of_ne (hne : id ≠ other) :
    (tree.defineAll id bindings).bindingsOf other = tree.bindingsOf other := by
  induction bindings generalizing tree with
  | nil => rfl
  | cons binding rest ih =>
    exact (ih (tree.define id binding)).trans (bindingsOf_define_of_ne tree id other binding hne)

theorem bindingsOf_defineAll (hid : id < tree.nextId) : (tree.defineAll id bindings).bindingsOf id =
    bindings.foldl (fun bindings binding => Scope.addBinding binding bindings) (tree.bindingsOf id) := by
  induction bindings generalizing tree with
  | nil => rfl
  | cons binding rest ih =>
    have hrest := ih (tree.define id binding) (by simpa using hid)
    rw [bindingsOf_define _ _ _ _ hid, if_pos rfl] at hrest
    exact hrest

/-- A declaration in an old scope can be made before or after a new scope is added. -/
theorem insert_define (kind : ScopeKind) (parent : ScopeId) (start : Position) (binding : Binding)
    (hid : id < tree.nextId) :
    (tree.insert kind parent start).define id binding = (tree.define id binding).insert kind parent start := by
  have hscopes : ((tree.insert kind parent start).define id binding).scopes =
      ((tree.define id binding).insert kind parent start).scopes := by
    refine List.ext_getElem? fun other => ?_
    rw [define, scopes_modify, getElem?_insert, getElem?_insert, nextId_define, range?_define]
    by_cases hnew : other = tree.nextId
    · rw [if_neg (hnew ▸ hid.ne), if_pos hnew, if_pos hnew]
    · rw [if_neg hnew, if_neg hnew, define, scopes_modify]
  exact congrArg ScopeTree.mk hscopes

theorem insert_defineAll (kind : ScopeKind) (parent : ScopeId) (start : Position) (hid : id < tree.nextId) :
    (tree.insert kind parent start).defineAll id bindings =
      (tree.defineAll id bindings).insert kind parent start := by
  induction bindings generalizing tree with
  | nil => rfl
  | cons binding rest ih =>
    have hrest := ih (tree.define id binding) (by simpa using hid)
    rw [← insert_define tree id kind parent start binding hid] at hrest
    exact hrest

end DefineAll

/-- A tree grows after a position: the scopes that it has keep their parents, and whatever they declare in
    addition is visible later than the position only. -/
structure Grows (now : Position) (tree later : ScopeTree) : Prop where
  nextId : tree.nextId ≤ later.nextId
  parent? : ∀ id < tree.nextId, later.parent? id = tree.parent? id
  bindingsOf : ∀ id < tree.nextId,
    (later.bindingsOf id).filter (fun binding => decide (binding.visibleFrom ≤ now)) =
      (tree.bindingsOf id).filter fun binding => decide (binding.visibleFrom ≤ now)

namespace Grows

variable {now before : Position} {tree middle later : ScopeTree} {id : ScopeId}

theorem refl (now : Position) (tree : ScopeTree) : Grows now tree tree :=
  ⟨le_refl _, fun _ _ => rfl, fun _ _ => rfl⟩

/-- Scopes that keep their parents and their bindings do not matter. -/
theorem of_same (hsize : tree.nextId ≤ later.nextId)
    (hparents : ∀ id < tree.nextId, later.parent? id = tree.parent? id)
    (hbindings : ∀ id < tree.nextId, later.bindingsOf id = tree.bindingsOf id) : Grows now tree later :=
  ⟨hsize, hparents, fun id hid => by rw [hbindings id hid]⟩

theorem mono (hgrows : Grows now tree later) (hle : before ≤ now) : Grows before tree later where
  nextId := hgrows.nextId
  parent? := hgrows.parent?
  bindingsOf id hid := by
    have hearly : ∀ bindings : List Binding,
        (bindings.filter fun binding => decide (binding.visibleFrom ≤ now)).filter
          (fun binding => decide (binding.visibleFrom ≤ before)) =
        bindings.filter fun binding => decide (binding.visibleFrom ≤ before) := by
      intro bindings
      rw [List.filter_filter]
      refine List.filter_congr fun binding _ => ?_
      rw [← Bool.decide_and, decide_eq_decide]
      exact and_iff_left_of_imp fun hvisible => hvisible.trans hle
    rw [← hearly (later.bindingsOf id), hgrows.bindingsOf id hid, hearly]

theorem trans (hfirst : Grows now tree middle) (hsecond : Grows now middle later) :
    Grows now tree later where
  nextId := hfirst.nextId.trans hsecond.nextId
  parent? id hid := (hsecond.parent? id (hid.trans_le hfirst.nextId)).trans (hfirst.parent? id hid)
  bindingsOf id hid :=
    (hsecond.bindingsOf id (hid.trans_le hfirst.nextId)).trans (hfirst.bindingsOf id hid)

theorem insert (hgrows : Grows now tree middle) (kind : ScopeKind) (parent : ScopeId) (start : Position) :
    Grows now tree (middle.insert kind parent start) := by
  refine hgrows.trans (of_same (by simp) (fun id hid => ?_) fun id hid => ?_)
  · rw [parent?_insert, if_neg hid.ne]
  · rw [bindingsOf_insert, if_neg hid.ne]

theorem setStart (hgrows : Grows now tree middle) (id : ScopeId) (start : Position) :
    Grows now tree (middle.setStart id start) :=
  hgrows.trans (of_same (by simp) (by simp) (by simp))

theorem close (hgrows : Grows now tree middle) (id : ScopeId) (stop : Position) :
    Grows now tree (middle.close id stop) :=
  hgrows.trans (of_same (by simp) (by simp) (by simp))

/-- What a new scope declares does not matter to the old ones. -/
theorem defineAll_of_le (hgrows : Grows now tree middle) (hid : tree.nextId ≤ id) (bindings : List Binding) :
    Grows now tree (middle.defineAll id bindings) where
  nextId := by simpa using hgrows.nextId
  parent? other hother := by rw [parent?_defineAll, hgrows.parent? other hother]
  bindingsOf other hother := by
    rw [bindingsOf_defineAll_of_ne _ _ _ _ (hother.trans_le hid).ne', hgrows.bindingsOf other hother]

/-- A later declaration that replaces nothing does not matter. -/
theorem define (hgrows : Grows now tree middle) (hid : id < middle.nextId) {binding : Binding}
    (hkeeps : binding.kind.isRedefinable = true ∨
      ∀ other ∈ middle.bindingsOf id, Scope.clashes binding other = false)
    (hlt : now < binding.visibleFrom) : Grows now tree (middle.define id binding) := by
  refine hgrows.trans ⟨by simp, by simp, fun other hother => ?_⟩
  rw [bindingsOf_define _ _ _ _ hid]
  split
  next hsame =>
    subst hsame
    have hadded : Scope.addBinding binding (middle.bindingsOf id) = middle.bindingsOf id ++ [binding] := by
      rw [Scope.addBinding, if_neg]
      rw [Bool.and_eq_true, Bool.not_eq_true', List.any_eq_true]
      rintro ⟨hkind, clashing, hmem, hclash⟩
      rcases hkeeps with hredefinable | hnone
      · rw [hkind] at hredefinable
        cases hredefinable
      · rw [hnone clashing hmem] at hclash
        cases hclash
    rw [hadded, List.filter_append, List.filter_cons_of_neg, List.filter_nil, List.append_nil]
    rw [decide_eq_true_iff]
    exact not_le_of_gt hlt
  next => rfl

theorem defineAll (hgrows : Grows now tree middle) (hid : id < middle.nextId) {bindings : List Binding}
    (hkeeps : ∀ binding ∈ bindings, binding.kind.isRedefinable = true ∧ now < binding.visibleFrom) :
    Grows now tree (middle.defineAll id bindings) := by
  induction bindings generalizing middle with
  | nil => exact hgrows
  | cons binding rest ih =>
    obtain ⟨⟨hkind, hlt⟩, hrest⟩ := List.forall_mem_cons.mp hkeeps
    exact ih (hgrows.define hid (.inl hkind) hlt) (by simpa using hid) hrest

end Grows

/-- A scope with those around it stands for an environment at a position. -/
inductive Represents (now : Position) (tree : ScopeTree) : ScopeId → Environment → Prop
  | outermost {id : ScopeId} {frame : Frame} (hid : id < tree.nextId) (hparent : tree.parent? id = none)
      (hframe : Scope.Describes now (tree.bindingsOf id) frame) : Represents now tree id (.outermost frame)
  | inner {id parent : ScopeId} {frame : Frame} {outer : Environment} (hid : id < tree.nextId)
      (hparent : tree.parent? id = some parent) (hlt : parent < id)
      (hframe : Scope.Describes now (tree.bindingsOf id) frame) (houter : Represents now tree parent outer) :
      Represents now tree id (.inner frame outer)

namespace Represents

variable {now later : Position} {tree final : ScopeTree} {id parent : ScopeId} {environment : Environment}

theorem lt_nextId (hrepresents : Represents now tree id environment) : id < tree.nextId := by
  cases hrepresents <;> assumption

theorem mono (hrepresents : Represents now tree id environment) (hle : now ≤ later) :
    Represents later tree id environment := by
  induction hrepresents with
  | outermost hid hparent hframe => exact .outermost hid hparent (hframe.mono hle)
  | inner hid hparent hlt hframe _ ih => exact .inner hid hparent hlt (hframe.mono hle) ih

/-- An environment depends on the scopes up to the innermost one only. -/
theorem congr (hrepresents : Represents now tree id environment) (hsize : tree.nextId ≤ final.nextId)
    (hparents : ∀ other ≤ id, final.parent? other = tree.parent? other)
    (hbindings : ∀ other ≤ id, final.bindingsOf other = tree.bindingsOf other) :
    Represents now final id environment := by
  induction hrepresents with
  | @outermost id frame hid hparent hframe =>
    rw [← hparents id le_rfl] at hparent
    rw [← hbindings id le_rfl] at hframe
    exact .outermost (hid.trans_le hsize) hparent hframe
  | @inner id parent frame outer hid hparent hlt hframe _ ih =>
    rw [← hparents id le_rfl] at hparent
    rw [← hbindings id le_rfl] at hframe
    exact .inner (hid.trans_le hsize) hparent hlt hframe
      (ih (fun other hle => hparents other (hle.trans hlt.le))
        fun other hle => hbindings other (hle.trans hlt.le))

theorem insert (hrepresents : Represents now tree id environment) (kind : ScopeKind) (start : Position) :
    Represents now (tree.insert kind parent start) id environment := by
  have hne : ∀ other ≤ id, other ≠ tree.nextId := fun other hle =>
    (hle.trans_lt hrepresents.lt_nextId).ne
  refine hrepresents.congr (by simp) (fun other hle => ?_) fun other hle => ?_
  · rw [parent?_insert, if_neg (hne other hle)]
  · rw [bindingsOf_insert, if_neg (hne other hle)]

theorem setStart (hrepresents : Represents now tree id environment) (other : ScopeId) (start : Position) :
    Represents now (tree.setStart other start) id environment :=
  hrepresents.congr (by simp) (by simp) (by simp)

theorem close (hrepresents : Represents now tree id environment) (other : ScopeId) (stop : Position) :
    Represents now (tree.close other stop) id environment :=
  hrepresents.congr (by simp) (by simp) (by simp)

/-- A new scope stands for a new frame. -/
theorem inner_insert (hrepresents : Represents now tree parent environment) (kind : ScopeKind)
    (start : Position) :
    Represents now (tree.insert kind parent start) tree.nextId (.inner [] environment) := by
  refine .inner (by simp) ?_ hrepresents.lt_nextId ?_ (hrepresents.insert kind start)
  · rw [parent?_insert, if_pos rfl]
  · rw [bindingsOf_insert, if_pos rfl]
    exact .nil now

/-- The scope around a scope stands for the environment around the frame. -/
theorem outer {frame : Frame} (hrepresents : Represents now tree id (.inner frame environment))
    (hparent : tree.parent? id = some parent) : Represents now tree parent environment := by
  cases hrepresents with
  | inner hid hother hlt hframe houter =>
    rw [hparent, Option.some.injEq] at hother
    rwa [hother]

/-- Declarations in the innermost scope are the newest ones of the innermost frame. -/
theorem declare (hrepresents : Represents now tree id environment) {added : List Binding}
    (hbinds : ∀ binding ∈ added, binding.kind.bindsReferences = true)
    (hnew : ∀ binding ∈ added, now < binding.visibleFrom) (hordered : added.Pairwise Scope.Precedes)
    (hvisible : ∀ binding ∈ added, binding.visibleFrom ≤ later) (hle : now ≤ later) :
    Represents later (tree.defineAll id added) id (environment.declare (added.map Declaration.ofBinding)) := by
  have hframe : ∀ {frame}, Scope.Describes now (tree.bindingsOf id) frame →
      Scope.Describes later ((tree.defineAll id added).bindingsOf id)
        ((added.map Declaration.ofBinding).reverse ++ frame) := by
    intro frame hdescribes
    rw [bindingsOf_defineAll _ _ _ hrepresents.lt_nextId]
    refine hdescribes.addAll hbinds (fun binding hmem other hother => .inl ?_) hordered hvisible hle
    exact (hdescribes.visible other hother).trans_lt (hnew binding hmem)
  cases hrepresents with
  | outermost hid hparent hdescribes =>
    exact .outermost (by simpa using hid) (by simpa using hparent) (hframe hdescribes)
  | @inner _ parent frame outer hid hparent hlt hdescribes houter =>
    have hsame : Represents now (tree.defineAll id added) parent outer :=
      houter.congr (by simp) (by simp) fun other hother =>
        bindingsOf_defineAll_of_ne _ _ _ _ (hother.trans_lt hlt).ne'
    exact .inner (by simpa using hid) (by simpa using hparent) hlt (hframe hdescribes) (hsame.mono hle)

/-- A declaration that is no variable changes no environment. -/
theorem define (hrepresents : Represents now tree id environment) {binding : Binding}
    (hbinds : binding.kind.bindsReferences = false) (hvisible : binding.visibleFrom ≤ later)
    (hle : now ≤ later) : Represents later (tree.define id binding) id environment := by
  have hframe : ∀ {frame}, Scope.Describes now (tree.bindingsOf id) frame →
      Scope.Describes later ((tree.define id binding).bindingsOf id) frame := by
    intro frame hdescribes
    rw [bindingsOf_define _ _ _ _ hrepresents.lt_nextId, if_pos rfl]
    exact hdescribes.add_of_not_binds hbinds hvisible hle
  cases hrepresents with
  | outermost hid hparent hdescribes =>
    exact .outermost (by simpa using hid) (by simpa using hparent) (hframe hdescribes)
  | @inner _ parent frame outer hid hparent hlt hdescribes houter =>
    have hsame : Represents now (tree.define id binding) parent outer :=
      houter.congr (by simp) (by simp) fun other hother =>
        bindingsOf_define_of_ne _ _ _ _ (hother.trans_lt hlt).ne'
    exact .inner (by simpa using hid) (by simpa using hparent) hlt (hframe hdescribes) (hsame.mono hle)

end Represents

/-- Opens a scope for the body of a statement. The names in the head of the statement are declared before its
    start is moved behind the head, and the other ones after that. -/
def openScope (tree : ScopeTree) (kind : ScopeKind) (parent : ScopeId) (word start : Position)
    (first second : List Binding) : ScopeTree :=
  (((tree.insert kind parent word).defineAll tree.nextId first).setStart tree.nextId start).defineAll
    tree.nextId second

section OpenScope

variable {now limit start word : Position} {tree : ScopeTree} {kind : ScopeKind} {parent : ScopeId}
  {environment : Environment} {first second : List Binding}

theorem parent?_openScope (tree : ScopeTree) (kind : ScopeKind) (parent : ScopeId) (word start : Position)
    (first second : List Binding) :
    (tree.openScope kind parent word start first second).parent? tree.nextId = some parent := by
  rw [openScope, parent?_defineAll, parent?_setStart, parent?_defineAll, parent?_insert, if_pos rfl]

theorem grows_openScope (now : Position) (tree : ScopeTree) (kind : ScopeKind) (parent : ScopeId)
    (word start : Position) (first second : List Binding) :
    Grows now tree (tree.openScope kind parent word start first second) := by
  have hinsert := (Grows.refl now tree).insert kind parent word
  have hfirst := (hinsert.defineAll_of_le (le_refl tree.nextId) first).setStart tree.nextId start
  exact hfirst.defineAll_of_le (le_refl tree.nextId) second

/-- The names in the head of a statement are the first ones of the new frame. -/
theorem Represents.head (hrepresents : Represents now tree parent environment) (kind : ScopeKind)
    (word : Position) (hbinds : ∀ binding ∈ first, binding.kind.bindsReferences = true)
    (hnew : ∀ binding ∈ first, now < binding.visibleFrom) (hordered : first.Pairwise Scope.Precedes)
    (hvisible : ∀ binding ∈ first, binding.visibleFrom ≤ limit) (hle : now ≤ limit) :
    Represents limit ((tree.insert kind parent word).defineAll tree.nextId first) tree.nextId
      ((Environment.inner [] environment).declare (first.map Declaration.ofBinding)) :=
  (hrepresents.inner_insert kind word).declare hbinds hnew hordered hvisible hle

theorem Represents.openScope
    (hhead : Represents limit ((tree.insert kind parent word).defineAll tree.nextId first) tree.nextId environment)
    (hbinds : ∀ binding ∈ second, binding.kind.bindsReferences = true)
    (hordered : second.Pairwise Scope.Precedes) (hvisible : ∀ binding ∈ second, binding.visibleFrom = start)
    (hlt : limit < start) :
    Represents start (tree.openScope kind parent word start first second) tree.nextId
      (environment.declare (second.map Declaration.ofBinding)) := by
  refine (hhead.setStart tree.nextId start).declare hbinds (fun binding hmem => ?_) hordered
    (fun binding hmem => (hvisible binding hmem).le) hlt.le
  rw [hvisible binding hmem]
  exact hlt

/-- A name of a kind of its own does not matter to what is read in the head of the statement. -/
theorem grows_head {binding : Binding} (hbinding : now < binding.visibleFrom)
    (hkinds : ∀ other ∈ first, other.kind ≠ binding.kind) :
    Grows now ((tree.insert kind parent word).defineAll tree.nextId first)
      (tree.openScope kind parent word start first [binding]) := by
  have hstart := (Grows.refl now ((tree.insert kind parent word).defineAll tree.nextId first)).setStart
    tree.nextId start
  refine hstart.define (by simp) (.inr fun other hother => ?_) hbinding
  have hmem : ∀ (added bindings : List Binding),
      other ∈ added.foldl (fun bindings binding => Scope.addBinding binding bindings) bindings →
        other ∈ added ∨ other ∈ bindings := by
    intro added
    induction added with
    | nil => exact fun bindings hmem => .inr hmem
    | cons new rest ih =>
      intro bindings hmem
      rcases ih _ hmem with hrest | hadded
      · exact .inl (List.mem_cons_of_mem new hrest)
      · rcases mem_addBinding hadded with rfl | hold
        · exact .inl List.mem_cons_self
        · exact .inr hold
  rw [bindingsOf_setStart, bindingsOf_defineAll _ _ _ (by simp), bindingsOf_insert, if_pos rfl] at hother
  rcases hmem first [] hother with hfirst | hnil
  · have hne := hkinds other hfirst
    simp [Scope.clashes, hne]
  · cases hnil

end OpenScope

section Resolve

variable {now position : Position} {tree final : ScopeTree} {id : ScopeId} {environment : Environment}

theorem lookup?_eq {scope : Scope} {bindings : List Binding} (name : String)
    (hvisible : (scope.bindings.filter fun binding => decide (binding.visibleFrom ≤ position)) = bindings) :
    scope.lookup? name position = Scope.latest none (Scope.named name bindings) := by
  rw [Scope.lookup?, Scope.visible, Scope.named, ← hvisible, List.filter_filter, List.filter_filter]
  refine congrArg (Scope.latest none) (List.filter_congr fun binding _ => ?_)
  rw [Bool.and_left_comm, Bool.and_assoc]

/-- A scope of a grown tree gives a name the declaration that the frame gives it. -/
theorem Grows.lookup? {frame : Frame} {scope : Scope} (hgrows : Grows position tree final)
    (hid : id < tree.nextId) (hframe : Scope.Describes now (tree.bindingsOf id) frame) (hle : now ≤ position)
    (hscope : final.scopes[id]? = some scope) (name : String) :
    (scope.lookup? name position).map Declaration.ofBinding = frame.find? (·.name == name) := by
  have hall : (tree.bindingsOf id).filter (fun binding => decide (binding.visibleFrom ≤ position)) =
      tree.bindingsOf id :=
    List.filter_eq_self.mpr fun binding hmem => decide_eq_true ((hframe.visible binding hmem).trans hle)
  have hbindings : final.bindingsOf id = scope.bindings := by
    rw [ScopeTree.bindingsOf, hscope]
    rfl
  have hsame := hgrows.bindingsOf id hid
  rw [hall, hbindings] at hsame
  rw [lookup?_eq name hsame, hframe.found]

/-- Whatever a tree grows into, a name at a position refers to what the environment there gives it. -/
theorem Represents.resolve (hrepresents : Represents now tree id environment)
    (hgrows : Grows position tree final) (hle : now ≤ position) (name : String) :
    (final.resolve id name position).map (fun found => Declaration.ofBinding found.2) =
      environment.lookup name := by
  induction hrepresents with
  | @outermost id frame hid hparent hframe =>
    obtain ⟨scope, hscope⟩ := exists_scope (hid.trans_le hgrows.nextId)
    rw [← hgrows.parent? id hid, parent?, hscope, Option.bind_some] at hparent
    rw [ScopeTree.resolve, chain_of_root hscope hparent, Environment.lookup,
      ← hgrows.lookup? hid hframe hle hscope name, List.findSome?_singleton, Option.map_map]
    rfl
  | @inner id parent frame outer hid hparent hlt hframe _ ih =>
    obtain ⟨scope, hscope⟩ := exists_scope (hid.trans_le hgrows.nextId)
    rw [← hgrows.parent? id hid, parent?, hscope, Option.bind_some] at hparent
    rw [ScopeTree.resolve, chain_of_parent hscope hparent hlt, Environment.lookup,
      ← hgrows.lookup? hid hframe hle hscope name, ← ih, ScopeTree.resolve, List.findSome?_cons]
    cases hlookup : scope.lookup? name position <;> simp only [hlookup] <;> rfl

end Resolve

end TemplateAnalysis.ScopeTree
