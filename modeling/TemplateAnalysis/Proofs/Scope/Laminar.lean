import TemplateAnalysis.Proofs.Scope.Tree

namespace TemplateAnalysis.ScopeTree

/-- Whether a scope of the tree covers a position. -/
def covers (tree : ScopeTree) (id : ScopeId) (position : Position) : Bool :=
  tree.scopes[id]?.any (·.covers position)

/-- The scopes of a tree are nested like brackets, whatever the template looks like. The root covers
    nothing by itself: it stands for whatever no other scope covers. -/
structure Laminar (tree : ScopeTree) : Prop where
  /-- A scope is created after its parent, and only the root has none. -/
  parent_lt : ∀ id, id < tree.nextId → id ≠ root →
    ∃ parent, tree.parent? id = some parent ∧ parent < id
  /-- Every chain ends at the root. -/
  chain_root : ∀ id, id < tree.nextId → (tree.chainIds id).getLast? = some root
  /-- No scope ends before it begins. -/
  start_le_stop : ∀ id range, tree.range? id = some range → range.start ≤ range.stop
  /-- A scope lies inside its parent. -/
  inside : ∀ id parent inner outer, tree.parent? id = some parent → tree.range? id = some inner →
    tree.range? parent = some outer → outer.start ≤ inner.start ∧ inner.stop ≤ outer.stop
  /-- Of two scopes with the same parent, the one created first ends where the other one begins or
      before. -/
  apart : ∀ first second parent earlier later, first < second →
    tree.parent? first = some parent → tree.parent? second = some parent →
    tree.range? first = some earlier → tree.range? second = some later →
    earlier.stop ≤ later.start
  /-- Two scopes with the same parent cover no common position. -/
  disjoint : ∀ first second parent position, first ≠ second →
    tree.parent? first = some parent → tree.parent? second = some parent →
    tree.covers first position = true → tree.covers second position = false
  /-- A scope that nothing closed lies in such scopes only, up to the root. -/
  openEnded : ∀ id outer, tree.isOpenEnded id = true → outer ∈ tree.chainIds id →
    outer ≠ root → tree.isOpenEnded outer = true
  /-- The scopes that cover a position are those around the innermost one. -/
  covers_iff : ∀ position id, id ≠ root →
    (tree.covers id position = true ↔ id ∈ tree.chainIds (tree.innermostAt position))
  /-- The innermost scope is the last created one that covers the position. -/
  innermost : ∀ position id, id ≠ root → tree.covers id position = true →
    id ≤ tree.innermostAt position ∧
      tree.covers (tree.innermostAt position) position = true

section Covers

variable {tree : ScopeTree} {id : ScopeId} {position : Position}

theorem covers_iff_range : tree.covers id position = true ↔
    ∃ range, tree.range? id = some range ∧ range.start ≤ position ∧
      (position < range.stop ∨ tree.isOpenEnded id = true ∧ position ≤ range.stop) := by
  cases hscope : tree.scopes[id]? with
  | none => simp [covers, range?, hscope]
  | some scope =>
    simp only [covers, range?, isOpenEnded, hscope, Option.any_some, Option.map_some,
      Option.some.injEq, exists_eq_left', Scope.covers, Range.contains, Range.touches,
      Bool.or_eq_true, Bool.and_eq_true, decide_eq_true_eq]
    rw [and_left_comm, ← and_or_left]

/-- The scopes below the root that cover a position, in the order of creation. -/
def covering (tree : ScopeTree) (position : Position) : List ScopeId :=
  (tree.scopes.zipIdx.tail.filter fun (scope, _) => scope.covers position).map (·.2)

theorem mem_covering : id ∈ tree.covering position ↔
    id ≠ root ∧ tree.covers id position = true := by
  rw [covering]
  cases hscopes : tree.scopes with
  | nil => simp [covers, hscopes]
  | cons first rest =>
    simp only [List.zipIdx_cons, List.tail_cons, List.mem_map, List.mem_filter, Prod.exists,
      List.mem_zipIdx_iff_le_and_getElem?_sub, covers, hscopes]
    cases id with
    | zero =>
      simp [root]
    | succ id =>
      simp [root, Option.any_eq_true]

theorem covering_pairwise : (tree.covering position).Pairwise (· < ·) := by
  rw [covering, List.pairwise_map]
  apply List.Pairwise.filter
  rw [← List.pairwise_map (f := Prod.snd) (R := (· < ·)), List.map_tail, List.zipIdx_map_snd]
  exact List.Pairwise.tail (List.pairwise_lt_range')

theorem innermostAt_eq : tree.innermostAt position = ((tree.covering position).getLast?).getD root := by
  rw [innermostAt, covering, List.getLast?_map]

/-- Either no scope covers a position and the root is the innermost one, or the innermost scope is
    the last one that does. -/
theorem innermostAt_cases (tree : ScopeTree) (position : Position) :
    (tree.innermostAt position = root ∧
        ∀ id, id ≠ root → tree.covers id position = false) ∨
      (tree.innermostAt position ≠ root ∧
        tree.covers (tree.innermostAt position) position = true ∧
        ∀ id, id ≠ root → tree.covers id position = true → id ≤ tree.innermostAt position) := by
  rw [innermostAt_eq]
  cases hlast : (tree.covering position).getLast? with
  | none =>
    refine .inl ⟨rfl, fun id hroot => ?_⟩
    rw [List.getLast?_eq_none_iff] at hlast
    by_contra hcovers
    have hmem := mem_covering.mpr ⟨hroot, Bool.eq_true_of_not_eq_false hcovers⟩
    rw [hlast] at hmem
    cases hmem
  | some innermost =>
    obtain ⟨earlier, hcovering⟩ := List.getLast?_eq_some_iff.mp hlast
    have hinnermost := mem_covering.mp (hcovering ▸ List.mem_append_right earlier (List.mem_singleton_self _))
    refine .inr ⟨hinnermost.1, hinnermost.2, fun id hroot hcovers => ?_⟩
    have hmem := mem_covering.mpr ⟨hroot, hcovers⟩
    have hpairwise : (tree.covering position).Pairwise (· < ·) := covering_pairwise
    rw [hcovering] at hmem hpairwise
    rcases List.mem_append.mp hmem with hmem | hmem
    · exact ((List.pairwise_append.mp hpairwise).2.2 id hmem innermost (by simp)).le
    · exact (List.mem_singleton.mp hmem).le

/-- A scope that covers a position lies inside others that do, so they all lie on its chain. -/
theorem covers_of_mem_chainIds {inner outer : ScopeId} (hchained : tree.Chained)
    (hparents : ∀ id parent, tree.parent? id = some parent → parent ≠ root →
      tree.covers id position = true → tree.covers parent position = true)
    (hinner : inner < tree.nextId) (hcovers : tree.covers inner position = true)
    (hmem : outer ∈ tree.chainIds inner) (hroot : outer ≠ root) :
    tree.covers outer position = true := by
  induction inner using Nat.strong_induction_on with
  | _ inner ih =>
    by_cases hinnerRoot : inner = root
    · subst hinnerRoot
      rw [hchained.chainIds_root, List.mem_singleton] at hmem
      exact absurd hmem hroot
    · obtain ⟨parent, hparent, hlt, hchain⟩ := hchained.chainIds_cons hinnerRoot hinner
      rw [hchain, List.mem_cons] at hmem
      rcases hmem with rfl | hmem
      · exact hcovers
      · by_cases hparentRoot : parent = root
        · subst hparentRoot
          rw [hchained.chainIds_root, List.mem_singleton] at hmem
          exact absurd hmem hroot
        · exact ih parent hlt (hlt.trans hinner)
            (hparents inner parent hparent hparentRoot hcovers) hmem

theorem lt_nextId_of_covers (hcovers : tree.covers id position = true) : id < tree.nextId := by
  by_contra hid
  rw [covers, List.getElem?_eq_none (Nat.le_of_not_lt hid)] at hcovers
  cases hcovers

theorem covers_iff_mem_chainIds (hchained : tree.Chained)
    (hparents : ∀ id parent, tree.parent? id = some parent → parent ≠ root →
      tree.covers id position = true → tree.covers parent position = true)
    (hordered : ∀ first second, first < second → first ≠ root →
      tree.covers first position = true → tree.covers second position = true →
      first ∈ tree.chainIds second)
    (hroot : id ≠ root) :
    tree.covers id position = true ↔ id ∈ tree.chainIds (tree.innermostAt position) := by
  rcases tree.innermostAt_cases position with ⟨hinnermost, hnone⟩ | ⟨_, hcovers, hlast⟩
  · rw [hinnermost, hchained.chainIds_root, hnone id hroot]
    simpa using hroot
  · have hvalid := lt_nextId_of_covers hcovers
    constructor
    · intro hid
      rcases (hlast id hroot hid).eq_or_lt with hsame | hlt
      · rw [hsame]
        exact hchained.mem_chainIds_self hvalid
      · exact hordered id _ hlt hroot hid hcovers
    · intro hmem
      exact covers_of_mem_chainIds hchained hparents hvalid hcovers hmem hroot

end Covers

end TemplateAnalysis.ScopeTree
