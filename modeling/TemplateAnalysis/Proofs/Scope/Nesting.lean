import TemplateAnalysis.Proofs.Scope.Laminar

namespace TemplateAnalysis.ScopeTree

/-- The shape of a tree while a template is read up to `now`. The scopes in `inner` are still open,
    the innermost one first, and run to the end of the file; all the other ones have ended. -/
structure Nested (stop now : Position) (inner : List ScopeId) (tree : ScopeTree) : Prop where
  chained : tree.Chained
  valid : inner.head?.getD root < tree.nextId
  chain : tree.chainIds (inner.head?.getD root) = inner ++ [root]
  notRoot : root ∉ inner
  within : now ≤ stop
  range_root : tree.range? root = some { stop }
  range_open : ∀ id, id ∈ inner → ∃ start, tree.range? id = some { start, stop } ∧ start ≤ now
  range_closed : ∀ id range, id ∉ inner → id ≠ root → tree.range? id = some range →
    range.start ≤ range.stop ∧ range.stop ≤ now
  inside : ∀ id parent range outer, tree.parent? id = some parent → tree.range? id = some range →
    tree.range? parent = some outer → outer.start ≤ range.start ∧ range.stop ≤ outer.stop
  ordered : ∀ first second, first < second → second < tree.nextId → first ≠ root →
    first ∈ tree.chainIds second ∨ (first ∉ inner ∧ ∀ earlier later,
      tree.range? first = some earlier → tree.range? second = some later →
      earlier.stop ≤ later.start)
  notOpenEnded : ∀ id, tree.isOpenEnded id = false

namespace Nested

variable {tree : ScopeTree} {stop now later : Position} {inner : List ScopeId} {id : ScopeId}

theorem ofEnd (stop : Position) : Nested stop {} [] (ScopeTree.ofEnd stop) where
  chained := {
    pos := Nat.one_pos
    parent?_root := rfl
    parent := fun id hroot hid => absurd (Nat.lt_one_iff.mp hid) hroot }
  valid := Nat.one_pos
  chain := chainIds_of_root Nat.one_pos rfl
  notRoot := List.not_mem_nil
  within := Position.zero_le stop
  range_root := rfl
  range_open id hid := absurd hid List.not_mem_nil
  range_closed id range _ hroot hrange := by
    cases id with
    | zero => exact absurd rfl hroot
    | succ id => cases hrange
  inside id parent range outer hparent := by
    cases id with
    | zero => cases hparent
    | succ id => cases hparent
  ordered first second hlt hsecond := by
    rw [Nat.lt_one_iff.mp hsecond] at hlt
    cases hlt
  notOpenEnded id := by
    cases id with
    | zero => rfl
    | succ id => rfl

theorem mono (hnested : Nested stop now inner tree) (hlater : now ≤ later) (hwithin : later ≤ stop) :
    Nested stop later inner tree where
  chained := hnested.chained
  valid := hnested.valid
  chain := hnested.chain
  notRoot := hnested.notRoot
  within := hwithin
  range_root := hnested.range_root
  range_open id hid := by
    obtain ⟨start, hrange, hstart⟩ := hnested.range_open id hid
    exact ⟨start, hrange, hstart.trans hlater⟩
  range_closed id range hid hroot hrange := by
    obtain ⟨hle, hnow⟩ := hnested.range_closed id range hid hroot hrange
    exact ⟨hle, hnow.trans hlater⟩
  inside := hnested.inside
  ordered := hnested.ordered
  notOpenEnded := hnested.notOpenEnded

/-- Declarations do not move a scope. -/
theorem define (hnested : Nested stop now inner tree) (binding : Binding) :
    Nested stop now inner (tree.define id binding) := by
  have hchained : (tree.define id binding).Chained := hnested.chained.of_parents (by simp) (by simp)
  have hchain : ∀ other, other < tree.nextId →
      (tree.define id binding).chainIds other = tree.chainIds other := fun other hother =>
    chainIds_congr hnested.chained hother (by simp) (by simp)
  exact {
    chained := hchained
    valid := by simpa using hnested.valid
    chain := by rw [hchain _ hnested.valid, hnested.chain]
    notRoot := hnested.notRoot
    within := hnested.within
    range_root := by simpa using hnested.range_root
    range_open := by simpa using hnested.range_open
    range_closed := by simpa using hnested.range_closed
    inside := by simpa using hnested.inside
    ordered first second hlt hsecond hroot := by
      rw [nextId_define] at hsecond
      rw [hchain second hsecond]
      simpa using hnested.ordered first second hlt hsecond hroot
    notOpenEnded := by simpa using hnested.notOpenEnded }

/-- Open scopes exist. -/
theorem lt_nextId_of_mem (hnested : Nested stop now inner tree) (hid : id ∈ inner) :
    id < tree.nextId := by
  obtain ⟨start, hrange, _⟩ := hnested.range_open id hid
  by_contra hge
  rw [range?, List.getElem?_eq_none (Nat.le_of_not_lt hge)] at hrange
  cases hrange

theorem range_start_le_stop (hnested : Nested stop now inner tree) {range : Range}
    (hrange : tree.range? id = some range) : range.start ≤ range.stop := by
  by_cases hroot : id = root
  · subst hroot
    rw [hnested.range_root, Option.some.injEq] at hrange
    subst hrange
    exact Position.zero_le stop
  · by_cases hid : id ∈ inner
    · obtain ⟨start, hopen, hstart⟩ := hnested.range_open id hid
      rw [hopen, Option.some.injEq] at hrange
      subst hrange
      exact hstart.trans hnested.within
    · exact (hnested.range_closed id range hid hroot hrange).1

/-- The scope in which reading goes on runs to the end of the file. -/
theorem range_head (hnested : Nested stop now inner tree) :
    ∃ start, tree.range? (inner.head?.getD root) = some { start, stop } ∧ start ≤ now := by
  cases inner with
  | nil => exact ⟨{}, hnested.range_root, Position.zero_le now⟩
  | cons id rest => exact hnested.range_open id List.mem_cons_self

/-- A scope that opens inside the innermost one becomes the innermost one. -/
theorem insert (hnested : Nested stop now inner tree) (kind : ScopeKind) (hlater : now ≤ later)
    (hwithin : later ≤ stop) :
    Nested stop later (tree.nextId :: inner)
      (tree.insert kind (inner.head?.getD root) later) := by
  obtain ⟨start, hhead, hstart⟩ := hnested.range_head
  have hnew : (tree.insert kind (inner.head?.getD root) later).range? tree.nextId =
      some { start := later, stop } := by
    rw [range?_insert, if_pos rfl, hhead]
    simp [max_eq_left hwithin]
  have hold : ∀ other, other ≠ tree.nextId →
      (tree.insert kind (inner.head?.getD root) later).range? other = tree.range? other := by
    intro other hother
    rw [range?_insert, if_neg hother]
  have hroot : root ≠ tree.nextId := hnested.chained.pos.ne
  exact {
    chained := hnested.chained.insert hnested.valid
    valid := by simp
    chain := by simpa [hnested.chain] using hnested.chained.chainIds_insert hnested.valid
    notRoot := List.not_mem_cons_of_ne_of_not_mem hroot hnested.notRoot
    within := hwithin
    range_root := by rw [hold root hroot, hnested.range_root]
    range_open id hid := by
      rcases List.mem_cons.mp hid with rfl | hid
      · exact ⟨later, hnew, le_refl _⟩
      · obtain ⟨begin, hrange, hbegin⟩ := hnested.range_open id hid
        rw [hold id (hnested.lt_nextId_of_mem hid).ne]
        exact ⟨begin, hrange, hbegin.trans hlater⟩
    range_closed id range hid hidRoot hrange := by
      obtain ⟨hidNew, hidOpen⟩ := not_or.mp (List.mem_cons.not.mp hid)
      rw [hold id hidNew] at hrange
      obtain ⟨hle, hnow⟩ := hnested.range_closed id range hidOpen hidRoot hrange
      exact ⟨hle, hnow.trans hlater⟩
    inside id parent range outer hparent hrange houter := by
      rw [parent?_insert] at hparent
      split at hparent
      next hid =>
        subst hid
        rw [Option.some.injEq] at hparent
        subst hparent
        rw [hnew, Option.some.injEq] at hrange
        rw [hold _ hnested.valid.ne, hhead, Option.some.injEq] at houter
        subst hrange houter
        exact ⟨hstart.trans hlater, le_refl _⟩
      next hid =>
        obtain ⟨hlt, hvalid⟩ := hnested.chained.parent_lt hparent
        rw [hold id hid] at hrange
        rw [hold parent (hlt.trans hvalid).ne] at houter
        exact hnested.inside id parent range outer hparent hrange houter
    ordered first second hlt hsecond hfirst := by
      rw [nextId_insert] at hsecond
      rcases (Nat.lt_succ_iff.mp hsecond).eq_or_lt with rfl | hsecond
      -- What is still open lies around the new scope, and everything else has ended before it.
      · by_cases hopen : first ∈ inner
        · refine .inl ?_
          rw [hnested.chained.chainIds_insert hnested.valid, hnested.chain]
          exact List.mem_cons_of_mem _ (List.mem_append_left _ hopen)
        · refine .inr ⟨List.not_mem_cons_of_ne_of_not_mem hlt.ne hopen, ?_⟩
          intro earlier after hearlier hafter
          rw [hold first hlt.ne] at hearlier
          rw [hnew, Option.some.injEq] at hafter
          subst hafter
          exact (hnested.range_closed first earlier hopen hfirst hearlier).2.trans hlater
      · rw [hnested.chained.chainIds_insert_of_lt hsecond, hold first (hlt.trans hsecond).ne,
          hold second hsecond.ne]
        refine (hnested.ordered first second hlt hsecond hfirst).imp_right fun ⟨hopen, happart⟩ => ?_
        exact ⟨List.not_mem_cons_of_ne_of_not_mem (hlt.trans hsecond).ne hopen, happart⟩
    notOpenEnded id := by rw [isOpenEnded_insert, hnested.notOpenEnded, Bool.and_false] }

/-- The start of the newest scope can move on, because nothing is inside it yet. -/
theorem setStart (hnested : Nested stop now (id :: inner) tree) (hnewest : id + 1 = tree.nextId)
    (hlater : now ≤ later) (hwithin : later ≤ stop) :
    Nested stop later (id :: inner) (tree.setStart id later) := by
  have hchain : ∀ other, other < tree.nextId →
      (tree.setStart id later).chainIds other = tree.chainIds other := fun other hother =>
    chainIds_congr hnested.chained hother (by simp) (by simp)
  have hroot : id ≠ root := fun hsame => hnested.notRoot (hsame ▸ List.mem_cons_self)
  obtain ⟨start, hopen, hstart⟩ := hnested.range_open id List.mem_cons_self
  have hnew : (tree.setStart id later).range? id = some { start := later, stop } := by
    rw [range?_setStart, if_pos rfl, hopen]
    simp [max_eq_left hwithin]
  have hold : ∀ other, other ≠ id → (tree.setStart id later).range? other = tree.range? other := by
    intro other hother
    rw [range?_setStart, if_neg hother.symm]
  exact {
    chained := hnested.chained.of_parents (by simp) (by simp)
    valid := by simpa using hnested.valid
    chain := by rw [hchain _ hnested.valid, hnested.chain]
    notRoot := hnested.notRoot
    within := hwithin
    range_root := by rw [hold root hroot.symm, hnested.range_root]
    range_open other hother := by
      by_cases hsame : other = id
      · subst hsame
        exact ⟨later, hnew, le_refl _⟩
      · rw [hold other hsame]
        obtain ⟨begin, hrange, hbegin⟩ := hnested.range_open other hother
        exact ⟨begin, hrange, hbegin.trans hlater⟩
    range_closed other range hother hotherRoot hrange := by
      rw [hold other fun hsame => hother (hsame ▸ List.mem_cons_self)] at hrange
      obtain ⟨hle, hnow⟩ := hnested.range_closed other range hother hotherRoot hrange
      exact ⟨hle, hnow.trans hlater⟩
    inside other parent range outer hparent hrange houter := by
      rw [parent?_setStart] at hparent
      obtain ⟨hlt, hvalid⟩ := hnested.chained.parent_lt hparent
      -- The newest scope has nothing inside it that the later start could leave behind.
      have hparentOld : parent ≠ id := by
        rintro rfl
        rw [← hnewest] at hvalid
        exact absurd hvalid (Nat.not_lt.mpr hlt)
      rw [hold parent hparentOld] at houter
      by_cases hsame : other = id
      · subst hsame
        rw [hnew, Option.some.injEq] at hrange
        subst hrange
        have hinside := hnested.inside other parent _ outer hparent hopen houter
        exact ⟨hinside.1.trans (hstart.trans hlater), hinside.2⟩
      · rw [hold other hsame] at hrange
        exact hnested.inside other parent range outer hparent hrange houter
    ordered first second hlt hsecond hfirst := by
      rw [nextId_setStart] at hsecond
      rw [hchain second hsecond]
      refine (hnested.ordered first second hlt hsecond hfirst).imp_right fun ⟨hclosed, happart⟩ => ?_
      refine ⟨hclosed, fun earlier after hearlier hafter => ?_⟩
      rw [hold first fun hsame => hclosed (hsame ▸ List.mem_cons_self)] at hearlier
      by_cases hsame : second = id
      · subst hsame
        rw [hnew, Option.some.injEq] at hafter
        subst hafter
        exact (happart earlier _ hearlier hopen).trans (hstart.trans hlater)
      · rw [hold second hsame] at hafter
        exact happart earlier after hearlier hafter
    notOpenEnded := by simpa using hnested.notOpenEnded }

/-- The scope around the innermost one is the next one that is open. -/
theorem parent_innermost (hnested : Nested stop now (id :: inner) tree) :
    tree.parent? id = some (inner.head?.getD root) ∧ inner.head?.getD root < id ∧
      tree.chainIds (inner.head?.getD root) = inner ++ [root] := by
  have hroot : id ≠ root := fun hsame => hnested.notRoot (hsame ▸ List.mem_cons_self)
  obtain ⟨parent, hparent, hlt, hcons⟩ := hnested.chained.chainIds_cons hroot hnested.valid
  have hchain : tree.chainIds id = id :: (inner ++ [root]) := hnested.chain
  rw [hcons, List.cons.injEq] at hchain
  have hhead : inner.head?.getD root = parent := by
    have hfirst := hnested.chained.head?_chainIds (hlt.trans hnested.valid)
    rw [hchain.2] at hfirst
    cases inner with
    | nil => exact Option.some.inj hfirst
    | cons next rest => exact Option.some.inj hfirst
  rw [hhead]
  exact ⟨hparent, hlt, hchain.2⟩

/-- The innermost scope is the newest one of those that are open. -/
theorem lt_innermost (hnested : Nested stop now (id :: inner) tree) {other : ScopeId}
    (hmem : other ∈ inner) : other < id := by
  obtain ⟨_, hlt, hchain⟩ := hnested.parent_innermost
  have hmemChain := hchain ▸ List.mem_append_left [root] hmem
  exact (hnested.chained.le_of_mem_chainIds (hlt.trans hnested.valid) hmemChain).trans_lt hlt

/-- Whatever lies inside the innermost scope has ended. -/
theorem closed_of_parent (hnested : Nested stop now (id :: inner) tree) {other : ScopeId}
    (hparent : tree.parent? other = some id) : other ∉ id :: inner ∧ other ≠ root := by
  have hlt := (hnested.chained.parent_lt hparent).1
  refine ⟨fun hmem => ?_, ?_⟩
  · rcases List.mem_cons.mp hmem with rfl | hmem
    · exact hlt.ne rfl
    · exact hlt.not_gt (hnested.lt_innermost hmem)
  · rintro rfl
    exact Nat.not_lt_zero _ hlt

/-- When the innermost scope ends, the one around it becomes the innermost one. -/
theorem close (hnested : Nested stop now (id :: inner) tree) (hlater : now ≤ later)
    (hwithin : later ≤ stop) : Nested stop later inner (tree.close id later) := by
  have hchain : ∀ other, other < tree.nextId →
      (tree.close id later).chainIds other = tree.chainIds other := fun other hother =>
    chainIds_congr hnested.chained hother (by simp) (by simp)
  have hroot : id ≠ root := fun hsame => hnested.notRoot (hsame ▸ List.mem_cons_self)
  obtain ⟨_, hlt, houterChain⟩ := hnested.parent_innermost
  have houterValid := hlt.trans hnested.valid
  obtain ⟨start, hopen, hstart⟩ := hnested.range_open id List.mem_cons_self
  have hnew : (tree.close id later).range? id = some { start, stop := later } := by
    rw [range?_close, if_pos rfl, hopen]
    simp [max_eq_left (hstart.trans hlater)]
  have hold : ∀ other, other ≠ id → (tree.close id later).range? other = tree.range? other := by
    intro other hother
    rw [range?_close, if_neg hother.symm]
  exact {
    chained := hnested.chained.of_parents (by simp) (by simp)
    valid := by
      rw [nextId_close]
      exact houterValid
    chain := by rw [hchain _ houterValid, houterChain]
    notRoot hmem := hnested.notRoot (List.mem_cons_of_mem id hmem)
    within := hwithin
    range_root := by rw [hold root hroot.symm, hnested.range_root]
    range_open other hother := by
      rw [hold other (hnested.lt_innermost hother).ne]
      obtain ⟨begin, hrange, hbegin⟩ := hnested.range_open other (List.mem_cons_of_mem id hother)
      exact ⟨begin, hrange, hbegin.trans hlater⟩
    range_closed other range hother hotherRoot hrange := by
      by_cases hsame : other = id
      · subst hsame
        rw [hnew, Option.some.injEq] at hrange
        subst hrange
        exact ⟨hstart.trans hlater, le_refl _⟩
      · rw [hold other hsame] at hrange
        obtain ⟨hle, hnow⟩ := hnested.range_closed other range
          (List.not_mem_cons_of_ne_of_not_mem hsame hother) hotherRoot hrange
        exact ⟨hle, hnow.trans hlater⟩
    inside other outerId range outer hotherParent hrange houter := by
      rw [parent?_close] at hotherParent
      by_cases hsame : other = id
      · subst hsame
        rw [hnew, Option.some.injEq] at hrange
        rw [hold outerId (hnested.chained.parent_lt hotherParent).1.ne] at houter
        subst hrange
        have hinside := hnested.inside other outerId _ outer hotherParent hopen houter
        exact ⟨hinside.1, hwithin.trans hinside.2⟩
      · rw [hold other hsame] at hrange
        by_cases houterSame : outerId = id
        · subst houterSame
          rw [hnew, Option.some.injEq] at houter
          subst houter
          -- What lies inside the scope has ended already, so its end can come forward to here.
          have hinside := hnested.inside other outerId range _ hotherParent hrange hopen
          obtain ⟨hclosed, hotherRoot⟩ := hnested.closed_of_parent hotherParent
          exact ⟨hinside.1,
            (hnested.range_closed other range hclosed hotherRoot hrange).2.trans hlater⟩
        · rw [hold outerId houterSame] at houter
          exact hnested.inside other outerId range outer hotherParent hrange houter
    ordered first second hltSecond hsecond hfirst := by
      rw [nextId_close] at hsecond
      rw [hchain second hsecond]
      refine (hnested.ordered first second hltSecond hsecond hfirst).imp_right
        fun ⟨hclosed, happart⟩ => ?_
      obtain ⟨hne, hnot⟩ := not_or.mp (List.mem_cons.not.mp hclosed)
      refine ⟨hnot, fun earlier after hearlier hafter => ?_⟩
      rw [hold first hne] at hearlier
      by_cases hsame : second = id
      · subst hsame
        rw [hnew, Option.some.injEq] at hafter
        subst hafter
        exact happart earlier { start, stop } hearlier hopen
      · rw [hold second hsame] at hafter
        exact happart earlier after hearlier hafter
    notOpenEnded := by simpa using hnested.notOpenEnded }

end Nested

/-- The end of the file marks the scopes that are still open. It moves none. -/
structure Marked (inner : List ScopeId) (tree ended : ScopeTree) : Prop where
  nextId : ended.nextId = tree.nextId
  parent? : ∀ id, ended.parent? id = tree.parent? id
  range? : ∀ id, ended.range? id = tree.range? id
  isOpenEnded : ∀ id, ended.isOpenEnded id = true ↔ id ∈ inner

namespace Marked

variable {tree ended : ScopeTree} {stop position : Position} {inner : List ScopeId}
  {id : ScopeId}

theorem refl (hopen : ∀ id, tree.isOpenEnded id = false) : Marked [] tree tree where
  nextId := rfl
  parent? _ := rfl
  range? _ := rfl
  isOpenEnded id := by simp [hopen id]

theorem define (hmarked : Marked inner tree ended) (binding : Binding) :
    Marked inner tree (ended.define id binding) where
  nextId := by rw [nextId_define, hmarked.nextId]
  parent? other := by rw [parent?_define, hmarked.parent?]
  range? other := by rw [range?_define, hmarked.range?]
  isOpenEnded other := by rw [isOpenEnded_define, hmarked.isOpenEnded]

/-- To end a scope where it ends already changes nothing. -/
theorem close (hmarked : Marked inner tree ended)
    (hrange : ∀ range, tree.range? id = some range → range.stop = stop ∧ range.start ≤ stop) :
    Marked inner tree (ended.close id stop) where
  nextId := by rw [nextId_close, hmarked.nextId]
  parent? other := by rw [parent?_close, hmarked.parent?]
  range? other := by
    rw [range?_close, hmarked.range?]
    split
    next hsame =>
      subst hsame
      cases hfound : tree.range? id with
      | none => rfl
      | some range =>
        obtain ⟨hstop, hstart⟩ := hrange range hfound
        rw [Option.map_some, max_eq_left hstart, ← hstop]
    next => rfl
  isOpenEnded other := by rw [isOpenEnded_close, hmarked.isOpenEnded]

theorem closeAtEnd (hmarked : Marked inner tree ended) (hid : id < tree.nextId)
    (hrange : ∀ range, tree.range? id = some range → range.stop = stop ∧ range.start ≤ stop) :
    Marked (id :: inner) tree (ended.closeAtEnd id stop) where
  nextId := by rw [nextId_closeAtEnd, hmarked.nextId]
  parent? other := by rw [parent?_closeAtEnd, hmarked.parent?]
  range? other := by rw [range?_closeAtEnd, (hmarked.close hrange).range?]
  isOpenEnded other := by
    rw [isOpenEnded_closeAtEnd _ _ _ _ (hmarked.nextId ▸ hid), Bool.or_eq_true,
      hmarked.isOpenEnded, List.mem_cons, beq_iff_eq, eq_comm]

theorem covers_iff (hmarked : Marked inner tree ended) :
    ended.covers id position = true ↔ ∃ range, tree.range? id = some range ∧
      range.start ≤ position ∧ (position < range.stop ∨ id ∈ inner ∧ position ≤ range.stop) := by
  rw [covers_iff_range, hmarked.range?, hmarked.isOpenEnded]

theorem of_mem_iff {other : List ScopeId} (hmarked : Marked inner tree ended)
    (hmem : ∀ id, id ∈ inner ↔ id ∈ other) : Marked other tree ended where
  nextId := hmarked.nextId
  parent? := hmarked.parent?
  range? := hmarked.range?
  isOpenEnded id := (hmarked.isOpenEnded id).trans (hmem id)

end Marked

namespace Nested

variable {tree ended : ScopeTree} {stop now position : Position} {inner : List ScopeId}
  {id parent first second : ScopeId}

/-- The parent of an open scope is open, unless it is the root. -/
theorem mem_of_parent (hnested : Nested stop now inner tree) (hid : id ∈ inner)
    (hparent : tree.parent? id = some parent) (hroot : parent ≠ root) : parent ∈ inner := by
  have hmem : id ∈ tree.chainIds (inner.head?.getD root) :=
    hnested.chain ▸ List.mem_append_left [root] hid
  have hparentMem := hnested.chained.mem_chainIds_of_parent hnested.valid hmem hparent
  rw [hnested.chain, List.mem_append, List.mem_singleton] at hparentMem
  exact hparentMem.resolve_right hroot

theorem covers_parent (hnested : Nested stop now inner tree) (hmarked : Marked inner tree ended)
    (hparent : tree.parent? id = some parent) (hroot : parent ≠ root)
    (hcovers : ended.covers id position = true) : ended.covers parent position = true := by
  rw [hmarked.covers_iff] at hcovers ⊢
  obtain ⟨range, hrange, hstart, hstop⟩ := hcovers
  obtain ⟨hlt, hid⟩ := hnested.chained.parent_lt hparent
  obtain ⟨scope, hscope⟩ := exists_scope (hlt.trans hid)
  have houter : tree.range? parent = some scope.range := by rw [range?, hscope]; rfl
  obtain ⟨hstarts, hstops⟩ := hnested.inside id parent range scope.range hparent hrange houter
  refine ⟨scope.range, houter, hstarts.trans hstart, ?_⟩
  rcases hstop with hbefore | ⟨hmem, hbefore⟩
  · exact .inl (hbefore.trans_le hstops)
  · exact .inr ⟨hnested.mem_of_parent hmem hparent hroot, hbefore.trans hstops⟩

theorem covers_ordered (hnested : Nested stop now inner tree) (hmarked : Marked inner tree ended)
    (hlt : first < second) (hroot : first ≠ root) (hfirst : ended.covers first position = true)
    (hsecond : ended.covers second position = true) : first ∈ tree.chainIds second := by
  have hvalid := hmarked.nextId ▸ lt_nextId_of_covers hsecond
  rcases hnested.ordered first second hlt hvalid hroot with hmem | ⟨hclosed, happart⟩
  · exact hmem
  · rw [hmarked.covers_iff] at hfirst hsecond
    obtain ⟨earlier, hearlier, _, hbefore⟩ := hfirst
    obtain ⟨later, hlater, hafter, _⟩ := hsecond
    have hstop : position < earlier.stop := hbefore.resolve_right fun hopen => hclosed hopen.1
    exact absurd (hstop.trans_le (happart earlier later hearlier hlater)) hafter.not_gt

/-- A scope is not around another one with the same parent. -/
theorem not_mem_chainIds_of_sibling (hnested : Nested stop now inner tree) (hlt : first < second)
    (hfirst : tree.parent? first = some parent) (hsecond : tree.parent? second = some parent) :
    first ∉ tree.chainIds second := by
  intro hmem
  obtain ⟨hparentLt, hvalid⟩ := hnested.chained.parent_lt hsecond
  rw [chainIds_of_parent hsecond hparentLt, List.mem_cons] at hmem
  rcases hmem with hsame | hmem
  · exact hlt.ne hsame
  · exact absurd (hnested.chained.le_of_mem_chainIds (hparentLt.trans hvalid) hmem)
      (Nat.not_le.mpr (hnested.chained.parent_lt hfirst).1)

theorem mem_of_mem_chainIds (hnested : Nested stop now inner tree) (hid : id ∈ inner) {outer : ScopeId}
    (hmem : outer ∈ tree.chainIds id) (hroot : outer ≠ root) : outer ∈ inner := by
  induction id using Nat.strong_induction_on with
  | _ id ih =>
    have hidRoot : id ≠ root := fun hsame => hnested.notRoot (hsame ▸ hid)
    obtain ⟨parent, hparent, hlt, hchain⟩ :=
      hnested.chained.chainIds_cons hidRoot (hnested.lt_nextId_of_mem hid)
    rw [hchain, List.mem_cons] at hmem
    rcases hmem with rfl | hmem
    · exact hid
    · by_cases hparentRoot : parent = root
      · rw [hparentRoot, hnested.chained.chainIds_root, List.mem_singleton] at hmem
        exact absurd hmem hroot
      · exact ih parent hlt (hnested.mem_of_parent hid hparent hparentRoot) hmem

/-- A tree that was nested to the end of the file is laminar. -/
theorem laminar (hnested : Nested stop now inner tree) (hmarked : Marked inner tree ended) :
    ended.Laminar := by
  have hchained : ended.Chained := hnested.chained.of_parents hmarked.nextId hmarked.parent?
  have hchain : ∀ id, id < tree.nextId → ended.chainIds id = tree.chainIds id := fun id hid =>
    chainIds_congr hnested.chained hid hmarked.nextId.ge fun other _ => hmarked.parent? other
  have hparents : ∀ position id parent, ended.parent? id = some parent → parent ≠ root →
      ended.covers id position = true → ended.covers parent position = true := by
    intro position id parent hparent hroot hcovers
    rw [hmarked.parent?] at hparent
    exact hnested.covers_parent hmarked hparent hroot hcovers
  have hordered : ∀ position first second, first < second → first ≠ root →
      ended.covers first position = true → ended.covers second position = true →
      first ∈ ended.chainIds second := by
    intro position first second hlt hroot hfirst hsecond
    rw [hchain second (hmarked.nextId ▸ lt_nextId_of_covers hsecond)]
    exact hnested.covers_ordered hmarked hlt hroot hfirst hsecond
  have hparentNone : ended.parent? root = none := hchained.parent?_root
  have hsiblings : ∀ first second parent position, first < second →
      ended.parent? first = some parent → ended.parent? second = some parent →
      ended.covers first position = true → ended.covers second position = false := by
    intro first second parent position hlt hfirst hsecond hcovers
    by_contra hboth
    have hroot : first ≠ root := by
      rintro rfl
      rw [hparentNone] at hfirst
      cases hfirst
    have hboth := Bool.eq_true_of_not_eq_false hboth
    have hmem := hnested.covers_ordered hmarked hlt hroot hcovers hboth
    rw [hmarked.parent?] at hfirst hsecond
    exact hnested.not_mem_chainIds_of_sibling hlt hfirst hsecond hmem
  exact {
    parent_lt id hid hroot := hchained.parent id hroot hid
    chain_root id hid := hchained.getLast?_chainIds hid
    start_le_stop id range hrange := by
      rw [hmarked.range?] at hrange
      exact hnested.range_start_le_stop hrange
    inside id parent range outer hparent hrange houter := by
      rw [hmarked.parent?] at hparent
      rw [hmarked.range?] at hrange houter
      exact hnested.inside id parent range outer hparent hrange houter
    apart first second parent earlier later hlt hfirst hsecond hearlier hlater := by
      rw [hmarked.parent?] at hfirst hsecond
      rw [hmarked.range?] at hearlier hlater
      have hroot : first ≠ root := by
        rintro rfl
        rw [hnested.chained.parent?_root] at hfirst
        cases hfirst
      rcases hnested.ordered first second hlt (hnested.chained.parent_lt hsecond).2 hroot with
        hmem | ⟨_, happart⟩
      · exact absurd hmem (hnested.not_mem_chainIds_of_sibling hlt hfirst hsecond)
      · exact happart earlier later hearlier hlater
    disjoint first second parent position hne hfirst hsecond hcovers := by
      rcases Nat.lt_or_gt_of_ne hne with hlt | hgt
      · exact hsiblings first second parent position hlt hfirst hsecond hcovers
      · by_contra hboth
        have hnot := hsiblings second first parent position hgt hsecond hfirst
          (Bool.eq_true_of_not_eq_false hboth)
        rw [hcovers] at hnot
        cases hnot
    openEnded id outer hopen hmem hroot := by
      rw [hmarked.isOpenEnded] at hopen ⊢
      rw [hchain id (hnested.lt_nextId_of_mem hopen)] at hmem
      exact hnested.mem_of_mem_chainIds hopen hmem hroot
    covers_iff position id hroot := covers_iff_mem_chainIds hchained (hparents position) (hordered position) hroot
    innermost position id hroot hcovers := by
      rcases ended.innermostAt_cases position with ⟨_, hnone⟩ | ⟨_, hinnermost, hlast⟩
      · rw [hnone id hroot] at hcovers
        cases hcovers
      · exact ⟨hlast id hroot hcovers, hinnermost⟩ }

end Nested

end TemplateAnalysis.ScopeTree
