import Mathlib.Data.List.Basic
import TemplateAnalysis.LinkHint
import TemplateAnalysis.Proofs.Table

namespace TemplateAnalysis

/-- A call by which a client changes the hints. -/
inductive HintCall
  | add (uri : String) (actions : Option (List Action))
  | save (actions : Option (List Action)) (key : Option String)
  | remove (key : Option String)
  deriving DecidableEq

/-- What happens to the hint of one link: a document that is being edited offers an action for it, an
    action is saved for it, the hint itself is saved, or it is dropped. -/
inductive HintEvent
  | offered (uri : String) (action : Action)
  | stored (action : Action)
  | promoted
  | dropped
  deriving DecidableEq

namespace HintEvent

/-- The hint of a link after an event. An action that is saved keeps the address that was known, and
    a saved hint is not dropped. -/
def next : Option LinkHint → HintEvent → Option LinkHint
  | _, offered uri action => some { uri, action, state := .unsaved }
  | none, stored action => some { uri := "", action, state := .saved }
  | some hint, stored action => some { uri := hint.uri, action, state := .saved }
  | none, promoted => none
  | some hint, promoted => some { hint with state := .saved }
  | none, dropped => none
  | some hint, dropped => if hint.state = .saved then some hint else none

/-- The hint of a link after some events, when there was none before. -/
def run (events : List HintEvent) : Option LinkHint :=
  events.foldl next none

/-- Only an offer takes a hint out of the saved state. -/
theorem exists_saved_foldl {hint : LinkHint} (hsaved : hint.state = .saved) {events : List HintEvent}
    (hevents : ∀ uri action, offered uri action ∉ events) :
    ∃ kept, events.foldl next (some hint) = some kept ∧ kept.state = .saved ∧
      kept.uri = hint.uri := by
  induction events generalizing hint with
  | nil => exact ⟨hint, rfl, hsaved, rfl⟩
  | cons event rest ih =>
    have hrest : ∀ uri action, offered uri action ∉ rest :=
      fun uri action hmem => hevents uri action (List.mem_cons_of_mem event hmem)
    rw [List.foldl_cons]
    cases event with
    | offered uri action => exact absurd List.mem_cons_self (hevents uri action)
    | stored action =>
      have hstored : LinkHint.state { uri := hint.uri, action, state := .saved } = .saved := rfl
      exact ih hstored hrest
    | promoted =>
      have hpromoted : LinkHint.state { hint with state := .saved } = .saved := rfl
      exact ih hpromoted hrest
    | dropped =>
      rw [next, if_pos hsaved]
      exact ih hsaved hrest

end HintEvent

namespace HintCall

/-- The parts of a call that are about one link, in order. -/
def events (key : String) : HintCall → List HintEvent
  | add uri actions => ((actions.getD []).filter (·.name = key)).map (.offered uri)
  | save actions promoted =>
    ((actions.getD []).filter (·.name = key)).map .stored ++
      if promoted = some key then [.promoted] else []
  | remove dropped => if dropped.all (· = key) then [.dropped] else []

/-- The hints after a call. -/
def apply (hints : LinkHints) : HintCall → LinkHints
  | add uri actions => hints.add uri actions
  | save actions key => hints.save actions key
  | remove key => hints.removeUnsaved key

/-- Whether a call offers an action for a link. -/
def Offers (key : String) : HintCall → Prop
  | add _ actions => ∃ action ∈ actions.getD [], action.name = key
  | save _ _ => False
  | remove _ => False

theorem offers_of_mem_events {key uri : String} {action : Action} {call : HintCall}
    (hmem : .offered uri action ∈ call.events key) : call.Offers key := by
  cases call with
  | add other actions =>
    obtain ⟨found, hfound, _⟩ := List.mem_map.mp hmem
    obtain ⟨haction, hname⟩ := List.mem_filter.mp hfound
    exact ⟨found, haction, of_decide_eq_true hname⟩
  | save actions promoted =>
    rw [events] at hmem
    rcases List.mem_append.mp hmem with hstored | hpromoted
    · obtain ⟨_, _, hevent⟩ := List.mem_map.mp hstored
      cases hevent
    · split at hpromoted <;> simp at hpromoted
  | remove dropped =>
    rw [events] at hmem
    split at hmem <;> simp at hmem

end HintCall

namespace LinkHint

/-- The order of a list of hints: saved ones first, then by name. -/
def Before (first second : LinkHint) : Prop :=
  first.state = .saved ∧ second.state = .unsaved ∨
    first.state = second.state ∧ first.action.name < second.action.name

end LinkHint

namespace LinkHints

variable {hints : LinkHints} {key : String}

theorem get?_insert (hints : LinkHints) (hint : LinkHint) (key : String) :
    (hints.insert hint).get? key =
      if key = hint.action.name then some hint else hints.get? key :=
  Table.get?_insert hints.hints hint.action.name key hint

/-- An action that is saved is one event for the link with its name. -/
theorem get?_saveAction (hints : LinkHints) (action : Action) (key : String) :
    (hints.saveAction action).get? key =
      if action.name = key then HintEvent.next (hints.get? key) (.stored action)
      else hints.get? key := by
  rw [saveAction, get?_insert]
  by_cases hname : action.name = key
  · subst hname
    cases hints.get? action.name <;> simp [HintEvent.next]
  · rw [if_neg (Ne.symm hname), if_neg hname]

/-- Actions that are taken in one after the other are events for the links with their names. -/
theorem get?_foldl {place : LinkHints → Action → LinkHints} {event : Action → HintEvent}
    (hplace : ∀ hints action, (place hints action).get? key =
      if action.name = key then HintEvent.next (hints.get? key) (event action)
      else hints.get? key) (hints : LinkHints) (actions : List Action) :
    (actions.foldl place hints).get? key =
      ((actions.filter (·.name = key)).map event).foldl HintEvent.next (hints.get? key) := by
  induction actions generalizing hints with
  | nil => rfl
  | cons action rest ih =>
    rw [List.foldl_cons, ih, hplace]
    by_cases hname : action.name = key
    · rw [if_pos hname, List.filter_cons_of_pos (by simpa using hname), List.map_cons,
        List.foldl_cons]
    · rw [if_neg hname, List.filter_cons_of_neg (by simpa using hname)]

theorem get?_add (hints : LinkHints) (uri : String) (actions : Option (List Action)) :
    (hints.add uri actions).get? key =
      ((HintCall.add uri actions).events key).foldl HintEvent.next (hints.get? key) := by
  refine get?_foldl (fun hints action => ?_) hints (actions.getD [])
  rw [get?_insert]
  simp only [eq_comm, HintEvent.next]

theorem get?_saveKey (hints : LinkHints) (promoted : String) :
    (hints.saveKey promoted).get? key =
      if promoted = key then HintEvent.next (hints.get? key) .promoted else hints.get? key := by
  rw [saveKey, get?, Table.get?_modify, get?]
  by_cases hkey : promoted = key
  · rw [if_pos hkey.symm, if_pos hkey]
    cases hints.hints.get? key <;> rfl
  · rw [if_neg (Ne.symm hkey), if_neg hkey]

theorem get?_save (hints : LinkHints) (actions : Option (List Action)) (promoted : Option String) :
    (hints.save actions promoted).get? key =
      ((HintCall.save actions promoted).events key).foldl HintEvent.next (hints.get? key) := by
  have hactions : ((actions.getD []).foldl saveAction hints).get? key = _ :=
    get?_foldl (fun hints action => get?_saveAction hints action key) hints (actions.getD [])
  rw [HintCall.events, List.foldl_append, ← hactions]
  cases promoted with
  | none => rfl
  | some other =>
    simp only [save, get?_saveKey, Option.some.injEq]
    split <;> rfl

/-- Only what is unsaved is dropped, be it one hint or all of them. -/
theorem get?_removeUnsaved (hints : LinkHints) (dropped : Option String) :
    (hints.removeUnsaved dropped).get? key =
      ((HintCall.remove dropped).events key).foldl HintEvent.next (hints.get? key) := by
  cases dropped with
  | none =>
    rw [removeUnsaved, get?, Table.get?_filter, ← get?]
    cases hints.get? key <;> simp [HintCall.events, HintEvent.next, Option.filter]
  | some other =>
    have herased : ({ hints := hints.hints.erase other } : LinkHints).get? key =
        if key = other then none else hints.get? key := Table.get?_erase hints.hints other key
    rw [removeUnsaved]
    by_cases hkey : other = key
    · subst hkey
      cases hfound : hints.get? other with
      | none => simp [HintCall.events, HintEvent.next, hfound]
      | some hint =>
        cases hstate : hint.state <;>
          simp [HintCall.events, HintEvent.next, hstate, hfound, herased]
    · rw [if_neg (Ne.symm hkey)] at herased
      have hother : (if (hints.get? other).any (·.state == .unsaved) then
          ({ hints := hints.hints.erase other } : LinkHints) else hints).get? key =
            hints.get? key := by
        split
        · exact herased
        · rfl
      simp [HintCall.events, hkey, hother]

/-- A call changes the hint of a link only by the parts of it that are about the link. -/
theorem get?_apply (hints : LinkHints) (call : HintCall) (key : String) :
    (call.apply hints).get? key = (call.events key).foldl HintEvent.next (hints.get? key) := by
  cases call with
  | add uri actions => exact get?_add hints uri actions
  | save actions promoted => exact get?_save hints actions promoted
  | remove dropped => exact get?_removeUnsaved hints dropped

theorem get?_foldl_apply (hints : LinkHints) (calls : List HintCall) (key : String) :
    (calls.foldl HintCall.apply hints).get? key =
      (calls.flatMap (·.events key)).foldl HintEvent.next (hints.get? key) := by
  induction calls generalizing hints with
  | nil => rfl
  | cons call rest ih =>
    rw [List.foldl_cons, ih, get?_apply, List.flatMap_cons, List.foldl_append]

section Named

/-- Every hint is known under the name of its action. -/
def Named (hints : LinkHints) : Prop :=
  hints.hints.Keyed (·.action.name)

theorem Named.insert (hnamed : hints.Named) (hint : LinkHint) : (hints.insert hint).Named :=
  Table.Keyed.insert hnamed hint

theorem Named.foldl {place : LinkHints → Action → LinkHints}
    (hplace : ∀ {hints : LinkHints} action, hints.Named → (place hints action).Named)
    (hnamed : hints.Named) (actions : List Action) : (actions.foldl place hints).Named :=
  List.foldlRecOn actions place hnamed fun _ hbefore action _ => hplace action hbefore

theorem Named.saveKey (hnamed : hints.Named) (promoted : String) : (hints.saveKey promoted).Named :=
  Table.Keyed.modify hnamed promoted fun _ => rfl

theorem Named.removeUnsaved (hnamed : hints.Named) (dropped : Option String) :
    (hints.removeUnsaved dropped).Named := by
  cases dropped with
  | none => exact Table.Keyed.filter hnamed _
  | some key =>
    rw [LinkHints.removeUnsaved]
    split
    · exact Table.Keyed.erase hnamed key
    · exact hnamed

theorem Named.apply (hnamed : hints.Named) (call : HintCall) : (call.apply hints).Named := by
  cases call with
  | add uri actions => exact hnamed.foldl (fun _ hbefore => hbefore.insert _) (actions.getD [])
  | save actions promoted =>
    have hsaved : ((actions.getD []).foldl saveAction hints).Named :=
      hnamed.foldl (fun _ hbefore => hbefore.insert _) (actions.getD [])
    cases promoted with
    | none => exact hsaved
    | some key => exact hsaved.saveKey key
  | remove dropped => exact hnamed.removeUnsaved dropped

theorem Named.get?_eq_some_iff (hnamed : hints.Named) {hint : LinkHint} :
    hints.get? key = some hint ↔ hint ∈ hints.hints.values ∧ hint.action.name = key :=
  Table.Keyed.get?_eq_some_iff hnamed

end Named

section Listing

theorem precedes_trans (first second third : LinkHint) (hfirst : precedes first second = true)
    (hsecond : precedes second third = true) : precedes first third = true := by
  unfold precedes at *
  cases hstate : first.state <;> cases hstate' : second.state <;> cases hstate'' : third.state <;>
    simp_all
  all_goals exact String.le_trans hfirst hsecond

theorem precedes_total (first second : LinkHint) :
    (precedes first second || precedes second first) = true := by
  have htotal := String.le_total first.action.name second.action.name
  unfold precedes
  cases hstate : first.state <;> cases hstate' : second.state <;> simp [htotal]

/-- Hints with different names are never in both orders. -/
theorem before_of_precedes {first second : LinkHint} (hprecedes : precedes first second = true)
    (hne : first.action.name ≠ second.action.name) : first.Before second := by
  unfold precedes at hprecedes
  split at hprecedes
  next hstate => exact .inr ⟨hstate, Std.lt_of_le_of_ne (of_decide_eq_true hprecedes) hne⟩
  next hstate =>
    rw [beq_iff_eq] at hprecedes
    refine .inl ⟨hprecedes, ?_⟩
    cases hsecond : second.state with
    | unsaved => rfl
    | saved => exact absurd (hprecedes.trans hsecond.symm) hstate

theorem all_perm (hints : LinkHints) : hints.all.Perm hints.hints.values :=
  List.mergeSort_perm _ _

theorem Named.nodup_all (hnamed : hints.Named) : (hints.all.map (·.action.name)).Nodup := by
  have hkeyed : hints.hints.Keyed (·.action.name) := hnamed
  exact (hints.all_perm.map _).nodup_iff.mpr hkeyed.nodup_values

theorem Named.mem_all_iff (hnamed : hints.Named) {hint : LinkHint} :
    hint ∈ hints.all ↔ hints.get? hint.action.name = some hint := by
  rw [hints.all_perm.mem_iff, hnamed.get?_eq_some_iff, and_iff_left rfl]

/-- The hints are listed in order. -/
theorem Named.all_pairwise (hnamed : hints.Named) : hints.all.Pairwise LinkHint.Before := by
  have hsorted : hints.all.Pairwise fun first second => precedes first second = true :=
    List.pairwise_mergeSort precedes_trans precedes_total _
  have hnames := List.pairwise_map.mp hnamed.nodup_all
  exact (hsorted.and hnames).imp fun ⟨hprecedes, hne⟩ => before_of_precedes hprecedes hne

end Listing

/-- The hints after some calls, when there were none before. -/
def ofCalls (calls : List HintCall) : LinkHints :=
  calls.foldl HintCall.apply {}

theorem named_ofCalls (calls : List HintCall) : (ofCalls calls).Named :=
  List.foldlRecOn calls HintCall.apply (fun _ hmem => nomatch hmem)
    fun _ hnamed call _ => hnamed.apply call

/-- How the hints live on under some calls. -/
structure Lives (calls : List HintCall) : Prop where
  /-- The hint of each link is the run of its own events. -/
  get? : ∀ key, (ofCalls calls).get? key = HintEvent.run (calls.flatMap (·.events key))
  /-- A hint is known under the name of its action. -/
  named : ∀ key hint, (ofCalls calls).get? key = some hint → hint.action.name = key
  /-- A saved hint stays saved, and leads to the same place, until an action is offered for its
      link again. -/
  saved : ∀ before after, calls = before ++ after → ∀ key hint,
    (ofCalls before).get? key = some hint → hint.state = .saved →
    (∀ call ∈ after, ¬ call.Offers key) →
    ∃ kept, (ofCalls calls).get? key = some kept ∧ kept.state = .saved ∧ kept.uri = hint.uri
  /-- The list of all hints has exactly the known ones, -/
  listed : ∀ hint, hint ∈ (ofCalls calls).all ↔
    (ofCalls calls).get? hint.action.name = some hint
  /-- each of them once, -/
  once : ((ofCalls calls).all.map (·.action.name)).Nodup
  /-- the saved ones first, and in the order of the names otherwise. -/
  ordered : (ofCalls calls).all.Pairwise LinkHint.Before

/-- Whatever a client calls, each link has a state machine of its own for its hint. -/
theorem ofCalls_lives (calls : List HintCall) : Lives calls := by
  have hnamed := named_ofCalls calls
  refine ⟨get?_foldl_apply {} calls, ?_, ?_, fun hint => hnamed.mem_all_iff, hnamed.nodup_all,
    hnamed.all_pairwise⟩
  · intro key hint hget
    exact (hnamed.get?_eq_some_iff.mp hget).2
  · rintro before after rfl key hint hget hsaved hoffers
    -- Only an offer takes a saved hint back, and the later calls have none for this key.
    have hevents : ∀ uri action, .offered uri action ∉ after.flatMap (·.events key) := by
      intro uri action hmem
      obtain ⟨call, hcall, hevent⟩ := List.mem_flatMap.mp hmem
      exact hoffers call hcall (HintCall.offers_of_mem_events hevent)
    rw [ofCalls, List.foldl_append, get?_foldl_apply, ← ofCalls, hget]
    exact HintEvent.exists_saved_foldl hsaved hevents

end LinkHints

end TemplateAnalysis
