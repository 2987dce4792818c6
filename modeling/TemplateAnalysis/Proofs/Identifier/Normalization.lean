import Mathlib.Logic.Equiv.Basic
import Mathlib.Order.Fin.Basic
import TemplateAnalysis.Proofs.Identifier

namespace TemplateAnalysis.Identifier

/-- The second list is the normal form of the first one. -/
structure Normalizes (identifiers normal : List Identifier) : Prop where
  /-- The list is in strict order, by start, then by end, then by kind. -/
  increasing : normal.Pairwise Before
  /-- Of the identifiers that classify a range in one way it has the first one, whatever its name and
      its error, and no other one. -/
  firsts : ∀ range kind, normal.filter (hasRecord range kind) =
    (identifiers.find? (hasRecord range kind)).toList

theorem normalize_normalizes (identifiers : List Identifier) :
    Normalizes identifiers (normalize identifiers) := by
  have hincreasing := normalize_increasing identifiers
  refine ⟨hincreasing, fun range kind => ?_⟩
  rw [filter_of_increasing hincreasing, find?_normalize]

/-- There is one normal list only. -/
theorem Normalizes.eq_normalize {identifiers normal : List Identifier}
    (hnormal : Normalizes identifiers normal) : normal = normalize identifiers := by
  refine eq_of_increasing hnormal.increasing (normalize_increasing identifiers) fun range kind => ?_
  rw [find?_normalize, ← List.head?_filter, hnormal.firsts, Option.head?_toList]

/-- A permutation of identifiers, under which those that agree in range and kind keep their order. -/
structure Reordering (first second : List Identifier) where
  /-- Where each identifier goes. -/
  place : Fin first.length ≃ Fin second.length
  get_place : ∀ i, second.get (place i) = first.get i
  place_lt : ∀ i j, i < j → (first.get i).sameRecord (first.get j) = true → place i < place j

namespace Reordering

variable {first second : List Identifier}

theorem mem_of_mem (reordering : Reordering first second) {identifier : Identifier}
    (hmem : identifier ∈ second) : identifier ∈ first := by
  obtain ⟨j, rfl⟩ := List.mem_iff_get.mp hmem
  obtain ⟨i, rfl⟩ := reordering.place.surjective j
  rw [reordering.get_place]
  exact List.get_mem first i

theorem lt_of_place_lt (reordering : Reordering first second) {i j : Fin first.length}
    (hlt : reordering.place i < reordering.place j)
    (hsame : (first.get i).sameRecord (first.get j) = true) : i < j := by
  rcases lt_trichotomy i j with hless | rfl | hgreater
  · exact hless
  · exact absurd hlt (lt_irrefl _)
  · obtain ⟨hrange, hkind⟩ := sameRecord_iff.mp hsame
    have hback := sameRecord_iff.mpr ⟨hrange.symm, hkind.symm⟩
    exact absurd hlt (reordering.place_lt j i hgreater hback).not_gt

/-- The first identifier that classifies a range in some way is the same one in both orders. -/
theorem find?_eq (reordering : Reordering first second) (range : Range) (kind : IdentifierKind) :
    second.find? (hasRecord range kind) = first.find? (hasRecord range kind) := by
  cases hfirst : first.find? (hasRecord range kind) with
  | none =>
    rw [List.find?_eq_none] at hfirst ⊢
    exact fun identifier hmem => hfirst identifier (reordering.mem_of_mem hmem)
  | some found =>
    obtain ⟨hrecord, i, hi, rfl, hbefore⟩ := List.find?_eq_some_iff_getElem.mp hfirst
    refine List.find?_eq_some_iff_getElem.mpr ⟨hrecord, reordering.place ⟨i, hi⟩, Fin.isLt _,
      reordering.get_place ⟨i, hi⟩, fun j hj => ?_⟩
    -- One in front that agrees with it would have been in front of it before.
    have hj' : j < second.length := hj.trans (Fin.isLt _)
    obtain ⟨k, hk⟩ := reordering.place.surjective ⟨j, hj'⟩
    have hget : second.get ⟨j, hj'⟩ = first.get k := by rw [← hk, reordering.get_place]
    rw [Bool.not_eq_true', ← Bool.not_eq_true]
    intro hother
    have hother' : hasRecord range kind (first.get k) = true := hget ▸ hother
    have hlt : k < ⟨i, hi⟩ :=
      reordering.lt_of_place_lt (hk ▸ hj) (sameRecord_of_hasRecord hother' hrecord)
    have hnone : hasRecord range kind (first.get k) = false := by simpa using hbefore k hlt
    rw [hnone] at hother'
    cases hother'

end Reordering

/-- Putting identifiers in order and dropping the repeats loses nothing. The result has the first
    identifier for each range and kind, in strict order; it stays as it is when it is put in order
    again; and it depends on the order of the identifiers only where they agree in range and kind. -/
theorem normalize_lossless (identifiers : List Identifier) :
    Normalizes identifiers (normalize identifiers) ∧
      normalize (normalize identifiers) = normalize identifiers ∧
      ∀ others, Reordering identifiers others → normalize others = normalize identifiers := by
  have hnormal := normalize_normalizes identifiers
  refine ⟨hnormal, normalize_eq_self hnormal.increasing, fun others reordering => ?_⟩
  refine (Normalizes.eq_normalize ⟨hnormal.increasing, fun range kind => ?_⟩).symm
  rw [hnormal.firsts, reordering.find?_eq]

/-- Two links on one reversed range, between two identifiers that can change places. -/
theorem normalize_lossless_reversed :
    let reversed : Range := ⟨⟨0, 5⟩, ⟨0, 2⟩⟩
    let key : Identifier := { range := reversed, name := "key", kind := .forLoopKey }
    let link : Identifier := { range := reversed, name := "first", kind := .link }
    let again : Identifier :=
      { range := reversed, name := "second", kind := .link, error := some "again" }
    let page : Identifier := { range := ⟨⟨1, 0⟩, ⟨1, 4⟩⟩, name := "page", kind := .templateRef }
    normalize [key, link, again, page] = [key, link, page] ∧
      normalize [page, link, again, key] = normalize [key, link, again, page] := by
  intro reversed key link again page
  let exchanged : Reordering [key, link, again, page] [page, link, again, key] :=
    { place := Equiv.swap (α := Fin 4) 0 3
      get_place := by decide
      place_lt := by decide }
  refine ⟨?_, (normalize_lossless _).2.2 _ exchanged⟩
  rw [normalize, List.mergeSort_of_pairwise (by decide)]
  rfl

end TemplateAnalysis.Identifier
