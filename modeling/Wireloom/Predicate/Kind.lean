import Wireloom.SortedMap

/-!
# `PredicateKind` — the names of predicate kinds

Contracts and caches hold at most one predicate of each kind and are listed by the name of the kind.
-/

namespace Wireloom

open Std

/-- A kind of predicate, known by its name. -/
structure PredicateKind where
  name : String
  deriving DecidableEq

namespace PredicateKind

instance : Ord PredicateKind := ⟨compareOn name⟩

instance : TransOrd PredicateKind := inferInstanceAs (TransCmp (compareOn fun k : PredicateKind => k.name))

instance : LawfulEqOrd PredicateKind where
  eq_of_compare {a b} h := by
    have h' : compare a.name b.name = .eq := h
    cases a
    cases b
    simp only [mk.injEq]
    exact LawfulEqCmp.eq_of_compare h'

end PredicateKind

end Wireloom
