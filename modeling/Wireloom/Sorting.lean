/-!
# `sortedBy` — lists in the order of a key

Sorting by insertion. It is stable, and it is a plain recursion on the list, so that sorted lists of
concrete values can be computed inside a proof.
-/

namespace Wireloom

open Std

variable {α κ : Type} [Ord κ]

/-- `x` put in front of the first item whose key is not below that of `x`. -/
def insertBy (key : α → κ) (x : α) : List α → List α
  | [] => [x]
  | y :: rest =>
    if (compare (key x) (key y)).isLE then x :: y :: rest else y :: insertBy key x rest

/-- The items of a list by increasing key; items with equal keys keep their order. -/
def sortedBy (key : α → κ) (l : List α) : List α := l.foldr (insertBy key) []

theorem perm_insertBy (key : α → κ) (x : α) (l : List α) : (insertBy key x l).Perm (x :: l) := by
  induction l with
  | nil => exact .refl _
  | cons y rest ih =>
    rw [insertBy]
    split
    · exact .refl _
    · exact (ih.cons y).trans (.swap x y rest)

theorem perm_sortedBy (key : α → κ) (l : List α) : (sortedBy key l).Perm l := by
  induction l with
  | nil => exact .refl _
  | cons x rest ih => exact (perm_insertBy key x _).trans (ih.cons x)

@[simp] theorem mem_sortedBy {key : α → κ} {x : α} {l : List α} : x ∈ sortedBy key l ↔ x ∈ l :=
  (perm_sortedBy key l).mem_iff

@[simp] theorem length_sortedBy (key : α → κ) (l : List α) : (sortedBy key l).length = l.length :=
  (perm_sortedBy key l).length_eq

/-- What has the largest key comes last. -/
theorem insertBy_of_gt {key : α → κ} {x : α} {l : List α} (h : ∀ y ∈ l, compare (key x) (key y) = .gt) :
    insertBy key x l = l ++ [x] := by
  induction l with
  | nil => rfl
  | cons y rest ih =>
    obtain ⟨hy, hrest⟩ := List.forall_mem_cons.1 h
    rw [insertBy, hy, ih hrest]
    rfl

theorem pairwise_insertBy [TransOrd κ] (key : α → κ) (x : α) {l : List α}
    (h : l.Pairwise fun a b => (compare (key a) (key b)).isLE) :
    (insertBy key x l).Pairwise fun a b => (compare (key a) (key b)).isLE := by
  induction l with
  | nil => simp [insertBy]
  | cons y rest ih =>
    obtain ⟨hy, hrest⟩ := List.pairwise_cons.1 h
    rw [insertBy]
    split
    · next hle =>
      refine List.pairwise_cons.2 ⟨fun z hz => ?_, h⟩
      rcases List.mem_cons.1 hz with rfl | hz
      · exact hle
      · exact TransCmp.isLE_trans hle (hy z hz)
    · next hgt =>
      refine List.pairwise_cons.2 ⟨fun z hz => ?_, ih hrest⟩
      rcases List.mem_cons.1 ((perm_insertBy key x rest).mem_iff.1 hz) with rfl | hz
      · exact (Ordering.isLE_of_eq_lt (OrientedCmp.lt_of_gt (by simpa using hgt)))
      · exact hy z hz

theorem pairwise_sortedBy [TransOrd κ] (key : α → κ) (l : List α) :
    (sortedBy key l).Pairwise fun a b => (compare (key a) (key b)).isLE := by
  induction l with
  | nil => exact .nil
  | cons x rest ih => exact pairwise_insertBy key x ih

end Wireloom
