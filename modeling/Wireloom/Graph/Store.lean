import Wireloom.Sorting

/-!
# `SlotStore` — values under handles that never come to mean something else

A store hands out a `Handle` for every value put in. A handle is a slot together with the generation of
that slot: slots are used again, the last one freed first, but every release moves its slot to the next
generation, so that a handle kept across a release finds nothing. Generations have 32 bits and start again after
the last one.

The entries stand newest first. Both orders that a reader of a store needs come from that list: "latest
added first" is the list itself, and `SlotStore.bySlot` is the list by slot.
-/

namespace Wireloom

open Std

/-- Names a value of type `α` in a store: a slot and the generation of the slot. -/
structure Handle (α : Type) where
  slot : Nat
  generation : Nat

namespace Handle

variable {α : Type}

@[ext] theorem ext {a b : Handle α} (hs : a.slot = b.slot) (hg : a.generation = b.generation) : a = b := by
  cases a; cases b; cases hs; cases hg; rfl

instance : DecidableEq (Handle α) := fun a b =>
  decidable_of_iff (a.slot = b.slot ∧ a.generation = b.generation)
    ⟨fun h => ext h.1 h.2, fun h => h ▸ ⟨rfl, rfl⟩⟩

/-- Handles are ordered by slot, then by generation. -/
def order : Handle α → Handle α → Ordering := compareLex (compareOn slot) (compareOn generation)

instance : Ord (Handle α) := ⟨order⟩

instance : TransOrd (Handle α) := inferInstanceAs
  (TransCmp (compareLex (compareOn fun h : Handle α => h.slot) (compareOn fun h : Handle α => h.generation)))

instance : LawfulEqOrd (Handle α) where
  eq_of_compare {a b} h := by
    have h' : order a b = .eq := h
    simp only [order, compareLex_eq_eq, compareOn] at h'
    exact ext (LawfulEqCmp.eq_of_compare h'.1) (LawfulEqCmp.eq_of_compare h'.2)

end Handle

/-- Values under handles. -/
structure SlotStore (α : Type) where
  /-- The values with their handles, newest first. -/
  entries : List (Handle α × α) := []
  /-- The current generation of every slot that was ever used. -/
  generations : List Nat := []
  /-- The slots that are free, the last one freed first. -/
  free : List Nat := []

namespace SlotStore

variable {α : Type}

def find (h : Handle α) : List (Handle α × α) → Option α
  | [] => none
  | (h', x) :: rest => if h = h' then some x else find h rest

def get? (s : SlotStore α) (h : Handle α) : Option α := find h s.entries

def contains (s : SlotStore α) (h : Handle α) : Bool := (s.get? h).isSome

def size (s : SlotStore α) : Nat := s.entries.length

/-- The values with their handles by increasing slot. -/
def bySlot (s : SlotStore α) : List (Handle α × α) := sortedBy (fun p => p.1.slot) s.entries

/-- The handle that the next value gets: in the slot freed last, else in a slot never used. -/
def nextHandle (s : SlotStore α) : Handle α :=
  match s.free with
  | slot :: _ => ⟨slot, s.generations.getD slot 0⟩
  | [] => ⟨s.generations.length, 0⟩

/-- The store with `x` put in under `nextHandle`. -/
def insert (s : SlotStore α) (x : α) : SlotStore α where
  entries := (s.nextHandle, x) :: s.entries
  generations := match s.free with
    | _ :: _ => s.generations
    | [] => s.generations ++ [0]
  free := s.free.tail

/-- The store with the value under `h` changed by `f`. -/
def update (s : SlotStore α) (h : Handle α) (f : α → α) : SlotStore α :=
  { s with entries := s.entries.map fun p => if p.1 = h then (p.1, f p.2) else p }

def nextGeneration (n : Nat) : Nat := (n + 1) % 4294967296

/-- The store with the value under `h` taken out. The slot of `h` moves to its next generation, and is free
again if the handle named a value. -/
def release (s : SlotStore α) (h : Handle α) : SlotStore α where
  entries := s.entries.filter fun p => p.1 ≠ h
  generations := s.generations.modify h.slot nextGeneration
  free := if s.contains h then h.slot :: s.free else s.free

/-! ## Looking up after an edit -/

@[simp] theorem get?_insert_same (s : SlotStore α) (x : α) :
    (s.insert x).get? s.nextHandle = some x := by
  simp [get?, insert, find]

theorem get?_insert_other (s : SlotStore α) {h : Handle α} (hne : h ≠ s.nextHandle) (x : α) :
    (s.insert x).get? h = s.get? h := by
  simp [get?, insert, find, hne]

theorem find_update (l : List (Handle α × α)) (h k : Handle α) (f : α → α) :
    find k (l.map fun p => if p.1 = h then (p.1, f p.2) else p) =
      if k = h then (find k l).map f else find k l := by
  induction l with
  | nil => simp [find]
  | cons p rest ih =>
    obtain ⟨h', x⟩ := p
    by_cases hk : k = h' <;> by_cases hh : h' = h <;> simp_all [find]

theorem get?_update (s : SlotStore α) (h k : Handle α) (f : α → α) :
    (s.update h f).get? k = if k = h then (s.get? k).map f else s.get? k :=
  find_update s.entries h k f

@[simp] theorem get?_release_same (s : SlotStore α) (h : Handle α) : (s.release h).get? h = none := by
  unfold get? release
  induction s.entries with
  | nil => rfl
  | cons p rest ih =>
    obtain ⟨h', x⟩ := p
    by_cases hh : h' = h
    · simpa [hh] using ih
    · simpa [hh, find, Ne.symm hh] using ih

theorem get?_release_other (s : SlotStore α) {h k : Handle α} (hne : k ≠ h) :
    (s.release h).get? k = s.get? k := by
  unfold get? release
  induction s.entries with
  | nil => rfl
  | cons p rest ih =>
    obtain ⟨h', x⟩ := p
    by_cases hh : h' = h
    · simpa [hh, find, hne] using ih
    · by_cases hk : k = h'
      · simp [hh, find, hk]
      · simpa [hh, find, hk] using ih

end SlotStore

end Wireloom
