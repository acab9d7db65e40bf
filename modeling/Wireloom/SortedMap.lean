/-!
# `SortedMap` — finite maps listed in key order

A `SortedMap κ α` is an association list whose keys strictly increase under `compare`. The order of
`entries` is therefore a function of the contents: two maps with the same lookups are the same map
(`SortedMap.ext_get?`), and everything that walks a map (boundaries, opgroup tables, contracts) walks it
in one canonical order.

* `get?`, `insert`, `erase` with their same/other lemmas;
* `ofList`, where a later pair with the same key wins;
* `SortedSet`, a map to `Unit`, for sets that are walked in order.
-/

namespace Wireloom

open Std

/-- A finite map from `κ` to `α`, kept as its entries in strictly increasing key order. -/
structure SortedMap (κ α : Type) [Ord κ] where
  entries : List (κ × α)
  ordered : entries.Pairwise fun a b => compare a.1 b.1 = .lt

namespace SortedMap

variable {κ α : Type}

/-- The value at a key of a list of pairs: that of the first pair with the key. -/
def lookup [DecidableEq κ] (k : κ) : List (κ × α) → Option α
  | [] => none
  | (k', x) :: rest => if k = k' then some x else lookup k rest

theorem lookup_filter_ne_same [DecidableEq κ] (k : κ) (l : List (κ × α)) :
    lookup k (l.filter fun p => p.1 ≠ k) = none := by
  induction l with
  | nil => rfl
  | cons p rest ih =>
    obtain ⟨k', x⟩ := p
    by_cases h : k' = k
    · simpa [h] using ih
    · simpa [h, lookup, Ne.symm h] using ih

theorem lookup_filter_ne_other [DecidableEq κ] {k k₀ : κ} (hne : k₀ ≠ k) (l : List (κ × α)) :
    lookup k₀ (l.filter fun p => p.1 ≠ k) = lookup k₀ l := by
  induction l with
  | nil => rfl
  | cons p rest ih =>
    obtain ⟨k', x⟩ := p
    by_cases h : k' = k
    · simpa [h, lookup, hne] using ih
    · simp only [ne_eq, h, not_false_eq_true, decide_true, List.filter_cons_of_pos, lookup]
      split
      · rfl
      · simpa using ih

variable [Ord κ]

@[ext] theorem ext {m n : SortedMap κ α} (h : m.entries = n.entries) : m = n := by
  cases m; cases n; cases h; rfl

def empty : SortedMap κ α := ⟨[], .nil⟩

instance : Inhabited (SortedMap κ α) := ⟨empty⟩

instance [DecidableEq κ] [DecidableEq α] : DecidableEq (SortedMap κ α) := fun m n =>
  decidable_of_iff (m.entries = n.entries) ⟨ext, fun h => h ▸ rfl⟩

/-! ## Reading a map -/

def get? [DecidableEq κ] (m : SortedMap κ α) (k : κ) : Option α := lookup k m.entries

def contains [DecidableEq κ] (m : SortedMap κ α) (k : κ) : Bool := (m.get? k).isSome

def keys (m : SortedMap κ α) : List κ := m.entries.map Prod.fst

def values (m : SortedMap κ α) : List α := m.entries.map Prod.snd

def size (m : SortedMap κ α) : Nat := m.entries.length

def isEmpty (m : SortedMap κ α) : Bool := m.entries.isEmpty

/-! ## Erasing -/

def erase [DecidableEq κ] (m : SortedMap κ α) (k : κ) : SortedMap κ α where
  entries := m.entries.filter fun p => p.1 ≠ k
  ordered := m.ordered.filter _

@[simp] theorem get?_erase_same [DecidableEq κ] (m : SortedMap κ α) (k : κ) :
    (m.erase k).get? k = none :=
  lookup_filter_ne_same k m.entries

theorem get?_erase_other [DecidableEq κ] (m : SortedMap κ α) {k k₀ : κ} (h : k₀ ≠ k) :
    (m.erase k).get? k₀ = m.get? k₀ :=
  lookup_filter_ne_other h m.entries

def filter (m : SortedMap κ α) (keep : κ → α → Bool) : SortedMap κ α where
  entries := m.entries.filter fun p => keep p.1 p.2
  ordered := m.ordered.filter _

/-! ## Changing values -/

def mapValues {β : Type} (m : SortedMap κ α) (f : κ → α → β) : SortedMap κ β where
  entries := m.entries.map fun p => (p.1, f p.1 p.2)
  ordered := List.pairwise_map.2 m.ordered

/-- In an ordered list the key of the head is below the keys that can be looked up in the tail. -/
theorem compare_lt_of_lookup [DecidableEq κ] {k k₀ : κ} {l : List (κ × α)}
    (hhead : ∀ p ∈ l, compare k p.1 = .lt) (h : (lookup k₀ l).isSome) : compare k k₀ = .lt := by
  induction l with
  | nil => simp [lookup] at h
  | cons p rest ih =>
    obtain ⟨k', y⟩ := p
    by_cases he : k₀ = k'
    · subst he
      exact hhead (k₀, y) List.mem_cons_self
    · refine ih (fun p hp => hhead p (List.mem_cons_of_mem _ hp)) ?_
      simpa [lookup, he] using h

/-! ## Inserting -/

/-- One pass over an ordered list: replaces the pair with key `k`, or puts a new one in its place. -/
def insertEntry (k : κ) (x : α) : List (κ × α) → List (κ × α)
  | [] => [(k, x)]
  | (k', x') :: rest =>
    match compare k k' with
    | .lt => (k, x) :: (k', x') :: rest
    | .eq => (k, x) :: rest
    | .gt => (k', x') :: insertEntry k x rest

theorem mem_insertEntry {k : κ} {x : α} {p : κ × α} {l : List (κ × α)}
    (h : p ∈ insertEntry k x l) : p = (k, x) ∨ p ∈ l := by
  induction l with
  | nil => simpa [insertEntry] using h
  | cons q rest ih =>
    obtain ⟨k', x'⟩ := q
    rw [insertEntry] at h
    split at h <;> grind

theorem ordered_insertEntry [TransOrd κ] [LawfulEqOrd κ] (k : κ) (x : α) {l : List (κ × α)}
    (h : l.Pairwise fun a b => compare a.1 b.1 = .lt) :
    (insertEntry k x l).Pairwise fun a b => compare a.1 b.1 = .lt := by
  induction l with
  | nil => simp [insertEntry]
  | cons q rest ih =>
    obtain ⟨k', x'⟩ := q
    obtain ⟨hhead, htail⟩ := List.pairwise_cons.1 h
    rw [insertEntry]
    split
    · next hlt =>
      refine List.pairwise_cons.2 ⟨fun p hp => ?_, h⟩
      rcases List.mem_cons.1 hp with rfl | hp
      · exact hlt
      · exact TransCmp.lt_trans hlt (hhead p hp)
    · next heq =>
      cases LawfulEqCmp.eq_of_compare heq
      exact List.pairwise_cons.2 ⟨hhead, htail⟩
    · next hgt =>
      refine List.pairwise_cons.2 ⟨fun p hp => ?_, ih htail⟩
      rcases mem_insertEntry hp with rfl | hp
      · exact OrientedCmp.lt_of_gt hgt
      · exact hhead p hp

theorem lookup_insertEntry_same [LawfulEqOrd κ] [DecidableEq κ] (k : κ) (x : α)
    (l : List (κ × α)) : lookup k (insertEntry k x l) = some x := by
  induction l with
  | nil => simp [insertEntry, lookup]
  | cons q rest ih =>
    obtain ⟨k', x'⟩ := q
    rw [insertEntry]
    split
    · simp [lookup]
    · simp [lookup]
    · next hgt =>
      have hne : k ≠ k' := fun he => by subst he; simp at hgt
      simpa [lookup, hne] using ih

theorem lookup_insertEntry_other [LawfulEqOrd κ] [DecidableEq κ] {k k₀ : κ} (hne : k₀ ≠ k)
    (x : α) (l : List (κ × α)) : lookup k₀ (insertEntry k x l) = lookup k₀ l := by
  induction l with
  | nil => simp [insertEntry, lookup, hne]
  | cons q rest ih =>
    obtain ⟨k', x'⟩ := q
    rw [insertEntry]
    split
    · simp [lookup, hne]
    · next heq =>
      cases LawfulEqCmp.eq_of_compare heq
      simp [lookup, hne]
    · simp only [lookup, ih]

variable [TransOrd κ] [LawfulEqOrd κ]

def insert (m : SortedMap κ α) (k : κ) (x : α) : SortedMap κ α where
  entries := insertEntry k x m.entries
  ordered := ordered_insertEntry k x m.ordered

/-- The map of a list of pairs; a later pair with the same key wins. -/
def ofList (l : List (κ × α)) : SortedMap κ α :=
  l.foldl (fun (m : SortedMap κ α) p => m.insert p.1 p.2) empty

/-- The union of two maps; where both have a key, the left one's value is kept. -/
def unionLeft [DecidableEq κ] (m n : SortedMap κ α) : SortedMap κ α :=
  n.entries.foldl (fun acc p => if acc.contains p.1 then acc else acc.insert p.1 p.2) m

@[simp] theorem get?_insert_same [DecidableEq κ] (m : SortedMap κ α) (k : κ) (x : α) :
    (m.insert k x).get? k = some x :=
  lookup_insertEntry_same k x m.entries

theorem get?_insert_other [DecidableEq κ] (m : SortedMap κ α) {k k₀ : κ} (h : k₀ ≠ k) (x : α) :
    (m.insert k x).get? k₀ = m.get? k₀ :=
  lookup_insertEntry_other h x m.entries

/-! ## Extensionality -/

/-- Ordered lists with equal lookups are equal. -/
theorem entries_eq_of_lookup_eq [DecidableEq κ] {l₁ l₂ : List (κ × α)}
    (h₁ : l₁.Pairwise fun a b => compare a.1 b.1 = .lt)
    (h₂ : l₂.Pairwise fun a b => compare a.1 b.1 = .lt)
    (h : ∀ k, lookup k l₁ = lookup k l₂) : l₁ = l₂ := by
  induction l₁ generalizing l₂ with
  | nil =>
    cases l₂ with
    | nil => rfl
    | cons q rest => simpa [lookup] using h q.1
  | cons p rest₁ ih =>
    cases l₂ with
    | nil => simpa [lookup] using h p.1
    | cons q rest₂ =>
      obtain ⟨k, x⟩ := p
      obtain ⟨k', x'⟩ := q
      obtain ⟨hp, htail₁⟩ := List.pairwise_cons.1 h₁
      obtain ⟨hq, htail₂⟩ := List.pairwise_cons.1 h₂
      have hkk : k = k' := by
        apply Classical.byContradiction
        intro hne
        -- each head key is found in the other list's tail, so each is below the other
        have hlt : compare k' k = .lt := by
          refine compare_lt_of_lookup hq ?_
          have := h k
          simp only [lookup, if_neg hne, if_pos] at this
          simp [← this]
        have hgt : compare k k' = .lt := by
          refine compare_lt_of_lookup hp ?_
          have := h k'
          simp only [lookup, if_neg (Ne.symm hne), if_pos] at this
          simp [this]
        have := TransCmp.lt_trans hlt hgt
        simp at this
      subst hkk
      have hx : x = x' := by simpa [lookup] using h k
      subst hx
      congr 1
      refine ih htail₁ htail₂ fun k₀ => ?_
      by_cases hk : k₀ = k
      · subst hk
        have none_of {l : List (κ × α)} (hl : ∀ p ∈ l, compare k₀ p.1 = .lt) :
            lookup k₀ l = none := by
          apply Option.not_isSome_iff_eq_none.1
          intro hs
          have := compare_lt_of_lookup hl hs
          simp at this
        rw [none_of hp, none_of hq]
      · simpa [lookup, hk] using h k₀

/-- A map is determined by its lookups. -/
theorem ext_get? [DecidableEq κ] {m n : SortedMap κ α} (h : ∀ k, m.get? k = n.get? k) : m = n :=
  ext (entries_eq_of_lookup_eq m.ordered n.ordered h)

end SortedMap

/-! ## Sets -/

/-- A finite set walked in increasing order. -/
abbrev SortedSet (κ : Type) [Ord κ] := SortedMap κ Unit

namespace SortedSet

variable {κ : Type} [Ord κ]

def toList (s : SortedSet κ) : List κ := s.keys

def inter [DecidableEq κ] (s t : SortedSet κ) : SortedSet κ where
  entries := s.entries.filter fun p => SortedMap.contains t p.1
  ordered := s.ordered.filter _

def subset [DecidableEq κ] (s t : SortedSet κ) : Bool :=
  s.toList.all fun k => SortedMap.contains t k

variable [TransOrd κ] [LawfulEqOrd κ]

def add (s : SortedSet κ) (k : κ) : SortedSet κ := SortedMap.insert s k ()

def ofList (l : List κ) : SortedSet κ := l.foldl add SortedMap.empty

def union (s t : SortedSet κ) : SortedSet κ := t.toList.foldl add s

end SortedSet

end Wireloom
