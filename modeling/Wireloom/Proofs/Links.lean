import Mathlib.Data.Finset.Max
import Wireloom.Proofs.Net
import Wireloom.Proofs.Run

/-!
# `SlotStore.Valid`, `Graph.HasLink` — the links of a graph, and what single edits do to them

Proofs about a graph look at it through two views: `Graph.kind?`, what stands at a vertex, and `Graph.HasLink`, which
links there are.
-/

namespace Wireloom.SlotStore

open List SlotStore

variable {α : Type} {h : Handle α} {s : SlotStore α} {x : α} {l : List (Handle α × α)}

/-- **A store in order.** Handles are distinct and of the current generation of their slot; a slot is free
    just if it was used before and holds nothing now. -/
structure Valid (s : SlotStore α) : Prop where
  nodup : (s.entries.map Prod.fst).Nodup
  current : ∀ p ∈ s.entries, s.generations[p.1.slot]? = some p.1.generation
  free_nodup : s.free.Nodup
  free_iff : ∀ i, i ∈ s.free ↔ i < s.generations.length ∧ ∀ p ∈ s.entries, p.1.slot ≠ i

lemma valid_empty : ({} : SlotStore α).Valid :=
  ⟨nodup_nil, fun _ hp => absurd hp (by simp), nodup_nil, fun i => by simp⟩

/-! ## Lookups and membership -/

lemma mem_of_find (hf : find h l = some x) : (h, x) ∈ l := by
  induction l with
  | nil => simp [find] at hf
  | cons p rest ih =>
    obtain ⟨h', y⟩ := p
    by_cases hh : h = h'
    · subst hh
      have : y = x := by simpa [find] using hf
      subst this
      exact mem_cons_self
    · exact mem_cons_of_mem _ (ih (by simpa [find, hh] using hf))

lemma find_of_mem (hn : (l.map Prod.fst).Nodup) (hm : (h, x) ∈ l) : find h l = some x := by
  induction l with
  | nil => simp at hm
  | cons p rest ih =>
    obtain ⟨h', y⟩ := p
    obtain ⟨hnot, hrest⟩ := nodup_cons.mp hn
    rcases mem_cons.mp hm with heq | hm
    · cases heq; simp [find]
    · have hne : h ≠ h' := fun e => hnot (mem_map.mpr ⟨(h, x), hm, e⟩)
      simpa [find, hne] using ih hrest hm

lemma get?_eq_some_iff (hs : s.Valid) : s.get? h = some x ↔ (h, x) ∈ s.entries :=
  ⟨mem_of_find, find_of_mem hs.nodup⟩

lemma mem_of_get? (hx : s.get? h = some x) : (h, x) ∈ s.entries :=
  mem_of_find hx

lemma get?_isSome_iff (hs : s.Valid) : (s.get? h).isSome ↔ ∃ p ∈ s.entries, p.1 = h := by
  rw [Option.isSome_iff_exists]
  constructor
  · rintro ⟨x, hx⟩; exact ⟨(h, x), mem_of_get? hx, rfl⟩
  · rintro ⟨⟨_, x⟩, hm, rfl⟩; exact ⟨x, (get?_eq_some_iff hs).mpr hm⟩

/-! ## The next handle is new -/

lemma Valid.slot_ne_nextHandle (hs : s.Valid) {p : Handle α × α} (hp : p ∈ s.entries) : p.1.slot ≠ s.nextHandle.slot := by
  have hcur := hs.current p hp
  unfold nextHandle
  split
  · next slot _ hfree =>
    exact ((hs.free_iff slot).mp (by simp [hfree])).2 p hp
  · have hlt := (List.getElem?_eq_some_iff.mp hcur).1
    exact Nat.ne_of_lt hlt

lemma get?_nextHandle (hs : s.Valid) : s.get? s.nextHandle = none := by
  cases hg : s.get? s.nextHandle with
  | none => rfl
  | some x => exact absurd rfl (hs.slot_ne_nextHandle (mem_of_get? hg))

lemma get?_insert_eq_some_iff (hs : s.Valid) {y : α} :
    (s.insert x).get? h = some y ↔ (h = s.nextHandle ∧ y = x) ∨ s.get? h = some y := by
  by_cases hh : h = s.nextHandle
  · subst hh
    rw [get?_insert_same, get?_nextHandle hs]
    simp [eq_comm]
  · rw [get?_insert_other s hh]
    simp [hh]

lemma get?_release (s : SlotStore α) (h k : Handle α) : (s.release h).get? k = if k = h then none else s.get? k := by
  split
  · next hk => rw [hk, get?_release_same]
  · next hk => exact get?_release_other s hk

lemma get?_release_eq_some_iff {k : Handle α} : (s.release h).get? k = some x ↔ k ≠ h ∧ s.get? k = some x := by
  rw [get?_release]
  split <;> simp [*]

/-! ## The operations keep a store in order -/

lemma Valid.insert (hs : s.Valid) (x : α) : (s.insert x).Valid where
  nodup := by
    refine nodup_cons.mpr ⟨fun hm => ?_, hs.nodup⟩
    obtain ⟨p, hp, hph⟩ := mem_map.mp hm
    exact hs.slot_ne_nextHandle hp (by rw [hph])
  current := by
    intro p hp
    rcases mem_cons.mp hp with rfl | hp
    · unfold SlotStore.insert nextHandle
      cases hfree : s.free with
      | nil => simp
      | cons slot rest =>
        have hlt := ((hs.free_iff slot).mp (by simp [hfree])).1
        simp [getD, hlt]
    · have hcur := hs.current p hp
      unfold SlotStore.insert
      cases hfree : s.free with
      | nil => rw [getElem?_append_left (List.getElem?_eq_some_iff.mp hcur).1]; exact hcur
      | cons slot rest => exact hcur
  free_nodup := hs.free_nodup.tail
  free_iff := by
    intro i
    have hiff := hs.free_iff i
    unfold SlotStore.insert nextHandle
    cases hfree : s.free with
    | nil =>
      simp only [tail_nil, not_mem_nil, length_append, length_singleton, mem_cons, forall_eq_or_imp, false_iff]
      rintro ⟨hlt, hne, hrest⟩
      have hlt' : i < s.generations.length := by omega
      exact absurd (hiff.mpr ⟨hlt', hrest⟩) (by simp [hfree])
    | cons slot rest =>
      have hnd := hs.free_nodup
      rw [hfree] at hiff hnd
      have hnot := (nodup_cons.mp hnd).1
      simp only [tail_cons, mem_cons, forall_eq_or_imp]
      constructor
      · intro hi
        obtain ⟨hlt, hrest⟩ := hiff.mp (mem_cons_of_mem _ hi)
        exact ⟨hlt, fun e => hnot (e ▸ hi), hrest⟩
      · rintro ⟨hlt, hne, hrest⟩
        rcases mem_cons.mp (hiff.mpr ⟨hlt, hrest⟩) with rfl | hi
        · exact absurd rfl hne
        · exact hi

lemma map_fst_update (s : SlotStore α) (h : Handle α) (f : α → α) :
    (s.update h f).entries.map Prod.fst = s.entries.map Prod.fst := by
  unfold update
  rw [map_map]
  refine map_congr_left fun p _ => ?_
  by_cases hp : p.1 = h <;> simp [hp]

lemma Valid.withEntries (hs : s.Valid) {entries : List (Handle α × α)}
    (hfst : entries.map Prod.fst = s.entries.map Prod.fst) : { s with entries }.Valid := by
  have hslot : ∀ p ∈ entries, ∃ q ∈ s.entries, q.1 = p.1 := by
    intro p hp
    have : p.1 ∈ s.entries.map Prod.fst := hfst ▸ mem_map_of_mem hp
    simpa using this
  have hslot' : ∀ q ∈ s.entries, ∃ p ∈ entries, p.1 = q.1 := by
    intro q hq
    have : q.1 ∈ entries.map Prod.fst := hfst ▸ mem_map_of_mem hq
    simpa using this
  refine ⟨hfst ▸ hs.nodup, fun p hp => ?_, hs.free_nodup, fun i => ?_⟩
  · obtain ⟨q, hq, hqp⟩ := hslot p hp
    exact hqp ▸ hs.current q hq
  · rw [hs.free_iff i]
    refine and_congr_right fun _ => ⟨fun hall p hp => ?_, fun hall q hq => ?_⟩
    · obtain ⟨q, hq, hqp⟩ := hslot p hp
      exact hqp ▸ hall q hq
    · obtain ⟨p, hp, hpq⟩ := hslot' q hq
      exact hpq ▸ hall p hp

lemma Valid.update (hs : s.Valid) (h : Handle α) (f : α → α) : (s.update h f).Valid :=
  hs.withEntries (map_fst_update s h f)

lemma find_map (f : α → α) (l : List (Handle α × α)) (h : Handle α) :
    find h (l.map fun p => (p.1, f p.2)) = (find h l).map f := by
  induction l with
  | nil => rfl
  | cons p rest ih =>
    obtain ⟨h', x⟩ := p
    by_cases hh : h = h'
    · simp [find, hh]
    · simp [find, hh, ih]

lemma Valid.eq_of_slot (hs : s.Valid) {p q : Handle α × α} (hp : p ∈ s.entries) (hq : q ∈ s.entries)
    (hslot : p.1.slot = q.1.slot) : p.1 = q.1 := by
  have hcur := hs.current p hp
  rw [hslot, hs.current q hq] at hcur
  exact Handle.ext hslot (Option.some.inj hcur).symm

lemma Valid.release_slot (hs : s.Valid) (hother : ∀ p ∈ s.entries, p.1.slot = h.slot → p.1 = h) : (s.release h).Valid := by
  have hmem : ∀ p, p ∈ (s.release h).entries ↔ p ∈ s.entries ∧ p.1 ≠ h := by
    intro p
    simp [release]
  refine ⟨?_, fun p hp => ?_, ?_, fun i => ?_⟩
  · exact hs.nodup.sublist ((filter_sublist).map _)
  · obtain ⟨hp, hne⟩ := (hmem p).mp hp
    show (s.generations.modify h.slot nextGeneration)[p.1.slot]? = _
    rw [getElem?_modify_ne _ _ fun hslot => hne (hother p hp hslot.symm)]
    exact hs.current p hp
  · show (if s.contains h then h.slot :: s.free else s.free).Nodup
    split
    · next hh =>
      obtain ⟨p, hp, rfl⟩ := (get?_isSome_iff hs).mp hh
      exact nodup_cons.mpr ⟨fun hin => ((hs.free_iff _).mp hin).2 p hp rfl, hs.free_nodup⟩
    · exact hs.free_nodup
  · show i ∈ (if s.contains h then h.slot :: s.free else s.free) ↔ i < (s.generations.modify h.slot nextGeneration).length ∧ _
    rw [length_modify]
    split
    · next hh =>
      obtain ⟨p0, hp0, rfl⟩ := (get?_isSome_iff hs).mp hh
      have hlt := (List.getElem?_eq_some_iff.mp (hs.current p0 hp0)).1
      rw [mem_cons, hs.free_iff i]
      constructor
      · rintro (rfl | ⟨hi, hall⟩)
        · exact ⟨hlt, fun p hp hslot => ((hmem p).mp hp).2 (hother p ((hmem p).mp hp).1 hslot)⟩
        · exact ⟨hi, fun p hp => hall p ((hmem p).mp hp).1⟩
      · rintro ⟨hi, hall⟩
        by_cases hip : i = p0.1.slot
        · exact .inl hip
        · refine .inr ⟨hi, fun p hp hslot => ?_⟩
          by_cases hpp : p.1 = p0.1
          · exact hip (by rw [← hslot, hpp])
          · exact hall p ((hmem p).mpr ⟨hp, hpp⟩) hslot
    · next hh =>
      -- nothing is taken out
      have hsame : ∀ p, p ∈ (s.release h).entries ↔ p ∈ s.entries := by
        intro p
        rw [hmem p]
        refine and_iff_left_of_imp fun hp hph => hh ?_
        exact (get?_isSome_iff hs).mpr ⟨p, hp, hph⟩
      simp only [hs.free_iff i, hsame]

lemma Valid.release (hs : s.Valid) (hh : s.contains h) : (s.release h).Valid := by
  obtain ⟨p, hp, rfl⟩ := (get?_isSome_iff hs).mp hh
  exact hs.release_slot fun q hq => hs.eq_of_slot hq hp

/-! # `SlotStore.Counted` — generations count what was freed -/

variable {fs fs' : List (Handle α)} {i : Nat}

/-- How many of the handles have the slot `i`. -/
def freedCount (fs : List (Handle α)) (i : Nat) : Nat := fs.countP fun h => h.slot = i

@[simp] lemma freedCount_nil : freedCount ([] : List (Handle α)) i = 0 := by simp [freedCount]

@[simp] lemma freedCount_append : freedCount (fs ++ fs') i = freedCount fs i + freedCount fs' i := by
  simp [freedCount]

lemma freedCount_singleton : freedCount [h] i = if h.slot = i then 1 else 0 := by
  simp [freedCount, countP_cons]

lemma freedCount_pos (hh : h ∈ fs) : 0 < freedCount fs h.slot := by
  exact countP_pos_iff.mpr ⟨h, hh, by simp⟩

/-- No slot was freed so often that its generations started again. -/
def FreedSeldom (fs : List (Handle α)) : Prop := ∀ i, freedCount fs i < 4294967296

lemma FreedSeldom.of_append (hb : FreedSeldom (fs ++ fs')) : FreedSeldom fs := by
  intro i
  have hall := hb i
  rw [freedCount_append] at hall
  omega

lemma FreedSeldom.of_length (h : fs.length < 4294967296) : FreedSeldom fs :=
  fun _ => Nat.lt_of_le_of_lt countP_le_length h

/-- **The generations count what was freed.** `fs` are the handles that were released so far. -/
structure Counted (fs : List (Handle α)) (s : SlotStore α) : Prop where
  valid : s.Valid
  generation : ∀ {i g}, s.generations[i]? = some g → g = freedCount fs i % 4294967296
  unused : ∀ {i}, s.generations.length ≤ i → freedCount fs i = 0

lemma counted_empty : Counted [] ({} : SlotStore α) := ⟨valid_empty, by simp, by simp⟩

namespace Counted

/-! ## The operations keep count -/

lemma insert (hc : Counted fs s) (x : α) : Counted fs (s.insert x) := by
  refine ⟨hc.valid.insert x, fun {i g} hg => ?_, fun {i} hi => ?_⟩
  · unfold SlotStore.insert at hg
    cases hfree : s.free with
    | cons slot rest =>
      simp only [hfree] at hg
      exact hc.generation hg
    | nil =>
      simp only [hfree] at hg
      by_cases hlt : i < s.generations.length
      · rw [getElem?_append_left hlt] at hg
        exact hc.generation hg
      · have hle := Nat.le_of_not_lt hlt
        rw [getElem?_append_right hle, getElem?_singleton] at hg
        have hzero := hc.unused hle
        split at hg
        · cases hg
          rw [hzero]
        · cases hg
  · refine hc.unused ?_
    unfold SlotStore.insert at hi
    cases hfree : s.free with
    | cons slot rest => simpa only [hfree] using hi
    | nil =>
      simp only [hfree, length_append, length_singleton] at hi
      omega

lemma update (hc : Counted fs s) (h : Handle α) (f : α → α) : Counted fs (s.update h f) :=
  ⟨hc.valid.update h f, hc.generation, hc.unused⟩

lemma release (hc : Counted fs s) (hother : ∀ p ∈ s.entries, p.1.slot = h.slot → p.1 = h)
    (hused : h.slot < s.generations.length) : Counted (fs ++ [h]) (s.release h) := by
  refine ⟨hc.valid.release_slot hother, fun {i g} hg => ?_, fun {i} hi => ?_⟩
  · replace hg : (s.generations.modify h.slot nextGeneration)[i]? = some g := hg
    rw [freedCount_append, freedCount_singleton]
    rw [getElem?_modify] at hg
    obtain ⟨_, hg0, rfl⟩ := Option.map_eq_some_iff.mp hg
    rw [hc.generation hg0]
    by_cases hi : h.slot = i
    · simp only [hi, if_true, nextGeneration]
      omega
    · simp only [hi, if_false]
      rfl
  · replace hi : (s.generations.modify h.slot nextGeneration).length ≤ i := hi
    rw [length_modify] at hi
    have hne : h.slot ≠ i := by omega
    simp [freedCount_singleton, hne, hc.unused hi]

lemma slot_lt (hc : Counted fs s) (hx : s.get? h = some x) : h.slot < s.generations.length :=
  (List.getElem?_eq_some_iff.mp (hc.valid.current _ (mem_of_get? hx))).1

/-- Handles that were all found can be released one after the other, also the same one twice: a slot that was just freed
    holds nothing. -/
lemma releaseAll (hc : Counted fs s) (hs : List (Handle α)) (hall : ∀ h ∈ hs, ∃ x, s.get? h = some x) :
    Counted (fs ++ hs) (hs.foldl SlotStore.release s) := by
  have hother : ∀ h ∈ hs, ∀ p ∈ s.entries, p.1.slot = h.slot → p.1 = h := by
    intro h hh p hp hslot
    obtain ⟨x, hx⟩ := hall h hh
    exact hc.valid.eq_of_slot hp (mem_of_get? hx) hslot
  have hused : ∀ h ∈ hs, h.slot < s.generations.length := by
    intro h hh
    obtain ⟨x, hx⟩ := hall h hh
    exact hc.slot_lt hx
  clear hall
  induction hs generalizing s fs with
  | nil => simpa using hc
  | cons h rest ih =>
    obtain ⟨hfirst, hrest⟩ := forall_mem_cons.mp hother
    obtain ⟨hfirst', hrest'⟩ := forall_mem_cons.mp hused
    rw [append_cons]
    refine ih (hc.release hfirst hfirst') ?_ ?_
    · intro k hk p hp
      exact hrest k hk p (mem_of_mem_filter hp)
    · intro k hk
      show k.slot < (s.generations.modify h.slot nextGeneration).length
      rw [length_modify]
      exact hrest' k hk

end Counted

/-! ## Spent handles -/

/-- **The handle is spent**: its slot has been freed since it was handed out. -/
def Spent (fs : List (Handle α)) (h : Handle α) : Prop := h.generation < freedCount fs h.slot

lemma Spent.append (hh : Spent fs h) : Spent (fs ++ fs') h := by
  unfold Spent at *
  rw [freedCount_append]
  omega

namespace Counted

variable (hc : Counted fs s) (hb : FreedSeldom fs) (hx : s.get? h = some x)

include hc hb hx in
lemma generation_eq : h.generation = freedCount fs h.slot := by
  have hcur := hc.generation (hc.valid.current _ (mem_of_get? hx))
  rwa [Nat.mod_eq_of_lt (hb h.slot)] at hcur

include hc hb in
lemma get?_of_spent (hh : Spent fs h) : s.get? h = none := by
  cases hx : s.get? h with
  | none => rfl
  | some x =>
    have heq := hc.generation_eq hb hx
    unfold Spent at hh
    omega

include hc hb hx in
lemma spent_of_mem (hh : h ∈ fs') : Spent (fs ++ fs') h := by
  have heq := hc.generation_eq hb hx
  have hpos := freedCount_pos hh
  unfold Spent
  rw [freedCount_append]
  omega

include hc hb in
lemma not_spent_nextHandle : ¬ Spent fs s.nextHandle := by
  have hgen : s.nextHandle.generation = freedCount fs s.nextHandle.slot := by
    unfold nextHandle
    cases hfree : s.free with
    | cons slot rest =>
      have hlt := ((hc.valid.free_iff slot).mp (by simp [hfree])).1
      have hslot := hc.generation (getElem?_eq_getElem hlt)
      rw [Nat.mod_eq_of_lt (hb slot)] at hslot
      simpa [getD, hlt] using hslot
    | nil => exact (hc.unused (Nat.le_refl _)).symm
  unfold Spent
  omega

end Counted

end SlotStore

end Wireloom

/-! # `Graph.HasLink` -/

namespace Wireloom.Graph

open SlotStore List Option

variable {k : NodeKind} {g' : Graph} {og : Option String}

/-! ## The two views -/

/-- What stands at a vertex. -/
def kind? (g : Graph) (v : Vertex) : Option NodeKind := (g.vertices.get? v).map Node.kind

def Live (g : Graph) (v : Vertex) : Prop := g.vertices.contains v = true

/-- Whether an edge carries this link. -/
def HasLink (g : Graph) (l : Link) : Prop := ∃ e, g.edges.get? e = some l

/-- The graph as its wires see it. -/
def net (g : Graph) : Net := ⟨fun v => (g.kind? v).map NodeKind.signature, g.HasLink⟩

lemma kind?_of_signature {g : Graph} {v : Vertex} (hv : (g.net.signature? v).isSome) : ∃ k, g.kind? v = some k := by
  obtain ⟨_, hsig⟩ := isSome_iff_exists.mp hv
  obtain ⟨k, hk, _⟩ := map_eq_some_iff.mp hsig
  exact ⟨k, hk⟩

lemma signature_of_kind? {g : Graph} {v : Vertex} (hk : g.kind? v = some k) : g.net.signature? v = some k.signature :=
  congrArg (Option.map NodeKind.signature) hk

lemma wireAt_of_kind? {g : Graph} {p : Pin} (hk : g.kind? p.vertex = some k) : g.net.wireAt p = k.signature[p.index]? :=
  Net.wireAt_of_signature? (signature_of_kind? hk)

/-- **A graph in order**: both stores are, and links join vertices that are there. -/
structure Valid (g : Graph) : Prop where
  vertices : g.vertices.Valid
  edges : g.edges.Valid
  source_live : ∀ {l}, g.HasLink l → g.Live l.source.vertex
  target_live : ∀ {l}, g.HasLink l → g.Live l.target.vertex

def Simple (g : Graph) : Prop := ∀ {e e' l}, g.edges.get? e = some l → g.edges.get? e' = some l → e = e'

variable {g : Graph} {v w : Vertex} {l m : Link} {e : Edge}

lemma live_iff : g.Live v ↔ ∃ n, g.vertices.get? v = some n := by
  unfold Live SlotStore.contains
  rw [isSome_iff_exists]

lemma live_congr {g' : Graph} (h : g'.vertices = g.vertices) : g'.Live v ↔ g.Live v := by
  unfold Live
  rw [h]

lemma live_of_get?_eq {g' : Graph} (h : g'.vertices.get? v = g.vertices.get? v) (hv : g.Live v) : g'.Live v := by
  unfold Live SlotStore.contains at hv ⊢
  rwa [h]

lemma live_of_get? {n : Node} (h : g.vertices.get? v = some n) : g.Live v := live_iff.mpr ⟨n, h⟩

lemma kind?_of_get? {n : Node} (h : g.vertices.get? v = some n) : g.kind? v = some n.kind :=
  congrArg (Option.map Node.kind) h

lemma live_iff_kind? : g.Live v ↔ ∃ k, g.kind? v = some k := by
  rw [live_iff]
  constructor
  · rintro ⟨n, hn⟩; exact ⟨n.kind, kind?_of_get? hn⟩
  · rintro ⟨k, hk⟩
    obtain ⟨n, hn, _⟩ := map_eq_some_iff.mp hk
    exact ⟨n, hn⟩

lemma signature?_iff : (g.net.signature? v).isSome ↔ g.Live v := by
  rw [live_iff_kind?]
  show ((g.kind? v).map _).isSome ↔ _
  rw [isSome_map, isSome_iff_exists]

lemma live_of_before {w : Vertex} {unit : Pin → UnitId} (h : g.net.Threaded unit) (hvw : g.net.Before v w) :
    g.Live v ∧ g.Live w :=
  (h.live_of_before hvw).imp signature?_iff.mp signature?_iff.mp

lemma live_of_kind? (h : g.kind? v = some k) : g.Live v := live_iff_kind?.mpr ⟨k, h⟩

lemma node_eq_ok {n : Node} : g.node v = .ok n ↔ g.vertices.get? v = some n := by
  unfold node
  cases g.vertices.get? v with
  | none => simp
  | some m => simp

lemma node_of_live (h : g.Live v) : ∃ n, g.node v = .ok n ∧ g.kind? v = some n.kind := by
  obtain ⟨n, hn⟩ := live_iff.mp h
  exact ⟨n, node_eq_ok.mpr hn, kind?_of_get? hn⟩

lemma live_of_node {n : Node} (h : g.node v = .ok n) : g.Live v ∧ g.kind? v = some n.kind :=
  ⟨live_of_get? (node_eq_ok.mp h), kind?_of_get? (node_eq_ok.mp h)⟩

lemma kind_eq_ok : g.kind v = .ok k ↔ g.kind? v = some k := by
  unfold Graph.kind node kind?
  cases g.vertices.get? v with
  | none => simp [Except.map]
  | some n => simp [Except.map]

lemma link_eq_ok : g.link e = .ok l ↔ g.edges.get? e = some l := by
  unfold Graph.link
  cases g.edges.get? e with
  | none => simp
  | some m => simp

/-! ## Queries -/

section

variable {p : Pin}

variable (hg : g.Valid)
include hg

lemma mem_incoming : (e, l) ∈ g.incoming v ↔ g.edges.get? e = some l ∧ l.target.vertex = v := by
  unfold incoming
  rw [mem_filter, get?_eq_some_iff hg.edges, decide_eq_true_eq]

lemma mem_outgoing : (e, l) ∈ g.outgoing v ↔ g.edges.get? e = some l ∧ l.source.vertex = v := by
  unfold outgoing
  rw [mem_filter, get?_eq_some_iff hg.edges, decide_eq_true_eq]

lemma mem_inLinks : (e, l) ∈ g.inLinks v ↔ g.edges.get? e = some l ∧ l.target.vertex = v := by
  unfold inLinks
  rw [mem_sortedBy, mem_incoming hg]

lemma mem_outLinks : (e, l) ∈ g.outLinks v ↔ g.edges.get? e = some l ∧ l.source.vertex = v := by
  unfold outLinks
  rw [mem_sortedBy, mem_outgoing hg]

lemma mem_reads : (e, l) ∈ g.reads p ↔ g.edges.get? e = some l ∧ l.source = p ∧ l.kind = .boolean := by
  unfold reads
  rw [mem_filter, mem_outLinks hg]
  obtain ⟨_, _⟩ := p
  obtain ⟨⟨_, _⟩, t, k⟩ := l
  simp only [Bool.and_eq_true, decide_eq_true_eq, Pin.mk.injEq]
  tauto

lemma nodup_of_sublist {es : List (Edge × Link)} (h : es.Sublist g.edges.entries) : (es.map Prod.fst).Nodup :=
  hg.edges.nodup.sublist (h.map _)

lemma nodup_incoming (v : Vertex) : ((g.incoming v).map Prod.fst).Nodup :=
  nodup_of_sublist hg filter_sublist

lemma perm_incoming {first last : Vertex → Prop} (hs : g.Simple) (hf : g.net.Fitted) (hc : g.net.Complete first last)
    (hk : g.kind? v = some k) (hv : ¬ first v) :
    ((g.incoming v).map fun x => x.2.target.index).Perm (range k.signature.length) := by
  have hnodup : ((g.incoming v).map fun x => x.2.target.index).Nodup := by
    refine Nodup.map_on ?_ (nodup_incoming hg v).of_map
    rintro ⟨e, l⟩ hl ⟨e', m⟩ hm hindex
    obtain ⟨he, hlv⟩ := (mem_incoming hg).mp hl
    obtain ⟨he', hmv⟩ := (mem_incoming hg).mp hm
    -- one link leads to a pin, and no link has two edges
    have hlm : l = m := hf.in_unique ⟨e, he⟩ ⟨e', he'⟩ (Pin.ext (hlv.trans hmv.symm) hindex)
    subst hlm
    rw [hs he he']
  refine (perm_ext_iff_of_nodup hnodup nodup_range).mpr fun i => ?_
  rw [mem_range, List.mem_map]
  constructor
  · rintro ⟨⟨e, l⟩, hl, rfl⟩
    obtain ⟨he, rfl⟩ := (mem_incoming hg).mp hl
    have hwire := hf.target_wire ⟨e, he⟩
    rw [wireAt_of_kind? hk] at hwire
    exact (List.getElem?_eq_some_iff.mp hwire).1
  · intro hi
    have hwire : g.net.wireAt ⟨v, i⟩ = some k.signature[i] := by
      rw [wireAt_of_kind? hk, getElem?_eq_getElem hi]
    obtain ⟨l, ⟨e, he⟩, ht⟩ := (hc.fed_iff hwire).mpr hv
    exact ⟨(e, l), (mem_incoming hg).mpr ⟨he, by rw [ht]⟩, by rw [ht]⟩

lemma nodup_outgoing (v : Vertex) : ((g.outgoing v).map Prod.fst).Nodup :=
  nodup_of_sublist hg filter_sublist

lemma nodup_inLinks (v : Vertex) : ((g.inLinks v).map Prod.fst).Nodup :=
  ((perm_sortedBy _ _).map _).nodup_iff.mpr (nodup_incoming hg v)

lemma nodup_outLinks (v : Vertex) : ((g.outLinks v).map Prod.fst).Nodup :=
  ((perm_sortedBy _ _).map _).nodup_iff.mpr (nodup_outgoing hg v)

lemma nodup_reads (p : Pin) : ((g.reads p).map Prod.fst).Nodup :=
  (nodup_outLinks hg p.vertex).sublist (filter_sublist.map _)

lemma mem_bySequence {n : Node} : (v, n) ∈ g.bySequence ↔ g.vertices.get? v = some n := by
  unfold bySequence
  rw [mem_sortedBy, get?_eq_some_iff hg.vertices]

lemma nodup_bySequence : (g.bySequence.map Prod.fst).Nodup :=
  ((perm_sortedBy _ _).map _).nodup_iff.mpr hg.vertices.nodup

lemma mem_map_bySequence : v ∈ g.bySequence.map Prod.fst ↔ g.Live v := by
  rw [live_iff, List.mem_map]
  constructor
  · rintro ⟨⟨_, n⟩, hmem, rfl⟩
    exact ⟨n, (mem_bySequence hg).mp hmem⟩
  · rintro ⟨n, hn⟩
    exact ⟨(v, n), (mem_bySequence hg).mpr hn, rfl⟩

lemma linkIn?_eq_some (h : g.linkIn? p = some (e, l)) : g.edges.get? e = some l ∧ l.target = p := by
  obtain ⟨he, hv⟩ := (mem_incoming hg).mp (mem_of_find?_eq_some h)
  exact ⟨he, Pin.ext hv (by simpa using find?_some h)⟩

lemma linkIn_of_unique (hl : g.HasLink l) (huniq : ∀ {l m}, g.HasLink l → g.HasLink m → l.target = m.target → l = m) :
    ∃ e, g.linkIn l.target = .ok (e, l) ∧ g.edges.get? e = some l := by
  obtain ⟨n, hn, _⟩ := node_of_live (hg.target_live hl)
  have hsome : (g.linkIn? l.target).isSome := by
    obtain ⟨e, he⟩ := hl
    unfold linkIn?
    rw [find?_isSome]
    exact ⟨(e, l), (mem_incoming hg).mpr ⟨he, rfl⟩, by simp⟩
  obtain ⟨⟨e, m⟩, hfound⟩ := isSome_iff_exists.mp hsome
  obtain ⟨he, ht⟩ := linkIn?_eq_some hg hfound
  obtain rfl := huniq ⟨e, he⟩ hl ht
  exact ⟨e, by unfold linkIn; rw [hn, hfound]; rfl, he⟩

lemma linkIn_eq_ok (h : g.linkIn p = .ok (e, l)) : g.edges.get? e = some l ∧ l.target = p := by
  obtain ⟨_, _, h⟩ := bind_ok_iff.mp h
  split at h
  · next hf =>
    cases h
    exact linkIn?_eq_some hg hf
  · cases h

lemma isSome_linkOut? (hl : g.HasLink l) (hlin : l.kind.isLinear) : (g.linkOut? l.source).isSome := by
  obtain ⟨e, he⟩ := hl
  unfold linkOut?
  rw [find?_isSome]
  exact ⟨(e, l), (mem_outgoing hg).mpr ⟨he, rfl⟩, by simp [hlin]⟩

lemma linkOut?_eq_some (h : g.linkOut? p = some (e, l)) : g.edges.get? e = some l ∧ l.source = p ∧ l.kind.isLinear := by
  obtain ⟨he, hv⟩ := (mem_outgoing hg).mp (mem_of_find?_eq_some h)
  have hprop : l.source.index = p.index ∧ l.kind.isLinear := by simpa using find?_some h
  exact ⟨he, Pin.ext hv hprop.1, hprop.2⟩

lemma linkOut_of_unique (hl : g.HasLink l) (hlin : l.kind.isLinear)
    (huniq : ∀ m, g.HasLink m → m.source = l.source → m.kind.isLinear → m = l) :
    ∃ e, g.linkOut l.source = .ok (e, l) ∧ g.edges.get? e = some l := by
  obtain ⟨n, hn, _⟩ := node_of_live (hg.source_live hl)
  obtain ⟨⟨e, m⟩, hfound⟩ := isSome_iff_exists.mp (isSome_linkOut? hg hl hlin)
  obtain ⟨he, hs, hmlin⟩ := linkOut?_eq_some hg hfound
  obtain rfl := huniq m ⟨e, he⟩ hs hmlin
  exact ⟨e, by unfold linkOut; rw [hn, hfound]; rfl, he⟩

lemma linkOut_eq_ok (h : g.linkOut p = .ok (e, l)) : g.edges.get? e = some l ∧ l.source = p ∧ l.kind.isLinear := by
  obtain ⟨_, _, h⟩ := bind_ok_iff.mp h
  split at h
  · next hf =>
    cases h
    exact linkOut?_eq_some hg hf
  · cases h

end

/-! ## A new vertex -/

@[simp] lemma hasLink_withVertex : (g.withVertex k og).HasLink l ↔ g.HasLink l := Iff.rfl

lemma kind?_withVertex : (g.withVertex k og).kind? w = if w = g.vertices.nextHandle then some k else g.kind? w := by
  unfold kind? withVertex
  by_cases hw : w = g.vertices.nextHandle
  · subst hw; rw [get?_insert_same, if_pos rfl]; rfl
  · rw [get?_insert_other _ hw, if_neg hw]

lemma not_live_nextHandle (hg : g.Valid) : ¬ g.Live g.vertices.nextHandle := by
  unfold Live SlotStore.contains
  rw [get?_nextHandle hg.vertices]
  simp

lemma kind?_nextHandle (hg : g.Valid) : g.kind? g.vertices.nextHandle = none := by
  unfold kind?
  rw [get?_nextHandle hg.vertices]
  rfl

lemma live_withVertex : (g.withVertex k og).Live w ↔ w = g.vertices.nextHandle ∨ g.Live w := by
  rw [live_iff_kind?, live_iff_kind?, kind?_withVertex]
  by_cases hw : w = g.vertices.nextHandle
  · simp [hw]
  · simp [hw]

lemma Valid.withVertex (hg : g.Valid) (k : NodeKind) (og : Option String) : (g.withVertex k og).Valid where
  vertices := hg.vertices.insert _
  edges := hg.edges
  source_live hl := live_withVertex.mpr (.inr (hg.source_live hl))
  target_live hl := live_withVertex.mpr (.inr (hg.target_live hl))

lemma addVertex_run (g : Graph) (k : NodeKind) (og : Option String) :
    addVertex k og g = .ok g.vertices.nextHandle (g.withVertex k og) := rfl

/-! ## A new link -/

lemma hasLink_withLink (hg : g.Valid) : (g.withLink l).HasLink m ↔ m = l ∨ g.HasLink m := by
  constructor
  · rintro ⟨e, he⟩
    rcases (get?_insert_eq_some_iff hg.edges).mp he with ⟨_, rfl⟩ | he
    · exact .inl rfl
    · exact .inr ⟨e, he⟩
  · rintro (rfl | ⟨e, he⟩)
    · exact ⟨_, (get?_insert_eq_some_iff hg.edges).mpr (.inl ⟨rfl, rfl⟩)⟩
    · exact ⟨e, (get?_insert_eq_some_iff hg.edges).mpr (.inr he)⟩

@[simp] lemma kind?_withLink : (g.withLink l).kind? v = g.kind? v := rfl

lemma Valid.withLink (hg : g.Valid) (hs : g.Live l.source.vertex) (ht : g.Live l.target.vertex) : (g.withLink l).Valid where
  vertices := hg.vertices
  edges := hg.edges.insert _
  source_live hm := by
    rcases (hasLink_withLink hg).mp hm with rfl | hm
    · exact hs
    · exact hg.source_live hm
  target_live hm := by
    rcases (hasLink_withLink hg).mp hm with rfl | hm
    · exact ht
    · exact hg.target_live hm

lemma Simple.withLink (hg : g.Valid) (h : g.Simple) (hl : ¬ g.HasLink l) : (g.withLink l).Simple := by
  intro e e' m he he'
  rcases (get?_insert_eq_some_iff hg.edges).mp he with ⟨h1, hm⟩ | h1
  · rcases (get?_insert_eq_some_iff hg.edges).mp he' with ⟨h2, _⟩ | h2
    · rw [h1, h2]
    · exact absurd ⟨e', hm ▸ h2⟩ hl
  · rcases (get?_insert_eq_some_iff hg.edges).mp he' with ⟨_, hm⟩ | h2
    · exact absurd ⟨e, hm ▸ h1⟩ hl
    · exact h h1 h2

lemma get?_withLink_of_some (hg : g.Valid) (he : g.edges.get? e = some m) : (g.withLink l).edges.get? e = some m :=
  (get?_insert_eq_some_iff hg.edges).mpr (.inr he)

lemma addLink_of_live (hs : g.Live l.source.vertex) (ht : g.Live l.target.vertex) :
    addLink l g = .ok g.edges.nextHandle (g.withLink l) := by
  obtain ⟨n, hn, _⟩ := node_of_live hs
  obtain ⟨_, hn', _⟩ := node_of_live ht
  unfold addLink
  rw [bind_ok (ask_of_ok hn), bind_ok (ask_of_ok hn')]
  rfl

/-! ## An edge taken out -/

lemma get?_withoutEdge {e' : Edge} : (g.withoutEdge e).edges.get? e' = some m ↔ e' ≠ e ∧ g.edges.get? e' = some m :=
  get?_release_eq_some_iff

lemma hasLink_withoutEdge (h : g.Simple) (he : g.edges.get? e = some l) :
    (g.withoutEdge e).HasLink m ↔ g.HasLink m ∧ m ≠ l := by
  constructor
  · rintro ⟨e', he'⟩
    obtain ⟨hne, he'⟩ := get?_withoutEdge.mp he'
    exact ⟨⟨e', he'⟩, fun hm => hne (h he' (hm ▸ he))⟩
  · rintro ⟨⟨e', he'⟩, hne⟩
    refine ⟨e', get?_withoutEdge.mpr ⟨?_, he'⟩⟩
    rintro rfl
    rw [he] at he'
    exact hne (some.inj he').symm

lemma Valid.withoutEdge (hg : g.Valid) (he : g.edges.get? e = some l) : (g.withoutEdge e).Valid where
  vertices := hg.vertices
  edges := hg.edges.release (by unfold SlotStore.contains; rw [he]; rfl)
  source_live := by
    rintro m ⟨e', he'⟩
    exact hg.source_live ⟨e', (get?_withoutEdge.mp he').2⟩
  target_live := by
    rintro m ⟨e', he'⟩
    exact hg.target_live ⟨e', (get?_withoutEdge.mp he').2⟩

lemma Simple.withoutEdge (h : g.Simple) : (g.withoutEdge e).Simple := by
  intro e1 e2 m h1 h2
  exact h (get?_withoutEdge.mp h1).2 (get?_withoutEdge.mp h2).2

lemma removeEdge_of_get? (he : g.edges.get? e = some l) : removeEdge e g = .ok l (g.withoutEdge e) := by
  unfold removeEdge
  rw [bind_ok (ask_of_ok (link_eq_ok.mpr he))]
  rfl

/-! ## Another content of a vertex -/

/-- The graph with something else at a vertex. -/
def withKind (g : Graph) (v : Vertex) (kind : NodeKind) : Graph :=
  { g with vertices := g.vertices.update v fun n => { n with kind } }

@[simp] lemma hasLink_withKind : (g.withKind v k).HasLink l ↔ g.HasLink l := Iff.rfl

lemma kind?_withKind : (g.withKind v k).kind? w = if w = v then (g.kind? w).map fun _ => k else g.kind? w := by
  unfold kind? withKind
  rw [get?_update]
  by_cases hw : w = v
  · rw [if_pos hw, if_pos hw]; cases g.vertices.get? w <;> rfl
  · rw [if_neg hw, if_neg hw]

lemma kind?_withKind_same (h : g.Live v) : (g.withKind v k).kind? v = some k := by
  obtain ⟨_, hk'⟩ := live_iff_kind?.mp h
  rw [kind?_withKind, if_pos rfl, hk']
  rfl

lemma kind?_withKind_other (h : w ≠ v) : (g.withKind v k).kind? w = g.kind? w := by
  rw [kind?_withKind, if_neg h]

lemma live_update {f : Node → Node} : { g with vertices := g.vertices.update v f }.Live w ↔ g.Live w := by
  rw [live_iff, live_iff, get?_update]
  by_cases hw : w = v
  · simp [hw]
  · simp [hw]

lemma live_withKind : (g.withKind v k).Live w ↔ g.Live w := live_update

lemma Valid.withKind (hg : g.Valid) (v : Vertex) (k : NodeKind) : (g.withKind v k).Valid where
  vertices := hg.vertices.update v fun n => { n with kind := k }
  edges := hg.edges
  source_live hl := live_withKind.mpr (hg.source_live hl)
  target_live hl := live_withKind.mpr (hg.target_live hl)

lemma net_withKind {k' : NodeKind} (hk : g.kind? v = some k) (hsig : k'.signature = k.signature) :
    (g.withKind v k').net = g.net := by
  unfold net
  congr 1
  funext w
  by_cases hw : w = v
  · rw [hw, kind?_withKind_same (live_of_kind? hk), hk, map_some, map_some, hsig]
  · rw [kind?_withKind_other hw]

lemma Simple.withKind (h : g.Simple) : (g.withKind v k).Simple := fun he he' => h he he'

lemma setKind_of_live (h : g.Live v) : setKind v k g = .ok ⟨⟩ (g.withKind v k) := by
  obtain ⟨n, hn, _⟩ := node_of_live h
  unfold setKind
  rw [bind_ok (ask_of_ok hn)]
  rfl

lemma setKind_eq_ok {u : Unit} (h : setKind v k g = .ok u g') : g.Live v ∧ g' = g.withKind v k := by
  obtain ⟨n, _, h1, hlast⟩ := bind_eq_ok.mp h
  obtain ⟨hn, rfl⟩ := ask_eq_ok.mp h1
  obtain ⟨_, rfl⟩ := EStateM.Result.ok.inj hlast
  exact ⟨(live_of_node hn).1, rfl⟩

/-! ## A vertex taken out -/

lemma kind?_withoutVertex : (g.withoutVertex v).kind? w = if w = v then none else g.kind? w := by
  unfold kind? withoutVertex
  rw [get?_release]
  split <;> rfl

lemma kind?_of_release (h : g'.vertices = g.vertices.release v) : g'.kind? w = if w = v then none else g.kind? w := by
  rw [← kind?_withoutVertex]
  unfold kind?
  rw [h]
  rfl

lemma live_withoutVertex : (g.withoutVertex v).Live w ↔ w ≠ v ∧ g.Live w := by
  rw [live_iff_kind?, live_iff_kind?, kind?_withoutVertex]
  by_cases hw : w = v
  · simp [hw]
  · simp [hw]

lemma Valid.withoutVertex (hg : g.Valid) (hv : g.Live v)
    (hfree : ∀ l, g.HasLink l → l.source.vertex ≠ v ∧ l.target.vertex ≠ v) : (g.withoutVertex v).Valid where
  vertices := hg.vertices.release hv
  edges := hg.edges
  source_live hl := live_withoutVertex.mpr ⟨(hfree _ hl).1, hg.source_live hl⟩
  target_live hl := live_withoutVertex.mpr ⟨(hfree _ hl).2, hg.target_live hl⟩

/-! # `Graph.walk` — the order of a graph and its walk -/

variable {unit : Pin → UnitId}

lemma net_bounded (g : Graph) : g.net.Bounded := by
  refine ⟨(g.vertices.entries.map Prod.fst).toFinset, fun v hv => ?_⟩
  obtain ⟨s, hs⟩ := isSome_iff_exists.mp hv
  obtain ⟨k, hk, _⟩ := map_eq_some_iff.mp hs
  obtain ⟨n, hn, _⟩ := map_eq_some_iff.mp hk
  exact mem_toFinset.mpr (mem_map.mpr ⟨(v, n), mem_of_get? hn, rfl⟩)

/-! ## The pairs that a walk respects -/

section

variable (hg : g.Valid)
include hg

lemma mem_linkPairs : (v, w) ∈ g.linkPairs ↔ ∃ l, g.HasLink l ∧ l.source.vertex = v ∧ l.target.vertex = w := by
  unfold linkPairs
  rw [List.mem_map]
  constructor
  · rintro ⟨⟨e, l⟩, hmem, hvw⟩
    exact ⟨l, ⟨e, (get?_eq_some_iff hg.edges).mpr hmem⟩, congrArg Prod.fst hvw, congrArg Prod.snd hvw⟩
  · rintro ⟨l, ⟨e, he⟩, rfl, rfl⟩
    exact ⟨(e, l), mem_of_get? he, rfl⟩

lemma mem_edgeList {e : Edge} {l : Link} : (e, l) ∈ g.edgeList ↔ g.edges.get? e = some l := by
  unfold edgeList bySlot
  rw [mem_sortedBy, get?_eq_some_iff hg.edges]

lemma find_write (h : g.net.Fitted) {read write : Link} (hread : g.HasLink read) (hwrite : g.HasLink write)
    (hbool : read.kind = .boolean) (hlin : write.kind.isLinear) (hsource : read.source = write.source) :
    ∃ e, ((g.outgoing read.source.vertex).find? fun p =>
      p.2.kind = .classical && p.2.source.index = read.source.index) = some (e, write) := by
  have hclassical : write.kind = .classical := by
    have h1 := h.source_wire hread
    have h2 := h.source_wire hwrite
    rw [hsource, h2, WireKind.carrier_eq hlin, hbool] at h1
    exact some.inj h1
  obtain ⟨e0, he0⟩ := hwrite
  have hsome : ((g.outgoing read.source.vertex).find? fun p =>
      p.2.kind = .classical && p.2.source.index = read.source.index).isSome := by
    rw [find?_isSome]
    refine ⟨(e0, write), (mem_outgoing hg).mpr ⟨he0, by rw [hsource]⟩, ?_⟩
    simp [hclassical, hsource]
  obtain ⟨⟨e, m⟩, hfound⟩ := isSome_iff_exists.mp hsome
  have hmem := (mem_outgoing hg).mp (mem_of_find?_eq_some hfound)
  have hprop : m.kind = .classical ∧ m.source.index = read.source.index := by
    simpa using find?_some hfound
  have hms : m.source = write.source := hsource ▸ Pin.ext hmem.2 hprop.2
  have hmw : m = write :=
    h.out_unique ⟨e, hmem.1⟩ ⟨e0, he0⟩ (by rw [hprop.1]; rfl) hlin hms
  exact ⟨e, by rw [hfound, hmw]⟩

lemma links_of_hazard (hvw : (v, w) ∈ g.hazards) :
    ∃ a b, g.HasLink a ∧ g.HasLink b ∧ a.kind = .boolean ∧ b.kind.isLinear ∧ a.source = b.source ∧
      a.target.vertex = v ∧ b.target.vertex = w ∧ v ≠ w := by
  obtain ⟨⟨e, read⟩, hmem, hvw⟩ := mem_filterMap.mp hvw
  have hread := (mem_edgeList hg).mp hmem
  simp only at hvw
  split at hvw
  · next hbool =>
    split at hvw
    · next _ e' write hfound =>
      have hw := (mem_outgoing hg).mp (mem_of_find?_eq_some hfound)
      have hprop : write.kind = .classical ∧ write.source.index = read.source.index := by
        simpa using find?_some hfound
      split at hvw
      · cases hvw
      · next hne =>
        obtain ⟨rfl, rfl⟩ := Prod.mk.inj (some.inj hvw)
        exact ⟨read, write, ⟨e, hread⟩, ⟨e', hw.1⟩, hbool, by rw [hprop.1]; rfl,
          (Pin.ext hw.2 hprop.2).symm, rfl, rfl, fun heq => hne heq.symm⟩
    · cases hvw
  · cases hvw

lemma mem_hazards (h : g.net.Fitted) :
    (v, w) ∈ g.hazards ↔ ∃ a b, g.HasLink a ∧ g.HasLink b ∧ a.kind = .boolean ∧ b.kind.isLinear ∧
      a.source = b.source ∧ a.target.vertex = v ∧ b.target.vertex = w ∧ v ≠ w := by
  refine ⟨links_of_hazard hg, ?_⟩
  rintro ⟨read, _, hread, hwrite, hbool, hlin, hsource, rfl, rfl, hne⟩
  unfold hazards
  rw [mem_filterMap]
  obtain ⟨_, hfound⟩ := find_write hg h hread hwrite hbool hlin hsource
  obtain ⟨e, he⟩ := hread
  refine ⟨(e, read), (mem_edgeList hg).mpr he, ?_⟩
  simp only [hbool, if_true, hfound]
  rw [if_neg fun heq => hne heq.symm]

lemma mem_pairs_iff (h : g.net.Threaded unit) : (v, w) ∈ g.linkPairs ++ g.hazards ↔ g.net.Before v w := by
  rw [mem_append, mem_linkPairs hg, mem_hazards hg h.toFitted]
  constructor
  · rintro (⟨l, hl, rfl, rfl⟩ | ⟨a, b, ha, hb, hak, hbl, hs, rfl, rfl, _⟩)
    · exact .link hl
    · exact .hazard ha hb hak hbl hs
  · intro hvw
    cases hvw with
    | link hl => exact .inl ⟨_, hl, rfl, rfl⟩
    | @hazard a b ha hb hak hbl hs =>
      refine .inr ⟨a, b, ha, hb, hak, hbl, hs, rfl, rfl, fun heq => ?_⟩
      -- a vertex does not read the unit that it writes
      exact h.apart ha hb hak hbl heq (by rw [hs, h.same_unit hb hbl])

lemma acyclic_iff (h : g.net.Threaded unit) :
    (∀ v, ¬ Relation.TransGen (fun x y => (x, y) ∈ g.linkPairs ++ g.hazards) v v) ↔ g.net.Acyclic := by
  have heq : (fun x y => (x, y) ∈ g.linkPairs ++ g.hazards) = g.net.Before :=
    funext fun x => funext fun y => propext (mem_pairs_iff hg h)
  rw [heq]
  rfl

end

/-! ## The order in which vertices were made -/

/-- The vertex `v` was made before `w`. -/
def MadeBefore (g : Graph) (v w : Vertex) : Prop :=
  ∃ n m, g.vertices.get? v = some n ∧ g.vertices.get? w = some m ∧ n.sequence < m.sequence

lemma MadeBefore.asymm (h : g.MadeBefore v w) : ¬ g.MadeBefore w v := by
  obtain ⟨n, m, hn, hm, hlt⟩ := h
  rintro ⟨_, _, hm', hn', _⟩
  rw [mem_unique hm hm', mem_unique hn hn'] at hlt
  omega

lemma MadeBefore.ne (h : g.MadeBefore v w) : v ≠ w := by
  rintro rfl
  exact h.asymm h

lemma pairwise_bySequence (hg : g.Valid) : (g.bySequence.map Prod.fst).Pairwise fun v w => ¬ g.MadeBefore w v := by
  have hsorted : g.bySequence.Pairwise fun p q => (compare p.2.sequence q.2.sequence).isLE :=
    pairwise_sortedBy _ _
  refine pairwise_map.mpr (hsorted.imp_of_mem fun {p q} hp hq hle => ?_)
  rintro ⟨n, m, hn, hm, hlt⟩
  rw [(mem_bySequence hg).mp hq] at hn
  rw [(mem_bySequence hg).mp hp] at hm
  rw [← some.inj hn, ← some.inj hm] at hlt
  exact absurd (Nat.isLE_compare.mp hle) (by omega)

lemma madeBefore_of_pairwise {g' : Graph} {κ : Vertex → Vertex} (hg : g.Valid)
    (hmade : (g.bySequence.map Prod.fst).Pairwise fun v w => g'.MadeBefore (κ v) (κ w)) (hvw : g.MadeBefore v w) :
    g'.MadeBefore (κ v) (κ w) := by
  have hforward := hmade.imp (S := fun v w => g.MadeBefore v w → g'.MadeBefore (κ v) (κ w)) fun hvw _ => hvw
  have hbackward := (pairwise_bySequence hg).imp (S := fun v w => g.MadeBefore w v → g'.MadeBefore (κ w) (κ v))
    fun hnot hwv => absurd hwv hnot
  have hlive : ∀ {x n}, g.vertices.get? x = some n → x ∈ g.bySequence.map Prod.fst := fun hn =>
    (mem_map_bySequence hg).mpr (live_of_get? hn)
  obtain ⟨n, m, hn, hm, _⟩ := id hvw
  exact hforward.forall_of_forall_of_flip (fun v _ hvv => absurd rfl hvv.ne) hbackward (hlive hn) (hlive hm) hvw

/-! # `Graph.topologicalOrder` — walks list everything, each vertex in its turn -/

open Relation

variable {u : Vertex} {before : List (Vertex × Vertex)} {left done rest : List Vertex} {n : Nat} {rank : Vertex → ℕ}
  {before' : List (Vertex × Vertex)} {keep : Vertex → Bool} {ι : Vertex → Vertex}

/-! ## Places in a list -/

lemma idxOf_lt_idxOf {l : List Vertex} (hl : l.Nodup) (hw : w ∈ l) (hfirst : ∀ done rest, l = done ++ w :: rest → v ∈ done)
    : l.idxOf v < l.idxOf w := by
  obtain ⟨done, rest, rfl⟩ := append_of_mem hw
  have hv : v ∈ done := hfirst done rest rfl
  have hw : w ∉ done := fun hw => (nodup_append.mp hl).2.2 w hw w mem_cons_self rfl
  rw [idxOf_append_of_mem hv, idxOf_append_of_notMem hw, idxOf_cons_self, Nat.add_zero]
  exact idxOf_lt_length_of_mem hv

lemma pairwise_iff_idxOf {l : List Vertex} (hl : l.Nodup) {r : Vertex → Vertex → Prop} :
    l.Pairwise r ↔ ∀ v ∈ l, ∀ w ∈ l, l.idxOf v < l.idxOf w → r v w := by
  rw [pairwise_iff_getElem]
  constructor
  · intro hr v hv w hw hlt
    have hvw := hr _ _ (idxOf_lt_length_of_mem hv) (idxOf_lt_length_of_mem hw) hlt
    rwa [getElem_idxOf, getElem_idxOf] at hvw
  · intro hr i j hi hj hij
    exact hr _ (getElem_mem hi) _ (getElem_mem hj) (by rwa [hl.idxOf_getElem, hl.idxOf_getElem])

/-! ## Single steps -/

lemma isReady_iff : isReady before left v ↔ ∀ u, (u, v) ∈ before → u ∉ left := by
  unfold isReady
  simp only [List.all_eq_true, Bool.or_eq_true, decide_eq_true_eq, Bool.not_eq_true', contains_eq_mem,
    decide_eq_false_iff_not, Prod.forall]
  constructor
  · intro h u hu
    exact (h u v hu).resolve_left fun hne => hne rfl
  · intro h u w hu
    by_cases hw : w = v
    · subst hw
      exact .inr (h u hu)
    · exact .inl hw

variable (hkeep : ∀ u v, (u, v) ∈ before → keep v → keep u) (hι : ∀ u ∈ left, ∀ w ∈ left, ι u = ι w → u = w)
  (hrank : ∀ u v, (u, v) ∈ before → rank u < rank v)

include hrank in
lemma exists_ready (hleft : left ≠ []) : ∃ v, left.find? (isReady before left) = some v := by
  obtain ⟨v, hv, hleast⟩ := left.toFinset.exists_min_image rank (by simpa using hleft)
  rw [← Option.isSome_iff_exists, find?_isSome]
  refine ⟨v, mem_toFinset.mp hv, isReady_iff.mpr fun u hu hmem => ?_⟩
  have hlt := hrank u v hu
  have hle := hleast u (mem_toFinset.mpr hmem)
  omega

/-! ## Whole walks -/

include hrank in
lemma walkFor_perm (left : List Vertex) : (walkFor before left.length left).Perm left := by
  induction hn : left.length generalizing left with
  | zero => rw [length_eq_zero_iff.mp hn]; exact .nil
  | succ n ih =>
    have hleft : left ≠ [] := by
      rintro rfl
      simp at hn
    obtain ⟨v, hv⟩ := exists_ready hrank hleft
    have hmem : v ∈ left := mem_of_find?_eq_some hv
    have hlength : (left.erase v).length = n := by
      rw [length_erase_of_mem hmem]
      omega
    rw [walkFor, hv]
    exact ((ih _ hlength).cons v).trans (perm_cons_erase hmem).symm

lemma walkFor_subset : walkFor before n left ⊆ left := by
  induction n generalizing left with
  | zero => exact nil_subset _
  | succ n ih =>
    rw [walkFor]
    split
    · next v hv =>
      exact cons_subset.mpr ⟨mem_of_find?_eq_some hv, fun x hx => mem_of_mem_erase (ih hx)⟩
    · exact nil_subset _

lemma nodup_walkFor (hleft : left.Nodup) : (walkFor before n left).Nodup := by
  induction n generalizing left with
  | zero => exact .nil
  | succ n ih =>
    rw [walkFor]
    split
    · next v _ => exact nodup_cons.mpr ⟨fun hv => hleft.not_mem_erase (walkFor_subset hv), ih (hleft.erase v)⟩
    · exact .nil

lemma walkFor_after (hwalk : walkFor before n left = done ++ v :: rest) (hu : (u, v) ∈ before) (hleft : u ∈ left) :
    u ∈ done := by
  induction n generalizing left done with
  | zero => simp [walkFor] at hwalk
  | succ n ih =>
    rw [walkFor] at hwalk
    split at hwalk
    · next w hw =>
      cases done with
      | nil =>
        -- the first vertex was ready
        obtain ⟨rfl, _⟩ := cons.inj hwalk
        exact absurd hleft (isReady_iff.mp (find?_some hw) u hu)
      | cons x done =>
        obtain ⟨rfl, hrest⟩ := cons.inj hwalk
        by_cases hux : u = w
        · rw [hux]
          exact mem_cons_self
        · exact mem_cons_of_mem _ (ih hrest ((mem_erase_of_ne hux).mpr hleft))
    · simp at hwalk

/-! ## Walks over parts -/

lemma walkFor_nil : walkFor before n [] = [] := by
  cases n <;> rfl

include hkeep in
lemma isReady_filter (hv : keep v) : isReady before (left.filter keep) v = isReady before left v := by
  rw [Bool.eq_iff_iff, isReady_iff, isReady_iff]
  refine forall₂_congr fun u hu => not_congr ?_
  rw [mem_filter]
  exact and_iff_left (hkeep u v hu hv)

include hkeep in
/-- **A walk passes through a part as if nothing else were there**, if nothing else lies before the part. -/
theorem filter_walkFor {m : Nat} (hn : left.length ≤ n) (hm : (left.filter keep).length ≤ m) :
    (walkFor before n left).filter keep = walkFor before m (left.filter keep) := by
  induction n generalizing left m with
  | zero =>
    have hnil : left = [] := length_eq_zero_iff.mp (by omega)
    subst hnil
    rw [filter_nil, walkFor_nil, walkFor_nil, filter_nil]
  | succ n ih =>
    rw [walkFor]
    cases hfind : left.find? (isReady before left) with
    | none =>
      have hnone : (left.filter keep).find? (isReady before (left.filter keep)) = none := by
        refine find?_eq_none.mpr fun v hv => ?_
        obtain ⟨hv, hkept⟩ := mem_filter.mp hv
        rw [isReady_filter hkeep hkept]
        exact find?_eq_none.mp hfind v hv
      cases m with
      | zero => rfl
      | succ m => rw [walkFor, hnone]; rfl
    | some v =>
      obtain ⟨hready, as, bs, hsplit, has⟩ := find?_eq_some_iff_append.mp hfind
      have hmem : v ∈ left := mem_of_find?_eq_some hfind
      have hlength : (left.erase v).length ≤ n := by
        rw [length_erase_of_mem hmem]
        omega
      by_cases hv : keep v
      · -- the first that is ready is also the first of the part
        have hfirst : (left.filter keep).find? (isReady before (left.filter keep)) = some v := by
          refine find?_eq_some_iff_append.mpr ⟨(isReady_filter hkeep hv).trans hready, as.filter keep, bs.filter keep,
            by rw [hsplit, filter_append, filter_cons_of_pos hv], fun w hw => ?_⟩
          obtain ⟨hw, hkept⟩ := mem_filter.mp hw
          rw [isReady_filter hkeep hkept]
          exact has w hw
        have hpart : v ∈ left.filter keep := mem_filter.mpr ⟨hmem, hv⟩
        have hshorter := length_erase_of_mem hpart
        have hpos := length_pos_of_mem hpart
        obtain ⟨m, rfl⟩ : ∃ m', m = m' + 1 := ⟨m - 1, by omega⟩
        rw [filter_cons_of_pos hv, walkFor, hfirst]
        dsimp only
        rw [ih hlength (m := m) (by rw [← erase_filter]; omega), erase_filter]
      · have hsame : (left.erase v).filter keep = left.filter keep := by
          rw [← erase_filter, erase_of_not_mem fun hmem => hv (mem_filter.mp hmem).2]
        rw [filter_cons_of_neg hv, ih hlength (m := m) (by rw [hsame]; exact hm), hsame]

include hrank in
lemma walkFor_append {right : List Vertex} (hlast : ∀ x ∈ right, ∀ w ∈ left, (x, w) ∉ before) :
    walkFor before (left ++ right).length (left ++ right) =
      walkFor before left.length left ++ walkFor before right.length right := by
  induction hn : left.length generalizing left with
  | zero =>
    rw [length_eq_zero_iff.mp hn]
    rfl
  | succ n ih =>
    have hleft : left ≠ [] := by
      rintro rfl
      simp at hn
    obtain ⟨w, hw⟩ := exists_ready hrank hleft
    have hmem : w ∈ left := mem_of_find?_eq_some hw
    have hready : left.find? (isReady before (left ++ right)) = some w := by
      rw [← hw, ← head?_filter, ← head?_filter]
      refine congrArg head? (filter_congr fun x hx => ?_)
      rw [Bool.eq_iff_iff, isReady_iff, isReady_iff]
      refine forall₂_congr fun u hu => not_congr ?_
      rw [mem_append]
      exact or_iff_left fun hur => hlast u hur x hx hu
    have hlength : (left.erase w).length = n := by
      rw [length_erase_of_mem hmem]
      omega
    have hrest := ih (fun x hx y hy => hlast x hx y (mem_of_mem_erase hy)) hlength
    rw [length_append, hn, Nat.add_right_comm, walkFor, find?_append, hready, Option.some_or, walkFor, hw]
    dsimp only
    rw [erase_append_left _ hmem, cons_append, ← hrest, length_append, hlength]

include hrank in
lemma walkFor_concat (hlast : ∀ w ∈ left, (v, w) ∉ before) :
    walkFor before (left ++ [v]).length (left ++ [v]) = walkFor before left.length left ++ [v] := by
  have hready : isReady before [v] v := by
    refine isReady_iff.mpr fun u hu hmem => ?_
    rw [mem_singleton.mp hmem] at hu
    exact absurd (hrank v v hu) (by omega)
  have hone : walkFor before [v].length [v] = [v] := by
    show walkFor before 1 [v] = [v]
    rw [walkFor, find?_cons_of_pos hready]
    rfl
  rw [walkFor_append hrank fun x hx w hw => by rw [mem_singleton.mp hx]; exact hlast w hw, hone]

include hι in
lemma map_erase_of_injOn (hv : v ∈ left) : (left.erase v).map ι = (left.map ι).erase (ι v) := by
  induction left with
  | nil => cases hv
  | cons x rest ih =>
    by_cases hx : x = v
    · rw [hx, erase_cons_head, map_cons, erase_cons_head]
    · have hne : ι x ≠ ι v := fun heq => hx (hι x mem_cons_self v hv heq)
      have hrest : v ∈ rest := (mem_cons.mp hv).resolve_left (Ne.symm hx)
      rw [erase_cons_tail (by simpa using hx), map_cons, map_cons, erase_cons_tail (by simpa using hne),
        ih (fun u hu w hw => hι u (mem_cons_of_mem _ hu) w (mem_cons_of_mem _ hw)) hrest]

include hι in
/-- **A walk goes by the order of the list and the pairs only**, whatever the vertices are called. -/
theorem walkFor_map (h : ∀ u ∈ left, ∀ w ∈ left, ((ι u, ι w) ∈ before' ↔ (u, w) ∈ before)) :
    walkFor before' n (left.map ι) = (walkFor before n left).map ι := by
  induction n generalizing left with
  | zero => rfl
  | succ n ih =>
    have hready : left.filter (isReady before' (left.map ι) ∘ ι) = left.filter (isReady before left) := by
      refine filter_congr fun w hw => ?_
      rw [Function.comp_apply, Bool.eq_iff_iff, isReady_iff, isReady_iff]
      constructor
      · intro hnot u hu hmem
        exact hnot (ι u) ((h u hmem w hw).mpr hu) (mem_map_of_mem hmem)
      · intro hnot u' hu' hmem
        obtain ⟨u, hu, rfl⟩ := mem_map.mp hmem
        exact hnot u ((h u hu w hw).mp hu') hu
    rw [walkFor, walkFor, find?_map, ← head?_filter, ← head?_filter, hready]
    cases hfind : (left.filter (isReady before left)).head? with
    | none => rfl
    | some w =>
      have hw : w ∈ left := (mem_filter.mp (mem_of_mem_head? hfind)).1
      show ι w :: walkFor before' n ((left.map ι).erase (ι w)) = ι w :: (walkFor before n (left.erase w)).map ι
      rw [← map_erase_of_injOn hι hw, ih (fun u hu x hx => hι u (mem_of_mem_erase hu) x (mem_of_mem_erase hx))
          fun u hu x hx => h u (mem_of_mem_erase hu) x (mem_of_mem_erase hx)]

lemma walkFor_congr (h : ∀ u ∈ left, ∀ v ∈ left, ((u, v) ∈ before ↔ (u, v) ∈ before')) :
    walkFor before n left = walkFor before' n left := by
  simpa using walkFor_map (ι := id) (fun _ _ _ _ => id) h

/-! ## The order of a graph -/

lemma length_bySequence : (g.bySequence.map Prod.fst).length = g.vertices.size := by
  rw [length_map]
  exact length_sortedBy _ _

lemma nodup_walk (hg : g.Valid) : g.walk.Nodup := nodup_walkFor (nodup_bySequence hg)

/-- A walk has to list `v` before `w`. -/
def Precedes (g : Graph) (v w : Vertex) : Prop := (v, w) ∈ g.linkPairs ++ g.hazards

section

variable (hg : g.Valid)
include hg

lemma live_of_precedes (h : g.Precedes v w) : g.Live v ∧ g.Live w := by
  rcases mem_append.mp h with hlink | hhazard
  · obtain ⟨l, hl, rfl, rfl⟩ := (mem_linkPairs hg).mp hlink
    exact ⟨hg.source_live hl, hg.target_live hl⟩
  · obtain ⟨a, b, ha, hb, _, _, _, rfl, rfl, _⟩ := links_of_hazard hg hhazard
    exact ⟨hg.target_live ha, hg.target_live hb⟩

lemma walk_after_of_precedes (hwalk : g.walk = done ++ v :: rest) (hu : g.Precedes u v) : u ∈ done :=
  walkFor_after hwalk hu ((mem_map_bySequence hg).mpr (live_of_precedes hg hu).1)

lemma walkBy_perm (hlive : ∀ u v, (u, v) ∈ before → g.Live u) (hirrefl : ∀ v, ¬ TransGen (fun x y => (x, y) ∈ before) v v) :
    (g.walkBy before).Perm (g.bySequence.map Prod.fst) := by
  have hbounded : ∀ u v, (u, v) ∈ before → u ∈ (g.bySequence.map Prod.fst).toFinset := fun u v huv =>
    mem_toFinset.mpr ((mem_map_bySequence hg).mpr (hlive u v huv))
  obtain ⟨_, _, hrank⟩ := Net.exists_rank_of_irrefl _ hbounded hirrefl
  exact walkFor_perm hrank _

lemma walk_perm_of_irrefl (hirrefl : ∀ v, ¬ TransGen g.Precedes v v) : g.walk.Perm (g.bySequence.map Prod.fst) :=
  walkBy_perm hg (fun _ _ huv => (live_of_precedes hg huv).1) hirrefl

lemma isAcyclic_of_irrefl (hirrefl : ∀ v, ¬ TransGen g.Precedes v v) : g.isAcyclic := by
  have hlinks : ∀ {u v}, (u, v) ∈ g.linkPairs → g.Precedes u v := mem_append_left _
  have hperm := walkBy_perm hg (fun _ _ huv => (live_of_precedes hg (hlinks huv)).1) fun v hcycle =>
    hirrefl v (hcycle.lift id fun _ _ => hlinks)
  exact decide_eq_true (hperm.length_eq.trans length_bySequence)

/-- **A walk that lists all vertices meets no cycle**: each has its place in it as a rank. -/
theorem irrefl_of_walkBy (hlive : ∀ u w, (u, w) ∈ before → g.Live u ∧ g.Live w)
    (hlength : (g.walkBy before).length = g.vertices.size) (v : Vertex) :
    ¬ TransGen (fun x y => (x, y) ∈ before) v v := by
  have hnodup : (g.walkBy before).Nodup := nodup_walkFor (nodup_bySequence hg)
  -- as many as there are, and none twice: all of them
  have hperm := (subperm_of_subset hnodup walkFor_subset).perm_of_length_le (by rw [length_bySequence, hlength])
  have hmem : ∀ {w}, g.Live w → w ∈ g.bySequence.map Prod.fst := (mem_map_bySequence hg).mpr
  have hrank : ∀ u w, (u, w) ∈ before → (g.walkBy before).idxOf u < (g.walkBy before).idxOf w := by
    intro u w huw
    obtain ⟨hu, hw⟩ := hlive u w huw
    exact idxOf_lt_idxOf hnodup (hperm.mem_iff.mpr (hmem hw)) fun _ _ hwalk => walkFor_after hwalk huw (hmem hu)
  intro hcycle
  have hlt := hcycle.lift _ hrank
  rw [transGen_eq_self] at hlt
  exact lt_irrefl _ hlt

lemma topologicalOrder_isOk_iff_irrefl : (∃ order, g.topologicalOrder = .ok order) ↔ ∀ v, ¬ TransGen g.Precedes v v := by
  unfold topologicalOrder
  constructor
  · rintro ⟨order, horder⟩
    dsimp only at horder
    split at horder
    · next hlength =>
      exact irrefl_of_walkBy hg (fun _ _ => live_of_precedes hg) hlength
    · cases horder
  · intro hirrefl
    exact ⟨g.walk, if_pos ((walk_perm_of_irrefl hg hirrefl).length_eq.trans length_bySequence)⟩

/-! ## The order of a threaded graph -/

lemma walk_after (h : g.net.Threaded unit) (hwalk : g.walk = done ++ v :: rest) (hu : g.net.Before u v) : u ∈ done :=
  walk_after_of_precedes hg hwalk ((mem_pairs_iff hg h).mpr hu)

lemma walk_perm (h : g.net.Threaded unit) (hacyclic : g.net.Acyclic) : g.walk.Perm (g.bySequence.map Prod.fst) :=
  walk_perm_of_irrefl hg ((acyclic_iff hg h).mpr hacyclic)

lemma topologicalOrder_isOk_iff (h : g.net.Threaded unit) : (∃ order, g.topologicalOrder = .ok order) ↔ g.net.Acyclic :=
  (topologicalOrder_isOk_iff_irrefl hg).trans (acyclic_iff hg h)

end

lemma topologicalOrder_eq_ok {order : List Vertex} (h : g.topologicalOrder = .ok order) : order = g.walk := by
  unfold topologicalOrder at h
  dsimp only at h
  split at h
  · exact (Except.ok.inj h).symm
  · cases h

end Wireloom.Graph
