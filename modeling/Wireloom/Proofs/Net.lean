import Mathlib.Data.Finset.Card
import Mathlib.Data.Prod.Lex
import Mathlib.Logic.Relation
import Wireloom.Graph.Basic

/-!
# `Net` — wires, reads and the order that they impose

A net is what a graph looks like to its wires: the signature of every vertex and the links. `Threaded`
and `Complete` say together that wires run through it as they should.
-/

namespace Wireloom

open Relation

variable {k : WireKind}

/-- What the pin carries that a link of this kind comes from. -/
def WireKind.carrier : WireKind → WireKind
  | boolean => classical
  | kind => kind

lemma WireKind.carrier_eq (h : k.isLinear) : k.carrier = k := by
  cases k <;> simp_all [carrier, isLinear]

@[simp] lemma WireKind.isLinear_carrier (k : WireKind) : k.carrier.isLinear := by cases k <;> rfl

lemma WireKind.eq_boolean (h : ¬ k.isLinear) : k = .boolean := by
  cases k <;> simp_all [isLinear]

lemma WireKind.ne_boolean (h : k.isLinear) : k ≠ .boolean := by
  rintro rfl; cases h

lemma Pin.ext {p q : Pin} (hvertex : p.vertex = q.vertex) (hindex : p.index = q.index) : p = q := by
  cases p; cases q
  cases hvertex; cases hindex
  rfl

/-- The link keeps away from the vertex. -/
def Link.Avoids (l : Link) (v : Vertex) : Prop := l.source.vertex ≠ v ∧ l.target.vertex ≠ v

/-- Vertices with their signatures, and links. -/
structure Net where
  signature? : Vertex → Option Signature
  link : Link → Prop

namespace Net

variable {k : WireKind}

def wireAt (N : Net) (p : Pin) : Option WireKind := (N.signature? p.vertex).bind (·[p.index]?)

/-- Some link leads to the pin. -/
def Fed (N : Net) (p : Pin) : Prop := ∃ l, N.link l ∧ l.target = p

/-- A linear link leads on from the pin. -/
def Drained (N : Net) (p : Pin) : Prop := ∃ l, N.link l ∧ l.kind.isLinear = true ∧ l.source = p

/-- **Links fit the pins that they join**, and no pin is fed twice or drained twice. -/
structure Fitted (N : Net) : Prop where
  source_wire : ∀ {l}, N.link l → N.wireAt l.source = some l.kind.carrier
  target_wire : ∀ {l}, N.link l → N.wireAt l.target = some l.kind
  in_unique : ∀ {l m}, N.link l → N.link m → l.target = m.target → l = m
  out_unique : ∀ {l m}, N.link l → N.link m → l.kind.isLinear = true → m.kind.isLinear = true → l.source = m.source → l = m

/-- **Links run along the wires of units.** `unit` names the unit whose wire a pin lies on. -/
structure Threaded (N : Net) (unit : Pin → UnitId) : Prop extends N.Fitted where
  same_unit : ∀ {l}, N.link l → l.kind.isLinear = true → unit l.source = unit l.target
  apart : ∀ {a b}, N.link a → N.link b → a.kind = .boolean → b.kind.isLinear = true →
    a.target.vertex = b.target.vertex → unit a.source ≠ unit b.target

/-- **No link is missing.** Wires start at the vertices of `first` and end at those of `last`. -/
structure Complete (N : Net) (first last : Vertex → Prop) : Prop where
  fed_iff : ∀ {p k}, N.wireAt p = some k → (N.Fed p ↔ ¬ first p.vertex)
  drained_iff : ∀ {p k}, N.wireAt p = some k → k.isLinear = true → (N.Drained p ↔ ¬ last p.vertex)
  source_open : ∀ {l}, N.link l → ¬ last l.source.vertex
  first_wire : ∀ {v}, first v → ∃ k, N.signature? v = some [k] ∧ k.isLinear = true
  last_wire : ∀ {v}, last v → ∃ k, N.signature? v = some [k] ∧ k.isLinear = true

variable {N N' : Net} {unit : Pin → UnitId} {first last : Vertex → Prop} {v w : Vertex} {l m : Link} {p q : Pin}
  {k' : WireKind} {rank : Vertex → ℕ}

lemma wireAt_of_signature? {s : Signature} (h : N.signature? p.vertex = some s) : N.wireAt p = s[p.index]? := by
  unfold wireAt
  rw [h]
  rfl

lemma wireAt_congr (h : N'.signature? p.vertex = N.signature? p.vertex) : N'.wireAt p = N.wireAt p := by
  unfold wireAt
  rw [h]

lemma wireAt_without (h : ∀ w, N'.signature? w = if w = v then none else N.signature? w) :
    N'.wireAt p = some k ↔ p.vertex ≠ v ∧ N.wireAt p = some k := by
  by_cases hp : p.vertex = v
  · have hnone : N'.wireAt p = none := by unfold wireAt; rw [h, if_pos hp]; rfl
    simp [hnone, hp]
  · have hcongr : N'.wireAt p = N.wireAt p := wireAt_congr (by rw [h, if_neg hp])
    rw [hcongr]
    simp [hp]

lemma signature?_of_wireAt (h : N.wireAt p = some k) : (N.signature? p.vertex).isSome := by
  unfold wireAt at h
  cases hs : N.signature? p.vertex with
  | none => rw [hs] at h; cases h
  | some s => rfl

lemma wireAt_of_single (h : N.signature? v = some [k]) : N.wireAt ⟨v, 0⟩ = some k :=
  wireAt_of_signature? (p := ⟨v, 0⟩) h

lemma pin_of_single (hs : N.signature? p.vertex = some [k]) (hp : N.wireAt p = some k') :
    p = ⟨p.vertex, 0⟩ ∧ k' = k := by
  obtain ⟨v, i⟩ := p
  rw [wireAt_of_signature? hs] at hp
  cases i with
  | zero => exact ⟨rfl, (Option.some.inj hp).symm⟩
  | succ i => simp at hp

/-! ## Parts of a net -/

lemma Threaded.mono (h : N.Threaded unit) (hlink : ∀ l, N'.link l → N.link l)
    (hwire : ∀ l, N'.link l → N'.wireAt l.source = N.wireAt l.source ∧ N'.wireAt l.target = N.wireAt l.target) :
    N'.Threaded unit where
  source_wire hl := (hwire _ hl).1.trans (h.source_wire (hlink _ hl))
  target_wire hl := (hwire _ hl).2.trans (h.target_wire (hlink _ hl))
  in_unique hl hm := h.in_unique (hlink _ hl) (hlink _ hm)
  out_unique hl hm := h.out_unique (hlink _ hl) (hlink _ hm)
  same_unit hl := h.same_unit (hlink _ hl)
  apart ha hb := h.apart (hlink _ ha) (hlink _ hb)

/-- **One more link.** It has to fit the pins that it joins, which must be free for it. -/
theorem Threaded.insert (h : N.Threaded unit) (hlink : ∀ m, N'.link m → N.link m ∨ m = l)
    (hsig : ∀ p k, N.wireAt p = some k → N'.wireAt p = some k)
    (hsource : N'.wireAt l.source = some l.kind.carrier) (htarget : N'.wireAt l.target = some l.kind)
    (hin : ∀ m, N.link m → m.target ≠ l.target)
    (hout : l.kind.isLinear → ∀ m, N.link m → m.kind.isLinear → m.source ≠ l.source)
    (hunit : l.kind.isLinear → unit l.source = unit l.target)
    (hreads : l.kind = .boolean → ∀ m, N.link m → m.kind.isLinear →
      m.target.vertex = l.target.vertex → unit l.source ≠ unit m.target)
    (hwrites : l.kind.isLinear → ∀ m, N.link m → m.kind = .boolean →
      m.target.vertex = l.target.vertex → unit m.source ≠ unit l.target) : N'.Threaded unit where
  source_wire hm := by
    rcases hlink _ hm with hm | rfl
    · exact hsig _ _ (h.source_wire hm)
    · exact hsource
  target_wire hm := by
    rcases hlink _ hm with hm | rfl
    · exact hsig _ _ (h.target_wire hm)
    · exact htarget
  in_unique hm hn heq := by
    rcases hlink _ hm with hm | rfl <;> rcases hlink _ hn with hn | rfl
    · exact h.in_unique hm hn heq
    · exact absurd heq (hin _ hm)
    · exact absurd heq.symm (hin _ hn)
    · rfl
  out_unique hm hn hml hnl heq := by
    rcases hlink _ hm with hm | rfl <;> rcases hlink _ hn with hn | rfl
    · exact h.out_unique hm hn hml hnl heq
    · exact absurd heq (hout hnl _ hm hml)
    · exact absurd heq.symm (hout hml _ hn hnl)
    · rfl
  same_unit hm hml := by
    rcases hlink _ hm with hm | rfl
    · exact h.same_unit hm hml
    · exact hunit hml
  apart ha hb hak hbl heq := by
    rcases hlink _ ha with ha | rfl <;> rcases hlink _ hb with hb | rfl
    · exact h.apart ha hb hak hbl heq
    · exact hwrites hbl _ ha hak heq
    · exact hreads hak _ hb hbl heq.symm
    · exact absurd hak (WireKind.ne_boolean hbl)

/-! ## The order of a net -/

/-- What comes right before what: the two ends of a link, and a reader of a bit and its next writer. -/
inductive Before (N : Net) : Vertex → Vertex → Prop
  | link {l : Link} : N.link l → Before N l.source.vertex l.target.vertex
  | hazard {a b : Link} : N.link a → N.link b → a.kind = .boolean → b.kind.isLinear = true → a.source = b.source →
      Before N a.target.vertex b.target.vertex

/-- Nothing comes before itself. -/
def Acyclic (N : Net) : Prop := ∀ v, ¬ Relation.TransGen N.Before v v

/-- A rank that grows along the order. -/
def Ranked {α : Type} [Preorder α] (N : Net) (rank : Vertex → α) : Prop := ∀ v w, N.Before v w → rank v < rank w

/-- A rank that grows along the links. -/
def Climbs {α : Type} [Preorder α] (N : Net) (rank : Vertex → α) : Prop :=
  ∀ l, N.link l → rank l.source.vertex < rank l.target.vertex

section Rank

variable {α : Type} [Preorder α] {rank : Vertex → α}

lemma Ranked.of_links (hlink : ∀ l, N.link l → rank l.source.vertex < rank l.target.vertex)
    (hhazard : ∀ a b, N.link a → N.link b → a.kind = .boolean → b.kind.isLinear → a.source = b.source →
      rank a.target.vertex < rank b.target.vertex) : N.Ranked rank := by
  intro v w h
  cases h with
  | link hl => exact hlink _ hl
  | hazard ha hb hak hbl heq => exact hhazard _ _ ha hb hak hbl heq

lemma Ranked.climbs (h : N.Ranked rank) : N.Climbs rank := fun _ hl => h _ _ (.link hl)

lemma Climbs.no_loop (h : N.Climbs rank) (l : Link) (hl : N.link l) : l.source.vertex ≠ l.target.vertex :=
  fun heq => lt_irrefl _ (heq ▸ h l hl)

lemma Climbs.no_return (h : N.Climbs rank) (l : Link) (hl : N.link l) (hs : l.source.vertex = v) :
    l.target.vertex ≠ v := fun ht => h.no_loop l hl (hs.trans ht.symm)

lemma Ranked.link (h : N.Ranked rank) (hl : N.link l) : rank l.source.vertex < rank l.target.vertex :=
  h _ _ (.link hl)

lemma Ranked.mono (h : N.Ranked rank) (hlink : ∀ l, N'.link l → N.link l) : N'.Ranked rank :=
  .of_links (fun _ hl => h _ _ (.link (hlink _ hl)))
    fun _ _ ha hb hak hbl heq => h _ _ (.hazard (hlink _ ha) (hlink _ hb) hak hbl heq)

lemma Ranked.trans (h : N.Ranked rank) (hvw : TransGen N.Before v w) : rank v < rank w := by
  have hlt := hvw.lift rank h
  rwa [transGen_eq_self] at hlt

lemma acyclic_of_ranked (h : N.Ranked rank) : N.Acyclic := fun _ hv => lt_irrefl _ (h.trans hv)

end Rank

lemma lt_of_class {a b m n : ℕ} (h : a < b) : (toLex (a, m) : ℕ ×ₗ ℕ) < toLex (b, n) :=
  Prod.Lex.toLex_lt_toLex.mpr (.inl h)

lemma lt_within_class {a m n : ℕ} (h : m < n) : (toLex (a, m) : ℕ ×ₗ ℕ) < toLex (a, n) :=
  Prod.Lex.toLex_lt_toLex.mpr (.inr ⟨rfl, h⟩)

lemma exists_rank_of_irrefl {α : Type} {r : α → α → Prop} (s : Finset α) (hs : ∀ a b, r a b → a ∈ s)
    (hr : ∀ a, ¬ TransGen r a a) :
    ∃ rank : α → ℕ, (∀ a, rank a ≤ s.card) ∧ ∀ a b, r a b → rank a < rank b := by
  classical
  refine ⟨fun a => (s.filter fun x => TransGen r x a).card, fun a => Finset.card_filter_le _ _, ?_⟩
  intro a b hab
  apply Finset.card_lt_card
  rw [Finset.ssubset_iff_of_subset]
  · -- `a` lies in front of `b` and not in front of itself
    refine ⟨a, Finset.mem_filter.mpr ⟨hs a b hab, .single hab⟩, fun ha => ?_⟩
    exact hr a (Finset.mem_filter.mp ha).2
  · intro x hx
    obtain ⟨hxs, hxa⟩ := Finset.mem_filter.mp hx
    exact Finset.mem_filter.mpr ⟨hxs, hxa.tail hab⟩

/-- The net has finitely many vertices. -/
def Bounded (N : Net) : Prop := ∃ s : Finset Vertex, ∀ v, (N.signature? v).isSome = true → v ∈ s

lemma Fitted.live_of_link (h : N.Fitted) (hl : N.link l) :
    (N.signature? l.source.vertex).isSome ∧ (N.signature? l.target.vertex).isSome :=
  ⟨signature?_of_wireAt (h.source_wire hl), signature?_of_wireAt (h.target_wire hl)⟩

lemma Complete.live_first (h : N.Complete first last) (hv : first v) : (N.signature? v).isSome := by
  obtain ⟨_, hs, _⟩ := h.first_wire hv
  rw [hs]; rfl

lemma Complete.live_last (h : N.Complete first last) (hv : last v) : (N.signature? v).isSome := by
  obtain ⟨_, hs, _⟩ := h.last_wire hv
  rw [hs]; rfl

lemma Fitted.live_of_before (h : N.Fitted) (hvw : N.Before v w) : (N.signature? v).isSome ∧ (N.signature? w).isSome := by
  cases hvw with
  | link hl => exact h.live_of_link hl
  | hazard ha hb _ _ _ => exact ⟨(h.live_of_link ha).2, (h.live_of_link hb).2⟩

lemma exists_rank (h : N.Fitted) (hfin : N.Bounded) (hacyc : N.Acyclic) :
    ∃ (rank : Vertex → ℕ) (bound : ℕ), (∀ v, rank v ≤ bound) ∧ N.Ranked rank := by
  obtain ⟨s, hs⟩ := hfin
  obtain ⟨rank, hle, hrank⟩ :=
    exists_rank_of_irrefl s (fun v w hvw => hs v (h.live_of_before hvw).1) hacyc
  exact ⟨rank, s.card, hle, hrank⟩

lemma Acyclic.no_loop (h : N.Acyclic) (hl : N.link l) : l.source.vertex ≠ l.target.vertex := by
  intro heq
  exact h l.source.vertex (.single (heq ▸ .link hl))

lemma Acyclic.no_return (h : N.Acyclic) (l : Link) (hl : N.link l) (hs : l.source.vertex = v) :
    l.target.vertex ≠ v := fun ht => h.no_loop hl (hs.trans ht.symm)

/-! ## Following a wire -/

/-- A linear link leads from one pin to the other. -/
def Joined (N : Net) (p q : Pin) : Prop := ∃ k : WireKind, k.isLinear = true ∧ N.link ⟨p, q, k⟩

lemma joined_of_link (hl : N.link l) (hlin : l.kind.isLinear) : N.Joined l.source l.target :=
  ⟨l.kind, hlin, hl⟩

lemma Ranked.lt_of_path (h : N.Ranked rank) (hpq : ReflTransGen N.Joined p q) (hne : p ≠ q) :
    rank p.vertex < rank q.vertex := by
  have hpath := (reflTransGen_iff_eq_or_transGen.mp hpq).resolve_left (Ne.symm hne)
  exact h.trans (hpath.lift Pin.vertex fun _ _ ⟨_, _, hl⟩ => .link hl)

lemma Ranked.le_of_path (h : N.Ranked rank) (hpq : ReflTransGen N.Joined p q) :
    rank p.vertex ≤ rank q.vertex := by
  by_cases heq : p = q
  · rw [heq]
  · exact (h.lt_of_path hpq heq).le

lemma Fitted.joined_right_unique (h : N.Fitted) : Relator.RightUnique N.Joined := by
  rintro p q _ ⟨k, hk, hq⟩ ⟨_, hk', hq'⟩
  exact congrArg Link.target (h.out_unique hq hq' hk hk' rfl)

lemma Fitted.joined_left_unique (h : N.Fitted) : Relator.LeftUnique N.Joined := by
  rintro p q _ ⟨k, _, hq⟩ ⟨_, _, hq'⟩
  exact congrArg Link.source (h.in_unique hq hq' rfl)

lemma unit_of_path (hunit : ∀ {l}, N.link l → l.kind.isLinear → unit l.source = unit l.target)
    (hpq : ReflTransGen N.Joined p q) : unit p = unit q := by
  induction hpq with
  | refl => rfl
  | tail _ hstep ih =>
    obtain ⟨k, hk, hl⟩ := hstep
    exact ih.trans (hunit hl hk)

lemma Threaded.unit_of_joined (h : N.Threaded unit) (hpq : ReflTransGen N.Joined p q) : unit p = unit q :=
  unit_of_path h.same_unit hpq

lemma Fitted.wireAt_of_joined (h : N.Fitted) (hpq : N.Joined p q) : N.wireAt p = N.wireAt q := by
  obtain ⟨k, hk, hl⟩ := hpq
  have hp := h.source_wire hl
  have hq := h.target_wire hl
  rw [WireKind.carrier_eq hk] at hp
  exact hp.trans hq.symm

lemma Complete.target_open (hc : N.Complete first last) (h : N.Fitted) (hl : N.link l) : ¬ first l.target.vertex :=
  (hc.fed_iff (h.target_wire hl)).mp ⟨l, hl, rfl⟩

lemma Fitted.wireAt_of_path (h : N.Fitted) (hpq : ReflTransGen N.Joined p q) : N.wireAt p = N.wireAt q := by
  induction hpq with
  | refl => rfl
  | tail _ hstep ih => exact ih.trans (h.wireAt_of_joined hstep)

/-- **Every linear pin lies on a wire**: following it back leads to a vertex where wires start. -/
theorem exists_first (h : N.Fitted) (hc : N.Complete first last) {rank : Vertex → ℕ}
    (hrank : ∀ l, N.link l → rank l.source.vertex < rank l.target.vertex) (hp : N.wireAt p = some k)
    (hk : k.isLinear) :
    ∃ f, first f ∧ ReflTransGen N.Joined ⟨f, 0⟩ p := by
  -- induction on the rank of the pin's vertex, which falls towards the start of the wire
  induction hn : rank p.vertex using Nat.strong_induction_on generalizing p with
  | _ n ih =>
    by_cases hfirst : first p.vertex
    · obtain ⟨_, hs, _⟩ := hc.first_wire hfirst
      exact ⟨p.vertex, hfirst, by rw [← (pin_of_single hs hp).1]⟩
    · obtain ⟨l, hl, rfl⟩ := (hc.fed_iff hp).mpr hfirst
      have hlk : l.kind = k := Option.mem_unique (h.target_wire hl) hp
      have hlin : l.kind.isLinear := by rw [hlk]; exact hk
      have hsource := h.source_wire hl
      rw [WireKind.carrier_eq hlin, hlk] at hsource
      obtain ⟨f, hf, hpath⟩ := ih _ (hn ▸ hrank l hl) hsource rfl
      exact ⟨f, hf, hpath.tail (joined_of_link hl hlin)⟩

lemma exists_last (h : N.Fitted) (hc : N.Complete first last) {bound : ℕ}
    (hbound : ∀ v, rank v ≤ bound) (hrank : ∀ l, N.link l → rank l.source.vertex < rank l.target.vertex)
    (hp : N.wireAt p = some k) (hk : k.isLinear) :
    ∃ f, last f ∧ ReflTransGen N.Joined p ⟨f, 0⟩ := by
  induction hn : bound - rank p.vertex using Nat.strong_induction_on generalizing p with
  | _ n ih =>
    by_cases hlast : last p.vertex
    · obtain ⟨_, hs, _⟩ := hc.last_wire hlast
      exact ⟨p.vertex, hlast, by rw [← (pin_of_single hs hp).1]⟩
    · obtain ⟨l, hl, hlin, rfl⟩ := (hc.drained_iff hp hk).mpr hlast
      have hjoined := joined_of_link hl hlin
      have hlt := hrank l hl
      have hle := hbound l.target.vertex
      obtain ⟨f, hf, hpath⟩ := ih (bound - rank l.target.vertex) (by omega) (h.wireAt_of_joined hjoined ▸ hp) rfl
      exact ⟨f, hf, hpath.head hjoined⟩

lemma before_of_joined (hpq : ReflTransGen N.Joined p q) : ReflTransGen N.Before p.vertex q.vertex := by
  refine hpq.lift Pin.vertex ?_
  rintro p q ⟨k, _, hl⟩
  exact .link hl

/-- **Without a cycle, no vertex reads a wire that it also writes**: if it reads what comes later on the wire, a path
    leads back to it, and if it reads what comes earlier, it has to come before the next writer. -/
theorem threaded_of_acyclic (h : N.Fitted) (hc : N.Complete first last) (hfin : N.Bounded) (hacyc : N.Acyclic)
    (hunit : ∀ {l}, N.link l → l.kind.isLinear → unit l.source = unit l.target)
    (hfirst : ∀ {v w}, first v → first w → unit ⟨v, 0⟩ = unit ⟨w, 0⟩ → v = w) : N.Threaded unit where
  toFitted := h
  same_unit := hunit
  apart {a b} ha hb hak hbl hv hsame := by
    obtain ⟨_, _, _, hrank⟩ := exists_rank h hfin hacyc
    obtain ⟨f, hf, hfa⟩ := exists_first h hc (fun _ => hrank.link) (h.source_wire ha) (WireKind.isLinear_carrier _)
    obtain ⟨_, hf', hfb⟩ := exists_first h hc (fun _ => hrank.link) (h.target_wire hb) hbl
    -- the two pins lie on one wire, so one comes first on it
    cases hfirst hf hf' (by rw [unit_of_path hunit hfa, unit_of_path hunit hfb, hsame])
    rcases ReflTransGen.total_of_right_unique h.joined_right_unique hfa hfb with hab | hba
    · rcases ReflTransGen.cases_head hab with heq | ⟨q, ⟨k, hk, hq⟩, hqb⟩
      · exact hacyc.no_loop ha (by rw [heq, hv])
      · have hhazard : N.Before a.target.vertex q.vertex := .hazard ha hq hak hk rfl
        exact hacyc _ (.head' hhazard (hv ▸ before_of_joined hqb))
    · exact hacyc _ (.tail' (hv ▸ before_of_joined hba) (.link ha))

/-! # `Net.IsUnion` — nets side by side -/

open Option WireKind

variable {M : Net} {unit' : Pin → UnitId} {first' last' : Vertex → Prop} {α : Type}

/-- **`N'` is `N` and `M` side by side.** -/
structure IsUnion (N M N' : Net) : Prop where
  signature : ∀ v, N'.signature? v = (N.signature? v).or (M.signature? v)
  link : ∀ l, N'.link l ↔ N.link l ∨ M.link l
  disjoint : ∀ v, N.signature? v = none ∨ M.signature? v = none

lemma Threaded.congr (h : N.Threaded unit)
    (hunit : ∀ p, (N.signature? p.vertex).isSome → unit' p = unit p) : N.Threaded unit' where
  toFitted := h.toFitted
  same_unit {l} hl hlin := by
    rw [hunit _ (h.live_of_link hl).1, hunit _ (h.live_of_link hl).2, h.same_unit hl hlin]
  apart {a b} ha hb hak hbl heq := by
    rw [hunit _ (h.live_of_link ha).1, hunit _ (h.live_of_link hb).2]
    exact h.apart ha hb hak hbl heq

lemma Ranked.congr [Preorder α] {rank rank' : Vertex → α} (hr : N.Ranked rank) (h : N.Fitted)
    (heq : ∀ v, (N.signature? v).isSome → rank' v = rank v) : N.Ranked rank' := by
  intro v w hvw
  obtain ⟨hv, hw⟩ := h.live_of_before hvw
  rw [heq v hv, heq w hw]
  exact hr v w hvw

lemma Complete.congr (h : N.Complete first last) (hfirst : ∀ v, first' v ↔ first v)
    (hlast : ∀ v, last' v ↔ last v) : N.Complete first' last' := by
  have h1 : first' = first := funext fun v => propext (hfirst v)
  have h2 : last' = last := funext fun v => propext (hlast v)
  rw [h1, h2]
  exact h

namespace IsUnion

variable {k : WireKind}

variable (hu : N.IsUnion M N')
include hu

lemma signature_left (hv : (N.signature? v).isSome) : N'.signature? v = N.signature? v := by
  rw [hu.signature, or_of_isSome hv]

lemma symm : M.IsUnion N N' where
  signature v := by
    rw [hu.signature]
    rcases hu.disjoint v with h | h
    · rw [h, none_or, or_none]
    · rw [h, none_or, or_none]
  link l := (hu.link l).trans or_comm
  disjoint v := (hu.disjoint v).symm

lemma signature_right (hv : (M.signature? v).isSome) : N'.signature? v = M.signature? v := hu.symm.signature_left hv

lemma not_both (hN : (N.signature? v).isSome) : ¬ (M.signature? v).isSome := by
  intro hM
  rcases hu.disjoint v with h | h
  · rw [h] at hN; cases hN
  · rw [h] at hM; cases hM

variable (hN : N.Fitted) (hM : M.Fitted) (hl : N.link l) (hm : M.link m) (hp : N.wireAt p = some k)

include hp in
lemma wireAt_left : N'.wireAt p = some k := by
  rw [wireAt_congr (hu.signature_left (signature?_of_wireAt hp)), hp]

lemma wireAt_right (hp : M.wireAt p = some k) : N'.wireAt p = some k := hu.symm.wireAt_left hp

lemma wireAt_cases (hp : N'.wireAt p = some k) : N.wireAt p = some k ∨ M.wireAt p = some k := by
  unfold Net.wireAt at hp ⊢
  rw [hu.signature] at hp
  cases hN : N.signature? p.vertex with
  | none => rw [hN, none_or] at hp; exact .inr hp
  | some s => rw [hN, some_or] at hp; exact .inl hp

include hN hM hl hm in
lemma source_ne : l.source.vertex ≠ m.source.vertex := by
  intro heq
  exact hu.not_both (hN.live_of_link hl).1 (heq ▸ (hM.live_of_link hm).1)

include hN hM hl hm in
lemma target_ne : l.target.vertex ≠ m.target.vertex := by
  intro heq
  exact hu.not_both (hN.live_of_link hl).2 (heq ▸ (hM.live_of_link hm).2)

lemma threaded (hN : N.Threaded unit) (hM : M.Threaded unit) : N'.Threaded unit where
  source_wire hl := by
    rcases (hu.link _).mp hl with hl | hl
    · exact hu.wireAt_left (hN.source_wire hl)
    · exact hu.wireAt_right (hM.source_wire hl)
  target_wire hl := by
    rcases (hu.link _).mp hl with hl | hl
    · exact hu.wireAt_left (hN.target_wire hl)
    · exact hu.wireAt_right (hM.target_wire hl)
  in_unique hl hm heq := by
    rcases (hu.link _).mp hl with hl | hl <;> rcases (hu.link _).mp hm with hm | hm
    · exact hN.in_unique hl hm heq
    · exact absurd (congrArg Pin.vertex heq) (hu.target_ne hN.toFitted hM.toFitted hl hm)
    · exact absurd (congrArg Pin.vertex heq).symm (hu.target_ne hN.toFitted hM.toFitted hm hl)
    · exact hM.in_unique hl hm heq
  out_unique hl hm hll hml heq := by
    rcases (hu.link _).mp hl with hl | hl <;> rcases (hu.link _).mp hm with hm | hm
    · exact hN.out_unique hl hm hll hml heq
    · exact absurd (congrArg Pin.vertex heq) (hu.source_ne hN.toFitted hM.toFitted hl hm)
    · exact absurd (congrArg Pin.vertex heq).symm (hu.source_ne hN.toFitted hM.toFitted hm hl)
    · exact hM.out_unique hl hm hll hml heq
  same_unit hl hlin := by
    rcases (hu.link _).mp hl with hl | hl
    · exact hN.same_unit hl hlin
    · exact hM.same_unit hl hlin
  apart ha hb hak hbl heq := by
    rcases (hu.link _).mp ha with ha | ha <;> rcases (hu.link _).mp hb with hb | hb
    · exact hN.apart ha hb hak hbl heq
    · exact absurd heq (hu.target_ne hN.toFitted hM.toFitted ha hb)
    · exact absurd heq.symm (hu.target_ne hN.toFitted hM.toFitted hb ha)
    · exact hM.apart ha hb hak hbl heq

include hM hp in
lemma fed_left : N'.Fed p ↔ N.Fed p := by
  constructor
  · rintro ⟨l, hl, rfl⟩
    rcases (hu.link _).mp hl with hl | hl
    · exact ⟨l, hl, rfl⟩
    · exact absurd (hM.live_of_link hl).2 (hu.not_both (signature?_of_wireAt hp))
  · rintro ⟨l, hl, rfl⟩
    exact ⟨l, (hu.link _).mpr (.inl hl), rfl⟩

include hM hp in
lemma drained_left : N'.Drained p ↔ N.Drained p := by
  constructor
  · rintro ⟨l, hl, hlin, rfl⟩
    rcases (hu.link _).mp hl with hl | hl
    · exact ⟨l, hl, hlin, rfl⟩
    · exact absurd (hM.live_of_link hl).1 (hu.not_both (signature?_of_wireAt hp))
  · rintro ⟨l, hl, hlin, rfl⟩
    exact ⟨l, (hu.link _).mpr (.inl hl), hlin, rfl⟩

include hN hM in
lemma complete (hcN : N.Complete first last) (hcM : M.Complete first' last') :
    N'.Complete (fun v => first v ∨ first' v) (fun v => last v ∨ last' v) := by
  refine ⟨?_, ?_, ?_, ?_, ?_⟩
  · intro p k hp
    rcases hu.wireAt_cases hp with hp | hp
    · rw [hu.fed_left hM hp, hcN.fed_iff hp,
        or_iff_left fun h => hu.not_both (signature?_of_wireAt hp) (hcM.live_first h)]
    · rw [hu.symm.fed_left hN hp, hcM.fed_iff hp,
        or_iff_right fun h => hu.not_both (hcN.live_first h) (signature?_of_wireAt hp)]
  · intro p k hp hk
    rcases hu.wireAt_cases hp with hp | hp
    · rw [hu.drained_left hM hp, hcN.drained_iff hp hk,
        or_iff_left fun h => hu.not_both (signature?_of_wireAt hp) (hcM.live_last h)]
    · rw [hu.symm.drained_left hN hp, hcM.drained_iff hp hk,
        or_iff_right fun h => hu.not_both (hcN.live_last h) (signature?_of_wireAt hp)]
  · intro l hl
    rcases (hu.link _).mp hl with hl | hl
    · exact fun hor => hor.elim (hcN.source_open hl) fun h => hu.not_both (hN.live_of_link hl).1 (hcM.live_last h)
    · exact fun hor => hor.elim (fun h => hu.not_both (hcN.live_last h) (hM.live_of_link hl).1) (hcM.source_open hl)
  · rintro v (hv | hv)
    · obtain ⟨k, hk, hlin⟩ := hcN.first_wire hv
      exact ⟨k, by rw [hu.signature_left (hcN.live_first hv), hk], hlin⟩
    · obtain ⟨k, hk, hlin⟩ := hcM.first_wire hv
      exact ⟨k, by rw [hu.signature_right (hcM.live_first hv), hk], hlin⟩
  · rintro v (hv | hv)
    · obtain ⟨k, hk, hlin⟩ := hcN.last_wire hv
      exact ⟨k, by rw [hu.signature_left (hcN.live_last hv), hk], hlin⟩
    · obtain ⟨k, hk, hlin⟩ := hcM.last_wire hv
      exact ⟨k, by rw [hu.signature_right (hcM.live_last hv), hk], hlin⟩

lemma ranked {α : Type} [Preorder α] {rank : Vertex → α} (hN : N.Fitted) (hM : M.Fitted)
    (hrN : N.Ranked rank) (hrM : M.Ranked rank) : N'.Ranked rank := by
  refine .of_links (fun l hl => ?_) fun a b ha hb hak hbl heq => ?_
  · rcases (hu.link _).mp hl with hl | hl
    · exact hrN.link hl
    · exact hrM.link hl
  · rcases (hu.link _).mp ha with ha | ha <;> rcases (hu.link _).mp hb with hb | hb
    · exact hrN _ _ (.hazard ha hb hak hbl heq)
    · exact absurd (congrArg Pin.vertex heq) (hu.source_ne hN hM ha hb)
    · exact absurd (congrArg Pin.vertex heq).symm (hu.source_ne hN hM hb ha)
    · exact hrM _ _ (.hazard ha hb hak hbl heq)

end IsUnion

/-! ## A blank wire -/

/-- The net of a single wire from `i` to `o`. -/
def wire (i o : Vertex) (k : WireKind) : Net where
  signature? v := if v = i ∨ v = o then some [k] else none
  link l := l = ⟨⟨i, 0⟩, ⟨o, 0⟩, k⟩

variable {i o : Vertex} {k : WireKind}

lemma signature_wire_input : (wire i o k).signature? i = some [k] := if_pos (.inl rfl)

lemma signature_wire_output : (wire i o k).signature? o = some [k] := if_pos (.inr rfl)

lemma wireAt_wire (hp : (wire i o k).wireAt p = some k') : (p = ⟨i, 0⟩ ∨ p = ⟨o, 0⟩) ∧ k' = k := by
  by_cases hv : p.vertex = i ∨ p.vertex = o
  · have hs : (wire i o k).signature? p.vertex = some [k] := if_pos hv
    obtain ⟨hp', hk⟩ := pin_of_single hs hp
    rw [hp']
    rcases hv with hv | hv
    · exact ⟨.inl (by rw [hv]), hk⟩
    · exact ⟨.inr (by rw [hv]), hk⟩
  · have hs : (wire i o k).signature? p.vertex = none := if_neg hv
    unfold wireAt at hp
    rw [hs] at hp
    cases hp

lemma threaded_wire (hk : k.isLinear) (hunit : unit ⟨i, 0⟩ = unit ⟨o, 0⟩) : (wire i o k).Threaded unit where
  source_wire := by
    rintro l rfl
    rw [carrier_eq hk]
    exact wireAt_of_single signature_wire_input
  target_wire := by
    rintro l rfl
    exact wireAt_of_single signature_wire_output
  in_unique hl hm _ := hl.trans hm.symm
  out_unique hl hm _ _ _ := hl.trans hm.symm
  same_unit := by rintro l rfl _; exact hunit
  apart := by rintro a b rfl rfl hak hbl; exact absurd hak (ne_boolean hbl)

lemma complete_wire (hk : k.isLinear) (hio : i ≠ o) : (wire i o k).Complete (· = i) (· = o) where
  fed_iff {p k'} hp := by
    rcases (wireAt_wire hp).1 with rfl | rfl
    · constructor
      · rintro ⟨l, rfl, ht⟩
        exact absurd (congrArg Pin.vertex ht).symm hio
      · exact fun h => absurd rfl h
    · exact ⟨fun _ => hio.symm, fun _ => ⟨_, rfl, rfl⟩⟩
  drained_iff {p k'} hp _ := by
    rcases (wireAt_wire hp).1 with rfl | rfl
    · exact ⟨fun _ => hio, fun _ => ⟨_, rfl, hk, rfl⟩⟩
    · constructor
      · rintro ⟨l, rfl, _, ht⟩
        exact absurd (congrArg Pin.vertex ht) hio
      · exact fun h => absurd rfl h
  source_open := by rintro l rfl; exact hio
  first_wire := by rintro v rfl; exact ⟨k, signature_wire_input, hk⟩
  last_wire := by rintro v rfl; exact ⟨k, signature_wire_output, hk⟩

lemma ranked_wire [Preorder α] {rank : Vertex → α} (hk : k.isLinear) (hlt : rank i < rank o) : (wire i o k).Ranked rank := by
  refine .of_links ?_ ?_
  · rintro l rfl; exact hlt
  · rintro a b rfl _ hak; exact absurd hak (ne_boolean hk)

/-! ## A vertex without pins -/

lemma Threaded.of_unlinked (hno : ∀ l, ¬ N.link l) : N.Threaded unit where
  source_wire hl := absurd hl (hno _)
  target_wire hl := absurd hl (hno _)
  in_unique hl := absurd hl (hno _)
  out_unique hl := absurd hl (hno _)
  same_unit hl := absurd hl (hno _)
  apart hl := absurd hl (hno _)

lemma Ranked.of_unlinked [Preorder α] {rank : Vertex → α} (hno : ∀ l, ¬ N.link l) : N.Ranked rank :=
  .of_links (fun l hl => absurd hl (hno l)) fun a _ ha => absurd ha (hno a)

/-- The net of a single vertex without pins. -/
def bare (v : Vertex) : Net where
  signature? w := if w = v then some [] else none
  link _ := False

lemma signature_bare : (bare v).signature? v = some [] := if_pos rfl

lemma wireAt_bare : (bare v).wireAt p = none := by
  by_cases hp : p.vertex = v
  · rw [wireAt_of_signature? (if_pos hp)]
    rfl
  · have hs : (bare v).signature? p.vertex = none := if_neg hp
    unfold wireAt
    rw [hs]
    rfl

lemma threaded_bare : (bare v).Threaded unit := .of_unlinked fun _ => id

lemma complete_bare : (bare v).Complete (fun _ => False) (fun _ => False) where
  fed_iff hp := by rw [wireAt_bare] at hp; cases hp
  drained_iff hp := by rw [wireAt_bare] at hp; cases hp
  source_open := False.elim
  first_wire := False.elim
  last_wire := False.elim

lemma ranked_bare [Preorder α] {rank : Vertex → α} : (bare v).Ranked rank := .of_unlinked fun _ => id

/-! # `Net.IsWrite`, `Net.IsRead` — one more pin at the end of a wire -/

variable {s : Signature}

/-- **The vertex `v` gets one more pin**, after those of the signature `s`. -/
structure HasPin (N : Net) (v : Vertex) (s : Signature) (k : WireKind) (N' : Net) : Prop where
  before : N.signature? v = some s
  after : ∀ w, N'.signature? w = if w = v then some (s ++ [k]) else N.signature? w

abbrev newPin (v : Vertex) (s : Signature) : Pin := ⟨v, s.length⟩

namespace HasPin

variable {k' : WireKind}

variable (h : N.HasPin v s k N')
include h

lemma wireAt_new : N'.wireAt (newPin v s) = some k := by
  rw [wireAt_of_signature? (by rw [h.after, if_pos rfl])]
  simp

lemma wireAt_new_before : N.wireAt (newPin v s) = none := by
  rw [wireAt_of_signature? h.before]
  simp

lemma wireAt_other (hp : p ≠ newPin v s) : N'.wireAt p = N.wireAt p := by
  by_cases hv : p.vertex = v
  · have hindex : p.index ≠ s.length := fun hi => hp (Pin.ext hv hi)
    rw [wireAt_of_signature? (by rw [h.after, if_pos hv]), wireAt_of_signature? (by rw [hv]; exact h.before)]
    rcases Nat.lt_or_gt_of_ne hindex with hlt | _
    · rw [List.getElem?_append_left hlt]
    · rw [List.getElem?_eq_none (by simp; omega), List.getElem?_eq_none (by omega)]
  · exact wireAt_congr (by rw [h.after, if_neg hv])

lemma ne_new (hp : N.wireAt p = some k') : p ≠ newPin v s := by
  rintro rfl
  rw [h.wireAt_new_before] at hp
  cases hp

lemma wireAt_mono (hp : N.wireAt p = some k') : N'.wireAt p = some k' := by
  rw [h.wireAt_other (h.ne_new hp), hp]

lemma wireAt_cases (hp : N'.wireAt p = some k') : (p = newPin v s ∧ k' = k) ∨ (p ≠ newPin v s ∧ N.wireAt p = some k') := by
  by_cases hnew : p = newPin v s
  · rw [hnew, h.wireAt_new] at hp
    exact .inl ⟨hnew, (Option.some.inj hp).symm⟩
  · exact .inr ⟨hnew, by rw [← h.wireAt_other hnew, hp]⟩

lemma link_ne_new (hN : N.Fitted) (hm : N.link m) : m.source ≠ newPin v s ∧ m.target ≠ newPin v s :=
  ⟨h.ne_new (hN.source_wire hm), h.ne_new (hN.target_wire hm)⟩

lemma wireAt_link (hN : N.Fitted) (hm : N.link m) :
    N'.wireAt m.source = N.wireAt m.source ∧ N'.wireAt m.target = N.wireAt m.target :=
  (h.link_ne_new hN hm).imp h.wireAt_other h.wireAt_other

lemma signature_end {f : Vertex} {s' : Signature} (hf : N.signature? f = some s') (hfv : f ≠ v) :
    N'.signature? f = some s' := by
  rw [h.after, if_neg hfv, hf]

end HasPin

/-- **A linear pin between `l` and the end of its wire.** -/
structure IsWrite (N : Net) (v : Vertex) (s : Signature) (l : Link) (N' : Net) : Prop
    extends N.HasPin v s l.kind N' where
  link : ∀ m, N'.link m ↔ (N.link m ∧ m ≠ l) ∨ m = ⟨l.source, newPin v s, l.kind⟩ ∨ m = ⟨newPin v s, l.target, l.kind⟩

/-- **A Boolean pin that reads where `l` starts.** -/
structure IsRead (N : Net) (v : Vertex) (s : Signature) (l : Link) (N' : Net) : Prop
    extends N.HasPin v s .boolean N' where
  link : ∀ m, N'.link m ↔ N.link m ∨ m = ⟨l.source, newPin v s, .boolean⟩

/-- Where a pin can be placed: `l` leads to the end of a wire and does not come from `v`, where no wire starts
    or ends. -/
structure Placeable (N : Net) (first last : Vertex → Prop) (v : Vertex) (l : Link) : Prop where
  link : N.link l
  linear : l.kind.isLinear = true
  last_target : last l.target.vertex
  source_ne : l.source.vertex ≠ v
  not_first : ¬ first v
  not_last : ¬ last v

lemma Complete.not_boolean_of_last (hc : N.Complete first last) (h : N.Fitted) (hm : N.link m)
    (hlast : last m.target.vertex) : m.kind.isLinear := by
  obtain ⟨k, hs, hk⟩ := hc.last_wire hlast
  obtain ⟨_, hkind⟩ := pin_of_single hs (h.target_wire hm)
  rw [hkind]
  exact hk

/-! ## A linear pin -/

section Write

variable (hw : N.IsWrite v s l N') (h : N.Threaded unit) (hc : N.Complete first last) (hpl : N.Placeable first last v l)
include hw h hc hpl

lemma IsWrite.threaded (hunit : unit (newPin v s) = unit l.source)
    (hreads : ∀ a, N.link a → a.kind = .boolean → a.target.vertex = v → unit a.source ≠ unit l.source) :
    N'.Threaded unit := by
  have hpin := hw.toHasPin
  have htv : l.target.vertex ≠ v := fun heq => hpl.not_last (heq ▸ hpl.last_target)
  -- first the old link goes, then the two new ones come in
  let N1 : Net := ⟨N'.signature?, fun m => N.link m ∧ m ≠ l⟩
  let N2 : Net := ⟨N'.signature?, fun m => N1.link m ∨ m = ⟨l.source, newPin v s, l.kind⟩⟩
  have hsource := hpin.wireAt_mono (h.source_wire hpl.link)
  have htarget := hpin.wireAt_mono (h.target_wire hpl.link)
  have h1 : N1.Threaded unit := h.mono (fun _ hm => hm.1) fun m hm => hpin.wireAt_link h.toFitted hm.1
  have h2 : N2.Threaded unit := by
    refine h1.insert (fun m hm => hm) (fun _ _ hp => hp) hsource hpin.wireAt_new ?_ ?_ (fun _ => hunit.symm) ?_ ?_
    · intro m hm
      exact (hpin.link_ne_new h.toFitted hm.1).2
    · intro _ m hm hml heq
      exact hm.2 (h.out_unique hm.1 hpl.link hml hpl.linear heq)
    · intro hbool
      exact absurd hbool (ne_boolean hpl.linear)
    · intro _ m hm hmk hmv
      rw [hunit]
      exact hreads m hm.1 hmk hmv
  refine h2.insert (l := ⟨newPin v s, l.target, l.kind⟩) (fun m hm => ?_) (fun _ _ hp => hp) ?_ ?_ ?_ ?_ ?_ ?_ ?_
  · rcases (hw.link m).mp hm with hm | hm | hm
    · exact .inl (.inl hm)
    · exact .inl (.inr hm)
    · exact .inr hm
  · rw [carrier_eq hpl.linear]
    exact hpin.wireAt_new
  · exact htarget
  · rintro m (hm | rfl) heq
    · exact hm.2 (h.in_unique hm.1 hpl.link heq)
    · exact htv (congrArg Pin.vertex heq).symm
  · rintro _ m (hm | rfl) _ heq
    · exact (hpin.link_ne_new h.toFitted hm.1).1 heq
    · exact hpl.source_ne (congrArg Pin.vertex heq)
  · intro _
    exact hunit.trans (h.same_unit hpl.link hpl.linear)
  · intro hbool
    exact absurd hbool (ne_boolean hpl.linear)
  · rintro _ m (hm | rfl) hmk hmv
    · have hlin := hc.not_boolean_of_last h.toFitted hm.1 (hmv ▸ hpl.last_target)
      exact absurd hmk (ne_boolean hlin)
    · exact absurd hmk (ne_boolean hpl.linear)

omit h in
lemma IsWrite.complete : N'.Complete first last where
  fed_iff {p k} hp := by
    rcases hw.wireAt_cases hp with ⟨rfl, rfl⟩ | ⟨hne, hp⟩
    · exact ⟨fun _ => hpl.not_first, fun _ => ⟨_, (hw.link _).mpr (.inr (.inl rfl)), rfl⟩⟩
    · rw [← hc.fed_iff hp]
      constructor
      · rintro ⟨m, hm, rfl⟩
        rcases (hw.link m).mp hm with hm | rfl | rfl
        · exact ⟨m, hm.1, rfl⟩
        · exact absurd rfl hne
        · exact ⟨l, hpl.link, rfl⟩
      · rintro ⟨m, hm, rfl⟩
        by_cases hml : m = l
        · exact ⟨_, (hw.link _).mpr (.inr (.inr rfl)), by rw [hml]⟩
        · exact ⟨m, (hw.link m).mpr (.inl ⟨hm, hml⟩), rfl⟩
  drained_iff {p k} hp hk := by
    rcases hw.wireAt_cases hp with ⟨rfl, rfl⟩ | ⟨hne, hp⟩
    · exact ⟨fun _ => hpl.not_last, fun _ => ⟨_, (hw.link _).mpr (.inr (.inr rfl)), hpl.linear, rfl⟩⟩
    · rw [← hc.drained_iff hp hk]
      constructor
      · rintro ⟨m, hm, hml, rfl⟩
        rcases (hw.link m).mp hm with hm | rfl | rfl
        · exact ⟨m, hm.1, hml, rfl⟩
        · exact ⟨l, hpl.link, hpl.linear, rfl⟩
        · exact absurd rfl hne
      · rintro ⟨m, hm, hmlin, rfl⟩
        by_cases hml : m = l
        · exact ⟨_, (hw.link _).mpr (.inr (.inl rfl)), hpl.linear, by rw [hml]⟩
        · exact ⟨m, (hw.link m).mpr (.inl ⟨hm, hml⟩), hmlin, rfl⟩
  source_open {m} hm := by
    rcases (hw.link m).mp hm with hm | rfl | rfl
    · exact hc.source_open hm.1
    · exact hc.source_open (l := l) hpl.link
    · exact hpl.not_last
  first_wire {f} hf := by
    obtain ⟨k, hs, hk⟩ := hc.first_wire hf
    exact ⟨k, hw.signature_end hs (fun heq => hpl.not_first (heq ▸ hf)), hk⟩
  last_wire {f} hf := by
    obtain ⟨k, hs, hk⟩ := hc.last_wire hf
    exact ⟨k, hw.signature_end hs (fun heq => hpl.not_last (heq ▸ hf)), hk⟩

omit hc in
lemma IsWrite.ranked {α : Type} [Preorder α] {rank : Vertex → α} (hr : N.Ranked rank)
    (hafter : rank l.source.vertex < rank v) (hend : rank v < rank l.target.vertex)
    (hreaders : ∀ a, N.link a → a.kind = .boolean → a.source = l.source → rank a.target.vertex < rank v) :
    N'.Ranked rank := by
  refine .of_links (fun m hm => ?_) fun a b ha hb hak hbl heq => ?_
  · rcases (hw.link m).mp hm with hm | rfl | rfl
    · exact hr.link hm.1
    · exact hafter
    · exact hend
  · have ha' : N.link a := by
      rcases (hw.link a).mp ha with ha | rfl | rfl
      · exact ha.1
      · exact absurd hak (ne_boolean hpl.linear)
      · exact absurd hak (ne_boolean hpl.linear)
    rcases (hw.link b).mp hb with hb | rfl | rfl
    · exact hr _ _ (.hazard ha' hb.1 hak hbl heq)
    · exact hreaders a ha' hak heq
    · exact absurd heq (hw.link_ne_new h.toFitted ha').1

end Write

/-! ## A Boolean pin -/

section Read

variable (hw : N.IsRead v s l N') (h : N.Threaded unit) (hc : N.Complete first last) (hpl : N.Placeable first last v l)
include hw h hpl

lemma IsRead.threaded (hclassical : l.kind = .classical)
    (hwrites : ∀ b, N.link b → b.kind.isLinear → b.target.vertex = v → unit l.source ≠ unit b.target) :
    N'.Threaded unit := by
  have hpin := hw.toHasPin
  have hsource := hpin.wireAt_mono (h.source_wire hpl.link)
  have h1 : (⟨N'.signature?, N.link⟩ : Net).Threaded unit := h.mono (fun _ => id) fun m => hpin.wireAt_link h.toFitted
  refine h1.insert (fun m hm => (hw.link m).mp hm) (fun _ _ hp => hp) ?_ hpin.wireAt_new ?_ ?_ ?_ ?_ ?_
  · rw [hclassical] at hsource
    exact hsource
  · intro m hm
    exact (hpin.link_ne_new h.toFitted hm).2
  · intro hlin; cases hlin
  · intro hlin; cases hlin
  · intro _ m hm hml hmv
    exact hwrites m hm hml hmv
  · intro hlin; cases hlin

include hc in
omit h in
lemma IsRead.complete : N'.Complete first last where
  fed_iff {p k} hp := by
    rcases hw.wireAt_cases hp with ⟨rfl, rfl⟩ | ⟨hne, hp⟩
    · exact ⟨fun _ => hpl.not_first, fun _ => ⟨_, (hw.link _).mpr (.inr rfl), rfl⟩⟩
    · rw [← hc.fed_iff hp]
      constructor
      · rintro ⟨m, hm, rfl⟩
        rcases (hw.link m).mp hm with hm | rfl
        · exact ⟨m, hm, rfl⟩
        · exact absurd rfl hne
      · rintro ⟨m, hm, rfl⟩
        exact ⟨m, (hw.link m).mpr (.inl hm), rfl⟩
  drained_iff {p k} hp hk := by
    rcases hw.wireAt_cases hp with ⟨rfl, rfl⟩ | ⟨hne, hp⟩
    · cases hk
    · rw [← hc.drained_iff hp hk]
      constructor
      · rintro ⟨m, hm, hml, rfl⟩
        rcases (hw.link m).mp hm with hm | rfl
        · exact ⟨m, hm, hml, rfl⟩
        · cases hml
      · rintro ⟨m, hm, hml, rfl⟩
        exact ⟨m, (hw.link m).mpr (.inl hm), hml, rfl⟩
  source_open {m} hm := by
    rcases (hw.link m).mp hm with hm | rfl
    · exact hc.source_open hm
    · exact hc.source_open (l := l) hpl.link
  first_wire {f} hf := by
    obtain ⟨k, hs, hk⟩ := hc.first_wire hf
    exact ⟨k, hw.signature_end hs (fun heq => hpl.not_first (heq ▸ hf)), hk⟩
  last_wire {f} hf := by
    obtain ⟨k, hs, hk⟩ := hc.last_wire hf
    exact ⟨k, hw.signature_end hs (fun heq => hpl.not_last (heq ▸ hf)), hk⟩

lemma IsRead.ranked {α : Type} [Preorder α] {rank : Vertex → α} (hr : N.Ranked rank)
    (hafter : rank l.source.vertex < rank v) (hend : rank v < rank l.target.vertex) : N'.Ranked rank := by
  refine .of_links (fun m hm => ?_) fun a b ha hb hak hbl heq => ?_
  · rcases (hw.link m).mp hm with hm | rfl
    · exact hr.link hm
    · exact hafter
  · have hb' : N.link b := by
      rcases (hw.link b).mp hb with hb | rfl
      · exact hb
      · cases hbl
    rcases (hw.link a).mp ha with ha | rfl
    · exact hr _ _ (.hazard ha hb' hak hbl heq)
    · -- what is read is written next at the end of the wire
      have hbl' : b = l := h.out_unique hb' hpl.link hbl hpl.linear heq.symm
      rw [hbl']
      exact hend

end Read

end Net

/-! # `Net.IsImage` — copies of a net -/

def Pin.map (ι : Vertex → Vertex) (p : Pin) : Pin := ⟨ι p.vertex, p.index⟩

def Link.map (ι : Vertex → Vertex) (l : Link) : Link := ⟨l.source.map ι, l.target.map ι, l.kind⟩

def Link.turned (l : Link) : Link := ⟨l.target, l.source, l.kind⟩

/-- The link between the moved pins, turned round. -/
def Link.reverseMap (ι : Vertex → Vertex) (l : Link) : Link := ⟨l.target.map ι, l.source.map ι, l.kind⟩

open Option WireKind

namespace Net

variable {N M : Net} {ι : Vertex → Vertex} {unit unit' : Pin → UnitId} {first last first' last' : Vertex → Prop}
  {v w : Vertex} {l m : Link} {p q : Pin} {k : WireKind}

/-- **The vertices of `N` are moved to those of `M`, one to one.** -/
structure Moves (N : Net) (ι : Vertex → Vertex) (M : Net) : Prop where
  signature : ∀ {v s}, N.signature? v = some s → M.signature? (ι v) = some s
  origin : ∀ {w s}, M.signature? w = some s → ∃ v, N.signature? v = some s ∧ ι v = w
  injective : ∀ {v w s t}, N.signature? v = some s → N.signature? w = some t → ι v = ι w → v = w

namespace Moves

variable {k' : WireKind}

variable (h : N.Moves ι M)
include h

lemma wireAt (hp : N.wireAt p = some k) : M.wireAt (p.map ι) = some k := by
  obtain ⟨s, hs⟩ := isSome_iff_exists.mp (signature?_of_wireAt hp)
  rw [wireAt_of_signature? hs] at hp
  exact (wireAt_of_signature? (h.signature hs)).trans hp

lemma wireAt_origin (hq : M.wireAt q = some k) : ∃ p, N.wireAt p = some k ∧ p.map ι = q := by
  obtain ⟨s, hs⟩ := isSome_iff_exists.mp (signature?_of_wireAt hq)
  obtain ⟨v, hv, hvq⟩ := h.origin hs
  refine ⟨⟨v, q.index⟩, ?_, Pin.ext hvq rfl⟩
  rw [wireAt_of_signature? hv, ← wireAt_of_signature? hs, hq]

lemma vertex_injective (hp : N.wireAt p = some k) (hq : N.wireAt q = some k')
    (heq : ι p.vertex = ι q.vertex) : p.vertex = q.vertex := by
  obtain ⟨s, hs⟩ := isSome_iff_exists.mp (signature?_of_wireAt hp)
  obtain ⟨t, ht⟩ := isSome_iff_exists.mp (signature?_of_wireAt hq)
  exact h.injective hs ht heq

lemma pin_injective (hp : N.wireAt p = some k) (hq : N.wireAt q = some k') (heq : p.map ι = q.map ι) : p = q :=
  Pin.ext (h.vertex_injective hp hq (congrArg Pin.vertex heq)) (Pin.mk.inj heq).2

lemma place_iff {P P' : Vertex → Prop} (hP : ∀ w, P' w ↔ ∃ v, P v ∧ ι v = w)
    (hlive : ∀ {v}, P v → ∃ s, N.signature? v = some s) (hp : N.wireAt p = some k) :
    P' (p.map ι).vertex ↔ P p.vertex := by
  rw [hP]
  constructor
  · rintro ⟨v, hv, heq⟩
    obtain ⟨s, hs⟩ := hlive hv
    obtain ⟨t, ht⟩ := isSome_iff_exists.mp (signature?_of_wireAt hp)
    rw [← h.injective hs ht heq]
    exact hv
  · exact fun hv => ⟨p.vertex, hv, rfl⟩

end Moves

/-! ## A copy -/

/-- **`M` is a copy of `N`.** -/
structure IsImage (N : Net) (ι : Vertex → Vertex) (M : Net) : Prop extends N.Moves ι M where
  link : ∀ m, M.link m ↔ ∃ l, N.link l ∧ m = l.map ι

namespace IsImage

variable (h : N.IsImage ι M)
include h

lemma threaded (hN : N.Threaded unit)
    (hunit : ∀ p, (N.signature? p.vertex).isSome → unit' (p.map ι) = unit p) : M.Threaded unit' where
  source_wire hm := by
    obtain ⟨l, hl, rfl⟩ := (h.link _).mp hm
    exact h.wireAt (hN.source_wire hl)
  target_wire hm := by
    obtain ⟨l, hl, rfl⟩ := (h.link _).mp hm
    exact h.wireAt (hN.target_wire hl)
  in_unique hm hn heq := by
    obtain ⟨l, hl, rfl⟩ := (h.link _).mp hm
    obtain ⟨l', hl', rfl⟩ := (h.link _).mp hn
    rw [hN.in_unique hl hl' (h.pin_injective (hN.target_wire hl) (hN.target_wire hl') heq)]
  out_unique hm hn hml hnl heq := by
    obtain ⟨l, hl, rfl⟩ := (h.link _).mp hm
    obtain ⟨l', hl', rfl⟩ := (h.link _).mp hn
    rw [hN.out_unique hl hl' hml hnl (h.pin_injective (hN.source_wire hl) (hN.source_wire hl') heq)]
  same_unit hm hml := by
    obtain ⟨l, hl, rfl⟩ := (h.link _).mp hm
    show unit' (l.source.map ι) = unit' (l.target.map ι)
    rw [hunit _ (hN.live_of_link hl).1, hunit _ (hN.live_of_link hl).2, hN.same_unit hl hml]
  apart ha hb hak hbl heq := by
    obtain ⟨a, ha', rfl⟩ := (h.link _).mp ha
    obtain ⟨b, hb', rfl⟩ := (h.link _).mp hb
    show unit' (a.source.map ι) ≠ unit' (b.target.map ι)
    rw [hunit _ (hN.live_of_link ha').1, hunit _ (hN.live_of_link hb').2]
    exact hN.apart ha' hb' hak hbl (h.vertex_injective (hN.target_wire ha') (hN.target_wire hb') heq)

lemma fed_iff (hN : N.Fitted) (hp : N.wireAt p = some k) : M.Fed (p.map ι) ↔ N.Fed p := by
  constructor
  · rintro ⟨m, hm, heq⟩
    obtain ⟨l, hl, rfl⟩ := (h.link _).mp hm
    exact ⟨l, hl, h.pin_injective (hN.target_wire hl) hp heq⟩
  · rintro ⟨l, hl, rfl⟩
    exact ⟨l.map ι, (h.link _).mpr ⟨l, hl, rfl⟩, rfl⟩

lemma drained_iff (hN : N.Fitted) (hp : N.wireAt p = some k) : M.Drained (p.map ι) ↔ N.Drained p := by
  constructor
  · rintro ⟨m, hm, hlin, heq⟩
    obtain ⟨l, hl, rfl⟩ := (h.link _).mp hm
    exact ⟨l, hl, hlin, h.pin_injective (hN.source_wire hl) hp heq⟩
  · rintro ⟨l, hl, hlin, rfl⟩
    exact ⟨l.map ι, (h.link _).mpr ⟨l, hl, rfl⟩, hlin, rfl⟩

lemma complete (hN : N.Fitted) (hc : N.Complete first last) (hfirst : ∀ w, first' w ↔ ∃ v, first v ∧ ι v = w)
    (hlast : ∀ w, last' w ↔ ∃ v, last v ∧ ι v = w) : M.Complete first' last' := by
  have hfirst' : ∀ {v}, first v → ∃ s, N.signature? v = some s := fun hv =>
    (hc.first_wire hv).imp' (fun k => [k]) fun _ hk => hk.1
  have hlast' : ∀ {v}, last v → ∃ s, N.signature? v = some s := fun hv =>
    (hc.last_wire hv).imp' (fun k => [k]) fun _ hk => hk.1
  refine ⟨fun {q k} hq => ?_, fun {q k} hq hk => ?_, fun {m} hm => ?_, fun {w} hw => ?_, fun {w} hw => ?_⟩
  · obtain ⟨p, hp, rfl⟩ := h.wireAt_origin hq
    rw [h.fed_iff hN hp, h.place_iff hfirst hfirst' hp]
    exact hc.fed_iff hp
  · obtain ⟨p, hp, rfl⟩ := h.wireAt_origin hq
    rw [h.drained_iff hN hp, h.place_iff hlast hlast' hp]
    exact hc.drained_iff hp hk
  · obtain ⟨l, hl, rfl⟩ := (h.link _).mp hm
    show ¬ last' (l.source.map ι).vertex
    rw [h.place_iff hlast hlast' (hN.source_wire hl)]
    exact hc.source_open hl
  · obtain ⟨v, hv, rfl⟩ := (hfirst w).mp hw
    obtain ⟨k, hs, hk⟩ := hc.first_wire hv
    exact ⟨k, h.signature hs, hk⟩
  · obtain ⟨v, hv, rfl⟩ := (hlast w).mp hw
    obtain ⟨k, hs, hk⟩ := hc.last_wire hv
    exact ⟨k, h.signature hs, hk⟩

lemma ranked {α : Type} [Preorder α] {rank rank' : Vertex → α} (hN : N.Fitted) (hr : N.Ranked rank)
    (heq : ∀ v, (N.signature? v).isSome → rank' (ι v) = rank v) : M.Ranked rank' := by
  refine .of_links (fun m hm => ?_) fun a b ha hb hak hbl hs => ?_
  · obtain ⟨l, hl, rfl⟩ := (h.link _).mp hm
    show rank' (ι l.source.vertex) < rank' (ι l.target.vertex)
    rw [heq _ (hN.live_of_link hl).1, heq _ (hN.live_of_link hl).2]
    exact hr.link hl
  · obtain ⟨a, ha', rfl⟩ := (h.link _).mp ha
    obtain ⟨b, hb', rfl⟩ := (h.link _).mp hb
    show rank' (ι a.target.vertex) < rank' (ι b.target.vertex)
    rw [heq _ (hN.live_of_link ha').2, heq _ (hN.live_of_link hb').2]
    exact hr _ _ (.hazard ha' hb' hak hbl (h.pin_injective (hN.source_wire ha') (hN.source_wire hb') hs))

end IsImage

/-! ## A net that runs backwards -/

def turned (N : Net) : Net := ⟨N.signature?, fun l => N.link l.turned⟩

section Turned

variable (hlin : ∀ {l}, N.link l → l.kind.isLinear = true)
include hlin

lemma Fitted.turned (hN : N.Fitted) : N.turned.Fitted where
  source_wire hl := (hN.target_wire hl).trans (congrArg some (carrier_eq (hlin hl)).symm)
  target_wire hl := (hN.source_wire hl).trans (congrArg some (carrier_eq (hlin hl)))
  in_unique hl hm heq := congrArg Link.turned (hN.out_unique hl hm (hlin hl) (hlin hm) heq)
  out_unique hl hm _ _ heq := congrArg Link.turned (hN.in_unique hl hm heq)

lemma Threaded.turned (hN : N.Threaded unit) : N.turned.Threaded unit where
  toFitted := hN.toFitted.turned hlin
  same_unit hl hl' := (hN.same_unit hl hl').symm
  apart {a _} ha _ hak := absurd hak (ne_boolean (hlin (l := a.turned) ha))

lemma Complete.turned (hN : N.Fitted) (hc : N.Complete first last)
    (hreads : ∀ {p k}, N.wireAt p = some k → k.isLinear) : N.turned.Complete last first where
  fed_iff hp := Iff.trans ⟨fun ⟨l, hl, ht⟩ => ⟨l.turned, hl, hlin hl, ht⟩, fun ⟨l, hl, _, hs⟩ => ⟨l.turned, hl, hs⟩⟩
    (hc.drained_iff hp (hreads hp))
  drained_iff hp _ := Iff.trans
    ⟨fun ⟨l, hl, _, hs⟩ => ⟨l.turned, hl, hs⟩, fun ⟨l, hl, ht⟩ => ⟨l.turned, hl, hlin (l := l) hl, ht⟩⟩
    (hc.fed_iff hp)
  source_open {l} hl := (hc.fed_iff (hN.target_wire hl)).mp ⟨l.turned, hl, rfl⟩
  first_wire := hc.last_wire
  last_wire := hc.first_wire

lemma Ranked.turned {α : Type} [Preorder α] {rank : Vertex → α} (hr : N.Ranked rank) :
    N.turned.Ranked fun v => OrderDual.toDual (rank v) :=
  .of_links (fun _ hm => OrderDual.toDual_lt_toDual.mpr (hr.link hm)) fun a _ ha _ hak =>
    absurd hak (ne_boolean (hlin (l := a.turned) ha))

end Turned

/-- **`M` is a copy of `N` with every link turned round.** -/
structure IsReverse (N : Net) (ι : Vertex → Vertex) (M : Net) : Prop extends N.Moves ι M where
  link : ∀ m, M.link m ↔ ∃ l, N.link l ∧ m = l.reverseMap ι
  linear : ∀ {l}, N.link l → l.kind.isLinear = true

namespace IsReverse

variable (h : N.IsReverse ι M)
include h

lemma isImage : N.turned.IsImage ι M where
  toMoves := ⟨h.signature, h.origin, h.injective⟩
  link m := (h.link m).trans ⟨fun ⟨l, hl, hm⟩ => ⟨l.turned, hl, hm⟩, fun ⟨l, hl, hm⟩ => ⟨l.turned, hl, hm⟩⟩

lemma threaded (hN : N.Threaded unit)
    (hunit : ∀ p, (N.signature? p.vertex).isSome → unit' (p.map ι) = unit p) : M.Threaded unit' :=
  h.isImage.threaded (hN.turned h.linear) hunit

lemma complete (hN : N.Fitted) (hc : N.Complete first last) (hreads : ∀ {p k}, N.wireAt p = some k → k.isLinear)
    (hfirst : ∀ w, first' w ↔ ∃ v, last v ∧ ι v = w) (hlast : ∀ w, last' w ↔ ∃ v, first v ∧ ι v = w) :
    M.Complete first' last' :=
  h.isImage.complete (hN.turned h.linear) (hc.turned h.linear hN hreads) hfirst hlast

lemma ranked {α : Type} [Preorder α] {rank : Vertex → α} {rank' : Vertex → αᵒᵈ} (hN : N.Fitted) (hr : N.Ranked rank)
    (heq : ∀ v, (N.signature? v).isSome → rank' (ι v) = OrderDual.toDual (rank v)) : M.Ranked rank' :=
  h.isImage.ranked (hN.turned h.linear) (hr.turned h.linear) heq

end IsReverse

end Net

end Wireloom
