import Mathlib.Data.List.Nodup
import Wireloom.Proofs.Links

/-!
# `Net.IsSplice`, `Graph.removeVertex` — what taking a vertex out does to the links

Cutting a vertex takes out the links at it and nothing else (`removeVertex_cut_run`). Splicing it first puts in the
bridges over it, so that on the whole the vertex is spliced out of the net (`removeVertex_splice_run`).
-/

namespace Wireloom

open WireKind

namespace Net

variable {N N' : Net} {unit : Pin → UnitId} {first last : Vertex → Prop} {v w : Vertex} {a b l m : Link} {p q : Pin}

/-- The new link `m` leads from where `a` comes from to where a link after `a` goes. -/
def Bridges (N : Net) (a m : Link) : Prop :=
  a.kind.isLinear = true ∧ ∃ b, N.link b ∧ b.source = a.target ∧ m.source = a.source ∧ m.target = b.target ∧
    ((b.kind.isLinear = true ∧ m.kind = a.kind) ∨ (a.kind = .classical ∧ b.kind = .boolean ∧ m.kind = .boolean))

/-- **`N'` is `N` with `v` spliced out.** -/
structure IsSplice (N : Net) (v : Vertex) (N' : Net) : Prop where
  signature : ∀ w, N'.signature? w = if w = v then none else N.signature? w
  link : ∀ m, N'.link m ↔ (N.link m ∧ m.Avoids v) ∨ ∃ a, N.link a ∧ a.target.vertex = v ∧ N.Bridges a m

/-! ## Where wires run straight through -/

/-- No link leads from a vertex to itself. -/
def NoLoop (N : Net) (v : Vertex) : Prop := ∀ l, N.link l → l.source.vertex = v → l.target.vertex ≠ v

/-- **A vertex that wires run straight through.** Each linear link into it goes on from the same pin, and the
    links into its pins and into the pins after it are the only ones there. -/
structure Spliceable (N : Net) (v : Vertex) : Prop where
  no_loop : ∀ l, N.link l → l.source.vertex = v → l.target.vertex ≠ v
  in_unique : ∀ l m, N.link l → N.link m → l.target.vertex = v → m.target = l.target → m = l
  out_exists : ∀ l, N.link l → l.target.vertex = v → l.kind.isLinear = true →
    ∃ b, N.link b ∧ b.source = l.target ∧ b.kind.isLinear = true
  out_unique : ∀ b m, N.link b → N.link m → b.source.vertex = v → m.source = b.source →
    b.kind.isLinear = true → m.kind.isLinear = true → m = b
  beyond_unique : ∀ b m, N.link b → N.link m → b.source.vertex = v → m.target = b.target → m = b

lemma Spliceable.source_ne (h : N.Spliceable v) (ha : N.link a) (hav : a.target.vertex = v) :
    a.source.vertex ≠ v := fun hs => h.no_loop a ha hs hav

lemma Spliceable.bridge_avoids (h : N.Spliceable v) (ha : N.link a) (hav : a.target.vertex = v)
    (hm : N.Bridges a m) : m.Avoids v := by
  obtain ⟨_, b, hb, hba, hms, hmt, _⟩ := hm
  exact ⟨hms ▸ h.source_ne ha hav, hmt ▸ h.no_loop b hb (by rw [hba, hav])⟩

lemma Spliceable.bridge_new (h : N.Spliceable v) (ha : N.link a) (hav : a.target.vertex = v)
    (hm : N.Bridges a m) : ¬ N.link m := by
  obtain ⟨_, b, hb, hba, hms, hmt, _⟩ := hm
  intro hgm
  have hbv : b.source.vertex = v := by rw [hba, hav]
  have hmb := h.beyond_unique b m hb hgm hbv hmt
  exact h.source_ne ha hav (by rw [← hms, hmb, hbv])

/-- A linear bridge is the one to where the wire goes on; all others belong to reads. -/
lemma Spliceable.bridge_linear (h : N.Spliceable v) (hav : a.target.vertex = v) (hb : N.link b) (hba : b.source = a.target)
    (hblin : b.kind.isLinear) (hm : N.Bridges a m) (hml : m.kind.isLinear) : m = ⟨a.source, b.target, a.kind⟩ := by
  obtain ⟨_, _, _⟩ := m
  obtain ⟨_, b', hb', hba', rfl, rfl, ⟨hb'lin, rfl⟩ | ⟨_, _, rfl⟩⟩ := hm
  · rw [h.out_unique b b' hb hb' (by rw [hba, hav]) (hba'.trans hba.symm) hblin hb'lin]
  · cases hml

lemma Spliceable.bridge_injective {a' : Link} (h : N.Spliceable v) (ha : N.link a) (ha' : N.link a')
    (hav : a.target.vertex = v) (hm : N.Bridges a m) (hm' : N.Bridges a' m) : a' = a := by
  obtain ⟨_, b, hb, hba, _, hmt, _⟩ := hm
  obtain ⟨_, b', hb', hba', _, hmt', _⟩ := hm'
  have hbv : b.source.vertex = v := by rw [hba, hav]
  have hbb := h.beyond_unique b b' hb hb' hbv (hmt' ▸ hmt)
  exact h.in_unique a a' ha ha' hav (by rw [← hba, ← hba', hbb])

variable (hs : N.IsSplice v N') (h : N.Fitted) (hc : N.Complete first last) (hv : ¬ last v)
  (hp : p.vertex ≠ v) (hloop : N.NoLoop v)
  (hm : N'.link m)

include h hc hv hloop in
lemma Fitted.spliceable : N.Spliceable v where
  no_loop := hloop
  in_unique l m hl hm _ heq := h.in_unique hm hl heq
  out_exists l hl ht hlin := by
    have hdrained := (hc.drained_iff (h.target_wire hl) hlin).mpr (ht ▸ hv)
    obtain ⟨b, hb, hblin, hbl⟩ := hdrained
    exact ⟨b, hb, hbl, hblin⟩
  out_unique b m hb hm _ heq hbl hml := h.out_unique hm hb hml hbl heq
  beyond_unique b m hb hm _ heq := h.in_unique hm hb heq

/-! ## What a splice keeps -/

include hs hm in
lemma IsSplice.cases : (N.link m ∧ m.Avoids v) ∨ ∃ a b, N.link a ∧ N.link b ∧ a.target.vertex = v ∧ a.kind.isLinear ∧
      b.source = a.target ∧ m.source = a.source ∧ m.target = b.target ∧
      ((b.kind.isLinear ∧ m.kind = a.kind) ∨ (a.kind = .classical ∧ b.kind = .boolean ∧ m.kind = .boolean)) := by
  rcases (hs.link m).mp hm with hold | ⟨a, ha, hav, hlin, b, hb, hba, hms, hmt, hk⟩
  · exact .inl hold
  · exact .inr ⟨a, b, ha, hb, hav, hlin, hba, hms, hmt, hk⟩

include hs hp in
lemma IsSplice.wireAt : N'.wireAt p = N.wireAt p :=
  wireAt_congr (by rw [hs.signature, if_neg hp])

lemma IsSplice.wireAt_eq_some (hs : N.IsSplice v N') {k : WireKind} :
    N'.wireAt p = some k ↔ p.vertex ≠ v ∧ N.wireAt p = some k :=
  wireAt_without hs.signature

include hs h hloop hm in
/-- Each link of the result ends as some link of the net does, at a vertex other than `v`; and it comes from
    the same wire. -/
lemma IsSplice.origin : ∃ m0, N.link m0 ∧ m0.target = m.target ∧ m0.kind = m.kind ∧
      (m0.source = m.source ∨ N.Joined m.source m0.source) ∧ m.target.vertex ≠ v := by
  rcases hs.cases hm with ⟨hm, hav⟩ | ⟨a, b, ha, hb, hav, hlin, hba, hms, hmt, hk⟩
  · exact ⟨m, hm, rfl, rfl, .inl rfl, hav.2⟩
  · have hjoined : N.Joined m.source b.source := by
      rw [hba, hms]
      exact joined_of_link ha hlin
    have hne : m.target.vertex ≠ v := by
      rw [hmt]
      exact hloop b hb (by rw [hba, hav])
    refine ⟨b, hb, hmt.symm, ?_, .inr hjoined, hne⟩
    rcases hk with ⟨hbl, hmk⟩ | ⟨_, hbk, hmk⟩
    · have h1 := h.source_wire hb
      rw [hba, h.target_wire ha, carrier_eq hbl] at h1
      rw [hmk, Option.some.inj h1]
    · rw [hbk, hmk]

lemma Fitted.splice (h : N.Fitted) (hs : N.IsSplice v N') (hloop : N.NoLoop v) : N'.Fitted where
  source_wire {m} hm := by
    rcases hs.cases hm with ⟨hm, hav⟩ | ⟨a, b, ha, hb, hav, hlin, hba, hms, hmt, hk⟩
    · rw [hs.wireAt hav.1, h.source_wire hm]
    · have hne : m.source.vertex ≠ v := fun hsv => hloop a ha (hms ▸ hsv) hav
      rw [hs.wireAt hne, hms, h.source_wire ha, carrier_eq hlin]
      rcases hk with ⟨_, hmk⟩ | ⟨hak, _, hmk⟩
      · rw [hmk, carrier_eq hlin]
      · rw [hmk, hak]; rfl
  target_wire hm := by
    obtain ⟨_, hm0, htarget, hkind, _, hne⟩ := hs.origin h hloop hm
    rw [hs.wireAt hne, ← htarget, h.target_wire hm0, hkind]
  in_unique {l m} hl hm heq := by
    rcases hs.cases hl with ⟨hl, hlv⟩ | ⟨a, b, ha, hb, hav, hlin, hba, hls, hlt, hk⟩ <;>
      rcases hs.cases hm with ⟨hm, hmv⟩ | ⟨a', b', ha', hb', hav', hlin', hba', hms, hmt, hk'⟩
    · exact h.in_unique hl hm heq
    · have : l = b' := h.in_unique hl hb' (heq.trans hmt)
      exact absurd (by rw [this, hba', hav']) hlv.1
    · have : m = b := h.in_unique hm hb (heq.symm.trans hlt)
      exact absurd (by rw [this, hba, hav]) hmv.1
    · have hbb : b = b' := h.in_unique hb hb' (by rw [← hlt, ← hmt, heq])
      have haa : a = a' := h.in_unique ha ha' (by rw [← hba, ← hba', hbb])
      subst hbb haa
      have hkind : l.kind = m.kind := by
        rcases hk with ⟨hbl, hlk⟩ | ⟨_, hbk, hlk⟩ <;> rcases hk' with ⟨hbl', hmk⟩ | ⟨_, hbk', hmk⟩
        · rw [hlk, hmk]
        · exact absurd hbk' (ne_boolean hbl)
        · exact absurd hbk (ne_boolean hbl')
        · rw [hlk, hmk]
      cases l; cases m; simp_all
  out_unique {l m} hl hm hll hml heq := by
    rcases hs.cases hl with ⟨hl, hlv⟩ | ⟨a, b, ha, hb, hav, hlin, hba, hls, hlt, hk⟩ <;>
      rcases hs.cases hm with ⟨hm, hmv⟩ | ⟨a', b', ha', hb', hav', hlin', hba', hms, hmt, hk'⟩
    · exact h.out_unique hl hm hll hml heq
    · have : l = a' := h.out_unique hl ha' hll hlin' (heq.trans hms)
      exact absurd (by rw [this, hav']) hlv.2
    · have : m = a := h.out_unique hm ha hml hlin (heq.symm.trans hls)
      exact absurd (by rw [this, hav]) hmv.2
    · have haa : a = a' := h.out_unique ha ha' hlin hlin' (by rw [← hls, ← hms, heq])
      subst haa
      have hbl : b.kind.isLinear ∧ l.kind = a.kind := by
        rcases hk with hk | ⟨_, _, hlk⟩
        · exact hk
        · exact absurd hlk (ne_boolean hll)
      have hbl' : b'.kind.isLinear ∧ m.kind = a.kind := by
        rcases hk' with hk | ⟨_, _, hmk⟩
        · exact hk
        · exact absurd hmk (ne_boolean hml)
      have hbb : b = b' := h.out_unique hb hb' hbl.1 hbl'.1 (by rw [hba, hba'])
      cases l; cases m; simp_all

lemma IsSplice.same_unit (hs : N.IsSplice v N') (hunit : ∀ {l}, N.link l → l.kind.isLinear →
    unit l.source = unit l.target) (hm : N'.link m) (hlin : m.kind.isLinear) : unit m.source = unit m.target := by
  rcases hs.cases hm with ⟨hm, _⟩ | ⟨a, b, ha, hb, _, hal, hba, hms, hmt, hk⟩
  · exact hunit hm hlin
  · have hbl : b.kind.isLinear := by
      rcases hk with ⟨hbl, _⟩ | ⟨_, _, hmk⟩
      · exact hbl
      · exact absurd hmk (ne_boolean hlin)
    rw [hms, hmt, hunit ha hal, ← hba, hunit hb hbl]

lemma Threaded.splice (h : N.Threaded unit) (hs : N.IsSplice v N') (hloop : N.NoLoop v) : N'.Threaded unit where
  toFitted := h.toFitted.splice hs hloop
  same_unit hm hlin := hs.same_unit h.same_unit hm hlin
  apart {x y} hx hy hxk hyl heq := by
    obtain ⟨x0, hx0, hxt, hxk0, hxs, _⟩ := hs.origin h.toFitted hloop hx
    obtain ⟨_, hy0, hyt, hyk0, _, _⟩ := hs.origin h.toFitted hloop hy
    have hxu : unit x0.source = unit x.source := by
      rcases hxs with hsame | ⟨k, hk, hl⟩
      · rw [hsame]
      · exact (h.same_unit hl hk).symm
    have := h.apart hx0 hy0 (hxk0.trans hxk) (hyk0 ▸ hyl) (by rw [hxt, hyt, heq])
    rwa [hxu, hyt] at this

include hs h hc hloop in
lemma IsSplice.fed_iff (hv : ¬ first v) (hp : p.vertex ≠ v) : N'.Fed p ↔ N.Fed p := by
  constructor
  · rintro ⟨m, hm, rfl⟩
    obtain ⟨m0, hm0, htarget, _⟩ := hs.origin h hloop hm
    exact ⟨m0, hm0, htarget⟩
  · rintro ⟨b, hb, rfl⟩
    by_cases hbv : b.source.vertex = v
    · -- the wire that `b` goes on from comes in at the same pin
      obtain ⟨a, ha, hat⟩ := (hc.fed_iff (h.source_wire hb)).mpr (hbv ▸ hv)
      have hak : a.kind = b.kind.carrier := by
        have := h.target_wire ha
        rw [hat, h.source_wire hb] at this
        exact (Option.some.inj this).symm
      have hal : a.kind.isLinear := by rw [hak]; exact isLinear_carrier _
      have hav : a.target.vertex = v := by rw [hat, hbv]
      by_cases hbl : b.kind.isLinear
      · exact ⟨⟨a.source, b.target, a.kind⟩, (hs.link _).mpr (.inr ⟨a, ha, hav, hal, b, hb, hat.symm, rfl, rfl,
          .inl ⟨hbl, rfl⟩⟩), rfl⟩
      · have hbk := eq_boolean hbl
        refine ⟨⟨a.source, b.target, .boolean⟩, (hs.link _).mpr (.inr ⟨a, ha, hav, hal, b, hb, hat.symm, rfl, rfl,
          .inr ⟨?_, hbk, rfl⟩⟩), rfl⟩
        rw [hak, hbk]; rfl
    · exact ⟨b, (hs.link b).mpr (.inl ⟨hb, hbv, hp⟩), rfl⟩

include hs h hc hv hp in
lemma IsSplice.drained_iff : N'.Drained p ↔ N.Drained p := by
  constructor
  · rintro ⟨m, hm, hml, rfl⟩
    rcases hs.cases hm with ⟨hm, _⟩ | ⟨a, b, ha, hb, hav, hlin, _, hms, _, _⟩
    · exact ⟨m, hm, hml, rfl⟩
    · exact ⟨a, ha, hlin, hms.symm⟩
  · rintro ⟨a, ha, hal, rfl⟩
    by_cases hav : a.target.vertex = v
    · obtain ⟨b, hb, hbl, hbs⟩ := (hc.drained_iff (h.target_wire ha) hal).mpr (hav ▸ hv)
      exact ⟨⟨a.source, b.target, a.kind⟩, (hs.link _).mpr (.inr ⟨a, ha, hav, hal, b, hb, hbs, rfl, rfl,
        .inl ⟨hbl, rfl⟩⟩), hal, rfl⟩
    · exact ⟨a, (hs.link a).mpr (.inl ⟨ha, hp, hav⟩), hal, rfl⟩

include hc in
lemma Complete.splice (hs : N.IsSplice v N') (h : N.Fitted) (hloop : N.NoLoop v) (hvf : ¬ first v)
    (hvl : ¬ last v) : N'.Complete first last where
  fed_iff hp := by
    obtain ⟨hne, hp⟩ := hs.wireAt_eq_some.mp hp
    rw [hs.fed_iff h hc hloop hvf hne]
    exact hc.fed_iff hp
  drained_iff hp hk := by
    obtain ⟨hne, hp⟩ := hs.wireAt_eq_some.mp hp
    rw [hs.drained_iff h hc hvl hne]
    exact hc.drained_iff hp hk
  source_open {m} hm := by
    rcases hs.cases hm with ⟨hm, _⟩ | ⟨a, b, ha, _, _, _, _, hms, _⟩
    · exact hc.source_open hm
    · rw [hms]; exact hc.source_open ha
  first_wire {w} hw := by
    have hne : w ≠ v := fun hwv => hvf (hwv ▸ hw)
    rw [hs.signature, if_neg hne]
    exact hc.first_wire hw
  last_wire {w} hw := by
    have hne : w ≠ v := fun hwv => hvl (hwv ▸ hw)
    rw [hs.signature, if_neg hne]
    exact hc.last_wire hw

lemma Ranked.splice {α : Type} [Preorder α] {rank : Vertex → α} (hr : N.Ranked rank) (hs : N.IsSplice v N')
    (h : N.Fitted) : N'.Ranked rank := by
  refine .of_links (fun m hm => ?_) fun x y hx hy hxk hyl heq => ?_
  · rcases hs.cases hm with ⟨hm, _⟩ | ⟨a, b, ha, hb, _, _, hba, hms, hmt, _⟩
    · exact hr.link hm
    · calc rank m.source.vertex = rank a.source.vertex := by rw [hms]
        _ < rank a.target.vertex := hr.link ha
        _ = rank b.source.vertex := by rw [hba]
        _ < rank b.target.vertex := hr.link hb
        _ = rank m.target.vertex := by rw [hmt]
  · rcases hs.cases hx with ⟨hx, _⟩ | ⟨a, b, ha, hb, hav, hlin, hba, hxs, hxt, hk⟩ <;>
      rcases hs.cases hy with ⟨hy, hyv⟩ | ⟨a', b', ha', hb', _, hlin', hba', hys, hyt, hk'⟩
    · exact hr _ _ (.hazard hx hy hxk hyl heq)
    · -- the reader came before `v`, which comes before the end of the bridge
      calc rank x.target.vertex < rank a'.target.vertex := hr _ _ (.hazard hx ha' hxk hlin' (heq.trans hys))
        _ = rank b'.source.vertex := by rw [hba']
        _ < rank b'.target.vertex := hr.link hb'
        _ = rank y.target.vertex := by rw [hyt]
    · have : y = a := h.out_unique hy ha hyl hlin (heq.symm.trans hxs)
      exact absurd (by rw [this, hav]) hyv.2
    · -- both bridges lie over one pin, where the order was already so
      have haa : a = a' := h.out_unique ha ha' hlin hlin' (by rw [← hxs, ← hys, heq])
      have hbk : b.kind = .boolean := by
        rcases hk with ⟨_, hxa⟩ | ⟨_, hbk, _⟩
        · exact absurd (hxa.symm.trans hxk) (ne_boolean hlin)
        · exact hbk
      have hbl' : b'.kind.isLinear := by
        rcases hk' with ⟨hbl', _⟩ | ⟨_, _, hyk⟩
        · exact hbl'
        · exact absurd hyk (ne_boolean hyl)
      rw [hxt, hyt]
      exact hr _ _ (.hazard hb hb' hbk hbl' (by rw [hba, hba', haa]))

end Net

/-! # `Graph.bySequence` — vertices in the order in which they were made -/

open List Option SlotStore

/-! ## Sorting parts of a list -/

section Sorting

variable {α β κ : Type} [Ord κ] {l : List α} {key : α → κ} {x : α} {key' : β → κ} {f : α → β}

lemma insertBy_of_le (h : ∀ y ∈ l, (compare (key x) (key y)).isLE) : insertBy key x l = x :: l := by
  cases l with
  | nil => rfl
  | cons y rest => rw [insertBy, if_pos (h y mem_cons_self)]

lemma filter_insertBy [Std.TransOrd κ] {p : α → Bool} {l : List α}
    (hl : l.Pairwise fun a b => (compare (key a) (key b)).isLE) :
    (insertBy key x l).filter p = if p x then insertBy key x (l.filter p) else l.filter p := by
  induction l with
  | nil =>
    rw [insertBy, filter_cons, filter_nil]
    rfl
  | cons y rest ih =>
    obtain ⟨hy, hrest⟩ := pairwise_cons.mp hl
    rw [insertBy]
    split
    · next hle =>
      -- `x` stands before `y`, so before all that is left of the list
      have hall : ∀ z ∈ (y :: rest).filter p, (compare (key x) (key z)).isLE := by
        intro z hz
        rcases mem_cons.mp (mem_filter.mp hz).1 with rfl | hz
        · exact hle
        · exact Std.TransCmp.isLE_trans hle (hy z hz)
      rw [filter_cons, insertBy_of_le hall]
    · next hgt =>
      rw [filter_cons, ih hrest, filter_cons]
      by_cases hx : p x
      · rw [if_pos hx, if_pos hx]
        by_cases hpy : p y
        · rw [if_pos hpy, if_pos hpy, insertBy, if_neg hgt]
        · rw [if_neg hpy, if_neg hpy]
      · rw [if_neg hx, if_neg hx]

lemma filter_sortedBy [Std.TransOrd κ] (key : α → κ) (p : α → Bool) (l : List α) :
    (sortedBy key l).filter p = sortedBy key (l.filter p) := by
  induction l with
  | nil => rfl
  | cons x rest ih =>
    show (insertBy key x (sortedBy key rest)).filter p = _
    rw [filter_insertBy (pairwise_sortedBy key rest), ih, filter_cons]
    split
    · rfl
    · rfl

lemma map_insertBy
    (hf : ∀ y ∈ x :: l, key' (f y) = key y) : (insertBy key x l).map f = insertBy key' (f x) (l.map f) := by
  induction l with
  | nil => rfl
  | cons y rest ih =>
    obtain ⟨hx, hy, hrest⟩ := forall_mem_cons.mp hf |>.imp_right forall_mem_cons.mp
    rw [insertBy, map_cons, insertBy, hx, hy]
    split
    · rfl
    · rw [map_cons, ih (forall_mem_cons.mpr ⟨hx, hrest⟩)]

lemma map_sortedBy (hf : ∀ x ∈ l, key' (f x) = key x) :
    (sortedBy key l).map f = sortedBy key' (l.map f) := by
  induction l with
  | nil => rfl
  | cons x rest ih =>
    obtain ⟨hx, hrest⟩ := forall_mem_cons.mp hf
    show (insertBy key x (sortedBy key rest)).map f = insertBy key' (f x) (sortedBy key' (rest.map f))
    rw [map_insertBy (forall_mem_cons.mpr ⟨hx, fun y hy => hrest y (mem_sortedBy.mp hy)⟩), ih hrest]

end Sorting

namespace Graph

variable {g g' : Graph} {kind : NodeKind} {og : Option String} {v : Vertex}

/-! ## New vertices come last -/

/-- **Every vertex has a lower sequence number than the next one will get.** -/
def Sequenced (g : Graph) : Prop := ∀ v n, g.vertices.get? v = some n → n.sequence < g.nextSequence

lemma get?_withVertex_cases {n : Node} (hn : (g.withVertex kind og).vertices.get? v = some n) :
    (v = g.vertices.nextHandle ∧ n = ⟨kind, og, g.nextSequence⟩) ∨ g.vertices.get? v = some n := by
  by_cases hv : v = g.vertices.nextHandle
  · subst hv
    exact .inl ⟨rfl, mem_unique hn (get?_insert_same _ _)⟩
  · exact .inr ((get?_insert_other _ hv _).symm.trans hn)

lemma Sequenced.withVertex (h : g.Sequenced) : (g.withVertex kind og).Sequenced := by
  intro v n hn
  show n.sequence < g.nextSequence + 1
  rcases get?_withVertex_cases hn with ⟨_, rfl⟩ | hold
  · exact Nat.lt_succ_self _
  · exact Nat.lt_succ_of_lt (h v n hold)

lemma bySequence_withVertex (hg : g.Valid) (h : g.Sequenced) : (g.withVertex kind og).bySequence =
    g.bySequence ++ [(g.vertices.nextHandle, ⟨kind, og, g.nextSequence⟩)] := by
  refine insertBy_of_gt fun p hp => ?_
  have hlt := h p.1 p.2 ((mem_bySequence hg).mp hp)
  exact Nat.compare_eq_gt.mpr hlt

lemma Sequenced.withoutVertex (h : g.Sequenced) : (g.withoutVertex v).Sequenced := by
  intro w n hn
  exact h w n (get?_release_eq_some_iff.mp hn).2

lemma Sequenced.withKind (h : g.Sequenced) : (g.withKind v kind).Sequenced := by
  intro w n hn
  rw [Graph.withKind, get?_update] at hn
  split at hn
  · obtain ⟨n0, hn0, rfl⟩ := map_eq_some_iff.mp hn
    exact h w n0 hn0
  · exact h w n hn

/-! ## Properties that last -/

/-- **A property of graphs that lasts**: it asks for the sequence numbers only, and neither a new vertex nor one that goes
    can break it. -/
structure Lasting (P : Graph → Prop) : Prop where
  empty : P {}
  withVertex : ∀ {g : Graph} {kind og}, P g → P (g.withVertex kind og)
  withoutVertex : ∀ {g : Graph} {v}, P g → P (g.withoutVertex v)
  congr : ∀ {g g' : Graph}, P g → (∀ v, (g'.vertices.get? v).map Node.sequence = (g.vertices.get? v).map Node.sequence) →
      g'.nextSequence = g.nextSequence → P g'

lemma lasting_sequenced : Lasting Sequenced where
  empty _ _ hn := nomatch hn
  withVertex h := h.withVertex
  withoutVertex h := h.withoutVertex
  congr {g g'} h hsame hnext v n hn := by
    have hseq := hsame v
    rw [hn, map_some] at hseq
    obtain ⟨n0, hn0, heq⟩ := map_eq_some_iff.mp hseq.symm
    rw [← heq, hnext]
    exact h v n0 hn0

/-- **A property of the vertices and of the next number**, which goes on when a vertex goes. -/
structure Prunable (P : Graph → Prop) : Prop where
  withoutVertex : ∀ {g : Graph} {v}, P g → P (g.withoutVertex v)
  of_vertices : ∀ {g g' : Graph}, P g → g'.vertices = g.vertices → g'.nextSequence = g.nextSequence → P g'

section Lasting

variable {P : Graph → Prop} (hP : Lasting P)
include hP

lemma Lasting.of_vertices (h : P g) (hvert : g'.vertices = g.vertices) (hnext : g'.nextSequence = g.nextSequence) :
    P g' :=
  hP.congr h (fun v => by rw [hvert]) hnext

lemma Lasting.prunable : Prunable P := ⟨hP.withoutVertex, hP.of_vertices⟩

lemma Lasting.withKind (h : P g) : P (g.withKind v kind) := by
  refine hP.congr h (fun w => ?_) rfl
  rw [Graph.withKind, get?_update]
  split
  · rw [Option.map_map]
    rfl
  · rfl

lemma addVertex_lasts : Keeps P (addVertex kind og) := by
  intro g v g' h hrun
  cases hrun
  exact hP.withVertex h

end Lasting

section Prunable

variable {P : Graph → Prop} (hP : Prunable P)
include hP

lemma addLink_prunes (l : Link) : Keeps P (addLink l) :=
  ask_keeps.bind fun _ => ask_keeps.bind fun _ _ _ _ h hrun => by
    cases hrun
    exact hP.of_vertices h rfl rfl

lemma removeEdge_prunes (e : Edge) : Keeps P (removeEdge e) :=
  ask_keeps.bind fun _ => Keeps.bind (Keeps.modify fun _ h => hP.of_vertices h rfl rfl) fun _ => Keeps.pure _

lemma spliceLink_prunes (l : Link) : Keeps P (spliceLink l) := by
  refine Keeps.ite ?_ (Keeps.pure _)
  refine ask_keeps.bind fun _ => (addLink_prunes hP _).bind fun _ => Keeps.ite ?_ (Keeps.pure _)
  exact Keeps.get.bind fun _ => Keeps.forM fun _ _ => (addLink_prunes hP _).discard

end Prunable

/-! ## The list of vertices after an edit -/

lemma made_of_vertices (h : g'.vertices = g.vertices) : g'.bySequence.map Prod.fst = g.bySequence.map Prod.fst := by
  unfold bySequence
  rw [h]

lemma made_withVertex (hg : g.Valid) (h : g.Sequenced) :
    (g.withVertex kind og).bySequence.map Prod.fst = g.bySequence.map Prod.fst ++ [g.vertices.nextHandle] := by
  rw [bySequence_withVertex hg h, map_append]
  rfl

lemma made_of_release (h : g'.vertices = g.vertices.release v) :
    g'.bySequence.map Prod.fst = (g.bySequence.map Prod.fst).filter fun w => w ≠ v := by
  unfold bySequence
  rw [h, List.filter_map, filter_sortedBy]
  rfl

lemma made_withKind : (g.withKind v kind).bySequence.map Prod.fst = g.bySequence.map Prod.fst := by
  let change : Vertex × Node → Vertex × Node := fun p => if p.1 = v then (p.1, { p.2 with kind }) else p
  have hkey : ∀ p, (change p).2.sequence = p.2.sequence := by
    intro p
    simp only [change]
    split
    · rfl
    · rfl
  have hfst : Prod.fst ∘ change = Prod.fst := by
    funext p
    simp only [change, Function.comp_apply]
    split
    · rfl
    · rfl
  have hsorted : (g.withKind v kind).bySequence = g.bySequence.map change := by
    exact (map_sortedBy (f := change) fun p _ => hkey p).symm
  rw [hsorted, List.map_map, hfst]

end Graph

end Wireloom

/-! # `Graph.removeVertex` — links at a vertex that is taken out -/

namespace Wireloom

open List

namespace Graph

variable {g g' g'' : Graph} {v : Vertex} {l : Link} {P : Link → Prop} {es : List (Edge × Link)} {Q : Link → Prop} {α : Type}

/-! ## Edits that only put links in -/

/-- **`g'` is `g` with new links.** The vertices and the old edges stay as they are. -/
structure Grows (g g' : Graph) (new : Link → Prop) : Prop where
  valid : g'.Valid
  simple : g'.Simple
  vertices : g'.vertices = g.vertices
  sequence : g'.nextSequence = g.nextSequence
  links : ∀ m, g'.HasLink m ↔ g.HasLink m ∨ new m
  kept : ∀ {e m}, g.edges.get? e = some m → g'.edges.get? e = some m

variable (hg : g.Valid) (hs : g.Simple) (hv : g.Live v) (h : g.net.Spliceable v)

include hg hs in
lemma Grows.refl : Grows g g fun _ => False :=
  ⟨hg, hs, rfl, rfl, fun _ => by simp, id⟩

lemma Grows.trans (h : Grows g g' P) (h' : Grows g' g'' Q) : Grows g g'' fun m => P m ∨ Q m where
  valid := h'.valid
  simple := h'.simple
  vertices := h'.vertices.trans h.vertices
  sequence := h'.sequence.trans h.sequence
  links m := by rw [h'.links, h.links, or_assoc]
  kept he := h'.kept (h.kept he)

lemma Grows.congr (h : Grows g g' P) (hPQ : ∀ m, P m ↔ Q m) : Grows g g' Q :=
  { h with links := fun m => by rw [h.links, hPQ] }

lemma Grows.live (h : Grows g g' P) {w : Vertex} : g'.Live w ↔ g.Live w := live_congr h.vertices

lemma Grows.kind? (h : Grows g g' P) (w : Vertex) : g'.kind? w = g.kind? w := by
  unfold Graph.kind?
  rw [h.vertices]

include hg hs in
lemma addLink_grows (hnew : ¬ g.HasLink l) (hsrc : g.Live l.source.vertex) (htgt : g.Live l.target.vertex) :
    ∃ g', addLink l g = .ok g.edges.nextHandle g' ∧ Grows g g' (· = l) :=
  ⟨g.withLink l, addLink_of_live hsrc htgt, hg.withLink hsrc htgt, hs.withLink hg hnew, rfl, rfl,
    fun m => by rw [hasLink_withLink hg, or_comm], get?_withLink_of_some hg⟩

/-- **A loop of edits that put links in.** Each step may use what the steps before it put in. -/
theorem forM_grows {f : α → Edit PUnit} (new : α → Link → Prop) {l : List α} (hg : g.Valid) (hs : g.Simple)
    (step : ∀ done x rest g', l = done ++ x :: rest → Grows g g' (fun m => ∃ y ∈ done, new y m) →
      ∃ g'', f x g' = .ok ⟨⟩ g'' ∧ Grows g' g'' (new x)) :
    ∃ g', l.forM f g = .ok ⟨⟩ g' ∧ Grows g g' (fun m => ∃ x ∈ l, new x m) := by
  refine forM_of_prefix (fun done g' => Grows g g' fun m => ∃ y ∈ done, new y m) (fun done x rest g1 hl hgrow => ?_)
    ((Grows.refl hg hs).congr (by simp))
  obtain ⟨g2, hx, hstep⟩ := step done x rest g1 hl hgrow
  refine ⟨g2, hx, (hgrow.trans hstep).congr fun m => ?_⟩
  simp only [mem_append, mem_singleton, or_and_right, exists_or, exists_eq_left]

lemma addLinks_grows {new : α → Link} {l : List α} (hg : g.Valid) (hs : g.Simple)
    (hdistinct : (l.map new).Nodup) (hnew : ∀ x ∈ l, ¬ g.HasLink (new x))
    (hsrc : ∀ x ∈ l, g.Live (new x).source.vertex) (htgt : ∀ x ∈ l, g.Live (new x).target.vertex) :
    ∃ g', l.forM (fun x => discard (addLink (new x))) g = .ok ⟨⟩ g' ∧ Grows g g' (fun m => ∃ x ∈ l, m = new x) := by
  refine forM_grows (fun x m => m = new x) hg hs fun done x rest g1 hl hgrow => ?_
  have hx : x ∈ l := by simp [hl]
  have hnot : ¬ g1.HasLink (new x) := by
    rw [hgrow.links]
    rintro (h | ⟨y, hy, hxy⟩)
    · exact hnew x hx h
    · rw [hl, map_append, map_cons, nodup_append] at hdistinct
      exact hdistinct.2.2 _ (mem_map_of_mem hy) _ mem_cons_self hxy.symm
  obtain ⟨g2, hrun, hgrow'⟩ := addLink_grows hgrow.valid hgrow.simple hnot (hgrow.live.mpr (hsrc x hx))
    (hgrow.live.mpr (htgt x hx))
  exact ⟨g2, discard_of_ok hrun, hgrow'⟩

include hg hs in
/-- **What reads one pin is made to read another one, too.** -/
theorem addReads_grows {p q : Pin} (hq : g.Live q.vertex)
    (hnew : ∀ l, g.HasLink l → l.source = p → l.kind = .boolean → ¬ g.HasLink ⟨q, l.target, .boolean⟩) :
    ∃ g', (g.reads p).forM (fun x => discard (addLink ⟨q, x.2.target, .boolean⟩)) g = .ok ⟨⟩ g' ∧
      Grows g g' fun m => ∃ l, g.HasLink l ∧ l.source = p ∧ l.kind = .boolean ∧ m = ⟨q, l.target, .boolean⟩ := by
  have hreads : ∀ x ∈ g.reads p, g.edges.get? x.1 = some x.2 ∧ x.2.source = p ∧ x.2.kind = .boolean := fun x hx =>
    (mem_reads hg).mp hx
  -- two reads of the pin that end in the same place are one
  have hdistinct : ((g.reads p).map fun x => (⟨q, x.2.target, .boolean⟩ : Link)).Nodup := by
    refine Nodup.map_on (fun x hx y hy heq => ?_) (Nodup.of_map _ (nodup_reads hg p))
    obtain ⟨hx, hxs, hxk⟩ := hreads x hx
    obtain ⟨hy, hys, hyk⟩ := hreads y hy
    have htarget : x.2.target = y.2.target := (Link.mk.inj heq).2.1
    have hxy : x.2 = y.2 := by
      rw [show x.2 = ⟨x.2.source, x.2.target, x.2.kind⟩ from rfl, hxs, hxk, htarget, ← hys, ← hyk]
    exact Prod.ext (hs hx (hxy ▸ hy)) hxy
  obtain ⟨g', hrun, hgrow⟩ := addLinks_grows hg hs hdistinct
    (fun x hx => hnew x.2 ⟨_, (hreads x hx).1⟩ (hreads x hx).2.1 (hreads x hx).2.2) (fun _ _ => hq)
    (fun x hx => hg.target_live (l := x.2) ⟨_, (hreads x hx).1⟩)
  refine ⟨g', hrun, hgrow.congr fun m => ⟨?_, ?_⟩⟩
  · rintro ⟨x, hx, rfl⟩
    obtain ⟨hget, hrest⟩ := hreads x hx
    exact ⟨x.2, ⟨_, hget⟩, hrest.1, hrest.2, rfl⟩
  · rintro ⟨l, ⟨e, hl⟩, hsource, hk, rfl⟩
    exact ⟨(e, l), (mem_reads hg).mpr ⟨hl, hsource, hk⟩, rfl⟩

/-! ## Taking several edges out -/

def withoutEdges (g : Graph) (es : List (Edge × Link)) : Graph := es.foldl (fun g p => g.withoutEdge p.1) g

lemma get?_withoutEdges {e : Edge} :
    (g.withoutEdges es).edges.get? e = some l ↔ e ∉ es.map Prod.fst ∧ g.edges.get? e = some l := by
  induction es generalizing g with
  | nil => simp [withoutEdges]
  | cons p rest ih =>
    show ((g.withoutEdge p.1).withoutEdges rest).edges.get? e = some l ↔ _
    rw [ih, get?_withoutEdge, map_cons, mem_cons, not_or]
    tauto

@[simp] lemma vertices_withoutEdges : (g.withoutEdges es).vertices = g.vertices := by
  induction es generalizing g with
  | nil => rfl
  | cons p rest ih => exact ih

lemma nextSequence_withoutEdges (es : List (Edge × Link)) (g : Graph) :
    (g.withoutEdges es).nextSequence = g.nextSequence := by
  induction es generalizing g with
  | nil => rfl
  | cons p rest ih => exact ih (g.withoutEdge p.1)

lemma Valid.withoutEdges (hg : g.Valid) (hn : (es.map Prod.fst).Nodup) (hes : ∀ p ∈ es, g.edges.get? p.1 = some p.2)
    : (g.withoutEdges es).Valid := by
  induction es generalizing g with
  | nil => exact hg
  | cons p rest ih =>
    obtain ⟨hnot, hrest⟩ := nodup_cons.mp hn
    refine ih (hg.withoutEdge (hes p mem_cons_self)) hrest fun q hq => ?_
    refine get?_withoutEdge.mpr ⟨fun hqp => hnot (hqp ▸ mem_map_of_mem hq), ?_⟩
    exact hes q (mem_cons_of_mem _ hq)

lemma Simple.withoutEdges (hs : g.Simple) : (g.withoutEdges es).Simple := by
  intro e e' m h h'
  exact hs (get?_withoutEdges.mp h).2 (get?_withoutEdges.mp h').2

/-! ## Cutting a vertex off -/

/-- The edges at a vertex, as `isolate` takes them out. -/
def around (g : Graph) (v : Vertex) : List (Edge × Link) := g.incoming v ++ g.outgoing v

lemma nodup_around (hg : g.Valid) (hloop : g.net.NoLoop v) : ((g.around v).map Prod.fst).Nodup := by
  rw [around, map_append, nodup_append]
  refine ⟨nodup_incoming hg v, nodup_outgoing hg v, ?_⟩
  intro e he e' he' heq
  obtain ⟨⟨_, m⟩, hm, rfl⟩ := mem_map.mp he
  obtain ⟨⟨_, m'⟩, hm', rfl⟩ := mem_map.mp he'
  obtain ⟨hget, hin⟩ := (mem_incoming hg).mp hm
  obtain ⟨hget', hout⟩ := (mem_outgoing hg).mp hm'
  simp only at heq
  rw [heq, hget'] at hget
  exact hloop m' ⟨_, hget'⟩ hout (Option.some.inj hget ▸ hin)

lemma get?_of_mem_around (hg : g.Valid) {p : Edge × Link} (hp : p ∈ g.around v) : g.edges.get? p.1 = some p.2 := by
  rcases mem_append.mp hp with hp | hp
  · exact ((mem_incoming hg).mp hp).1
  · exact ((mem_outgoing hg).mp hp).1

lemma hasLink_isolated (hg : g.Valid) : (g.withoutEdges (g.around v)).HasLink l ↔ g.HasLink l ∧ Link.Avoids l v := by
  constructor
  · rintro ⟨e, he⟩
    obtain ⟨hnot, he⟩ := get?_withoutEdges.mp he
    refine ⟨⟨e, he⟩, fun hs => hnot ?_, fun ht => hnot ?_⟩
    · exact mem_map.mpr ⟨(e, l), mem_append_right _ ((mem_outgoing hg).mpr ⟨he, hs⟩), rfl⟩
    · exact mem_map.mpr ⟨(e, l), mem_append_left _ ((mem_incoming hg).mpr ⟨he, ht⟩), rfl⟩
  · rintro ⟨⟨e, he⟩, hs, ht⟩
    refine ⟨e, get?_withoutEdges.mpr ⟨fun hmem => ?_, he⟩⟩
    obtain ⟨⟨_, m⟩, hm, rfl⟩ := mem_map.mp hmem
    rcases mem_append.mp hm with hm | hm
    · obtain ⟨hget, hin⟩ := (mem_incoming hg).mp hm
      rw [he] at hget; cases hget
      exact ht hin
    · obtain ⟨hget, hout⟩ := (mem_outgoing hg).mp hm
      rw [he] at hget; cases hget
      exact hs hout

lemma isolate_run (hv : g.Live v) : isolate v g = .ok ⟨⟩ (g.withoutEdges (g.around v)) := by
  obtain ⟨n, hn, _⟩ := node_of_live hv
  unfold isolate
  rw [bind_ok (ask_of_ok hn)]
  rfl

/-- What is left of the vertices when one is removed. -/
def Deletion.left (deletion : Deletion) (s : SlotStore Node) (v : Vertex) : SlotStore Node :=
  if deletion = .delete then s.release v else s

include hg hv in
lemma isolate_delete_run (deletion : Deletion) (hloop : g.net.NoLoop v) :
    ∃ g', (isolate v >>= fun _ => if deletion = .delete then modify (·.withoutVertex v) else pure ()) g
        = .ok ⟨⟩ g' ∧ g'.Valid ∧ (g.Simple → g'.Simple) ∧ g'.vertices = Deletion.left deletion g.vertices v ∧
      ∀ m, g'.HasLink m ↔ g.HasLink m ∧ Link.Avoids m v := by
  have hvalid := hg.withoutEdges (nodup_around hg hloop) fun p hp => get?_of_mem_around hg hp
  rw [bind_ok (isolate_run hv)]
  cases deletion with
  | delete =>
    refine ⟨(g.withoutEdges (g.around v)).withoutVertex v, rfl, ?_, fun hs => hs.withoutEdges, ?_, fun m => ?_⟩
    · exact hvalid.withoutVertex ((live_congr vertices_withoutEdges).mpr hv) fun m hm => ((hasLink_isolated hg).mp hm).2
    · show (g.withoutEdges (g.around v)).vertices.release v = _
      rw [vertices_withoutEdges]
      rfl
    · exact hasLink_isolated hg
  | keep =>
    exact ⟨g.withoutEdges (g.around v), rfl, hvalid, fun hs => hs.withoutEdges, vertices_withoutEdges,
      fun m => hasLink_isolated hg⟩

include hg hv in
lemma removeVertex_cut_run (deletion : Deletion) (hloop : g.net.NoLoop v) :
    ∃ g', removeVertex v .cut deletion g = .ok ⟨⟩ g' ∧ g'.Valid ∧ (g.Simple → g'.Simple) ∧
      g'.vertices = Deletion.left deletion g.vertices v ∧ ∀ m, g'.HasLink m ↔ g.HasLink m ∧ Link.Avoids m v := by
  obtain ⟨n, hn, _⟩ := node_of_live hv
  obtain ⟨g', hrun, hrest⟩ := isolate_delete_run hg hv deletion hloop
  refine ⟨g', ?_, hrest⟩
  unfold removeVertex
  rw [bind_ok (ask_of_ok hn)]
  exact hrun

/-! ## Splicing a vertex -/

include h in
/-- **Splicing one link.** On a graph that has grown by bridges of other links only, `spliceLink` puts in the
    bridges of its link. -/
theorem spliceLink_run (hgrow : Grows g g' P) {a : Link} (ha : g.HasLink a)
    (hav : a.target.vertex = v) (hP : ∀ m, P m → m.source.vertex ≠ v)
    (hfresh : ∀ m, g.net.Bridges a m → ¬ P m) (hg : g.Valid) :
    ∃ g'', spliceLink a g' = .ok ⟨⟩ g'' ∧ Grows g' g'' (g.net.Bridges a) := by
  unfold spliceLink
  by_cases hlin : a.kind.isLinear
  · rw [if_pos hlin]
    -- the links out of the pin are those of `g`: what was added starts elsewhere
    have hout : ∀ m, m.source = a.target → (g'.HasLink m ↔ g.HasLink m) := by
      intro m hm
      rw [hgrow.links]
      exact ⟨fun hor => hor.resolve_right fun hp => hP m hp (by rw [hm, hav]), .inl⟩
    obtain ⟨b, hb, hba, hblin⟩ := h.out_exists a ha hav hlin
    have hbv : b.source.vertex = v := by rw [hba, hav]
    obtain ⟨e, hlink, _⟩ := linkOut_of_unique hgrow.valid ((hout b hba).mpr hb) hblin
      fun m hm hms hml => h.out_unique b m hb ((hout m (hms.trans hba)).mp hm) hbv hms hblin hml
    rw [hba] at hlink
    have hbridge : g.net.Bridges a ⟨a.source, b.target, a.kind⟩ := ⟨hlin, b, hb, hba, rfl, rfl, .inl ⟨hblin, rfl⟩⟩
    have hnew : ∀ m, g.net.Bridges a m → ¬ g'.HasLink m := by
      intro m hm
      rw [hgrow.links]
      exact fun hor => hor.elim (h.bridge_new ha hav hm) (hfresh m hm)
    have hlive : g'.Live a.source.vertex := hgrow.live.mpr (hg.source_live ha)
    obtain ⟨g1, hadd, hg1⟩ := addLink_grows hgrow.valid hgrow.simple (hnew _ hbridge) hlive
      (hgrow.live.mpr (show g.Live b.target.vertex from hg.target_live hb))
    rw [bind_ok (ask_of_ok hlink)]
    show ∃ g'', (addLink ⟨a.source, b.target, a.kind⟩ >>= fun _ => _) g' = _ ∧ _
    rw [bind_ok hadd]
    have hlinear : ∀ m, g.net.Bridges a m → m.kind.isLinear → m = ⟨a.source, b.target, a.kind⟩ := fun m hm hml =>
      h.bridge_linear hav hb hba hblin hm hml
    by_cases hcl : a.kind = .classical
    · rw [if_pos hcl]
      -- the reads of the pin are those of `g`, too
      have hread : ∀ q, g1.HasLink q → q.source = a.target → q.kind = .boolean → g.HasLink q := by
        intro q hq hqs hqk
        refine (hout q hqs).mp (((hg1.links q).mp hq).resolve_right ?_)
        rintro rfl
        cases hcl.symm.trans hqk
      have hbr : ∀ q, g.HasLink q → q.source = a.target → q.kind = .boolean →
          g.net.Bridges a ⟨a.source, q.target, .boolean⟩ := fun q hq hqs hqk =>
        ⟨hlin, q, hq, hqs, rfl, rfl, .inr ⟨hcl, hqk, rfl⟩⟩
      obtain ⟨g2, hrun, hg2⟩ := addReads_grows hg1.valid hg1.simple (p := a.target) (q := a.source) (hg1.live.mpr hlive) (by
        intro q hq hqs hqk
        rw [hg1.links]
        rintro (hm | hm)
        · exact hnew _ (hbr q (hread q hq hqs hqk) hqs hqk) hm
        · cases (congrArg Link.kind hm).trans hcl)
      refine ⟨g2, ?_, (hg1.trans hg2).congr fun m => ⟨?_, fun hm => ?_⟩⟩
      · rw [bind_get]
        exact hrun
      · rintro (rfl | ⟨q, hq, hqs, hqk, rfl⟩)
        · exact hbridge
        · exact hbr q (hread q hq hqs hqk) hqs hqk
      · by_cases hml : m.kind.isLinear
        · exact .inl (hlinear m hm hml)
        · right
          obtain ⟨_, b', hb', hba', hms, _, hk⟩ := hm
          rcases hk with ⟨_, hmk⟩ | ⟨_, hb'k, hmk⟩
          · exact absurd (hmk ▸ hlin) hml
          · refine ⟨b', (hg1.links b').mpr (.inl ((hout b' hba').mpr hb')), hba', hb'k, ?_⟩
            cases m; simp_all
    · rw [if_neg hcl]
      refine ⟨g1, rfl, hg1.congr fun m => ⟨fun hm => hm ▸ hbridge, fun hm => hlinear m hm ?_⟩⟩
      obtain ⟨_, b', _, _, _, _, hk⟩ := hm
      rcases hk with ⟨_, hmk⟩ | ⟨hcl', _, _⟩
      · rw [hmk]; exact hlin
      · exact absurd hcl' hcl
  · rw [if_neg hlin]
    exact ⟨g', rfl, (Grows.refl hgrow.valid hgrow.simple).congr fun m =>
      ⟨False.elim, fun hm => hlin hm.1⟩⟩

include hg hs h in
lemma splice_run : ∃ g', splice v g = .ok ⟨⟩ g' ∧
      Grows g g' fun m => ∃ a, g.HasLink a ∧ a.target.vertex = v ∧ g.net.Bridges a m := by
  have hin : ∀ p ∈ g.inLinks v, g.HasLink p.2 ∧ p.2.target.vertex = v := by
    rintro ⟨e, a⟩ hp
    obtain ⟨hget, hav⟩ := (mem_inLinks hg).mp hp
    exact ⟨⟨e, hget⟩, hav⟩
  obtain ⟨g', hrun, hgrow⟩ := forM_grows (fun p => g.net.Bridges p.2) (l := g.inLinks v) hg hs fun done p rest g1 hl hgrow => by
      have hp := hin p (by simp [hl])
      refine spliceLink_run h hgrow hp.1 hp.2 ?_ ?_ hg
      · rintro m ⟨q, hq, hm⟩
        have hq' := hin q (by simp [hl, hq])
        exact (h.bridge_avoids hq'.1 hq'.2 hm).1
      · rintro m hm ⟨q, hq, hqm⟩
        have hq' := hin q (by simp [hl, hq])
        have hqp : q.2 = p.2 := h.bridge_injective hp.1 hq'.1 hp.2 hm hqm
        -- two entries with one link are one entry, so `p` would stand twice in the list
        have hnd := nodup_inLinks hg v
        rw [hl, map_append, map_cons, nodup_append] at hnd
        have hp3 := ((mem_inLinks hg (e := p.1) (l := p.2) (v := v)).mp (by simp [hl])).1
        have hq3 := ((mem_inLinks hg (e := q.1) (l := q.2) (v := v)).mp (by simp [hl, hq])).1
        exact hnd.2.2 _ (mem_map_of_mem hq) _ mem_cons_self (hs hq3 (hqp ▸ hp3))
  refine ⟨g', ?_, hgrow.congr fun m => ⟨?_, ?_⟩⟩
  · unfold splice
    exact hrun
  · rintro ⟨p, hp, hm⟩
    exact ⟨p.2, (hin p hp).1, (hin p hp).2, hm⟩
  · rintro ⟨a, ⟨e, he⟩, hav, hm⟩
    exact ⟨(e, a), (mem_inLinks hg).mpr ⟨he, hav⟩, hm⟩

include hg hs hv h in
lemma removeVertex_splice_run : ∃ g', removeVertex v .splice .delete g = .ok ⟨⟩ g' ∧ g'.Valid ∧ g'.Simple ∧
      g'.vertices = g.vertices.release v ∧ g.net.IsSplice v g'.net := by
  obtain ⟨n, hn, _⟩ := node_of_live hv
  obtain ⟨g1, hsplice, hgrow⟩ := splice_run hg hs h
  have hloop : g1.net.NoLoop v := by
    intro l hl hls
    rcases (hgrow.links l).mp hl with hl | ⟨a, ha, hav, hm⟩
    · exact h.no_loop l hl hls
    · exact absurd hls (h.bridge_avoids ha hav hm).1
  obtain ⟨g', hrun, hvalid, hsimple, hvert, hlinks⟩ :=
    isolate_delete_run hgrow.valid (hgrow.live.mpr hv) .delete hloop
  have hvert' : g'.vertices = g.vertices.release v := by rw [hvert, hgrow.vertices]; rfl
  refine ⟨g', ?_, hvalid, hsimple hgrow.simple, hvert', fun w => ?_, fun m => ?_⟩
  · unfold removeVertex
    rw [bind_ok (ask_of_ok hn)]
    show (splice v >>= fun _ => _) g = _
    rw [bind_ok hsplice]
    exact hrun
  · show (g'.kind? w).map _ = if w = v then none else (g.kind? w).map _
    rw [kind?_of_release hvert']
    split <;> rfl
  · show g'.HasLink m ↔ _
    rw [hlinks, hgrow.links]
    constructor
    · rintro ⟨hm | hm, hav⟩
      · exact .inl ⟨hm, hav⟩
      · exact .inr hm
    · rintro (⟨hm, hav⟩ | ⟨a, ha, hav, hm⟩)
      · exact ⟨.inl hm, hav⟩
      · exact ⟨.inr ⟨a, ha, hav, hm⟩, h.bridge_avoids ha hav hm⟩

lemma removeVertex_prunes {P : Graph → Prop} (hP : Prunable P) (v : Vertex) (rewiring : Rewiring)
    (deletion : Deletion) : Keeps P (removeVertex v rewiring deletion) := by
  have hisolate : Keeps P (isolate v) := ask_keeps.bind fun _ => Keeps.modify fun g h =>
    hP.of_vertices h (vertices_withoutEdges) (nextSequence_withoutEdges _ g)
  have hsplice : Keeps P (splice v) :=
    Keeps.get.bind fun _ => Keeps.forM fun _ _ => spliceLink_prunes hP _
  exact ask_keeps.bind fun _ => .when hsplice (hisolate.bind fun _ => .ite (Keeps.modify fun _ => hP.withoutVertex) (.pure _))

end Graph

end Wireloom
