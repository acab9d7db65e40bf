import Wireloom.Circuit.Composition
import Wireloom.Proofs.Removal
import Wireloom.Proofs.WellFormed

/-!
# `Circuit.Pending` — wires whose ends are not registered yet

A circuit that takes another one in has its wires before it has its units: the copied ends wait until they are
registered, one unit after the other. `Pending` is `Wired` for such a circuit, with a list of the ends that wait.
-/

namespace Wireloom

namespace Net

variable {N N' : Net} {unit : Pin → UnitId} {first last : Vertex → Prop} {v i o : Vertex} {l m : Link} {p : Pin} {k : WireKind}

/-! ## Tying wires together -/

/-- **`N'` is `N` with the wire that ended at `o` going on at `i`.** -/
structure IsJoin (N : Net) (o i : Vertex) (N' : Net) : Prop where
  signature : ∀ w, N'.signature? w = if w = o then none else N.signature? w
  link : ∀ m, N'.link m ↔ (N.link m ∧ m.Avoids o) ∨ ∃ l, N.link l ∧ l.target.vertex = o ∧ m = ⟨l.source, ⟨i, 0⟩, l.kind⟩

/-- **An end and a start that fit together.** -/
structure Joinable (N : Net) (unit : Pin → UnitId) (first last : Vertex → Prop) (o i : Vertex) : Prop where
  threaded : N.Threaded unit
  complete : N.Complete first last
  last_out : last o
  first_in : first i
  not_first : ¬ first o
  not_last : ¬ last i
  signature : N.signature? i = N.signature? o
  same_unit : unit ⟨o, 0⟩ = unit ⟨i, 0⟩

namespace Joinable

variable (h : N.Joinable unit first last o i)
include h

lemma ne : i ≠ o := fun heq => h.not_last (heq ▸ h.last_out)

lemma target_eq (hl : N.link l) (hlo : l.target.vertex = o) :
    l.target = ⟨o, 0⟩ ∧ l.kind.isLinear ∧ N.wireAt ⟨i, 0⟩ = some l.kind := by
  obtain ⟨k, hs, hk⟩ := h.complete.last_wire h.last_out
  obtain ⟨hpin, hkind⟩ := pin_of_single (by rw [hlo]; exact hs) (h.threaded.target_wire hl)
  rw [hlo] at hpin
  refine ⟨hpin, by rw [hkind]; exact hk, ?_⟩
  rw [wireAt_of_single (by rw [h.signature]; exact hs), hkind]

lemma source_ne (hl : N.link l) : l.source.vertex ≠ o := fun heq =>
  h.complete.source_open hl (heq ▸ h.last_out)

lemma target_ne (hm : N.link m) : m.target.vertex ≠ i := fun heq =>
  h.complete.target_open h.threaded.toFitted hm (heq ▸ h.first_in)

end Joinable

lemma IsJoin.wireAt (hj : N.IsJoin o i N') (hp : p.vertex ≠ o) : N'.wireAt p = N.wireAt p :=
  wireAt_congr (by rw [hj.signature, if_neg hp])

variable (h : N.Joinable unit first last o i) (hj : N.IsJoin o i N')
include h hj

lemma IsJoin.cases (hm : N'.link m) : (N.link m ∧ m.target.vertex ≠ o) ∨
    ∃ l, N.link l ∧ l.target = ⟨o, 0⟩ ∧ l.kind.isLinear ∧ m = ⟨l.source, ⟨i, 0⟩, l.kind⟩ := by
  rcases (hj.link m).mp hm with ⟨hm, hav⟩ | ⟨l, hl, hlo, rfl⟩
  · exact .inl ⟨hm, hav.2⟩
  · obtain ⟨hpin, hlin, _⟩ := h.target_eq hl hlo
    exact .inr ⟨l, hl, hpin, hlin, rfl⟩

lemma Joinable.join_threaded : N'.Threaded unit where
  source_wire {m} hm := by
    rcases hj.cases h hm with ⟨hm, _⟩ | ⟨l, hl, _, _, rfl⟩
    · rw [hj.wireAt (h.source_ne hm)]
      exact h.threaded.source_wire hm
    · rw [hj.wireAt (h.source_ne hl)]
      exact h.threaded.source_wire hl
  target_wire {m} hm := by
    rcases hj.cases h hm with ⟨hm, hmo⟩ | ⟨l, hl, hlo, _, rfl⟩
    · rw [hj.wireAt hmo]
      exact h.threaded.target_wire hm
    · rw [hj.wireAt h.ne]
      exact (h.target_eq hl (congrArg Pin.vertex hlo)).2.2
  in_unique {m n} hm hn heq := by
    rcases hj.cases h hm with ⟨hm, _⟩ | ⟨l, hl, hlo, _, rfl⟩ <;> rcases hj.cases h hn with ⟨hn, _⟩ | ⟨l', hl', hlo', _, rfl⟩
    · exact h.threaded.in_unique hm hn heq
    · exact absurd (congrArg Pin.vertex heq) (h.target_ne hm)
    · exact absurd (congrArg Pin.vertex heq).symm (h.target_ne hn)
    · rw [h.threaded.in_unique hl hl' (hlo.trans hlo'.symm)]
  out_unique {m n} hm hn hml hnl heq := by
    rcases hj.cases h hm with ⟨hm, hmo⟩ | ⟨l, hl, hlo, hlin, rfl⟩ <;>
      rcases hj.cases h hn with ⟨hn, hno⟩ | ⟨l', hl', hlo', hlin', rfl⟩
    · exact h.threaded.out_unique hm hn hml hnl heq
    · have := h.threaded.out_unique hm hl' hml hlin' heq
      exact absurd (congrArg Pin.vertex (this ▸ hlo')) hmo
    · have := h.threaded.out_unique hl hn hlin hnl heq
      exact absurd (congrArg Pin.vertex (this ▸ hlo)) hno
    · rw [h.threaded.out_unique hl hl' hlin hlin' heq]
  same_unit {m} hm hml := by
    rcases hj.cases h hm with ⟨hm, _⟩ | ⟨l, hl, hlo, hlin, rfl⟩
    · exact h.threaded.same_unit hm hml
    · rw [h.threaded.same_unit hl hlin, hlo, h.same_unit]
  apart {a b} ha hb hak hbl heq := by
    rcases hj.cases h ha with ⟨ha, _⟩ | ⟨l, hl, _, hlin, rfl⟩
    · rcases hj.cases h hb with ⟨hb, _⟩ | ⟨l', hl', _, _, rfl⟩
      · exact h.threaded.apart ha hb hak hbl heq
      · exact absurd heq (h.target_ne ha)
    · exact absurd hak (WireKind.ne_boolean hlin)

lemma Joinable.join_complete : N'.Complete (fun v => first v ∧ v ≠ i) (fun v => last v ∧ v ≠ o) where
  fed_iff {p k} hp := by
    obtain ⟨hpo, hp⟩ := (wireAt_without hj.signature).mp hp
    by_cases hpi : p.vertex = i
    · -- the start of the second wire is fed by what led to the end of the first
      refine ⟨fun _ hfirst => hfirst.2 hpi, fun _ => ?_⟩
      obtain ⟨_, hs, _⟩ := h.complete.last_wire h.last_out
      obtain ⟨l, hl, hlo⟩ := (h.complete.fed_iff (wireAt_of_single hs)).mpr h.not_first
      have hpin := (pin_of_single (by rw [hpi, h.signature]; exact hs) hp).1
      exact ⟨⟨l.source, ⟨i, 0⟩, l.kind⟩, (hj.link _).mpr (.inr ⟨l, hl, congrArg Pin.vertex hlo, rfl⟩), by rw [hpin, hpi]⟩
    · have hfed : N'.Fed p ↔ N.Fed p := by
        constructor
        · rintro ⟨m, hm, rfl⟩
          rcases hj.cases h hm with ⟨hm, _⟩ | ⟨l, _, _, _, rfl⟩
          · exact ⟨m, hm, rfl⟩
          · exact absurd rfl hpi
        · rintro ⟨m, hm, rfl⟩
          exact ⟨m, (hj.link _).mpr (.inl ⟨hm, h.source_ne hm, hpo⟩), rfl⟩
      rw [hfed, h.complete.fed_iff hp]
      exact ⟨fun hn hfirst => hn hfirst.1, fun hn hfirst => hn ⟨hfirst, hpi⟩⟩
  drained_iff {p k} hp hk := by
    obtain ⟨hpo, hp⟩ := (wireAt_without hj.signature).mp hp
    have hdrained : N'.Drained p ↔ N.Drained p := by
      constructor
      · rintro ⟨m, hm, hml, rfl⟩
        rcases hj.cases h hm with ⟨hm, _⟩ | ⟨l, hl, _, hlin, rfl⟩
        · exact ⟨m, hm, hml, rfl⟩
        · exact ⟨l, hl, hlin, rfl⟩
      · rintro ⟨m, hm, hml, rfl⟩
        by_cases hmo : m.target.vertex = o
        · exact ⟨_, (hj.link _).mpr (.inr ⟨m, hm, hmo, rfl⟩), hml, rfl⟩
        · exact ⟨m, (hj.link _).mpr (.inl ⟨hm, h.source_ne hm, hmo⟩), hml, rfl⟩
    rw [hdrained, h.complete.drained_iff hp hk]
    exact ⟨fun hn hlast => hn hlast.1, fun hn hlast => hn ⟨hlast, hpo⟩⟩
  source_open {m} hm := by
    rcases hj.cases h hm with ⟨hm, _⟩ | ⟨l, hl, _, _, rfl⟩
    · exact fun hlast => h.complete.source_open hm hlast.1
    · exact fun hlast => h.complete.source_open hl hlast.1
  first_wire {v} hv := by
    obtain ⟨k, hs, hk⟩ := h.complete.first_wire hv.1
    have hvo : v ≠ o := fun heq => h.not_first (heq ▸ hv.1)
    exact ⟨k, by rw [hj.signature, if_neg hvo, hs], hk⟩
  last_wire {v} hv := by
    obtain ⟨k, hs, hk⟩ := h.complete.last_wire hv.1
    exact ⟨k, by rw [hj.signature, if_neg hv.2, hs], hk⟩

lemma Joinable.join_ranked {α : Type} [Preorder α] {rank : Vertex → α} (hr : N.Ranked rank)
    (hoi : rank o ≤ rank i) : N'.Ranked rank := by
  refine .of_links (fun m hm => ?_) fun a b ha hb hak hbl heq => ?_
  · rcases hj.cases h hm with ⟨hm, _⟩ | ⟨l, hl, hlo, _, rfl⟩
    · exact hr.link hm
    · have hlt := hr.link hl
      rw [hlo] at hlt
      exact lt_of_lt_of_le hlt hoi
  · rcases hj.cases h ha with ⟨ha, _⟩ | ⟨l, _, _, hlin, rfl⟩
    · rcases hj.cases h hb with ⟨hb, _⟩ | ⟨l, hl, hlo, hlin, rfl⟩
      · exact hr _ _ (.hazard ha hb hak hbl heq)
      · have hlt := hr _ _ (.hazard ha hl hak hlin heq)
        rw [hlo] at hlt
        exact lt_of_lt_of_le hlt hoi
    · exact absurd hak (WireKind.ne_boolean hlin)

end Net

lemma Graph.join_run {g : Graph} {unit : Pin → UnitId} {first last : Vertex → Prop} {o i : Vertex}
    (hg : g.Valid) (hs : g.Simple) (hj : g.net.Joinable unit first last o i) :
    ∃ e l e' g1 g2, g.linkIn ⟨o, 0⟩ = .ok (e, l) ∧ addLink ⟨l.source, ⟨i, 0⟩, l.kind⟩ g = .ok e' g1 ∧
      removeVertex o .cut .delete g1 = .ok ⟨⟩ g2 ∧ g2.Valid ∧ g2.Simple ∧ g2.vertices = g.vertices.release o ∧
      g.net.IsJoin o i g2.net := by
  obtain ⟨k, hsig, _⟩ := hj.complete.last_wire hj.last_out
  obtain ⟨l, hl, hlo⟩ := (hj.complete.fed_iff (Net.wireAt_of_single hsig)).mpr hj.not_first
  obtain ⟨e, hlinkIn, _⟩ := linkIn_of_unique hg hl hj.threaded.in_unique
  rw [hlo] at hlinkIn
  have hlive : ∀ {v s}, g.net.signature? v = some s → g.Live v := by
    intro v s hv
    obtain ⟨k, hk, _⟩ := Option.map_eq_some_iff.mp hv
    exact live_of_kind? hk
  let new : Link := ⟨l.source, ⟨i, 0⟩, l.kind⟩
  have hnew : ¬ g.HasLink new := fun hnew => hj.target_ne hnew rfl
  obtain ⟨g1, hadd, hgrow⟩ := addLink_grows hg hs hnew (hg.source_live (l := l) hl) (hlive (hj.signature.trans hsig))
  have hsource : ∀ m, g1.HasLink m → m.source.vertex ≠ o := by
    intro m hm
    rcases (hgrow.links m).mp hm with hm | rfl
    · exact hj.source_ne hm
    · exact hj.source_ne (l := l) hl
  obtain ⟨g2, hremove, hvalid, hsimple, hvert, hlinks⟩ := removeVertex_cut_run hgrow.valid
    (hgrow.live.mpr (hlive hsig)) .delete fun m hm hmo => absurd hmo (hsource m hm)
  rw [hgrow.vertices] at hvert
  refine ⟨e, l, _, g1, g2, hlinkIn, hadd, hremove, hvalid, hsimple hgrow.simple, hvert, ?_, fun m => ?_⟩
  · intro w
    show (g2.kind? w).map _ = _
    rw [kind?_of_release hvert]
    split
    · rfl
    · rfl
  · show g2.HasLink m ↔ _
    rw [hlinks, hgrow.links]
    constructor
    · rintro ⟨hm | rfl, hav⟩
      · exact .inl ⟨hm, hav⟩
      · exact .inr ⟨l, hl, congrArg Pin.vertex hlo, rfl⟩
    · rintro (⟨hm, hav⟩ | ⟨l', hl', hlo', rfl⟩)
      · exact ⟨.inl hm, hav⟩
      · have heq : l' = l := hj.threaded.in_unique hl' hl ((hj.target_eq hl' hlo').1.trans hlo.symm)
        subst heq
        exact ⟨.inr rfl, hj.source_ne (l := l') hl', hj.ne⟩

namespace Circuit

open Wireloom.Graph SortedMap List Option

variable {c c' : Circuit} {unit : Pin → UnitId} {pending : List (UnitId × Ends)} {u : UnitId} {ends : Ends}
  {v : Vertex} {α : Type} [Preorder α] {rank : Vertex → α} {ends' : Ends} {g : Graph} {u' : UnitId}

/-! ## Circuits with pending units -/

/-- The ends of a unit of the circuit or of one that waits. -/
def HasEnds (c : Circuit) (pending : List (UnitId × Ends)) (u : UnitId) (ends : Ends) : Prop :=
  c.boundary.get? u = some ends ∨ (u, ends) ∈ pending

/-- **A circuit with wires that wait for their units to be registered.** `rank` orders the vertices as `Before`
    does; where a unit of the circuit also waits, the pending wire comes after that of the circuit. -/
structure Pending (c : Circuit) (unit : Pin → UnitId) (rank : Vertex → α) (pending : List (UnitId × Ends)) :
    Prop where
  starts : ∀ {u ends}, c.HasEnds pending u ends → ∃ k, c.graph.kind? ends.input = some k ∧ startsUnit u k = true
  stops : ∀ {u ends}, c.HasEnds pending u ends → ∃ k, c.graph.kind? ends.output = some k ∧ endsUnit u k = true
  only_ops : ∀ {v k}, c.graph.kind? v = some k → k.isBoundary = true →
    ∃ u ends, c.HasEnds pending u ends ∧ (ends.input = v ∨ ends.output = v)
  valid : c.graph.Valid
  simple : c.graph.Simple
  threaded : c.graph.net.Threaded unit
  complete : c.graph.net.Complete (fun v => ∃ u ends, c.HasEnds pending u ends ∧ ends.input = v)
    (fun v => ∃ u ends, c.HasEnds pending u ends ∧ ends.output = v)
  ranked : c.graph.net.Ranked rank
  unit_input : ∀ {u ends}, c.HasEnds pending u ends → unit ⟨ends.input, 0⟩ = u
  unit_output : ∀ {u ends}, c.HasEnds pending u ends → unit ⟨ends.output, 0⟩ = u
  nodup : (pending.map Prod.fst).Nodup
  after : ∀ {u ends ends'}, c.boundary.get? u = some ends → (u, ends') ∈ pending →
    rank ends.input < rank ends'.input ∧ rank ends.output < rank ends'.input ∧ rank ends.output < rank ends'.output

/-- **Wires that come to stand beside those of a circuit**, with the units that wait for them. They come after what
    is there. -/
structure Arrives (c : Circuit) (g : Graph) (M : Net) (unit : Pin → UnitId) (rank : Vertex → α)
    (pending : List (UnitId × Ends)) : Prop where
  valid : g.Valid
  simple : g.Simple
  union : c.graph.net.IsUnion M g.net
  threaded : M.Threaded unit
  complete : M.Complete (fun v => ∃ x ∈ pending, x.2.input = v) (fun v => ∃ x ∈ pending, x.2.output = v)
  ranked : M.Ranked rank
  old : ∀ {w k}, c.graph.kind? w = some k → g.kind? w = some k
  starts : ∀ x ∈ pending, ∃ k, g.kind? x.2.input = some k ∧ startsUnit x.1 k = true
  stops : ∀ x ∈ pending, ∃ k, g.kind? x.2.output = some k ∧ endsUnit x.1 k = true
  only_ops : ∀ {w k}, g.kind? w = some k → k.isBoundary = true →
    c.graph.kind? w = some k ∨ ∃ x ∈ pending, x.2.input = w ∨ x.2.output = w
  unit_input : ∀ x ∈ pending, unit ⟨x.2.input, 0⟩ = x.1
  unit_output : ∀ x ∈ pending, unit ⟨x.2.output, 0⟩ = x.1
  nodup : (pending.map Prod.fst).Nodup
  after : ∀ x ∈ pending, ∀ v, c.graph.Live v → rank v < rank x.2.input ∧ rank v < rank x.2.output

lemma exists_end_iff (side : Ends → Vertex) (v : Vertex) : (∃ u ends, c.HasEnds pending u ends ∧ side ends = v) ↔
      (∃ u ends, c.boundary.get? u = some ends ∧ side ends = v) ∨ ∃ x ∈ pending, side x.2 = v := by
  constructor
  · rintro ⟨u, ends, hu | hmem, hv⟩
    · exact .inl ⟨u, ends, hu, hv⟩
    · exact .inr ⟨_, hmem, hv⟩
  · rintro (⟨u, ends, hu, hv⟩ | ⟨x, hmem, hv⟩)
    · exact ⟨u, ends, .inl hu, hv⟩
    · exact ⟨x.1, x.2, .inr hmem, hv⟩

lemma Pending.of_arrives {unit' : Pin → UnitId} {M : Net} (ha : c.Arrives g M unit' rank pending)
    (h : c.Wired unit) (hunit : ∀ p, c.graph.Live p.vertex → unit' p = unit p) (hrank : c.graph.net.Ranked rank) :
    { c with graph := g }.Pending unit' rank pending := by
  have hthreaded := h.threaded.congr fun p hp => hunit p (signature?_iff.mp hp)
  refine
    { starts := fun {u ends} hends => ?_, stops := fun {u ends} hends => ?_, only_ops := fun {v k} hk hb => ?_
      valid := ha.valid, simple := ha.simple, threaded := ha.union.threaded hthreaded ha.threaded
      complete := ?_
      ranked := ha.union.ranked hthreaded.toFitted ha.threaded.toFitted hrank ha.ranked
      unit_input := fun {u ends} hends => ?_, unit_output := fun {u ends} hends => ?_
      nodup := ha.nodup, after := fun {u ends ends'} hu hmem => ?_ }
  · rcases hends with hu | hmem
    · obtain ⟨k, hk, hstart⟩ := h.starts hu
      exact ⟨k, ha.old hk, hstart⟩
    · exact ha.starts _ hmem
  · rcases hends with hu | hmem
    · obtain ⟨k, hk, hend⟩ := h.stops hu
      exact ⟨k, ha.old hk, hend⟩
    · exact ha.stops _ hmem
  · rcases ha.only_ops hk hb with hk | ⟨⟨u, ends⟩, hmem, hv⟩
    · rcases h.only_ops hk hb with ⟨u, ends, hu, hv⟩ | ⟨u, ends, hu, hv⟩
      · exact ⟨u, ends, .inl hu, .inl hv⟩
      · exact ⟨u, ends, .inl hu, .inr hv⟩
    · exact ⟨u, ends, .inr hmem, hv⟩
  · exact (ha.union.complete hthreaded.toFitted ha.threaded.toFitted h.complete ha.complete).congr
      (exists_end_iff Ends.input) (exists_end_iff Ends.output)
  · rcases hends with hu | hmem
    · exact (hunit _ (h.live_input hu)).trans (h.unit_input hu)
    · exact ha.unit_input _ hmem
  · rcases hends with hu | hmem
    · exact (hunit _ (h.live_output hu)).trans (h.unit_output hu)
    · exact ha.unit_output _ hmem
  · have hin := ha.after _ hmem _ (h.live_input hu)
    have hout := ha.after _ hmem _ (h.live_output hu)
    exact ⟨hin.1, hout.1, hout.2⟩

lemma hasEnds_nil : c.HasEnds [] u ends ↔ c.boundary.get? u = some ends := by simp [HasEnds]

lemma Pending.wired (h : c.Pending unit rank []) : c.Wired unit where
  starts hu := h.starts (.inl hu)
  stops hu := h.stops (.inl hu)
  only_ops hk hb := by
    obtain ⟨u, ends, hu, hv | hv⟩ := h.only_ops hk hb
    · exact .inl ⟨u, ends, hasEnds_nil.mp hu, hv⟩
    · exact .inr ⟨u, ends, hasEnds_nil.mp hu, hv⟩
  valid := h.valid
  simple := h.simple
  threaded := h.threaded
  complete := h.complete.congr (fun v => by simp only [hasEnds_nil]; rfl) fun v => by simp only [hasEnds_nil]; rfl
  acyclic := Net.acyclic_of_ranked h.ranked
  unit_input hu := h.unit_input (.inl hu)
  unit_output hu := h.unit_output (.inl hu)

def withEnds (c : Circuit) (u : UnitId) (ends : Ends) : Circuit := { c with boundary := c.boundary.insert u ends }

lemma hasEnds_register (hu : c.boundary.get? u = none) (hnot : u ∉ pending.map Prod.fst) :
    (c.withEnds u ends).HasEnds pending u' ends' ↔ c.HasEnds ((u, ends) :: pending) u' ends' := by
  unfold HasEnds withEnds
  rw [get?_insert, mem_cons, Prod.mk.injEq]
  by_cases heq : u' = u
  · subst heq
    have hmem : (u', ends') ∉ pending := fun hmem => hnot (mem_map_of_mem hmem)
    simp [hu, hmem, eq_comm]
  · simp [heq]

lemma Pending.register (h : c.Pending unit rank ((u, ends) :: pending)) (hu : c.boundary.get? u = none) :
    (c.withEnds u ends).Pending unit rank pending := by
  obtain ⟨hnot, hnodup⟩ := nodup_cons.mp h.nodup
  have hends : ∀ {u' ends'}, (c.withEnds u ends).HasEnds pending u' ends' ↔
      c.HasEnds ((u, ends) :: pending) u' ends' := hasEnds_register hu hnot
  exact
    { starts := fun hu' => h.starts (hends.mp hu')
      stops := fun hu' => h.stops (hends.mp hu')
      only_ops := fun hk hb => by simp only [hends]; exact h.only_ops hk hb
      valid := h.valid, simple := h.simple, threaded := h.threaded
      complete := h.complete.congr (fun v => by simp only [hends]) fun v => by simp only [hends]
      ranked := h.ranked
      unit_input := fun hu' => h.unit_input (hends.mp hu')
      unit_output := fun hu' => h.unit_output (hends.mp hu')
      nodup := hnodup
      after := fun {u' ends1 ends2} hu' hmem => by
        have hne : u' ≠ u := fun heq => hnot (mem_map.mpr ⟨_, hmem, heq⟩)
        unfold withEnds at hu'
        rw [get?_insert, if_neg hne] at hu'
        exact h.after hu' (mem_cons_of_mem _ hmem) }

/-! ## Tying a pending unit to a unit of the circuit -/

/-- **Where the wire of a unit goes on.** The end `o` of the wire of the circuit goes, the start of the pending wire
    becomes part of the wire or goes too. -/
structure Ties (c : Circuit) (g : Graph) (hostEnds ends : Ends) : Prop where
  gone : g.kind? hostEnds.output = none
  inner : ∀ {k}, g.kind? ends.input = some k → k.isBoundary = false
  kept : ∀ {w}, w ≠ hostEnds.output → w ≠ ends.input → g.kind? w = c.graph.kind? w

lemma Pending.input_ne_output (h : c.Pending unit rank pending) (hu : c.HasEnds pending u ends)
    (hu' : c.HasEnds pending u' ends') : ends.input ≠ ends'.output := by
  intro heq
  obtain ⟨k, hk, hstart⟩ := h.starts hu
  obtain ⟨_, hk', hend⟩ := h.stops hu'
  rw [heq, hk'] at hk; cases hk
  have hstart := (startsUnit_cases hstart).1
  rw [(endsUnit_cases hend).1] at hstart
  cases hstart

section Tie

variable {hostEnds : Ends} {g : Graph} (h : c.Pending unit rank ((u, ends) :: pending)) (hu : c.boundary.get? u = some hostEnds)
include h hu

lemma Pending.tied_cases (hends : c.HasEnds ((u, ends) :: pending) u ends') : ends' = hostEnds ∨ ends' = ends := by
  rcases hends with hends | hends
  · rw [hu] at hends
    exact .inl (some.inj hends).symm
  · rcases mem_cons.mp hends with heq | hmem
    · exact .inr (congrArg Prod.snd heq)
    · exact absurd (mem_map_of_mem hmem) (nodup_cons.mp h.nodup).1

lemma Pending.hasEnds_tie {u' : UnitId} :
    ({ c with graph := g }.withEnds u ⟨hostEnds.input, ends.output⟩).HasEnds pending u' ends' ↔
      (u' = u ∧ ends' = ⟨hostEnds.input, ends.output⟩) ∨ (u' ≠ u ∧ c.HasEnds ((u, ends) :: pending) u' ends') := by
  have hnot := (nodup_cons.mp h.nodup).1
  unfold HasEnds withEnds
  rw [get?_insert, mem_cons, Prod.mk.injEq]
  by_cases heq : u' = u
  · subst heq
    have hmem : (u', ends') ∉ pending := fun hmem => hnot (mem_map.mpr ⟨_, hmem, rfl⟩)
    simp [hmem, eq_comm]
  · simp [heq]

lemma Pending.ends_ne : hostEnds.input ≠ ends.input ∧ hostEnds.output ≠ ends.input ∧ hostEnds.output ≠ ends.output := by
  obtain ⟨h1, h2, h3⟩ := h.after hu mem_cons_self
  exact ⟨fun heq => lt_irrefl _ (heq ▸ h1), fun heq => lt_irrefl _ (heq ▸ h2), fun heq => lt_irrefl _ (heq ▸ h3)⟩

lemma Pending.first_tie (v : Vertex) :
    (∃ u' ends', ({ c with graph := g }.withEnds u ⟨hostEnds.input, ends.output⟩).HasEnds pending u' ends' ∧ ends'.input = v) ↔
    (∃ u' ends', c.HasEnds ((u, ends) :: pending) u' ends' ∧ ends'.input = v) ∧ v ≠ ends.input := by
  simp only [h.hasEnds_tie hu]
  constructor
  · rintro ⟨u', ends', ⟨rfl, rfl⟩ | ⟨hne, hends⟩, rfl⟩
    · exact ⟨⟨u', hostEnds, .inl hu, rfl⟩, (h.ends_ne hu).1⟩
    · refine ⟨⟨u', ends', hends, rfl⟩, fun heq => hne ?_⟩
      rw [← h.unit_input hends, heq, h.unit_input (.inr mem_cons_self)]
  · rintro ⟨⟨u', ends', hends, rfl⟩, hne⟩
    by_cases heq : u' = u
    · subst heq
      rcases h.tied_cases hu hends with rfl | rfl
      · exact ⟨u', _, .inl ⟨rfl, rfl⟩, rfl⟩
      · exact absurd rfl hne
    · exact ⟨u', ends', .inr ⟨heq, hends⟩, rfl⟩

lemma Pending.last_tie (v : Vertex) :
    (∃ u' ends', ({ c with graph := g }.withEnds u ⟨hostEnds.input, ends.output⟩).HasEnds pending u' ends' ∧ ends'.output = v) ↔
    (∃ u' ends', c.HasEnds ((u, ends) :: pending) u' ends' ∧ ends'.output = v) ∧ v ≠ hostEnds.output := by
  simp only [h.hasEnds_tie hu]
  constructor
  · rintro ⟨u', ends', ⟨rfl, rfl⟩ | ⟨hne, hends⟩, rfl⟩
    · exact ⟨⟨u', ends, .inr mem_cons_self, rfl⟩, (h.ends_ne hu).2.2.symm⟩
    · refine ⟨⟨u', ends', hends, rfl⟩, fun heq => hne ?_⟩
      rw [← h.unit_output hends, heq, h.unit_output (.inl hu)]
  · rintro ⟨⟨u', ends', hends, rfl⟩, hne⟩
    by_cases heq : u' = u
    · subst heq
      rcases h.tied_cases hu hends with rfl | rfl
      · exact absurd rfl hne
      · exact ⟨u', _, .inl ⟨rfl, rfl⟩, rfl⟩
    · exact ⟨u', ends', .inr ⟨heq, hends⟩, rfl⟩

lemma Pending.of_ties (hties : c.Ties g hostEnds ends) (hvalid : g.Valid) (hsimple : g.Simple)
    (hthreaded : g.net.Threaded unit)
    (hcomplete : g.net.Complete
      (fun v => (∃ u' ends', c.HasEnds ((u, ends) :: pending) u' ends' ∧ ends'.input = v) ∧ v ≠ ends.input)
      (fun v => (∃ u' ends', c.HasEnds ((u, ends) :: pending) u' ends' ∧ ends'.output = v) ∧ v ≠ hostEnds.output))
    (hranked : g.net.Ranked rank) :
    ({ c with graph := g }.withEnds u ⟨hostEnds.input, ends.output⟩).Pending unit rank pending := by
  obtain ⟨hnot, hnodup⟩ := nodup_cons.mp h.nodup
  have hhost : c.HasEnds ((u, ends) :: pending) u hostEnds := .inl hu
  have hguest : c.HasEnds ((u, ends) :: pending) u ends := .inr mem_cons_self
  -- what starts or ends a wire that is left is none of the two ends that meet
  have hfirst : ∀ {u' ends'}, c.HasEnds ((u, ends) :: pending) u' ends' → ends'.input ≠ ends.input →
      g.kind? ends'.input = c.graph.kind? ends'.input := fun hends hne =>
    hties.kept (h.input_ne_output hends hhost) hne
  have hlast : ∀ {u' ends'}, c.HasEnds ((u, ends) :: pending) u' ends' → ends'.output ≠ hostEnds.output →
      g.kind? ends'.output = c.graph.kind? ends'.output := fun hends hne =>
    hties.kept hne (h.input_ne_output hguest hends).symm
  refine
    { starts := fun {u' ends'} hends => ?_, stops := fun {u' ends'} hends => ?_, only_ops := fun {v k} hk hb => ?_
      valid := hvalid, simple := hsimple, threaded := hthreaded
      complete := hcomplete.congr (h.first_tie hu) (h.last_tie hu), ranked := hranked
      unit_input := fun {u' ends'} hends => ?_, unit_output := fun {u' ends'} hends => ?_
      nodup := hnodup, after := fun {u' ends1 ends2} hu' hmem => ?_ }
  · rcases (h.hasEnds_tie hu).mp hends with ⟨rfl, rfl⟩ | ⟨hne, hends⟩
    · obtain ⟨k, hk, hstart⟩ := h.starts hhost
      exact ⟨k, (hfirst hhost (h.ends_ne hu).1).trans hk, hstart⟩
    · obtain ⟨k, hk, hstart⟩ := h.starts hends
      refine ⟨k, (hfirst hends fun heq => hne ?_).trans hk, hstart⟩
      rw [← h.unit_input hends, heq, h.unit_input hguest]
  · rcases (h.hasEnds_tie hu).mp hends with ⟨rfl, rfl⟩ | ⟨hne, hends⟩
    · obtain ⟨k, hk, hend⟩ := h.stops hguest
      exact ⟨k, (hlast hguest (h.ends_ne hu).2.2.symm).trans hk, hend⟩
    · obtain ⟨k, hk, hend⟩ := h.stops hends
      refine ⟨k, (hlast hends fun heq => hne ?_).trans hk, hend⟩
      rw [← h.unit_output hends, heq, h.unit_output hhost]
  · replace hk : g.kind? v = some k := hk
    have hvo : v ≠ hostEnds.output := fun heq => by rw [heq, hties.gone] at hk; cases hk
    have hvi : v ≠ ends.input := fun heq => by rw [hties.inner (heq ▸ hk)] at hb; cases hb
    obtain ⟨u', ends', hends, hv | hv⟩ := h.only_ops ((hties.kept hvo hvi).symm.trans hk) hb
    · obtain ⟨u1, ends1, hends1, hv1⟩ := (h.first_tie hu v).mpr ⟨⟨u', ends', hends, hv⟩, hvi⟩
      exact ⟨u1, ends1, hends1, .inl hv1⟩
    · obtain ⟨u1, ends1, hends1, hv1⟩ := (h.last_tie hu v).mpr ⟨⟨u', ends', hends, hv⟩, hvo⟩
      exact ⟨u1, ends1, hends1, .inr hv1⟩
  · rcases (h.hasEnds_tie hu).mp hends with ⟨rfl, rfl⟩ | ⟨_, hends⟩
    · show unit ⟨hostEnds.input, 0⟩ = _
      exact h.unit_input hhost
    · exact h.unit_input hends
  · rcases (h.hasEnds_tie hu).mp hends with ⟨rfl, rfl⟩ | ⟨_, hends⟩
    · show unit ⟨ends.output, 0⟩ = _
      exact h.unit_output hguest
    · exact h.unit_output hends
  · have hne : u' ≠ u := fun heq => hnot (mem_map.mpr ⟨_, hmem, heq⟩)
    unfold withEnds at hu'
    rw [get?_insert, if_neg hne] at hu'
    exact h.after hu' (mem_cons_of_mem _ hmem)

lemma Pending.joinable : c.graph.net.Joinable unit
    (fun v => ∃ u' ends', c.HasEnds ((u, ends) :: pending) u' ends' ∧ ends'.input = v)
    (fun v => ∃ u' ends', c.HasEnds ((u, ends) :: pending) u' ends' ∧ ends'.output = v)
    hostEnds.output ends.input := by
  have hhost : c.HasEnds ((u, ends) :: pending) u hostEnds := .inl hu
  have hguest : c.HasEnds ((u, ends) :: pending) u ends := .inr mem_cons_self
  obtain ⟨k, hk, hend⟩ := h.stops hhost
  obtain ⟨_, hk', hstart⟩ := h.starts hguest
  refine ⟨h.threaded, h.complete, ⟨u, hostEnds, hhost, rfl⟩, ⟨u, ends, hguest, rfl⟩, ?_, ?_, ?_, ?_⟩
  · rintro ⟨u', ends', hends, heq⟩
    exact h.input_ne_output hends hhost heq
  · rintro ⟨u', ends', hends, heq⟩
    exact h.input_ne_output hguest hends heq.symm
  · show (c.graph.kind? ends.input).map _ = (c.graph.kind? hostEnds.output).map _
    rw [hk, hk', map_some, map_some, (startsUnit_cases hstart).2.2.2, (endsUnit_cases hend).2.2.2]
  · rw [h.unit_output hhost, h.unit_input hguest]

end Tie

/-- **What becomes of a pending unit.** One that is new to the circuit is registered. Otherwise its wire goes on where
    that of the circuit ended: a created qubit is reset there, and any other start is spliced out. -/
inductive Tied (c : Circuit) (u : UnitId) (ends : Ends) : Circuit → Prop
  | new (hu : c.boundary.get? u = none) : Tied c u ends (c.withEnds u ends)
  | reset {hostEnds : Ends} {g : Graph} (hu : c.boundary.get? u = some hostEnds)
      (created : c.graph.kind? ends.input = some .create)
      (vertices : g.vertices = ((c.graph.withoutVertex hostEnds.output).withKind ends.input (.op .reset)).vertices)
      (join : c.graph.net.IsJoin hostEnds.output ends.input g.net) :
      Tied c u ends ({ c with graph := g }.withEnds u ⟨hostEnds.input, ends.output⟩)
  | splice {hostEnds : Ends} {g : Graph} {k : NodeKind} {N : Net} (hu : c.boundary.get? u = some hostEnds)
      (kind : c.graph.kind? ends.input = some k) (uncreated : k.isCreate = false)
      (vertices : g.vertices = (c.graph.vertices.release hostEnds.output).release ends.input)
      (join : c.graph.net.IsJoin hostEnds.output ends.input N) (splice : N.IsSplice ends.input g.net) :
      Tied c u ends ({ c with graph := g }.withEnds u ⟨hostEnds.input, ends.output⟩)

/-- **A pending unit is tied to the unit of the circuit with its name, or is registered.** -/
theorem tieUnit_run (h : c.Pending unit rank ((u, ends) :: pending)) :
    ∃ c', tieUnit u ends c = .ok ⟨⟩ c' ∧ c'.Pending unit rank pending ∧ c.Tied u ends c' := by
  unfold tieUnit
  rw [bind_get]
  cases hu : c.boundary.get? u with
  | none => exact ⟨_, rfl, h.register hu, .new hu⟩
  | some hostEnds =>
    have hguest : c.HasEnds ((u, ends) :: pending) u ends := .inr mem_cons_self
    have hj := h.joinable hu
    have hle := (h.after hu mem_cons_self).2.1.le
    obtain ⟨e, l, _, g1, g2, hlinkIn, hadd, hremove, hvalid, hsimple, hvert, hjoin⟩ :=
      join_run h.valid h.simple hj
    have hthreaded := hj.join_threaded hjoin
    have hcomplete := hj.join_complete hjoin
    have hranked := hj.join_ranked hjoin h.ranked hle
    obtain ⟨k, hk, _⟩ := h.starts hguest
    have hkind : g2.kind? ends.input = some k := by rw [kind?_of_release hvert, if_neg hj.ne, hk]
    have hgone : g2.kind? hostEnds.output = none := by rw [kind?_of_release hvert, if_pos rfl]
    have hkept : ∀ {w}, w ≠ hostEnds.output → g2.kind? w = c.graph.kind? w := fun hw => by
      rw [kind?_of_release hvert, if_neg hw]
    show ∃ c', (ask (·.graph.linkIn ⟨hostEnds.output, 0⟩) >>= fun _ => _) c = _ ∧ _ ∧ _
    rw [bind_ok (ask_of_ok hlinkIn)]
    show ∃ c', (onGraph (addLink ⟨l.source, ⟨ends.input, 0⟩, l.kind⟩) >>= fun _ => _) c = _ ∧ _ ∧ _
    rw [bind_ok (onGraph_of_ok hadd), bind_ok (onGraph_of_ok hremove), bind_ok (ask_of_ok (kind_eq_ok.mpr hkind))]
    by_cases hcreate : k.isCreate
    · -- a created qubit is reset instead, which leaves the net alone
      cases eq_create_of_isCreate hcreate
      have hreset : (g2.withKind ends.input (.op .reset)).net = g2.net := net_withKind hkind rfl
      rw [if_pos hcreate, bind_ok (onGraph_of_ok (setKind_of_live (live_of_kind? hkind)))]
      refine ⟨_, rfl, h.of_ties hu ⟨?_, fun {k'} hk' => ?_, fun {w} hwo hwi => ?_⟩ (hvalid.withKind _ _) hsimple.withKind
        (hreset ▸ hthreaded) (hreset ▸ hcomplete) (hreset ▸ hranked), .reset hu hk ?_ (hreset ▸ hjoin)⟩
      · rw [kind?_withKind_other hj.ne.symm, hgone]
      · rw [kind?_withKind_same (live_of_kind? hkind)] at hk'
        cases hk'
        rfl
      · rw [kind?_withKind_other hwi, hkept hwo]
      · unfold withKind withoutVertex
        rw [hvert]
    · have hloop := (Net.acyclic_of_ranked hranked).no_return (v := ends.input)
      have hlast : ¬ ((∃ u' ends', c.HasEnds ((u, ends) :: pending) u' ends' ∧ ends'.output = ends.input) ∧
        ends.input ≠ hostEnds.output) := fun hlast => hj.not_last hlast.1
      obtain ⟨_, hsplice, hvalid3, hsimple3, hvert3, hnet3⟩ := removeVertex_splice_run hvalid hsimple
        (live_of_kind? hkind) (hthreaded.spliceable hcomplete hlast hloop)
      rw [if_neg hcreate, bind_ok (onGraph_of_ok hsplice)]
      refine ⟨_, rfl, h.of_ties hu ⟨?_, fun {k'} hk' => ?_, fun {w} hwo hwi => ?_⟩ hvalid3 hsimple3
        (hthreaded.splice hnet3 hloop) (hcomplete.splice hnet3 hthreaded.toFitted hloop (fun hf => hf.2 rfl) hlast)
        (hranked.splice hnet3 hthreaded.toFitted), .splice hu hk (by simpa using hcreate) (by rw [hvert3, hvert]) hjoin hnet3⟩
      · rw [kind?_of_release hvert3, if_neg hj.ne.symm, hgone]
      · rw [kind?_of_release hvert3, if_pos rfl] at hk'
        cases hk'
      · rw [kind?_of_release hvert3, if_neg hwi, hkept hwo]

end Circuit

end Wireloom
