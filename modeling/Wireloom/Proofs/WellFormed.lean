import Wireloom.Circuit.Integrity
import Wireloom.Proofs.Links

/-!
# `Circuit.WellFormed` — circuits whose wires run as they should

`WellFormed` says of a circuit that every port has its edges and no edge is elsewhere, that the boundary vertices are
the ends of the units, that the wire of a unit runs from its input to its output, that no operation reads a unit that it
also acts on, and that links and hazards close no cycle.
-/

namespace Wireloom

open Option Relation WireKind Net NodeKind Wireloom.Graph

namespace Graph

/-- What a port carries that takes an edge in. Nothing comes in where a wire starts. -/
def inPort (g : Graph) (p : Pin) : Option WireKind :=
  (g.kind? p.vertex).bind fun k => if k.isStart then none else k.signature[p.index]?

/-- What a port carries that has edges out. Nothing goes out where a wire ends. -/
def outPort (g : Graph) (p : Pin) : Option WireKind :=
  (g.kind? p.vertex).bind fun k => if k.isEnd then none else k.signature[p.index]?

end Graph

namespace Circuit

variable {c : Circuit} {unit : Pin → UnitId} {u u' : UnitId} {ends : Ends} {v : Vertex} {p : Pin} {l : Link} {k : NodeKind}

/-- A unit starts at the vertex. -/
def IsInput (c : Circuit) (v : Vertex) : Prop := ∃ u ends, c.boundary.get? u = some ends ∧ ends.input = v

/-- A unit ends at the vertex. -/
def IsOutput (c : Circuit) (v : Vertex) : Prop := ∃ u ends, c.boundary.get? u = some ends ∧ ends.output = v

/-- The pin lies on the wire of the unit: linear links lead to it from the input. -/
def OnWire (c : Circuit) (u : UnitId) (p : Pin) : Prop :=
  ∃ ends, c.boundary.get? u = some ends ∧ Relation.ReflTransGen c.graph.net.Joined ⟨ends.input, 0⟩ p

/-! ## The two descriptions -/

/-- **The boundary vertices are the ends of the units**, of the kinds that the units ask for. -/
structure Framed (c : Circuit) : Prop where
  starts : ∀ {u ends}, c.boundary.get? u = some ends → ∃ k, c.graph.kind? ends.input = some k ∧ startsUnit u k = true
  stops : ∀ {u ends}, c.boundary.get? u = some ends → ∃ k, c.graph.kind? ends.output = some k ∧ endsUnit u k = true
  only_ops : ∀ {v k}, c.graph.kind? v = some k → k.isBoundary = true → c.IsInput v ∨ c.IsOutput v

/-- **A well-formed circuit.**
    * Every port has one edge in, of the port's kind, and a linear port one linear edge out; no edge is elsewhere.
      So an operation has these edges at the ports of its signature, an input or create vertex one linear edge
      out and none in, an output or discard vertex one edge in and none out. A Boolean edge starts at a
      classical port.
    * Every unit has one vertex to start and one to end, its own; there are no other boundary vertices, and the
      wire of the unit leads from the one to the other.
    * No vertex has a Boolean and a linear edge of the same unit in.
    * Edges and hazards close no cycle. -/
structure WellFormed (c : Circuit) : Prop extends c.Framed where
  valid : c.graph.Valid
  in_edge : ∀ {p k}, c.graph.inPort p = some k → ∃! e, ∃ l, c.graph.edges.get? e = some l ∧ l.target = p
  in_port : ∀ {l}, c.graph.HasLink l → c.graph.inPort l.target = some l.kind
  out_edge : ∀ {p k}, c.graph.outPort p = some k → k.isLinear = true →
    ∃! e, ∃ l, c.graph.edges.get? e = some l ∧ l.source = p ∧ l.kind.isLinear = true
  out_port : ∀ {l}, c.graph.HasLink l → c.graph.outPort l.source = some l.kind.carrier
  distinct : ∀ {u u' ends ends'}, c.boundary.get? u = some ends → c.boundary.get? u' = some ends' →
    ends.input = ends'.input ∨ ends.output = ends'.output → u = u'
  wire : ∀ {u ends}, c.boundary.get? u = some ends → c.OnWire u ⟨ends.output, 0⟩
  apart : ∀ {a b u}, c.graph.HasLink a → c.graph.HasLink b → a.kind = .boolean → b.kind.isLinear = true →
    a.target.vertex = b.target.vertex → c.OnWire u a.source → ¬ c.OnWire u b.source
  acyclic : ∀ v, ¬ Relation.TransGen (fun x y => (x, y) ∈ c.graph.linkPairs ++ c.graph.hazards) v v

/-- **A circuit whose pins are named after the units whose wires they lie on.** -/
structure Wired (c : Circuit) (unit : Pin → UnitId) : Prop extends c.Framed where
  valid : c.graph.Valid
  simple : c.graph.Simple
  threaded : c.graph.net.Threaded unit
  complete : c.graph.net.Complete c.IsInput c.IsOutput
  acyclic : c.graph.net.Acyclic
  unit_input : ∀ {u ends}, c.boundary.get? u = some ends → unit ⟨ends.input, 0⟩ = u
  unit_output : ∀ {u ends}, c.boundary.get? u = some ends → unit ⟨ends.output, 0⟩ = u

/-! ## Ends of units -/

lemma eq_create_of_isCreate (h : k.isCreate) : k = .create := by
  cases k <;> first | rfl | cases h

lemma exists_op_of_not_isBoundary (h : k.isBoundary = false) : ∃ o, k = .op o := by
  cases k <;> first | exact ⟨_, rfl⟩ | cases h

lemma startsUnit_cases (h : startsUnit u k) : k.isStart ∧ k.isEnd = false ∧ k.isBoundary ∧ k.signature = [u.kind.wire] := by
  cases k with
  | input kind => exact ⟨rfl, rfl, rfl, by rw [of_decide_eq_true h]; rfl⟩
  | create => exact ⟨rfl, rfl, rfl, by rw [of_decide_eq_true h]; rfl⟩
  | output _ => cases h
  | discard => cases h
  | op _ => cases h

lemma endsUnit_cases (h : endsUnit u k) : k.isStart = false ∧ k.isEnd ∧ k.isBoundary ∧ k.signature = [u.kind.wire] := by
  cases k with
  | output kind => exact ⟨rfl, rfl, rfl, by rw [of_decide_eq_true h]; rfl⟩
  | discard => exact ⟨rfl, rfl, rfl, by rw [of_decide_eq_true h]; rfl⟩
  | input _ => cases h
  | create => cases h
  | op _ => cases h

section

variable (h : c.Framed)
include h

lemma Framed.live_input (hu : c.boundary.get? u = some ends) : c.graph.Live ends.input := by
  obtain ⟨k, hk, _⟩ := h.starts hu
  exact live_of_kind? hk

lemma Framed.live_output (hu : c.boundary.get? u = some ends) : c.graph.Live ends.output := by
  obtain ⟨k, hk, _⟩ := h.stops hu
  exact live_of_kind? hk

lemma Framed.signature_input (hu : c.boundary.get? u = some ends) :
    c.graph.net.signature? ends.input = some [u.kind.wire] := by
  obtain ⟨k, hk, hstart⟩ := h.starts hu
  rw [signature_of_kind? hk, (startsUnit_cases hstart).2.2.2]

lemma Framed.signature_output (hu : c.boundary.get? u = some ends) :
    c.graph.net.signature? ends.output = some [u.kind.wire] := by
  obtain ⟨k, hk, hend⟩ := h.stops hu
  rw [signature_of_kind? hk, (endsUnit_cases hend).2.2.2]

lemma Framed.withGraph {g : Graph}
    (hkeep : ∀ {v k}, c.IsInput v ∨ c.IsOutput v → c.graph.kind? v = some k → g.kind? v = some k)
    (hback : ∀ {v k}, g.kind? v = some k → k.isBoundary → c.graph.kind? v = some k) :
    { c with graph := g }.Framed where
  starts hu := by
    obtain ⟨k, hk, hstart⟩ := h.starts hu
    exact ⟨k, hkeep (.inl ⟨_, _, hu, rfl⟩) hk, hstart⟩
  stops hu := by
    obtain ⟨k, hk, hend⟩ := h.stops hu
    exact ⟨k, hkeep (.inr ⟨_, _, hu, rfl⟩) hk, hend⟩
  only_ops hk hb := h.only_ops (hback hk hb) hb

lemma Framed.isStart_iff (hk : c.graph.kind? v = some k) : k.isStart ↔ c.IsInput v := by
  constructor
  · intro hstart
    rcases h.only_ops hk (by cases k <;> simp_all [isStart, isBoundary]) with hin | hout
    · exact hin
    · obtain ⟨u, ends, hu, rfl⟩ := hout
      obtain ⟨k', hk', hend⟩ := h.stops hu
      rw [hk] at hk'; cases hk'
      rw [(endsUnit_cases hend).1] at hstart
      cases hstart
  · rintro ⟨u, ends, hu, rfl⟩
    obtain ⟨k', hk', hstart⟩ := h.starts hu
    rw [hk] at hk'; cases hk'
    exact (startsUnit_cases hstart).1

lemma Framed.isEnd_iff (hk : c.graph.kind? v = some k) : k.isEnd ↔ c.IsOutput v := by
  constructor
  · intro hend
    rcases h.only_ops hk (by cases k <;> simp_all [isEnd, isBoundary]) with hin | hout
    · obtain ⟨u, ends, hu, rfl⟩ := hin
      obtain ⟨k', hk', hstart⟩ := h.starts hu
      rw [hk] at hk'; cases hk'
      rw [(startsUnit_cases hstart).2.1] at hend
      cases hend
    · exact hout
  · rintro ⟨u, ends, hu, rfl⟩
    obtain ⟨k', hk', hend⟩ := h.stops hu
    rw [hk] at hk'; cases hk'
    exact (endsUnit_cases hend).2.1

lemma Framed.not_isOutput (hv : c.IsInput v) : ¬ c.IsOutput v := by
  intro hout
  obtain ⟨u, _, hu, rfl⟩ := hv
  obtain ⟨k, hk, hstart⟩ := h.starts hu
  have hend := (h.isEnd_iff hk).mpr hout
  rw [(startsUnit_cases hstart).2.1] at hend
  cases hend

omit h in
lemma port_iff {P : Prop} {shut : NodeKind → Bool} {k : WireKind}
    (hshut : ∀ {kind}, c.graph.kind? p.vertex = some kind → (shut kind ↔ P)) :
    ((c.graph.kind? p.vertex).bind fun k => if shut k then none else k.signature[p.index]?) = some k ↔
      c.graph.net.wireAt p = some k ∧ ¬ P := by
  show _ ↔ ((c.graph.kind? p.vertex).map _).bind _ = some k ∧ _
  cases hk : c.graph.kind? p.vertex with
  | none => simp
  | some kind =>
    rw [bind_some, map_some, bind_some, ← hshut hk]
    cases shut kind <;> simp

lemma Framed.inPort_iff {k : WireKind} :
    c.graph.inPort p = some k ↔ c.graph.net.wireAt p = some k ∧ ¬ c.IsInput p.vertex := port_iff h.isStart_iff

lemma Framed.outPort_iff {k : WireKind} :
    c.graph.outPort p = some k ↔ c.graph.net.wireAt p = some k ∧ ¬ c.IsOutput p.vertex := port_iff h.isEnd_iff

end

/-! ## Naming the pins of a well-formed circuit -/

namespace WellFormed

section

variable (h : c.WellFormed)
include h

lemma link_unique {m : Link} (hl : c.graph.HasLink l) (hm : c.graph.HasLink m) (heq : l.target = m.target) : l = m := by
  obtain ⟨e, he⟩ := hl
  obtain ⟨_, he'⟩ := hm
  have := (h.in_edge (h.in_port ⟨e, he⟩)).unique ⟨l, he, rfl⟩ ⟨m, he', heq.symm⟩
  rw [this, he'] at he
  exact (some.inj he).symm

lemma simple : c.graph.Simple := by
  intro e e' l he he'
  exact (h.in_edge (h.in_port ⟨e, he⟩)).unique ⟨l, he, rfl⟩ ⟨l, he', rfl⟩

lemma fitted : c.graph.net.Fitted where
  source_wire hl := (h.outPort_iff.mp (h.out_port hl)).1
  target_wire hl := (h.inPort_iff.mp (h.in_port hl)).1
  in_unique hl hm heq := h.link_unique hl hm heq
  out_unique {l m} hl hm hll hml heq := by
    obtain ⟨e, he⟩ := hl
    obtain ⟨_, he'⟩ := hm
    have hport := h.out_port ⟨e, he⟩
    rw [carrier_eq hll] at hport
    have := (h.out_edge hport hll).unique ⟨l, he, rfl, hll⟩ ⟨m, he', heq.symm, hml⟩
    rw [this, he'] at he
    exact (some.inj he).symm

lemma complete : c.graph.net.Complete c.IsInput c.IsOutput where
  fed_iff {p k} hp := by
    constructor
    · rintro ⟨l, hl, rfl⟩
      exact (h.inPort_iff.mp (h.in_port hl)).2
    · intro hv
      obtain ⟨e, ⟨l, hl, ht⟩, _⟩ := h.in_edge (h.inPort_iff.mpr ⟨hp, hv⟩)
      exact ⟨l, ⟨e, hl⟩, ht⟩
  drained_iff {p k} hp hk := by
    constructor
    · rintro ⟨l, hl, _, rfl⟩
      exact (h.outPort_iff.mp (h.out_port hl)).2
    · intro hv
      obtain ⟨e, ⟨l, hl, hs, hlin⟩, _⟩ := h.out_edge (h.outPort_iff.mpr ⟨hp, hv⟩) hk
      exact ⟨l, ⟨e, hl⟩, hlin, hs⟩
  source_open hl := (h.outPort_iff.mp (h.out_port hl)).2
  first_wire := by
    rintro v ⟨u, ends, hu, rfl⟩
    exact ⟨_, h.signature_input hu, isLinear_wire _⟩
  last_wire := by
    rintro v ⟨u, ends, hu, rfl⟩
    exact ⟨_, h.signature_output hu, isLinear_wire _⟩

lemma not_joined_input (hu : c.boundary.get? u = some ends) : ¬ c.graph.net.Joined p ⟨ends.input, 0⟩ := by
  rintro ⟨k, _, hl⟩
  exact (h.inPort_iff.mp (h.in_port hl)).2 ⟨u, ends, hu, rfl⟩

lemma onWire_unique (hu : c.OnWire u p) (hu' : c.OnWire u' p) : u = u' := by
  obtain ⟨_, hends, hpath⟩ := hu
  obtain ⟨_, hends', hpath'⟩ := hu'
  -- the two paths meet in `p`, so one is part of the other, and nothing leads to an input
  have hswap := hpath.swap
  have hswap' := hpath'.swap
  have hunique : Relator.RightUnique (Function.swap c.graph.net.Joined) := fun _ _ _ hb hc =>
    h.fitted.joined_left_unique hb hc
  rcases ReflTransGen.total_of_right_unique hunique hswap hswap' with hlink | hlink
  · rcases ReflTransGen.cases_head hlink with heq | ⟨q, hq, _⟩
    · exact h.distinct hends hends' (.inl (congrArg Pin.vertex heq))
    · exact absurd hq (h.not_joined_input hends)
  · rcases ReflTransGen.cases_head hlink with heq | ⟨q, hq, _⟩
    · exact h.distinct hends hends' (.inl (congrArg Pin.vertex heq).symm)
    · exact absurd hq (h.not_joined_input hends')

lemma onWire_iff_of_joined {q : Pin} (hpq : c.graph.net.Joined p q) : c.OnWire u p ↔ c.OnWire u q := by
  constructor
  · rintro ⟨ends, hends, hpath⟩
    exact ⟨ends, hends, hpath.tail hpq⟩
  · rintro ⟨ends, hends, hpath⟩
    rcases ReflTransGen.cases_tail hpath with heq | ⟨_, hp', hstep⟩
    · exact absurd (heq ▸ hpq) (h.not_joined_input hends)
    · rw [h.fitted.joined_left_unique hpq hstep]
      exact ⟨ends, hends, hp'⟩

lemma exists_onWire {k : WireKind} (hp : c.graph.net.wireAt p = some k) (hk : k.isLinear) : ∃ u, c.OnWire u p := by
  obtain ⟨rank, _, hrank⟩ := exists_rank_of_irrefl ((c.graph.linkPairs ++ c.graph.hazards).map Prod.fst).toFinset
    (fun a b hab => List.mem_toFinset.mpr (List.mem_map_of_mem hab)) h.acyclic
  have hlinks : ∀ l, c.graph.net.link l → rank l.source.vertex < rank l.target.vertex := by
    intro l hl
    exact hrank _ _ (List.mem_append_left _ ((mem_linkPairs h.valid).mpr ⟨l, hl, rfl, rfl⟩))
  obtain ⟨f, ⟨u, ends, hu, rfl⟩, hpath⟩ := exists_first h.fitted h.complete hlinks hp hk
  exact ⟨u, ends, hu, hpath⟩

end

open Classical in
/-- The unit whose wire a pin lies on. -/
noncomputable def unitAt (c : Circuit) (p : Pin) : UnitId :=
  if h : ∃ u, c.OnWire u p then h.choose else .qubit 0

lemma unitAt_of_onWire (h : c.WellFormed) (hu : c.OnWire u p) : unitAt c p = u := by
  have hex : ∃ u, c.OnWire u p := ⟨u, hu⟩
  unfold unitAt
  rw [dif_pos hex]
  exact h.onWire_unique hex.choose_spec hu

lemma unitAt_of_joined (h : c.WellFormed) {q : Pin} (hpq : c.graph.net.Joined p q) : unitAt c p = unitAt c q := by
  by_cases hex : ∃ u, c.OnWire u p
  · obtain ⟨u, hu⟩ := hex
    rw [h.unitAt_of_onWire hu, h.unitAt_of_onWire ((h.onWire_iff_of_joined hpq).mp hu)]
  · have hex' : ¬ ∃ u, c.OnWire u q := fun ⟨u, hu⟩ => hex ⟨u, (h.onWire_iff_of_joined hpq).mpr hu⟩
    unfold unitAt
    rw [dif_neg hex, dif_neg hex']

lemma threaded (h : c.WellFormed) : c.graph.net.Threaded (unitAt c) where
  toFitted := h.fitted
  same_unit hl hlin := h.unitAt_of_joined (joined_of_link hl hlin)
  apart {a b} ha hb hak hbl heq hunit := by
    have hcarrier := h.fitted.source_wire ha
    obtain ⟨u, hu⟩ := h.exists_onWire hcarrier (isLinear_carrier _)
    obtain ⟨_, hu'⟩ := h.exists_onWire (h.fitted.target_wire hb) hbl
    rw [h.unitAt_of_onWire hu, h.unitAt_of_onWire hu'] at hunit
    subst hunit
    exact h.apart ha hb hak hbl heq hu ((h.onWire_iff_of_joined (joined_of_link hb hbl)).mpr hu')

lemma wired (h : c.WellFormed) : c.Wired (unitAt c) where
  toFramed := h.toFramed
  valid := h.valid
  simple := h.simple
  threaded := h.threaded
  complete := h.complete
  acyclic := (acyclic_iff h.valid h.threaded).mp h.acyclic
  unit_input hu := h.unitAt_of_onWire ⟨_, hu, .refl⟩
  unit_output hu := h.unitAt_of_onWire (h.wire hu)

end WellFormed

/-! ## From names back to wires -/

namespace Wired

lemma target_open (h : c.Wired unit) (hl : c.graph.HasLink l) : ¬ c.IsInput l.target.vertex :=
  h.complete.target_open h.threaded.toFitted hl

lemma exists_rank (h : c.Wired unit) : ∃ (rank : Vertex → ℕ) (bound : ℕ), (∀ v, rank v ≤ bound) ∧ c.graph.net.Ranked rank :=
  Net.exists_rank h.threaded.toFitted c.graph.net_bounded h.acyclic

lemma unit_of_onWire (h : c.Wired unit) (hu : c.OnWire u p) : unit p = u := by
  obtain ⟨_, hends, hpath⟩ := hu
  rw [← h.threaded.unit_of_joined hpath, h.unit_input hends]

lemma onWire_unit (h : c.Wired unit) {k : WireKind} (hp : c.graph.net.wireAt p = some k)
    (hk : k.isLinear) : c.OnWire (unit p) p := by
  obtain ⟨_, _, _, hrank⟩ := h.exists_rank
  obtain ⟨f, ⟨u, ends, hu, rfl⟩, hpath⟩ :=
    exists_first h.threaded.toFitted h.complete (fun _ => hrank.link) hp hk
  rw [h.unit_of_onWire ⟨ends, hu, hpath⟩]
  exact ⟨ends, hu, hpath⟩

variable {q : Pin} {k k' : WireKind} {rank : Vertex → ℕ}

lemma path_of_unit (h : c.Wired unit) (hp : c.graph.net.wireAt p = some k) (hk : k.isLinear)
    (hq : c.graph.net.wireAt q = some k') (hk' : k'.isLinear) (hunit : unit p = unit q) :
    ReflTransGen c.graph.net.Joined p q ∨ ReflTransGen c.graph.net.Joined q p := by
  obtain ⟨_, hends, hpath⟩ := h.onWire_unit hp hk
  obtain ⟨_, hends', hpath'⟩ := h.onWire_unit hq hk'
  rw [hunit, hends'] at hends
  cases hends
  exact ReflTransGen.total_of_right_unique h.threaded.joined_right_unique hpath hpath'

lemma pin_eq_of_rank (h : c.Wired unit) (hrank : c.graph.net.Ranked rank) (hp : c.graph.net.wireAt p = some k)
    (hk : k.isLinear) (hq : c.graph.net.wireAt q = some k') (hk' : k'.isLinear) (hunit : unit p = unit q)
    (heq : rank p.vertex = rank q.vertex) : p = q := by
  by_contra hne
  rcases h.path_of_unit hp hk hq hk' hunit with hpath | hpath
  · have hlt := hrank.lt_of_path hpath hne
    omega
  · have hlt := hrank.lt_of_path hpath (Ne.symm hne)
    omega

lemma onWire_output (h : c.Wired unit) (hu : c.boundary.get? u = some ends) : c.OnWire u ⟨ends.output, 0⟩ := by
  obtain ⟨_, _, hbound, hrank⟩ := h.exists_rank
  have hinput := wireAt_of_single (h.signature_input hu)
  obtain ⟨f, ⟨u', _, hu', rfl⟩, hpath⟩ :=
    exists_last h.threaded.toFitted h.complete hbound (fun _ => hrank.link) hinput (isLinear_wire _)
  -- the wire keeps its name, so it ends at an output of its own unit
  have huu : u = u' := by
    rw [← h.unit_input hu, ← h.unit_output hu', h.threaded.unit_of_joined hpath]
  subst huu
  rw [hu] at hu'; cases hu'
  exact ⟨ends, hu, hpath⟩

lemma wellFormed (h : c.Wired unit) : c.WellFormed where
  toFramed := h.toFramed
  valid := h.valid
  in_edge {p k} hp := by
    obtain ⟨hwire, hv⟩ := h.inPort_iff.mp hp
    obtain ⟨l, ⟨e, he⟩, ht⟩ := (h.complete.fed_iff hwire).mpr hv
    refine ⟨e, ⟨l, he, ht⟩, ?_⟩
    rintro e' ⟨l', he', ht'⟩
    have hll : l' = l := h.threaded.in_unique ⟨e', he'⟩ ⟨e, he⟩ (ht'.trans ht.symm)
    exact h.simple he' (hll ▸ he)
  in_port hl := h.inPort_iff.mpr ⟨h.threaded.target_wire hl, h.target_open hl⟩
  out_edge {p k} hp hk := by
    obtain ⟨hwire, hv⟩ := h.outPort_iff.mp hp
    obtain ⟨l, ⟨e, he⟩, hlin, hs⟩ := (h.complete.drained_iff hwire hk).mpr hv
    refine ⟨e, ⟨l, he, hs, hlin⟩, ?_⟩
    rintro e' ⟨l', he', hs', hlin'⟩
    have hll : l' = l := h.threaded.out_unique ⟨e', he'⟩ ⟨e, he⟩ hlin' hlin (hs'.trans hs.symm)
    exact h.simple he' (hll ▸ he)
  out_port hl := h.outPort_iff.mpr ⟨h.threaded.source_wire hl, h.complete.source_open hl⟩
  distinct hu hu' heq := by
    rcases heq with heq | heq
    · rw [← h.unit_input hu, ← h.unit_input hu', heq]
    · rw [← h.unit_output hu, ← h.unit_output hu', heq]
  wire hu := h.onWire_output hu
  apart ha hb hak hbl heq hu hu' := by
    refine h.threaded.apart ha hb hak hbl heq ?_
    rw [← h.threaded.same_unit hb hbl, h.unit_of_onWire hu, h.unit_of_onWire hu']
  acyclic := (acyclic_iff h.valid h.threaded).mpr h.acyclic

end Wired

lemma wellFormed_iff_wired : c.WellFormed ↔ ∃ unit, c.Wired unit :=
  ⟨fun h => ⟨_, h.wired⟩, fun ⟨_, h⟩ => h.wellFormed⟩

/-! # `Circuit.verify` — what the structural rules come to -/

open List SlotStore SortedMap

variable {op : Op} {expected : WireKind} {i : ℕ}

/-- **Every port has its edges, and every unit its ends.** -/
structure Ported (c : Circuit) : Prop extends c.Framed where
  valid : c.graph.Valid
  simple : c.graph.Simple
  fitted : c.graph.net.Fitted
  complete : c.graph.net.Complete c.IsInput c.IsOutput
  distinct : ∀ {u u' ends ends'}, c.boundary.get? u = some ends → c.boundary.get? u' = some ends' →
    ends.input = ends'.input ∨ ends.output = ends'.output → u = u'

/-- All vertices at which units start and end. -/
def endVertices (c : Circuit) : List Vertex :=
  (c.boundary.entries.map fun p => p.2.input) ++ c.boundary.entries.map fun p => p.2.output

lemma mem_endVertices : v ∈ c.endVertices ↔ c.IsInput v ∨ c.IsOutput v := by
  simp only [endVertices, mem_append, List.mem_map, Prod.exists, ← get?_iff_mem]
  rfl

lemma length_endVertices : c.endVertices.length = 2 * c.boundary.size := by
  rw [endVertices, length_append, length_map, length_map, Nat.two_mul]
  rfl

def boundaryVertices (c : Circuit) : List Vertex :=
  (c.graph.vertices.entries.filter fun p => p.2.kind.isBoundary).map Prod.fst

lemma mem_boundaryVertices (hg : c.graph.Valid) : v ∈ c.boundaryVertices ↔ ∃ k, c.graph.kind? v = some k ∧ k.isBoundary := by
  simp only [boundaryVertices, List.mem_map, mem_filter, Prod.exists, exists_and_right, exists_eq_right,
    ← get?_eq_some_iff hg.vertices, kind?, map_eq_some_iff]
  constructor
  · rintro ⟨n, hn, hb⟩
    exact ⟨_, ⟨n, hn, rfl⟩, hb⟩
  · rintro ⟨_, ⟨n, hn, rfl⟩, hb⟩
    exact ⟨n, hn, hb⟩

lemma endVertices_subset (hg : c.graph.Valid)
    (hstarts : ∀ {u ends}, c.boundary.get? u = some ends → ∃ k, c.graph.kind? ends.input = some k ∧ startsUnit u k)
    (hstops : ∀ {u ends}, c.boundary.get? u = some ends → ∃ k, c.graph.kind? ends.output = some k ∧ endsUnit u k) :
    c.endVertices ⊆ c.boundaryVertices := by
  intro v hv
  rw [mem_boundaryVertices hg]
  rcases mem_endVertices.mp hv with ⟨u, ends, hu, rfl⟩ | ⟨u, ends, hu, rfl⟩
  · obtain ⟨k, hk, hstart⟩ := hstarts hu
    exact ⟨k, hk, (startsUnit_cases hstart).2.2.1⟩
  · obtain ⟨k, hk, hend⟩ := hstops hu
    exact ⟨k, hk, (endsUnit_cases hend).2.2.1⟩

lemma length_boundaryVertices : c.boundaryVertices.length = c.graph.vertices.entries.countP fun p => p.2.kind.isBoundary := by
  rw [boundaryVertices, length_map, ← countP_eq_length_filter]

namespace Ported

/-! ## Edges of a vertex -/

section

variable (h : c.Ported)
include h

lemma length_incoming (hk : c.graph.kind? v = some k) (hv : ¬ c.IsInput v) :
    (c.graph.incoming v).length = k.signature.length := by
  have hlength := (perm_incoming h.valid h.simple h.fitted h.complete hk hv).length_eq
  rwa [length_map, length_range] at hlength

lemma incoming_input (hv : c.IsInput v) : c.graph.incoming v = [] := by
  refine eq_nil_iff_forall_not_mem.mpr ?_
  rintro ⟨e, l⟩ hl
  obtain ⟨he, rfl⟩ := (mem_incoming h.valid).mp hl
  exact h.complete.target_open h.fitted ⟨e, he⟩ hv

lemma outgoing_output (hv : c.IsOutput v) : c.graph.outgoing v = [] := by
  refine eq_nil_iff_forall_not_mem.mpr ?_
  rintro ⟨e, l⟩ hl
  obtain ⟨he, rfl⟩ := (mem_outgoing h.valid).mp hl
  exact h.complete.source_open ⟨e, he⟩ hv

/-! ## Units and vertices -/

lemma verifyUnit (hu : c.boundary.get? u = some ends) : c.verifyUnit u ends = .ok () := by
  obtain ⟨first, hfirst, hstart⟩ := h.starts hu
  obtain ⟨last, hlast, hend⟩ := h.stops hu
  have hin : c.IsInput ends.input := ⟨u, ends, hu, rfl⟩
  have hout : c.IsOutput ends.output := ⟨u, ends, hu, rfl⟩
  have hincoming : (c.graph.incoming ends.output).length = 1 := by
    rw [h.length_incoming hlast fun hv => h.not_isOutput hv hout, (endsUnit_cases hend).2.2.2]
    rfl
  have hlinkOut : (c.graph.linkOut? ⟨ends.input, 0⟩).isNone = false := by
    obtain ⟨l, hl, hlin, hsource⟩ := (h.complete.drained_iff (Net.wireAt_of_single (h.signature_input hu))
      (WireKind.isLinear_wire _)).mpr (h.not_isOutput hin)
    rw [← hsource, isNone_eq_false_iff]
    exact isSome_linkOut? h.valid hl hlin
  unfold Circuit.verifyUnit
  rw [kind_eq_ok.mpr hfirst, kind_eq_ok.mpr hlast]
  show (if !(startsUnit u first && endsUnit u last) then _ else _) = _
  rw [if_neg (by rw [hstart, hend]; decide), if_neg (by rw [h.incoming_input hin, hlinkOut]; decide),
    if_neg (by rw [hincoming, h.outgoing_output hout]; decide)]

lemma verifyPin (hk : c.graph.kind? v = some (.op op)) (hi : op.signature[i]? = some expected) :
    c.verifyPin op ⟨v, i⟩ expected = .ok () := by
  have hwire := (wireAt_of_kind? (p := ⟨v, i⟩) hk).trans hi
  obtain ⟨l, hl, ht⟩ := (h.complete.fed_iff hwire).mpr fun hv => by cases (h.isStart_iff hk).mpr hv
  obtain ⟨e, hlinkIn, _⟩ := linkIn_of_unique h.valid hl h.fitted.in_unique
  have hkind : l.kind = expected := by
    have hsame := h.fitted.target_wire hl
    rw [ht, hwire] at hsame
    exact (some.inj hsame).symm
  rw [ht] at hlinkIn
  unfold Circuit.verifyPin
  rw [hlinkIn]
  show (if l.kind ≠ expected then _ else _) = _
  rw [if_neg (not_not.mpr hkind)]
  split
  · next hlin =>
    obtain ⟨m, hm, hmlin, hs⟩ := (h.complete.drained_iff hwire hlin).mpr fun hv => by cases (h.isEnd_iff hk).mpr hv
    obtain ⟨_, hlinkOut, _⟩ := linkOut_of_unique h.valid hm hmlin fun n hn heq hnlin =>
      h.fitted.out_unique hn hm hnlin hmlin heq
    have hmkind : m.kind = expected := by
      have hsame := h.fitted.source_wire hm
      rw [hs, hwire, WireKind.carrier_eq hmlin] at hsame
      exact (some.inj hsame).symm
    rw [hs] at hlinkOut
    rw [hlinkOut]
    show (if m.kind ≠ expected then _ else _) = _
    rw [if_neg (not_not.mpr hmkind)]
  · rfl

lemma verifyVertex {n : Node} (hn : c.graph.vertices.get? v = some n) : c.verifyVertex v n = .ok () := by
  have hkind : c.graph.kind? v = some n.kind := by unfold kind?; rw [hn]; rfl
  unfold Circuit.verifyVertex
  split
  · next op hop =>
    rw [hop] at hkind
    have hcount : (c.graph.incoming v).length = op.signature.length :=
      h.length_incoming hkind fun hv => by cases (h.isStart_iff hkind).mpr hv
    rw [if_neg (not_not.mpr hcount)]
    refine except_forM_eq_ok.mpr ?_
    rintro ⟨_, i⟩ hmem
    exact h.verifyPin hkind (mem_zipIdx_iff_getElem?.mp hmem)
  · rfl

/-! ## Boundary vertices -/

lemma nodup_ends : c.endVertices.Nodup := by
  have hside : ∀ f : Ends → Vertex, (∀ a b : Ends, f a = f b → a.input = b.input ∨ a.output = b.output) →
      (c.boundary.entries.map fun p => f p.2).Nodup := by
    intro f hf
    refine Nodup.map_on ?_ (nodup_keys c.boundary).of_map
    rintro ⟨u, ends⟩ hu ⟨u', ends'⟩ hu' heq
    have hget := get?_iff_mem.mpr hu
    have hget' := get?_iff_mem.mpr hu'
    obtain rfl := h.distinct hget hget' (hf _ _ heq)
    rw [mem_unique hget hget']
  refine nodup_append.mpr ⟨hside _ fun _ _ => .inl, hside _ fun _ _ => .inr, ?_⟩
  intro a ha b hb hab
  obtain ⟨⟨u, ends⟩, hu, rfl⟩ := mem_map.mp ha
  obtain ⟨⟨u', ends'⟩, hu', rfl⟩ := mem_map.mp hb
  exact h.not_isOutput ⟨u, ends, get?_iff_mem.mpr hu, rfl⟩
    ⟨u', ends', get?_iff_mem.mpr hu', hab.symm⟩

lemma perm_ends : c.boundaryVertices.Perm c.endVertices := by
  have hnodup : c.boundaryVertices.Nodup := h.valid.vertices.nodup.sublist (filter_sublist.map _)
  refine (perm_ext_iff_of_nodup hnodup h.nodup_ends).mpr fun v => ⟨fun hv => ?_, fun hv =>
    endVertices_subset h.valid h.starts h.stops hv⟩
  obtain ⟨k, hk, hb⟩ := (mem_boundaryVertices h.valid).mp hv
  exact mem_endVertices.mpr (h.only_ops hk hb)

lemma boundary_count : c.graph.vertices.entries.countP (fun p => p.2.kind.isBoundary) = 2 * c.boundary.size := by
  rw [← length_boundaryVertices, h.perm_ends.length_eq, length_endVertices]

/-! ## All rules -/

lemma verify_eq : c.verify = if c.graph.isAcyclic then .ok () else .error (.invalid .cyclicWiring) := by
  unfold verify
  cases c.graph.isAcyclic with
  | false => rfl
  | true =>
    refine bind_ok_iff.mpr ⟨(), except_forM_eq_ok.mpr fun x hx => ?_,
      bind_ok_iff.mpr ⟨(), except_forM_eq_ok.mpr fun x hx => ?_, ?_⟩⟩
    · exact h.verifyUnit (get?_iff_mem.mpr hx)
    · exact h.verifyVertex ((get?_eq_some_iff h.valid.vertices).mpr (mem_sortedBy.mp hx))
    · exact if_neg (not_not.mpr h.boundary_count)

lemma verify_of_order {order : List Vertex} (horder : c.graph.topologicalOrder = .ok order) : c.verify = .ok () := by
  have hirrefl := (topologicalOrder_isOk_iff_irrefl h.valid).mp ⟨order, horder⟩
  rw [h.verify_eq, isAcyclic_of_irrefl h.valid hirrefl]
  rfl

end

end Ported

end Wireloom.Circuit
