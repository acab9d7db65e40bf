import Wireloom.Proofs.Handles

/-!
# `Circuit.verify` — ports with the right edges have no others

The rules of `verify` ask of a linear port that some linear edge leaves it, and never count these edges. That there is
just one is due to all ports at once.
-/

namespace Wireloom.Circuit

open Wireloom.Graph List SlotStore SortedMap

variable {c : Circuit} {u : UnitId} {ends : Ends} {v : Vertex} {op : Op} {e e' : Edge} {l l' : Link}

/-! ## What is asked for -/

/-- **Exact wiring.** An operation has one edge in at each port and no other, and one linear edge out at each linear port
    and no other that is linear. An input has one linear edge out, an output one edge in, and it is linear. All boundary
    vertices belong to units, and edges close no cycle. -/
structure ExactlyWired (c : Circuit) : Prop where
  op_in : ∀ {v op i k}, c.graph.kind? v = some (.op op) → op.signature[i]? = some k →
    ∃! e, ∃ l, c.graph.edges.get? e = some l ∧ l.target = ⟨v, i⟩
  op_in_port : ∀ {l op}, c.graph.HasLink l → c.graph.kind? l.target.vertex = some (.op op) →
    op.signature[l.target.index]? = some l.kind
  op_out : ∀ {v op i k}, c.graph.kind? v = some (.op op) → op.signature[i]? = some k → k.isLinear = true →
    ∃! e, ∃ l, c.graph.edges.get? e = some l ∧ l.source = ⟨v, i⟩ ∧ l.kind.isLinear = true
  op_out_port : ∀ {l op}, c.graph.HasLink l → l.kind.isLinear = true → c.graph.kind? l.source.vertex = some (.op op) →
    op.signature[l.source.index]? = some l.kind
  input : ∀ {u ends}, c.boundary.get? u = some ends →
    ∃! e, ∃ l, c.graph.edges.get? e = some l ∧ l.source.vertex = ends.input ∧ l.kind.isLinear = true
  input_port : ∀ {u ends l}, c.boundary.get? u = some ends → c.graph.HasLink l → l.source.vertex = ends.input →
    l.kind.isLinear = true → l.source.index = 0
  output : ∀ {u ends}, c.boundary.get? u = some ends → ∃! e, ∃ l, c.graph.edges.get? e = some l ∧ l.target.vertex = ends.output
  output_linear : ∀ {u ends l}, c.boundary.get? u = some ends → c.graph.HasLink l → l.target.vertex = ends.output →
    l.kind.isLinear = true
  registered : ∀ {v k}, c.graph.kind? v = some k → k.isBoundary = true → c.IsInput v ∨ c.IsOutput v
  acyclic : ∀ v, ¬ Relation.TransGen c.Linked v v

/-! ## What the rules say -/

structure EndsVerified (c : Circuit) (u : UnitId) (ends : Ends) : Prop where
  starts : ∃ k, c.graph.kind? ends.input = some k ∧ startsUnit u k = true
  stops : ∃ k, c.graph.kind? ends.output = some k ∧ endsUnit u k = true
  into_input : c.graph.incoming ends.input = []
  from_input : ∃ l, c.graph.HasLink l ∧ l.source = ⟨ends.input, 0⟩ ∧ l.kind.isLinear = true
  into_output : (c.graph.incoming ends.output).length = 1
  from_output : c.graph.outgoing ends.output = []

structure OpVerified (c : Circuit) (v : Vertex) (op : Op) : Prop where
  count_in : (c.graph.incoming v).length = op.signature.length
  link_in : ∀ {i k}, op.signature[i]? = some k → ∃ l, c.graph.HasLink l ∧ l.target = ⟨v, i⟩ ∧ l.kind = k
  link_out : ∀ {i k}, op.signature[i]? = some k → k.isLinear = true → ∃ l, c.graph.HasLink l ∧ l.source = ⟨v, i⟩ ∧ l.kind = k

/-- **The rules of `verify`** on a graph in order, where no two ends are one vertex. -/
structure Verified (c : Circuit) : Prop where
  valid : c.graph.Valid
  nodup : c.endVertices.Nodup
  acyclic : c.graph.isAcyclic = true
  ends : ∀ {u ends}, c.boundary.get? u = some ends → c.EndsVerified u ends
  op : ∀ {v op}, c.graph.kind? v = some (.op op) → c.OpVerified v op
  count : c.graph.vertices.entries.countP (fun p => p.2.kind.isBoundary) = 2 * c.boundary.size

section

variable {a : Unit}

variable (hg : c.graph.Valid)
include hg

lemma endsVerified_of_ok (h : c.verifyUnit u ends = .ok a) : c.EndsVerified u ends := by
  obtain ⟨first, hfirst, h⟩ := bind_ok_iff.mp h
  obtain ⟨last, hlast, h⟩ := bind_ok_iff.mp h
  split at h
  · cases h
  next hkinds =>
  split at h
  · cases h
  next hinput =>
  split at h
  · cases h
  next houtput =>
  have hkinds : startsUnit u first ∧ endsUnit u last := by simpa using hkinds
  have hinput : c.graph.incoming ends.input = [] ∧ c.graph.linkOut? ⟨ends.input, 0⟩ ≠ none := by simpa using hinput
  have houtput : (c.graph.incoming ends.output).length = 1 ∧ c.graph.outgoing ends.output = [] := by
    simpa using houtput
  obtain ⟨⟨e, l⟩, hfound⟩ := Option.ne_none_iff_exists'.mp hinput.2
  obtain ⟨hl, hs, hlin⟩ := linkOut?_eq_some hg hfound
  exact ⟨⟨first, kind_eq_ok.mp hfirst, hkinds.1⟩, ⟨last, kind_eq_ok.mp hlast, hkinds.2⟩, hinput.1,
    ⟨l, ⟨e, hl⟩, hs, hlin⟩, houtput.1, houtput.2⟩

lemma verifyPin_eq_ok {p : Pin} {k : WireKind} (h : c.verifyPin op p k = .ok a) :
    (∃ l, c.graph.HasLink l ∧ l.target = p ∧ l.kind = k) ∧
      (k.isLinear → ∃ l, c.graph.HasLink l ∧ l.source = p ∧ l.kind = k) := by
  obtain ⟨⟨e, l⟩, hin, h⟩ := bind_ok_iff.mp h
  obtain ⟨hl, ht⟩ := linkIn_eq_ok hg hin
  dsimp only at h
  split at h
  · cases h
  next hk =>
  refine ⟨⟨l, ⟨e, hl⟩, ht, not_not.mp hk⟩, fun hlin => ?_⟩
  rw [if_pos hlin] at h
  obtain ⟨⟨e', m⟩, hout, h⟩ := bind_ok_iff.mp h
  obtain ⟨hm, hs, _⟩ := linkOut_eq_ok hg hout
  split at h
  · cases h
  next hmk => exact ⟨m, ⟨e', hm⟩, hs, not_not.mp hmk⟩

lemma opVerified_of_ok {n : Node} (hn : n.kind = .op op) (h : c.verifyVertex v n = .ok a) : c.OpVerified v op := by
  unfold verifyVertex at h
  rw [hn] at h
  dsimp only at h
  split at h
  · cases h
  next hcount =>
  have hpin : ∀ {i k}, op.signature[i]? = some k → _ := fun {i k} hi =>
    verifyPin_eq_ok hg (except_forM_eq_ok.mp h (k, i) (mem_zipIdx_iff_getElem?.mpr hi))
  exact ⟨not_not.mp hcount, fun hi => (hpin hi).1, fun hi => (hpin hi).2⟩

lemma verified_of_ok (hends : c.endVertices.Nodup) (h : c.verify = .ok ()) : c.Verified := by
  unfold verify at h
  split at h
  · cases h
  next hacyclic =>
  obtain ⟨_, hunits, h⟩ := bind_ok_iff.mp h
  obtain ⟨_, hvertices, h⟩ := bind_ok_iff.mp h
  split at h
  · cases h
  next hcount =>
  refine ⟨hg, hends, by simpa using hacyclic, fun {u ends} hu => ?_, fun {v op} hk => ?_, not_not.mp hcount⟩
  · exact endsVerified_of_ok hg (except_forM_eq_ok.mp hunits (u, ends) (get?_iff_mem.mp hu))
  · obtain ⟨n, hn, hkind⟩ := Option.map_eq_some_iff.mp hk
    exact opVerified_of_ok hg hkind (except_forM_eq_ok.mp hvertices (v, n) (mem_sortedBy.mpr (mem_of_get? hn)))

end

/-! ## Edges in -/

/-- The pin at which a wire goes on behind an edge. Where a unit ends, its wire goes on where the unit starts. -/
def onward (c : Circuit) (l : Link) : Pin :=
  ((c.boundary.entries.find? fun p => p.2.output = l.target.vertex).map fun p => (⟨p.2.input, 0⟩ : Pin)).getD l.target

def linearEdges (c : Circuit) : List (Edge × Link) := c.graph.edges.entries.filter fun p => p.2.kind.isLinear

lemma mem_linearEdges (hg : c.graph.Valid) : (e, l) ∈ c.linearEdges ↔ c.graph.edges.get? e = some l ∧ l.kind.isLinear := by
  rw [linearEdges, mem_filter, get?_eq_some_iff hg.edges]

namespace Verified

variable (h : c.Verified)
include h

variable (hk : c.graph.kind? v = some (.op op)) (hu : c.boundary.get? u = some ends)
  (he : c.graph.edges.get? e = some l) (he' : c.graph.edges.get? e' = some l')
  (hl : c.graph.HasLink l) (ht : l.target.vertex = ends.output) (hlin : l.kind.isLinear)

include hk in
lemma perm_range : (range op.signature.length).Perm ((c.graph.incoming v).map fun x => x.2.target.index) := by
  have hsubset : range op.signature.length ⊆ (c.graph.incoming v).map fun x => x.2.target.index := by
    intro i hi
    obtain ⟨l, ⟨e, he⟩, ht, _⟩ := (h.op hk).link_in (getElem?_eq_getElem (mem_range.mp hi))
    exact mem_map.mpr ⟨(e, l), (mem_incoming h.valid).mpr ⟨he, by rw [ht]⟩, by rw [ht]⟩
  refine (subperm_of_subset nodup_range hsubset).perm_of_length_le ?_
  rw [length_map, length_range, (h.op hk).count_in]

lemma registered {k : NodeKind} (hk : c.graph.kind? v = some k) (hb : k.isBoundary) : c.IsInput v ∨ c.IsOutput v := by
  have hsubset := endVertices_subset h.valid (fun hu => (h.ends hu).starts) fun hu => (h.ends hu).stops
  have hperm := (subperm_of_subset h.nodup hsubset).perm_of_length_le (by
    rw [length_boundaryVertices, h.count, length_endVertices])
  exact mem_endVertices.mp (hperm.mem_iff.mpr ((mem_boundaryVertices h.valid).mpr ⟨k, hk, hb⟩))

include hl in
lemma target_cases : (∃ op, c.graph.kind? l.target.vertex = some (.op op)) ∨ c.IsOutput l.target.vertex := by
  obtain ⟨k, hk⟩ := live_iff_kind?.mp (h.valid.target_live hl)
  by_cases hb : k.isBoundary
  · rcases h.registered hk hb with ⟨u, _, hu, hv⟩ | hout
    · -- nothing comes in where a unit starts
      obtain ⟨e, he⟩ := hl
      have hmem := (mem_incoming h.valid).mpr ⟨he, hv.symm⟩
      rw [(h.ends hu).into_input] at hmem
      cases hmem
    · exact .inr hout
  · cases k with
    | op op => exact .inl ⟨op, hk⟩
    | _ => exact absurd rfl hb

include hu he he' ht in
lemma edge_unique_output (ht' : l'.target.vertex = ends.output) : e = e' := by
  obtain ⟨x, hx⟩ := length_eq_one_iff.mp (h.ends hu).into_output
  have hmem := (mem_incoming h.valid).mpr ⟨he, ht⟩
  have hmem' := (mem_incoming h.valid).mpr ⟨he', ht'⟩
  rw [hx, mem_singleton] at hmem hmem'
  exact congrArg Prod.fst (hmem.trans hmem'.symm)

include he he' in
lemma edge_unique (ht : l.target = l'.target) : e = e' := by
  rcases h.target_cases ⟨e, he⟩ with ⟨_, hk⟩ | ⟨u, _, hu, hv⟩
  · have hnodup := (h.perm_range hk).nodup_iff.mp nodup_range
    exact congrArg Prod.fst (inj_on_of_nodup_map hnodup ((mem_incoming h.valid).mpr ⟨he, rfl⟩)
      ((mem_incoming h.valid).mpr ⟨he', congrArg Pin.vertex ht.symm⟩) (congrArg Pin.index ht))
  · exact h.edge_unique_output hu he he' hv.symm (ht ▸ hv.symm)

include hl in
lemma op_in_port (hk : c.graph.kind? l.target.vertex = some (.op op)) : op.signature[l.target.index]? = some l.kind := by
  obtain ⟨e, he⟩ := hl
  have hindex := (h.perm_range hk).mem_iff.mpr (mem_map.mpr ⟨(e, l), (mem_incoming h.valid).mpr ⟨he, rfl⟩, rfl⟩)
  have hport := getElem?_eq_getElem (mem_range.mp hindex)
  obtain ⟨m, ⟨_, he'⟩, ht, hkind⟩ := (h.op hk).link_in hport
  cases h.edge_unique he' he ht
  cases he.symm.trans he'
  rw [hport, hkind]

/-! ## Where wires go on -/

include hl in
lemma onward_cases : (∃ op, c.graph.kind? l.target.vertex = some (.op op) ∧ c.onward l = l.target) ∨
      ∃ u ends, c.boundary.get? u = some ends ∧ l.target.vertex = ends.output ∧ c.onward l = ⟨ends.input, 0⟩ := by
  unfold onward
  cases hfind : c.boundary.entries.find? fun p => p.2.output = l.target.vertex with
  | some p =>
    have hout : p.2.output = l.target.vertex := by simpa using find?_some hfind
    exact .inr ⟨p.1, p.2, get?_iff_mem.mpr (mem_of_find?_eq_some hfind), hout.symm, rfl⟩
  | none =>
    rcases h.target_cases hl with ⟨op, hk⟩ | ⟨u, ends, hu, hv⟩
    · exact .inl ⟨op, hk, rfl⟩
    · exact absurd (decide_eq_true hv) (find?_eq_none.mp hfind _ (get?_iff_mem.mp hu))

include hk hu in
lemma ne_input : v ≠ ends.input := by
  rintro rfl
  obtain ⟨k, hk', hstart⟩ := (h.ends hu).starts
  cases hk.symm.trans hk'
  cases hstart

lemma ends_unique {u' : UnitId} {ends' : Ends} (hu : c.boundary.get? u = some ends)
    (hu' : c.boundary.get? u' = some ends') (hin : ends.input = ends'.input) : ends = ends' := by
  have hnodup := (nodup_append.mp h.nodup).1
  exact congrArg Prod.snd (inj_on_of_nodup_map hnodup (get?_iff_mem.mp hu) (get?_iff_mem.mp hu') hin)

include he he' in
lemma edge_unique_onward (heq : c.onward l = c.onward l') : e = e' := by
  rcases h.onward_cases ⟨e, he⟩ with ⟨_, hk, hon⟩ | ⟨u, _, hu, ht, hon⟩ <;>
    rcases h.onward_cases ⟨e', he'⟩ with ⟨_, hk', hon'⟩ | ⟨_, _, hu', ht', hon'⟩ <;>
    rw [hon, hon'] at heq
  · exact h.edge_unique he he' heq
  · exact absurd (congrArg Pin.vertex heq) (h.ne_input hk hu')
  · exact absurd (congrArg Pin.vertex heq).symm (h.ne_input hk' hu)
  · cases h.ends_unique hu hu' (congrArg Pin.vertex heq)
    exact h.edge_unique_output hu he he' ht ht'

include hl hlin in
lemma exists_source_onward : ∃ m, c.graph.HasLink m ∧ m.kind.isLinear ∧ m.source = c.onward l := by
  rcases h.onward_cases hl with ⟨_, hk, hon⟩ | ⟨u, _, hu, _, hon⟩
  · obtain ⟨m, hm, hs, hkind⟩ := (h.op hk).link_out (h.op_in_port hl hk) hlin
    exact ⟨m, hm, hkind ▸ hlin, hs.trans hon.symm⟩
  · obtain ⟨m, hm, hs, hmlin⟩ := (h.ends hu).from_input
    exact ⟨m, hm, hmlin, hs.trans hon.symm⟩

lemma nodup_onward : (c.linearEdges.map fun p => c.onward p.2).Nodup := by
  refine Nodup.map_on ?_ (h.valid.edges.nodup.of_map.sublist filter_sublist)
  rintro ⟨e, l⟩ he ⟨_, _⟩ he' heq
  have hl := ((mem_linearEdges h.valid).mp he).1
  have hl' := ((mem_linearEdges h.valid).mp he').1
  cases h.edge_unique_onward hl hl' heq
  cases hl.symm.trans hl'
  rfl

lemma perm_onward : (c.linearEdges.map fun p => c.onward p.2).Perm (c.linearEdges.map fun p => p.2.source) := by
  have hsubset : (c.linearEdges.map fun p => c.onward p.2) ⊆ c.linearEdges.map fun p => p.2.source := by
    intro p hp
    obtain ⟨⟨e, l⟩, hmem, rfl⟩ := mem_map.mp hp
    obtain ⟨hl, hlin⟩ := (mem_linearEdges h.valid).mp hmem
    obtain ⟨m, ⟨e', hm⟩, hmlin, hs⟩ := h.exists_source_onward ⟨e, hl⟩ hlin
    exact mem_map.mpr ⟨(e', m), (mem_linearEdges h.valid).mpr ⟨hm, hmlin⟩, hs⟩
  exact (subperm_of_subset h.nodup_onward hsubset).perm_of_length_le (by rw [length_map, length_map])

/-! ## Edges out -/

include he he' hlin in
lemma edge_unique_source (hlin' : l'.kind.isLinear) (hs : l.source = l'.source) : e = e' :=
  congrArg Prod.fst (inj_on_of_nodup_map (h.perm_onward.nodup_iff.mp h.nodup_onward)
    ((mem_linearEdges h.valid).mpr ⟨he, hlin⟩) ((mem_linearEdges h.valid).mpr ⟨he', hlin'⟩) hs)

include hl hlin in
/-- Where a linear edge leaves there is a linear pin of an operation or the start of a unit, and a linear edge led there or
    to the end of the unit. -/
lemma source_cases : (∃ op m, c.graph.kind? l.source.vertex = some (.op op) ∧ c.graph.HasLink m ∧ m.kind.isLinear ∧
        m.target = l.source) ∨
      ∃ u ends m, c.boundary.get? u = some ends ∧ l.source = ⟨ends.input, 0⟩ ∧ c.graph.HasLink m ∧
        m.kind.isLinear ∧ m.target.vertex = ends.output := by
  obtain ⟨e, he⟩ := hl
  have hmem := h.perm_onward.mem_iff.mpr (mem_map.mpr ⟨(e, l), (mem_linearEdges h.valid).mpr ⟨he, hlin⟩, rfl⟩)
  obtain ⟨⟨e', m⟩, hm, hon⟩ := mem_map.mp hmem
  obtain ⟨hm, hmlin⟩ := (mem_linearEdges h.valid).mp hm
  rcases h.onward_cases ⟨e', hm⟩ with ⟨op, hk, heq⟩ | ⟨u, ends, hu, ht, heq⟩
  · have hsource : m.target = l.source := heq.symm.trans hon
    exact .inl ⟨op, m, hsource ▸ hk, ⟨e', hm⟩, hmlin, hsource⟩
  · exact .inr ⟨u, ends, m, hu, hon.symm.trans heq, ⟨e', hm⟩, hmlin, ht⟩

include hl hlin in
lemma op_out_port (hk : c.graph.kind? l.source.vertex = some (.op op)) : op.signature[l.source.index]? = some l.kind := by
  rcases h.source_cases hl hlin with ⟨_, m, _, hm, hmlin, hs⟩ | ⟨u, _, _, hu, hs, _⟩
  · rw [← hs] at hk ⊢
    have hport := h.op_in_port hm hk
    obtain ⟨n, ⟨e, hn⟩, hns, hkind⟩ := (h.op hk).link_out hport hmlin
    obtain ⟨_, hl⟩ := hl
    cases h.edge_unique_source hn hl (hkind ▸ hmlin) hlin (hns.trans hs)
    cases hn.symm.trans hl
    rw [hport, hkind]
  · exact absurd (congrArg Pin.vertex hs) (h.ne_input hk hu)

include hu hl hlin in
lemma source_of_input (hs : l.source.vertex = ends.input) : l.source = ⟨ends.input, 0⟩ := by
  rcases h.source_cases hl hlin with ⟨_, _, hk, _⟩ | ⟨_, _, _, _, hs', _⟩
  · exact absurd hs (h.ne_input hk hu)
  · rw [hs'] at hs ⊢
    rw [← hs]

include hu hl ht in
/-- **What leads to the end of a unit is linear**: its wire goes on where the unit starts. -/
theorem output_linear : l.kind.isLinear := by
  obtain ⟨_, hfirst, hs, hlin⟩ := (h.ends hu).from_input
  rcases h.source_cases hfirst hlin with ⟨_, _, hk, _⟩ | ⟨_, _, m, hu', hs', ⟨e, hm⟩, hmlin, hmt⟩
  · rw [hs] at hk
    exact absurd rfl (h.ne_input hk hu)
  · cases h.ends_unique hu hu' (congrArg Pin.vertex (hs.symm.trans hs'))
    obtain ⟨_, hl⟩ := hl
    cases h.edge_unique_output hu hm hl hmt ht
    cases hm.symm.trans hl
    exact hmlin

lemma exactlyWired : c.ExactlyWired where
  op_in hk hi := by
    obtain ⟨l, ⟨e, he⟩, ht, _⟩ := (h.op hk).link_in hi
    refine ⟨e, ⟨l, he, ht⟩, ?_⟩
    rintro e' ⟨l', he', ht'⟩
    exact h.edge_unique he' he (ht'.trans ht.symm)
  op_in_port := h.op_in_port
  op_out hk hi hlin := by
    obtain ⟨l, ⟨e, he⟩, hs, rfl⟩ := (h.op hk).link_out hi hlin
    refine ⟨e, ⟨l, he, hs, hlin⟩, ?_⟩
    rintro e' ⟨l', he', hs', hlin'⟩
    exact h.edge_unique_source he' he hlin' hlin (hs'.trans hs.symm)
  op_out_port := h.op_out_port
  input hu := by
    obtain ⟨l, ⟨e, he⟩, hs, hlin⟩ := (h.ends hu).from_input
    refine ⟨e, ⟨l, he, by rw [hs], hlin⟩, ?_⟩
    rintro e' ⟨l', he', hs', hlin'⟩
    exact h.edge_unique_source he' he hlin' hlin ((h.source_of_input hu ⟨e', he'⟩ hlin' hs').trans hs.symm)
  input_port hu hl hs hlin := by rw [h.source_of_input hu hl hlin hs]
  output {u ends} hu := by
    obtain ⟨⟨e, l⟩, hx⟩ := length_eq_one_iff.mp (h.ends hu).into_output
    obtain ⟨he, ht⟩ := (mem_incoming h.valid).mp (hx ▸ mem_singleton_self (e, l))
    refine ⟨e, ⟨l, he, ht⟩, ?_⟩
    rintro e' ⟨l', he', ht'⟩
    exact h.edge_unique_output hu he' he ht' ht
  output_linear hu hl ht := h.output_linear hu hl ht
  registered := h.registered
  acyclic v hcycle := by
    have hlive : ∀ u w, (u, w) ∈ c.graph.linkPairs → c.graph.Live u ∧ c.graph.Live w := fun u w huw =>
      live_of_precedes h.valid (mem_append_left _ huw)
    refine irrefl_of_walkBy h.valid hlive (of_decide_eq_true h.acyclic) v (hcycle.lift id fun u w hstep => ?_)
    exact (mem_linkPairs h.valid).mpr hstep

end Verified

/-- **A circuit that passes all rules is wired exactly**, whatever graph it has, if no vertex stands for two ends of
    units. -/
theorem verify_exact : (∀ calls, (perform {} calls).Valid) ∧ ∀ c : Circuit, c.graph.Valid → c.endVertices.Nodup →
    c.verify = .ok () → c.ExactlyWired :=
  ⟨valid_perform, fun _ hg hends h => (verified_of_ok hg hends h).exactlyWired⟩

/-- A reset that waits for a bit, which is read at a pin that the signature does not have: the rules do not ask where reads
    come from. -/
theorem verify_exact_stray_read :
    let c : Circuit := {
      graph := perform {} [.addVertex (.input .quantum) none, .addVertex (.output .quantum) none,
        .addVertex (.op (.conditional .reset 1 1)) none, .addLink ⟨⟨⟨0, 0⟩, 7⟩, ⟨⟨2, 0⟩, 0⟩, .boolean⟩,
        .addLink ⟨⟨⟨0, 0⟩, 0⟩, ⟨⟨2, 0⟩, 1⟩, .quantum⟩, .addLink ⟨⟨⟨2, 0⟩, 1⟩, ⟨⟨1, 0⟩, 0⟩, .quantum⟩]
      boundary := .ofList [(.qubit 0, ⟨⟨0, 0⟩, ⟨1, 0⟩⟩)] }
    c.endVertices.Nodup ∧ c.verify = .ok () ∧ c.ExactlyWired := by
  intro c
  have hends : c.endVertices.Nodup := by decide +kernel
  have hok : c.verify = .ok () := by decide +kernel
  exact ⟨hends, hok, verify_exact.2 c (verify_exact.1 _) hends hok⟩

/-! # `Circuit.holeOf` — all that crosses the edge of a region -/

variable {unit : Pin → UnitId} {region : SortedSet Vertex} {hole : Hole} {x x' : Option Edge}

/-! ## Ways back -/

/-- A path of links starts in the region, passes a vertex outside and ends in the region. -/
def Detour (c : Circuit) (region : SortedSet Vertex) : Prop :=
  ∃ v w x, region.contains v = true ∧ ¬ region.contains w = true ∧ region.contains x = true ∧
    Relation.ReflTransGen c.Linked v w ∧ Relation.ReflTransGen c.Linked w x

lemma convex_iff : Net.Convex c.Linked (fun v => region.contains v) ↔ ¬ c.Detour region := by
  constructor
  · rintro hconvex ⟨v, w, x, hv, hw, hx, hvw, hwx⟩
    exact hconvex.not_of_path hv hvw hw hwx hx
  · intro hnone v w x hv hw hstep hwx hx
    exact hnone ⟨v, w, x, hv, hw, hx, .single hstep, hwx⟩

lemma isConvex_eq_ok {b : Bool} (hg : c.graph.Valid) (h : c.isConvex region = .ok b) : b ↔ ¬ c.Detour region := by
  obtain ⟨_, _, hb⟩ := bind_ok_iff.mp h
  cases hb
  rw [reachable_outside_iff hg, convex_iff]

/-- **The search for a way back is exact**, for any vertices that are there in a graph as calls leave it. -/
theorem isConvex_exact : (∀ calls, (perform {} calls).Valid) ∧ ∀ (c : Circuit) (region : SortedSet Vertex),
    c.graph.Valid → (∀ v, region.contains v = true → c.graph.Live v) →
      ∃ b, c.isConvex region = .ok b ∧ (b = true ↔ ¬ c.Detour region) := by
  refine ⟨valid_perform, fun c region hg hlive => ?_⟩
  have hrun := isConvex_of_live fun {v} hv => hlive v hv
  exact ⟨_, hrun, isConvex_eq_ok hg hrun⟩

/-- A cycle of three vertices, one of them with a link to itself: two of them have a way back, all three have none. -/
theorem isConvex_exact_cycle :
    let c : Circuit := { graph := perform {} [.addVertex .create none, .addVertex (.op .reset) none,
      .addVertex .discard none, .addLink ⟨⟨⟨0, 0⟩, 4⟩, ⟨⟨1, 0⟩, 0⟩, .quantum⟩, .addLink ⟨⟨⟨1, 0⟩, 0⟩, ⟨⟨1, 0⟩, 0⟩, .rng⟩,
      .addLink ⟨⟨⟨1, 0⟩, 0⟩, ⟨⟨2, 0⟩, 9⟩, .boolean⟩, .addLink ⟨⟨⟨2, 0⟩, 0⟩, ⟨⟨0, 0⟩, 0⟩, .wasm⟩] }
    c.isConvex (.ofList [⟨0, 0⟩, ⟨2, 0⟩]) = .ok false ∧ c.Detour (.ofList [⟨0, 0⟩, ⟨2, 0⟩]) ∧
      c.isConvex (.ofList [⟨0, 0⟩, ⟨1, 0⟩, ⟨2, 0⟩]) = .ok true ∧ ¬ c.Detour (.ofList [⟨0, 0⟩, ⟨1, 0⟩, ⟨2, 0⟩]) := by
  intro c
  have hexact : ∀ region : SortedSet Vertex, (∀ v ∈ region.toList, c.graph.vertices.contains v = true) →
      ∃ b, c.isConvex region = .ok b ∧ (b = true ↔ ¬ c.Detour region) := fun region hlive =>
    isConvex_exact.2 c region (isConvex_exact.1 _) fun v hv => hlive v (SortedSet.mem_toList.mpr hv)
  obtain ⟨b, hb, hback⟩ := hexact (.ofList [⟨0, 0⟩, ⟨2, 0⟩]) (by decide +kernel)
  obtain ⟨b', hb', hnone⟩ := hexact (.ofList [⟨0, 0⟩, ⟨1, 0⟩, ⟨2, 0⟩]) (by decide +kernel)
  have hfalse : c.isConvex (.ofList [⟨0, 0⟩, ⟨2, 0⟩]) = .ok false := by decide +kernel
  have htrue : c.isConvex (.ofList [⟨0, 0⟩, ⟨1, 0⟩, ⟨2, 0⟩]) = .ok true := by decide +kernel
  cases hb.symm.trans hfalse
  cases hb'.symm.trans htrue
  exact ⟨hfalse, by simpa using hback, htrue, hnone.mp rfl⟩

/-! ## What crosses -/

/-- The edge leads into the region from outside. -/
structure Enters (c : Circuit) (region : SortedSet Vertex) (e : Edge) (l : Link) : Prop where
  get? : c.graph.edges.get? e = some l
  source : ¬ region.contains l.source.vertex = true
  target : region.contains l.target.vertex = true

/-- The edge leads out of the region. -/
structure Leaves (c : Circuit) (region : SortedSet Vertex) (e : Edge) (l : Link) : Prop where
  get? : c.graph.edges.get? e = some l
  source : region.contains l.source.vertex = true
  target : ¬ region.contains l.target.vertex = true

/-- **A hole tells all that crosses the edge of a region.** Slots are in the order of their units, of which no two have the
    same. Each wire that comes in has its slot, and each that goes out, where the slot of its unit does; a slot has no
    way out just if nothing but reads of its unit comes in, and all of these start where the slot does. -/
structure Delimits (c : Circuit) (region : SortedSet Vertex) (hole : Hole) : Prop where
  length_eq : hole.entries.length = hole.exits.length
  unit : ∀ {e}, e ∈ hole.entries → ∃ u, c.edgeUnit e = .ok u
  ordered : hole.entries.Pairwise fun e e' => ∀ u u', c.edgeUnit e = .ok u → c.edgeUnit e' = .ok u' → compare u u' = .lt
  entry : ∀ {e}, e ∈ hole.entries → ∃ l, c.Enters region e l
  slot : ∀ {e l}, c.Enters region e l → ∃ e' ∈ hole.entries, c.edgeUnit e' = c.edgeUnit e
  wires_in : ∀ {e l}, c.graph.edges.get? e = some l → l.kind.isLinear = true → (e ∈ hole.entries ↔ c.Enters region e l)
  wires_out : ∀ {e}, some e ∈ hole.exits ↔ ∃ l, c.Leaves region e l ∧ l.kind.isLinear = true
  entries_nodup : hole.entries.Nodup
  exits_nodup : hole.exits.reduceOption.Nodup
  same_unit : ∀ {e e'}, (e, some e') ∈ hole.entries.zip hole.exits → ∃ u, c.edgeUnit e = .ok u ∧ c.edgeUnit e' = .ok u
  reads_only : ∀ {e x}, (e, x) ∈ hole.entries.zip hole.exits →
    (x = none ↔ ∀ e' l, c.Enters region e' l → c.edgeUnit e' = c.edgeUnit e → l.kind = .boolean)
  reads_start : ∀ {e l e' l'}, e ∈ hole.entries → c.graph.edges.get? e = some l → c.Enters region e' l' →
    l'.kind = .boolean → c.edgeUnit e' = c.edgeUnit e → l'.source = l.source
  reads : ∀ {e}, e ∈ hole.reads ↔ ∃ l, c.Leaves region e l ∧ l.kind = .boolean
  reads_nodup : hole.reads.Nodup

lemma Wired.edgeUnit_eq_iff (hc : c.Wired unit) (he : c.graph.edges.get? e = some l)
    (he' : c.graph.edges.get? e' = some l') : c.edgeUnit e' = c.edgeUnit e ↔ unit l'.source = unit l.source := by
  rw [hc.edgeUnit_run he, hc.edgeUnit_run he', Except.ok.injEq]

section

variable (hc : c.Wired unit) (h : c.holeOf region = .ok hole)
include hc h

lemma isSlot_of_mem (hs : (e, x) ∈ hole.entries.zip hole.exits) : ∃ l, c.IsSlot region (e, x) l := by
  have hslot := (holeOf_isHole hc h).slot hs
  rwa [holeOf_interior h] at hslot

lemma slot_of_entry (he : e ∈ hole.entries) : ∃ x l, (e, x) ∈ hole.entries.zip hole.exits ∧ c.IsSlot region (e, x) l := by
  rw [← map_fst_zip (holeOf_isHole hc h).length_eq.le] at he
  obtain ⟨⟨_, x⟩, hs, rfl⟩ := List.mem_map.mp he
  obtain ⟨l, hl⟩ := isSlot_of_mem hc h hs
  exact ⟨x, l, hs, hl⟩

/-- The slot of an edge that comes in: its own if it is linear, and one that starts at the same pin if it reads. -/
lemma slot_of_enters (henters : c.Enters region e l) : ∃ e' x entry, (e', x) ∈ hole.entries.zip hole.exits ∧
    c.graph.edges.get? e' = some entry ∧ entry.source = l.source ∧ (l.kind.isLinear → e' = e ∧ x ≠ none) := by
  have hhole := holeOf_isHole hc h
  obtain ⟨he, hs, ht⟩ := henters
  rw [← holeOf_interior h] at hs ht
  by_cases hlin : l.kind.isLinear
  · obtain ⟨x, hx⟩ := hhole.enters he hlin hs ht
    exact ⟨e, some x, l, hx, he, rfl, fun _ => ⟨rfl, by simp⟩⟩
  · obtain ⟨⟨e', x⟩, hx, entry, hentry, hsource⟩ :=
      hhole.reads_enter he (WireKind.eq_boolean hlin) hs ht
    exact ⟨e', x, entry, hx, hentry, hsource, fun hl => absurd hl hlin⟩

lemma slot_unique (hs : (e, x) ∈ hole.entries.zip hole.exits) (hs' : (e', x') ∈ hole.entries.zip hole.exits)
    (he : c.graph.edges.get? e = some l) (he' : c.graph.edges.get? e' = some l')
    (hunit : unit l.source = unit l'.source) : (e, x) = (e', x') := by
  let Apart : Edge × Option Edge → Edge × Option Edge → Prop := fun a b => ∀ l m,
    c.graph.edges.get? a.1 = some l → c.graph.edges.get? b.1 = some m → unit l.source ≠ unit m.source
  have : Std.Symm Apart := ⟨fun _ _ hab l m hl hm heq => hab m l hm hl heq.symm⟩
  have hapart : (hole.entries.zip hole.exits).Pairwise Apart := (holeOf_ordered hc h).imp fun hlt l m hl hm heq => by
    have hself := hlt l m hl hm
    rw [heq, Std.ReflOrd.compare_self] at hself
    cases hself
  by_contra hne
  exact hapart.forall hs hs' hne l l' he he' hunit

lemma pairwise_entries : hole.entries.Pairwise fun e e' => ∀ u u', c.edgeUnit e = .ok u → c.edgeUnit e' = .ok u' →
    compare u u' = .lt := by
  rw [← map_fst_zip (holeOf_isHole hc h).length_eq.le, pairwise_map]
  refine (holeOf_ordered hc h).imp_of_mem fun {a b} ha hb hlt u u' hu hu' => ?_
  obtain ⟨l, hl⟩ := isSlot_of_mem hc h ha
  obtain ⟨m, hm⟩ := isSlot_of_mem hc h hb
  rw [← edgeUnit_eq_ok hc hl.get?_entry hu, ← edgeUnit_eq_ok hc hm.get?_entry hu']
  exact hlt l m hl.get?_entry hm.get?_entry

lemma nodup_exits : hole.exits.reduceOption.Nodup := by
  rw [← map_snd_zip (holeOf_isHole hc h).length_eq.ge]
  refine pairwise_filterMap.mpr (pairwise_map.mpr ((holeOf_ordered hc h).imp_of_mem ?_))
  rintro ⟨e, x⟩ ⟨_, _⟩ ha hb hlt y hy _ hy' rfl
  obtain ⟨l, hl⟩ := isSlot_of_mem hc h ha
  obtain ⟨m, hm⟩ := isSlot_of_mem hc h hb
  obtain ⟨_, n, hn, _, _, _, _, hunit, _⟩ := hl.exit_spec hc hy
  obtain ⟨_, _, hn', _, _, _, _, hunit', _⟩ := hm.exit_spec hc hy'
  cases hn.symm.trans hn'
  have hself := hlt l m hl.get?_entry hm.get?_entry
  rw [← hunit, ← hunit', Std.ReflOrd.compare_self] at hself
  cases hself

lemma mem_exits_iff : some e ∈ hole.exits ↔ ∃ l, c.Leaves region e l ∧ l.kind.isLinear := by
  constructor
  · intro he
    rw [← map_snd_zip (holeOf_isHole hc h).length_eq.ge] at he
    obtain ⟨⟨e', _⟩, hs, rfl⟩ := List.mem_map.mp he
    obtain ⟨m, hm⟩ := isSlot_of_mem hc h hs
    obtain ⟨_, l, hl, hlin, hs, ht, _⟩ := hm.exit_spec hc rfl
    exact ⟨l, ⟨hl, hs, ht⟩, hlin⟩
  · rintro ⟨l, ⟨hl, hs, ht⟩, hlin⟩
    rw [← holeOf_interior h] at hs ht
    obtain ⟨e', hs⟩ := (holeOf_isHole hc h).leaves hc hl hlin hs ht
    exact (of_mem_zip hs).2

lemma exit_eq_none_iff (hs : (e, x) ∈ hole.entries.zip hole.exits) :
    x = none ↔ ∀ e' l, c.Enters region e' l → c.edgeUnit e' = c.edgeUnit e → l.kind = .boolean := by
  obtain ⟨l, hl⟩ := isSlot_of_mem hc h hs
  constructor
  · rintro rfl e' _ henters hsame
    by_contra hk
    -- a wire of the unit would have the slot, with a way out
    obtain ⟨_, _, m, hs1, hm, hsource, hwire⟩ := slot_of_enters hc h henters
    have hunit := (hc.edgeUnit_eq_iff hl.get?_entry henters.get?).mp hsame
    cases slot_unique hc h hs1 hs hm hl.get?_entry (hsource ▸ hunit)
    exact (hwire (not_not.mp fun hnot => hk (WireKind.eq_boolean hnot))).2 rfl
  · intro hall
    cases x with
    | none => rfl
    | some e' =>
      have hk := hall e l ⟨hl.get?_entry, hl.outside, hl.inside⟩ rfl
      exact absurd hk (WireKind.ne_boolean (hl.exit rfl).1)

lemma source_of_enters (he : e ∈ hole.entries) (hl : c.graph.edges.get? e = some l) (henters : c.Enters region e' l')
    (hsame : c.edgeUnit e' = c.edgeUnit e) : l'.source = l.source := by
  obtain ⟨x, _, hs, _⟩ := slot_of_entry hc h he
  obtain ⟨_, _, m, hs1, hm, hsource, _⟩ := slot_of_enters hc h henters
  have hunit := (hc.edgeUnit_eq_iff hl henters.get?).mp hsame
  cases slot_unique hc h hs1 hs hm hl (hsource ▸ hunit)
  cases hm.symm.trans hl
  exact hsource.symm

end

lemma delimits_of_holeOf (hc : c.Wired unit) (h : c.holeOf region = .ok hole) : c.Delimits region hole where
  length_eq := (holeOf_isHole hc h).length_eq
  unit he := by
    obtain ⟨_, l, _, hl⟩ := slot_of_entry hc h he
    exact ⟨_, hc.edgeUnit_run hl.get?_entry⟩
  ordered := pairwise_entries hc h
  entry he := by
    obtain ⟨_, l, _, hl⟩ := slot_of_entry hc h he
    exact ⟨l, hl.get?_entry, hl.outside, hl.inside⟩
  slot henters := by
    obtain ⟨e', x, m, hs, hm, hsource, _⟩ := slot_of_enters hc h henters
    exact ⟨e', (of_mem_zip hs).1, (hc.edgeUnit_eq_iff henters.get? hm).mpr (congrArg unit hsource)⟩
  wires_in {e l} he hlin := by
    constructor
    · intro hmem
      obtain ⟨_, m, _, hm⟩ := slot_of_entry hc h hmem
      cases he.symm.trans hm.get?_entry
      exact ⟨he, hm.outside, hm.inside⟩
    · intro henters
      obtain ⟨e', x, _, hs, _, _, hwire⟩ := slot_of_enters hc h henters
      exact (hwire hlin).1 ▸ (of_mem_zip hs).1
  wires_out := mem_exits_iff hc h
  entries_nodup := (pairwise_entries hc h).imp_of_mem fun {e e'} he _ hlt heq => by
    obtain ⟨_, l, _, hl⟩ := slot_of_entry hc h he
    have hunit := hc.edgeUnit_run hl.get?_entry
    have hself := hlt _ _ hunit (heq ▸ hunit)
    rw [Std.ReflOrd.compare_self] at hself
    cases hself
  exits_nodup := nodup_exits hc h
  same_unit hs := by
    obtain ⟨l, hl⟩ := isSlot_of_mem hc h hs
    obtain ⟨_, m, hm, _, _, _, _, hsame, _⟩ := hl.exit_spec hc rfl
    exact ⟨_, hc.edgeUnit_run hl.get?_entry, hsame ▸ hc.edgeUnit_run hm⟩
  reads_only := exit_eq_none_iff hc h
  reads_start he hl henters _ := source_of_enters hc h he hl henters
  reads {e} := by
    rw [(holeOf_isHole hc h).reads, holeOf_interior h]
    constructor
    · rintro ⟨l, hl, hk, hs, ht⟩
      exact ⟨l, ⟨hl, hs, ht⟩, hk⟩
    · rintro ⟨l, hl, hk⟩
      exact ⟨l, hl.get?, hk, hl.source, hl.target⟩
  reads_nodup := (holeOf_isHole hc h).reads_nodup

/-- **The hole of a region tells all that crosses its edge**, and there is none if the region has an end of a unit in it or a
    path leaves it and comes back. -/
theorem holeOf_delimits (hc : c.WellFormed) (region : SortedSet Vertex) :
    (∀ hole, c.holeOf region = .ok hole → c.Delimits region hole) ∧
      ((∃ v k, region.contains v = true ∧ c.graph.kind? v = some k ∧ k.isBoundary = true) ∨ c.Detour region →
        ∃ err, c.holeOf region = .error err) := by
  refine ⟨fun hole h => delimits_of_holeOf hc.wired h, fun hbad => ?_⟩
  cases h : c.holeOf region with
  | error err => exact ⟨err, rfl⟩
  | ok hole =>
    rcases hbad with ⟨v, k, hv, hk, hb⟩ | hdetour
    · obtain ⟨k', hk', hb'⟩ := (holeOf_eq_ok h).1 v hv
      cases hk.symm.trans hk'
      cases hb.symm.trans hb'
    · exact absurd hdetour (convex_iff.mp (holeOf_convex hc.valid h))

/-- Two operations that one bit joins: it is written by the first and read by the second and by a third, outside. A
    region may not end where the wire of a unit does, nor leave out what lies between. -/
theorem holeOf_delimits_measure : ∃ c hole, (ofUnits 2 1).edited (do
      let _ ← addOp .measure [.qubit 0, .bit 0] none
      let _ ← addOp (.conditional .reset 1 1) [.bit 0, .qubit 0] none
      let _ ← addOp (.conditional .reset 1 1) [.bit 0, .qubit 1] none
      discard (addOp (.barrierOn 2) [.qubit 0, .qubit 1] none)) = .ok c ∧
    c.holeOf (.ofList [⟨6, 0⟩, ⟨7, 0⟩]) = .ok hole ∧
    c.Delimits (.ofList [⟨6, 0⟩, ⟨7, 0⟩]) hole ∧ hole.entries.length = 2 ∧ hole.reads.length = 1 ∧
    (∃ err, c.holeOf (.ofList [⟨0, 0⟩]) = .error err) ∧ ∃ err, c.holeOf (.ofList [⟨6, 0⟩, ⟨9, 0⟩]) = .error err := by
  simp only [exists_and_left]
  refine exists_run fun c hc =>
    exists_and_of (of_run hc (by decide +kernel)) fun hole hhole => ?_
  have hwell := wellFormed_edited hc
  have hend : (c.graph.kind? ⟨0, 0⟩).any NodeKind.isBoundary = true := of_run hc (by decide +kernel)
  obtain ⟨k, hk, hb⟩ := (Option.any_eq_true _ _).mp hend
  have hback : c.isConvex (.ofList [⟨6, 0⟩, ⟨9, 0⟩]) = .ok false := of_run hc (by decide +kernel)
  refine ⟨(holeOf_delimits hwell _).1 hole hhole, of_run hhole (of_run hc (by decide +kernel)),
    of_run hhole (of_run hc (by decide +kernel)), (holeOf_delimits hwell _).2 (.inl ?_),
    (holeOf_delimits hwell _).2 (.inr ?_)⟩
  · exact ⟨_, k, by decide +kernel, hk, hb⟩
  · by_contra hnone
    cases (isConvex_eq_ok hwell.valid hback).mpr hnone

end Wireloom.Circuit
