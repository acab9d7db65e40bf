import Wireloom.Proofs.Reduction
import Wireloom.Proofs.Transplant

/-!
# `Circuit.StandsIn` — one circuit for many operations

Whether a circuit fits the hole of an operation is a matter of the signature alone (`Wired.suits_iff`).
-/

namespace Wireloom

/-! ## Operations that agree -/

namespace Op

variable {a b : Op} {turned : Bool}

lemma looksLike_signature (h : looksLike a b) : a.signature = b.signature := by
  unfold looksLike at h
  rw [Bool.and_eq_true, Bool.and_eq_true] at h
  exact eq_of_beq h.1.2

lemma agreesFrom_signature (h : agreesFrom turned a b) : a.signature = b.signature := by
  fun_induction agreesFrom turned a b with
  | case1 turned a width value b width' value' ih =>
    rw [Bool.and_eq_true, Bool.and_eq_true] at h
    obtain ⟨⟨hwidth, _⟩, hagree⟩ := h
    rw [signature, signature, eq_of_beq hwidth, ih hagree]
  | case2 a b _ => exact looksLike_signature (Bool.and_eq_true_iff.mp h).2
  | case3 a b _ => exact (looksLike_signature (Bool.and_eq_true_iff.mp h).2).symm

lemma agrees_signature (h : agrees a b) : a.signature = b.signature := agreesFrom_signature h

end Op

/-! ## Sorting by two keys -/

lemma isLE_compare_pair {a b a' b' : Nat} (h : b ≤ b') : (compare [a, b] [a', b']).isLE = (compare a a').isLE := by
  rw [List.compare_cons_cons, List.compare_cons_cons]
  rcases Nat.lt_trichotomy a a' with hlt | rfl | hgt
  · rw [Nat.compare_eq_lt.mpr hlt]
    rfl
  · rcases Nat.lt_or_eq_of_le h with hlt | rfl
    · rw [Nat.compare_eq_eq.mpr rfl, Nat.compare_eq_lt.mpr hlt]
      rfl
    · rw [Nat.compare_eq_eq.mpr rfl, Nat.compare_eq_eq.mpr rfl]
      rfl
  · rw [Nat.compare_eq_gt.mpr hgt]
    rfl

lemma sortedBy_pair {α : Type} {first second : α → Nat} {l : List α} (h : l.Pairwise fun x y => second x ≤ second y) :
    sortedBy (fun x => [first x, second x]) l = sortedBy first l := by
  have hinsert : ∀ {x : α} {l : List α}, (∀ y ∈ l, second x ≤ second y) →
      insertBy (fun x => [first x, second x]) x l = insertBy first x l := by
    intro x l hx
    induction l with
    | nil => rfl
    | cons y rest ih =>
      obtain ⟨hy, hrest⟩ := List.forall_mem_cons.mp hx
      rw [insertBy, insertBy, isLE_compare_pair hy, ih hrest]
  induction l with
  | nil => rfl
  | cons x rest ih =>
    obtain ⟨hx, hrest⟩ := List.pairwise_cons.mp h
    show insertBy _ x (sortedBy _ rest) = insertBy first x (sortedBy first rest)
    rw [ih hrest]
    exact hinsert fun y hy => hx y (mem_sortedBy.mp hy)

namespace Circuit

open Wireloom.Graph List SortedMap Option

variable {c c₁ c' r : Circuit} {unit : Pin → UnitId} {hole : Hole} {policy : OpgroupPolicy} {ι : Vertex → Vertex}
  {v w : Vertex} {vs : List Vertex} {o op : Op} {signature : Signature} {name : String}

/-! ## What can take the place of an operation -/

variable (h : c.Wired unit) (hhole : c.holeAt v = .ok hole) (hc : c.WellFormed) (hr : r.WellFormed)
  (hk : c.graph.kind? v = some (.op o)) {a : Unit}

include h hk in
lemma Wired.slotLinks_eq : c.slotLinks v = sortedBy (fun p => slotRank p.2.kind) (c.graph.inLinks v) := by
  obtain ⟨n, hn, _⟩ := map_eq_some_iff.mp hk
  have hordered : ((c.graph.inLinks v).map fun p => p.2.target.index).Pairwise (· ≤ ·) := by
    rw [h.inLinks_indices hn (h.not_isInput_of_op hk)]
    exact pairwise_le_range
  exact sortedBy_pair (pairwise_map.mp hordered)

include h hk in
lemma Wired.kinds_inLinks : (c.graph.inLinks v).map (fun p => p.2.kind) = o.signature := by
  obtain ⟨n, hn, hkind⟩ := map_eq_some_iff.mp hk
  have hlength := h.length_inLinks hn (h.not_isInput_of_op hk)
  rw [hkind] at hlength
  refine ext_getElem ((length_map _).trans hlength) fun i hi hi' => ?_
  rw [length_map] at hi
  have hget := getElem?_eq_getElem hi
  rw [getElem_map]
  generalize (c.graph.inLinks v)[i] = p at hget
  obtain ⟨hp, ht⟩ := (mem_inLinks h.valid).mp (mem_of_getElem? hget)
  have hwire := h.threaded.target_wire ⟨p.1, hp⟩
  rw [wireAt_of_kind? (ht ▸ hk), h.index_of_inLinks hn (h.not_isInput_of_op hk) hget] at hwire
  exact some.inj (hwire.symm.trans (getElem?_eq_getElem hi'))

include h hk in
lemma Wired.kinds_slotLinks : (c.slotLinks v).map (fun p => p.2.kind) = sortedBy slotRank o.signature := by
  rw [h.slotLinks_eq hk, ← h.kinds_inLinks hk]
  exact map_sortedBy fun _ _ => rfl

/-- **What a circuit has to be to take the place of operations with a signature**: it has units of the kinds of the pins,
    and the wire of a unit at a pin that only reads is not written. -/
structure StandsIn (r : Circuit) (signature : Signature) : Prop where
  simple : r.isSimple = true
  kinds : r.units.map UnitId.kind = (sortedBy slotRank signature).map WireKind.unitKind
  unwritten : ∀ {u ends}, ((u, ends), WireKind.boolean) ∈ r.boundary.entries.zip (sortedBy slotRank signature) →
    ∃ m, r.graph.HasLink m ∧ m.kind.isLinear = true ∧ m.source = ⟨ends.input, 0⟩ ∧ m.target.vertex = ends.output

include h hhole in
lemma Wired.convex_holeAt : Net.Convex c.Linked fun w => hole.interior.contains w := by
  have hbefore : ∀ {a b}, c.Linked a b → c.graph.net.Before a b := by
    rintro a b ⟨l, hl, rfl, rfl⟩
    exact .link hl
  intro v' w x hv hw hstep hpath
  exact convex_single h hhole hv hw (hbefore hstep) (Relation.ReflTransGen.mono (fun _ _ => hbefore) _ _ hpath)

include hhole in
lemma slots_holeAt {i : Nat} {x : Filling} : (r.slots hole)[i]? = some x ↔
    ∃ p, r.boundary.entries[i]? = some x.1 ∧ (c.slotLinks v)[i]? = some p ∧ p.1 = x.2.1 ∧ hole.exits[i]? = some x.2.2 := by
  obtain ⟨_, _, _, rfl⟩ := holeAt_eq_ok hhole
  unfold slots
  rw [getElem?_zip_eq_some, getElem?_zip_eq_some, getElem?_map, map_eq_some_iff]
  exact ⟨fun ⟨hu, ⟨p, hp, he⟩, hx⟩ => ⟨p, hu, hp, he, hx⟩, fun ⟨p, hu, hp, he, hx⟩ => ⟨hu, ⟨p, hp, he⟩, hx⟩⟩

include h hhole hk in
/-- **A circuit suits the hole of an operation if it can stand in for it**: only the signature matters. -/
theorem Wired.suits_iff : c.Suits r hole ↔ r.StandsIn o.signature := by
  obtain ⟨hentries, hexits⟩ : hole.entries = (c.slotLinks v).map Prod.fst ∧ Forall₂ c.HasExit (c.slotLinks v) hole.exits := by
    obtain ⟨_, _, hexits, rfl⟩ := holeAt_eq_ok hhole
    exact ⟨rfl, hexits⟩
  have hlength := hexits.length_eq
  have hentries : hole.entries.length = (c.slotLinks v).length := by rw [hentries, length_map]
  have hkinds := h.kinds_slotLinks hk
  have hlink : ∀ {i : Nat} {p : Edge × Link}, (c.slotLinks v)[i]? = some p → c.graph.edges.get? p.1 = some p.2 := fun hp =>
    ((mem_slotLinks h.valid).mp (mem_of_getElem? hp)).1
  constructor
  · intro hsuits
    have hsize : r.boundary.entries.length = (c.slotLinks v).length := hsuits.size_eq.trans hentries
    -- each unit has a slot with a link of its kind
    have hfills : ∀ {i : Nat} {y : UnitId × Ends} {p : Edge × Link}, r.boundary.entries[i]? = some y → (c.slotLinks v)[i]? = some p →
        p.2.kind.unitKind = y.1.kind ∧ (p.2.kind = .boolean → ∃ m, r.graph.HasLink m ∧ m.kind.isLinear ∧
          m.source = ⟨y.2.input, 0⟩ ∧ m.target.vertex = y.2.output) := by
      intro i y p hy hp
      have hi : i < hole.exits.length := hlength ▸ (List.getElem?_eq_some_iff.mp hp).1
      obtain ⟨l, hl, hkind, _, hthrough⟩ := hsuits.slot (x := (y, p.1, hole.exits[i]))
        (mem_of_getElem? ((slots_holeAt hhole).mpr ⟨p, hy, hp, rfl, getElem?_eq_getElem hi⟩))
      cases mem_unique hl (hlink hp)
      exact ⟨hkind, hthrough⟩
    refine ⟨hsuits.simple, ?_, fun {u ends} hmem => ?_⟩
    · rw [← hkinds, List.map_map, units, SortedMap.keys, List.map_map]
      refine ext_getElem (by rw [length_map, length_map, hsize]) fun i hi hi' => ?_
      rw [length_map] at hi hi'
      rw [getElem_map, getElem_map]
      exact (hfills (getElem?_eq_getElem hi) (getElem?_eq_getElem hi')).1.symm
    · obtain ⟨i, hi⟩ := getElem?_of_mem hmem
      rw [getElem?_zip_eq_some, ← hkinds, getElem?_map, map_eq_some_iff] at hi
      obtain ⟨hy, p, hp, hkind⟩ := hi
      exact (hfills hy hp).2 hkind
  · intro hstands
    have hsize : r.boundary.entries.length = (c.slotLinks v).length := by
      have heq := congrArg length hstands.kinds
      rw [← hkinds, length_map, length_map, length_map] at heq
      exact (length_map _).symm.trans heq
    refine ⟨hstands.simple, hentries.trans hlength, hsize.trans hentries.symm, h.convex_holeAt hhole, fun {x} hx => ?_⟩
    obtain ⟨i, hi⟩ := getElem?_of_mem hx
    obtain ⟨p, hy, hp, hedge, hexit⟩ := (slots_holeAt hhole).mp hi
    have hkind : (sortedBy slotRank o.signature)[i]? = some p.2.kind := by
      rw [← hkinds, getElem?_map, hp]
      rfl
    refine ⟨p.2, hedge ▸ hlink hp, ?_, ?_, fun hbool => ?_⟩
    · have hsame := congrArg (·[i]?) hstands.kinds
      rw [units, SortedMap.keys, List.map_map, getElem?_map, getElem?_map, hy, hkind] at hsame
      exact (some.inj hsame).symm
    · have hexit' := hexits.get (List.getElem?_eq_some_iff.mp hp).1 (List.getElem?_eq_some_iff.mp hexit).1
      rw [get_eq_getElem, get_eq_getElem, (List.getElem?_eq_some_iff.mp hp).2,
        (List.getElem?_eq_some_iff.mp hexit).2, HasExit] at hexit'
      split at hexit'
      · next hlin =>
        obtain ⟨e, _, heq, _⟩ := hexit'
        rw [hlin, heq]
        rfl
      · next hlin =>
        rw [hexit', eq_false_of_ne_true hlin]
        rfl
    · exact hstands.unwritten (mem_of_getElem? (getElem?_zip_eq_some.mpr ⟨hy, hbool ▸ hkind⟩))

include hc hr hk in
lemma substituteVertex_run (hstands : r.StandsIn o.signature)
    (hpolicy : policy.check c.opgroups r.opgroups = .ok ()) (deletion : Deletion) :
    ∃ c', substituteVertex r v deletion policy c = .ok () c' := by
  have h := hc.wired
  obtain ⟨_, hhole⟩ := holeAt_run h hk
  have hcheck := ((h.suits_iff hhole hk).mpr hstands).checkHole_eq h.valid hr.wired fun hin => by
    rw [(holeAt_interior hhole).mp hin]
    exact live_of_kind? hk
  obtain ⟨c', hrun, _⟩ := substitute_run h hr.wired (holeAt_isHole h hhole) hcheck hpolicy (not_leaks_single h hhole) deletion
  exact ⟨c', (bind_ok (ask_of_ok hhole)).trans hrun⟩

include hc hr hk in
lemma standsIn_of_substituteVertex (hrun : substituteVertex r v .delete policy c = .ok a c') :
    r.StandsIn o.signature ∧ policy.check c.opgroups r.opgroups = .ok () := by
  obtain ⟨_, _, _, _, hhole, hsuits, hpolicy, _⟩ := substituteVertex_eq_ok hc hr hrun
  exact ⟨(hc.wired.suits_iff hhole hk).mp hsuits, hpolicy⟩

/-! ## Many places -/

lemma mem_verticesOf (hc : c.WellFormed) : v ∈ c.verticesOf op ↔ ∃ o, c.graph.kind? v = some (.op o) ∧ o.agrees op := by
  unfold verticesOf
  rw [List.mem_map]
  constructor
  · rintro ⟨⟨v, n⟩, hmem, rfl⟩
    obtain ⟨hmem, hagrees⟩ := mem_filter.mp hmem
    have hk : c.graph.kind? v = some n.kind := by rw [kind?, (mem_bySequence hc.valid).mp hmem]; rfl
    cases hkind : n.kind with
    | op o =>
      rw [hkind] at hk hagrees
      exact ⟨o, hk, hagrees⟩
    | _ =>
      rw [hkind] at hagrees
      cases hagrees
  · rintro ⟨o, hk, hagrees⟩
    obtain ⟨n, hn, hkind⟩ := map_eq_some_iff.mp hk
    refine ⟨(v, n), mem_filter.mpr ⟨(mem_bySequence hc.valid).mpr hn, ?_⟩, rfl⟩
    rw [hkind]
    exact hagrees

lemma nodup_verticesOf (hc : c.WellFormed) (op : Op) : (c.verticesOf op).Nodup :=
  (nodup_bySequence hc.valid).sublist (filter_sublist.map _)

lemma nodup_opgroupVertices (hc : c.WellFormed) (name : String) : (c.opgroupVertices name).Nodup :=
  (nodup_bySequence hc.valid).sublist (filter_sublist.map _)

/-- **`c'` is `c` with a copy of `r` in the place of the operation at `v`.** -/
structure Exchanged (c r : Circuit) (v : Vertex) (ι : Vertex → Vertex) (hole : Hole) (c' : Circuit) : Prop where
  wellFormed : c'.WellFormed
  hole_eq : c.holeAt v = .ok hole
  rewired : Rewired c r hole c' ι
  gone : ¬ c'.graph.Live v
  opgroups : c'.opgroups = mergedOpgroups .merge c.opgroups r.opgroups

include hc hr in
lemma substituteVertex_exchanges (hrun : substituteVertex r v .delete .merge c = .ok a c') :
    ∃ ι hole, Exchanged c r v ι hole c' := by
  obtain ⟨hole, g, ι, _, hhole, hsuits, _, hs, hwell⟩ := substituteVertex_eq_ok hc hr hrun
  refine ⟨ι, hole, hwell, hhole, hs.rewired hc.wired hr.wired (holeAt_isHole hc.wired hhole) hsuits
    (not_leaks_single hc.wired hhole), fun hv => ?_, by rw [hs.others]⟩
  obtain ⟨n, hn⟩ := live_iff.mp hv
  rw [hs.cleared.gone (.inr (.inl ((holeAt_interior hhole).mpr rfl)))] at hn
  cases hn

lemma Exchanged.op_stays (h : Exchanged c r v ι hole c') (hk : c.graph.kind? w = some (.op o)) (hne : w ≠ v) :
    c'.graph.kind? w = some (.op o) :=
  h.rewired.op_iff.mpr (.inl ⟨hk, mt (holeAt_interior h.hole_eq).mp hne⟩)

/-- **Copies of `r` in the place of the operations at the vertices of a list**, one after the other. With each vertex comes
    the map that takes the vertices of `r` to their copies. -/
inductive ExchangedAll (r : Circuit) : List (Vertex × (Vertex → Vertex)) → Circuit → Circuit → Prop
  | nil {c : Circuit} : ExchangedAll r [] c c
  | cons {c c₁ c' : Circuit} {v : Vertex} {ι : Vertex → Vertex} {hole : Hole} {places : List (Vertex × (Vertex → Vertex))}
      (first : Exchanged c r v ι hole c₁) (rest : ExchangedAll r places c₁ c') : ExchangedAll r ((v, ι) :: places) c c'

namespace ExchangedAll

variable {places : List (Vertex × (Vertex → Vertex))}

lemma op_stays (h : ExchangedAll r places c c') (hk : c.graph.kind? w = some (.op o)) (hw : w ∉ places.map Prod.fst) :
    c'.graph.kind? w = some (.op o) := by
  induction h with
  | nil => exact hk
  | cons first _ ih =>
    obtain ⟨hne, hw⟩ := not_or.mp (mt mem_cons.mpr hw)
    exact ih (first.op_stays hk hne) hw

lemma op_copied (h : ExchangedAll r places c c') (hlive : ∀ p ∈ places, ∃ o, c.graph.kind? p.1 = some (.op o))
    (hn : (places.map Prod.fst).Nodup) : ∀ p ∈ places, ∀ {x o}, r.graph.kind? x = some (.op o) →
      c'.graph.kind? (p.2 x) = some (.op o) := by
  induction h with
  | nil => exact fun p hp => absurd hp not_mem_nil
  | @cons c c₁ c' v ι hole places first rest ih =>
    obtain ⟨hnot, hn⟩ := nodup_cons.mp hn
    have hlive := (forall_mem_cons.mp hlive).2
    refine forall_mem_cons.mpr ⟨fun {x o} hx => ?_, ih (fun p hp => ?_) hn⟩
    · refine rest.op_stays (first.rewired.op_iff.mpr (.inr (.inl ⟨x, hx, rfl⟩))) fun hmem => ?_
      obtain ⟨p, hp, heq⟩ := mem_map.mp hmem
      obtain ⟨o', hk⟩ := hlive p hp
      rw [heq] at hk
      exact first.rewired.fresh (live_of_kind? hx) (live_of_kind? hk)
    · obtain ⟨o', hk⟩ := hlive p hp
      exact ⟨o', first.op_stays hk fun heq => hnot (heq ▸ mem_map.mpr ⟨_, hp, rfl⟩)⟩

/-- Every operation was there outside the places, or it is a copy, or a reset for a qubit that `r` creates. -/
lemma op_cases (h : ExchangedAll r places c c') (hk : c'.graph.kind? w = some (.op o)) :
    (c.graph.kind? w = some (.op o) ∧ w ∉ places.map Prod.fst) ∨ ∃ p ∈ places, ∃ x, p.2 x = w ∧
      (r.graph.kind? x = some (.op o) ∨ o = .reset ∧ (r.graph.kind? x).any NodeKind.isCreate) := by
  induction h with
  | nil => exact .inl ⟨hk, not_mem_nil⟩
  | @cons c c₁ c' v ι hole places first rest ih =>
    rcases ih hk with ⟨hk1, hw⟩ | ⟨p, hp, hcopy⟩
    · rcases first.rewired.op_iff.mp hk1 with ⟨hk0, hout⟩ | ⟨x, hx, rfl⟩ | ⟨x, _, _, _, _, _, hpin, rfl⟩
      · have hne : w ≠ v := mt (holeAt_interior first.hole_eq).mpr hout
        exact .inl ⟨hk0, not_or.mpr ⟨hne, hw⟩ ∘ mem_cons.mp⟩
      · exact .inr ⟨(v, ι), mem_cons_self, x, rfl, .inl hx⟩
      · unfold resetPins at hpin
        split at hpin
        · next hcreate =>
          cases mem_singleton.mp hpin
          exact .inr ⟨(v, ι), mem_cons_self, _, rfl, .inr ⟨rfl, (Bool.and_eq_true_iff.mp hcreate).1⟩⟩
        · cases hpin
    · exact .inr ⟨p, mem_cons_of_mem _ hp, hcopy⟩

end ExchangedAll

/-! ## All or nothing -/

lemma agree_mergedOpgroups {host guest : SortedMap String Signature} (h : host.Agree guest) :
    (mergedOpgroups .merge host guest).Agree guest :=
  h.unionLeft_iff.mpr ⟨h, fun _ _ _ hx hy => mem_unique hx hy⟩

/-- The vertices of a list hold operations of one signature. -/
def OfSignature (c : Circuit) (signature : Signature) (vs : List Vertex) : Prop :=
  ∀ v ∈ vs, ∃ o : Op, c.graph.kind? v = some (.op o) ∧ o.signature = signature

lemma substituteVertices_run (hc : c.WellFormed) (hr : r.WellFormed) (hn : vs.Nodup)
    (hvs : c.OfSignature signature vs) (hstands : r.StandsIn signature) (hagree : c.opgroups.Agree r.opgroups) :
    ∃ c' places, (vs.forM fun v => substituteVertex r v .delete .merge) c = .ok () c' ∧ places.map Prod.fst = vs ∧
      ExchangedAll r places c c' := by
  induction vs generalizing c with
  | nil => exact ⟨c, [], rfl, rfl, .nil⟩
  | cons v vs ih =>
    obtain ⟨hnot, hn⟩ := nodup_cons.mp hn
    obtain ⟨⟨o, hk, rfl⟩, hvs⟩ := forall_mem_cons.mp hvs
    obtain ⟨c₁, hrun⟩ := substituteVertex_run hc hr hk hstands (OpgroupPolicy.check_merge_iff.mpr hagree) .delete
    obtain ⟨ι, _, first⟩ := substituteVertex_exchanges hc hr hrun
    -- the other places keep their operations
    have hvs1 : c₁.OfSignature o.signature vs := fun w hw => by
      obtain ⟨o', hk', hsig⟩ := hvs w hw
      exact ⟨o', first.op_stays hk' fun heq => hnot (heq ▸ hw), hsig⟩
    obtain ⟨c', places, hrest, rfl, hall⟩ := ih first.wellFormed hn hvs1 (first.opgroups ▸ agree_mergedOpgroups hagree)
    exact ⟨c', (v, ι) :: places, (bind_ok hrun).trans hrest, rfl, .cons first hall⟩

include hc hr in
lemma substituteVertices_cases (hn : vs.Nodup) (hvs : c.OfSignature signature vs) :
    ((vs = [] ∨ r.StandsIn signature ∧ c.opgroups.Agree r.opgroups) ∧
      ∃ c' places, (vs.forM fun v => substituteVertex r v .delete .merge) c = .ok () c' ∧ places.map Prod.fst = vs ∧
        ExchangedAll r places c c') ∨
    (¬ (vs = [] ∨ r.StandsIn signature ∧ c.opgroups.Agree r.opgroups) ∧
      ∃ e, (vs.forM fun v => substituteVertex r v .delete .merge) c = .error e c) := by
  cases vs with
  | nil => exact .inl ⟨.inl rfl, c, [], rfl, rfl, .nil⟩
  | cons v vs =>
    obtain ⟨o, hk, rfl⟩ := hvs v mem_cons_self
    rcases substituteVertex_cases hc hr v .merge with ⟨_, d, _, _, _, hrun⟩ | ⟨e, herror⟩
    · obtain ⟨hstands, hcheck⟩ := standsIn_of_substituteVertex hc hr hk hrun
      have hagree := OpgroupPolicy.check_merge_iff.mp hcheck
      exact .inl ⟨.inr ⟨hstands, hagree⟩, substituteVertices_run hc hr hn hvs hstands hagree⟩
    · refine .inr ⟨?_, e, bind_error herror⟩
      rintro (hnil | ⟨hstands, hagree⟩)
      · cases hnil
      · obtain ⟨c', hrun⟩ := substituteVertex_run hc hr hk hstands (OpgroupPolicy.check_merge_iff.mpr hagree) .delete
        rw [hrun] at herror
        cases herror

/-- **A circuit takes the place of all operations of an opgroup, or nothing changes.** Afterwards there is no such group. -/
theorem substituteGroup_cases (hc : c.Coherent) (hr : r.WellFormed) (name : String) :
    (∃ found c', substituteGroup r name c = .ok found c' ∧ c'.opgroups.get? name = none) ∨
      ∃ e, substituteGroup r name c = .error e c := by
  unfold substituteGroup
  split
  · exact .inr ⟨_, rfl⟩
  dsimp only
  rw [bind_get]
  split
  · exact .inr ⟨_, rfl⟩
  cases hget : c.opgroups.get? name with
  | none => exact .inl ⟨_, c, rfl, hget⟩
  | some signature =>
    dsimp only
    split
    · exact .inr ⟨_, rfl⟩
    have hvs : c.OfSignature signature (c.opgroupVertices name) := by
      intro v hv
      obtain ⟨n, hn, hname⟩ := (mem_opgroupVertices hc.wellFormed).mp hv
      obtain ⟨o, hop, hsig⟩ := hc.labelled v n hn name hname
      exact ⟨o, by rw [kind?, hn]; exact congrArg some hop, mem_unique hsig hget⟩
    rcases substituteVertices_cases hc.wellFormed hr (nodup_opgroupVertices hc.wellFormed name) hvs with
      ⟨_, c', _, hrun, _⟩ | ⟨_, e, herror⟩
    · exact .inl ⟨_, _, bind_ok hrun, get?_erase_same _ name⟩
    · exact .inr ⟨e, bind_error herror⟩

/-- **Bulk substitution is all or nothing.** A circuit takes the place of all operations that agree with `op`, of an
    opgroup, or nothing changes. -/
theorem bulk_substitution_all_or_nothing (hc : c.Coherent) (hr : r.WellFormed) (op : Op) (name : String) :
    (¬ (c.verticesOf op = [] ∨ r.StandsIn op.signature ∧ c.opgroups.Agree r.opgroups) ∧
        (∃ e, substituteAll r op c = .error e c) ∨
      (c.verticesOf op = [] ∨ r.StandsIn op.signature ∧ c.opgroups.Agree r.opgroups) ∧
        ∃ c' places, substituteAll r op c = .ok (!(c.verticesOf op).isEmpty) c' ∧ ExchangedAll r places c c' ∧
          (places.map Prod.fst).Nodup ∧
          (∀ v, v ∈ places.map Prod.fst ↔ ∃ o, c.graph.kind? v = some (.op o) ∧ o.agrees op = true) ∧
          (∀ w o, c.graph.kind? w = some (.op o) → w ∉ places.map Prod.fst → c'.graph.kind? w = some (.op o)) ∧
          (∀ p ∈ places, ∀ x o, r.graph.kind? x = some (.op o) → c'.graph.kind? (p.2 x) = some (.op o)) ∧
          ∀ w o, c'.graph.kind? w = some (.op o) →
            (c.graph.kind? w = some (.op o) ∧ w ∉ places.map Prod.fst) ∨ ∃ p ∈ places, ∃ x, p.2 x = w ∧
              (r.graph.kind? x = some (.op o) ∨ o = .reset ∧ (r.graph.kind? x).any NodeKind.isCreate = true)) ∧
    ((∃ e, substituteGroup r name c = .error e c) ∨
      ∃ found c', substituteGroup r name c = .ok found c' ∧ c'.opgroups.get? name = none ∧
        (r.Labelled → ∀ v n, c'.graph.vertices.get? v = some n → n.opgroup ≠ some name)) := by
  have hmem : ∀ v, v ∈ c.verticesOf op ↔ _ := fun _ => mem_verticesOf hc.wellFormed
  have hvs : c.OfSignature op.signature (c.verticesOf op) := fun v hv =>
    ((hmem v).mp hv).imp fun _ h => ⟨h.1, Op.agrees_signature h.2⟩
  constructor
  · rcases substituteVertices_cases hc.wellFormed hr (nodup_verticesOf hc.wellFormed op) hvs with
      ⟨hcan, c', places, hrun, hplaces, hall⟩ | ⟨hnot, e, herror⟩
    · have hnodup := nodup_verticesOf hc.wellFormed op
      rw [← hplaces] at hmem hnodup
      refine .inr ⟨hcan, c', places, bind_ok hrun, hall, hnodup, hmem, fun w o => hall.op_stays,
        fun p hp x o => hall.op_copied (fun q hq => ?_) hnodup p hp, fun w o => hall.op_cases⟩
      obtain ⟨o, hk, _⟩ := (hmem q.1).mp (List.mem_map_of_mem hq)
      exact ⟨o, hk⟩
    · exact .inl ⟨hnot, e, (bind_ok rfl).trans (bind_error herror)⟩
  · rcases substituteGroup_cases hc hr name with ⟨found, c', hrun, hgone⟩ | herror
    · refine .inr ⟨found, c', hrun, hgone, fun hlab v n hn hname => ?_⟩
      obtain ⟨_, _, hsig⟩ := (substituteGroup_coherent ⟨hr, hlab⟩ name _ _ _ hc hrun).labelled v n hn name hname
      exact nomatch hgone.symm.trans hsig
    · exact .inl herror

/-- Two resets of a group, each replaced by a copy of the whole circuit; as the group itself it is refused. -/
theorem bulk_substitution_all_or_nothing_resets : ∃ c c' places e,
    (ofUnits 1 0).edited (do let _ ← addOp .reset [.qubit 0] (some "g"); addOp .reset [.qubit 0] (some "g")) = .ok c ∧
      substituteAll c .reset c = .ok true c' ∧ ExchangedAll c places c c' ∧ substituteGroup c "g" c = .error e c := by
  simp only [exists_and_left]
  refine exists_run fun c hc =>
    exists_and_of (of_run hc (by decide +kernel)) fun c' hrun => ?_
  obtain ⟨e, d, herror, _⟩ : ∃ e d, substituteGroup c "g" c = .error e d ∧ True := of_run hc (by decide +kernel)
  have hcoherent : c.Coherent :=
    ((addOp_coherent _ _ _).bind fun _ => addOp_coherent _ _ _).edited (ofUnits_coherent 1 0) hc
  obtain ⟨hall, hgroup⟩ := bulk_substitution_all_or_nothing hcoherent hcoherent.wellFormed .reset "g"
  rcases hall with ⟨_, e, hnone⟩ | ⟨_, _, places, hrun', hall, _⟩
  · cases hnone.symm.trans hrun
  · obtain ⟨_, rfl⟩ := EStateM.Result.ok.inj (hrun'.symm.trans hrun)
    rcases hgroup with ⟨e, hnone⟩ | ⟨_, _, hok, _⟩
    · exact ⟨places, hall, e, hnone⟩
    · cases hok.symm.trans herror

end Circuit

end Wireloom

/-! # `Circuit.removeOp` — operations that go, and vertices that stay behind -/

namespace Wireloom.Circuit

open Wireloom.Graph SortedMap SlotStore List

variable {c c' d r : Circuit} {unit : Pin → UnitId} {hole : Hole} {policy : OpgroupPolicy} {ι : Vertex → Vertex}
  {u : UnitId} {ends : Ends} {v w : Vertex} {o : Op} {signature : Signature} {g : Graph} {unit' : Pin → UnitId}

/-! ## Circuits of bare wires -/

/-- **A circuit of bare wires** of the kinds of a signature: there are only ends of units, none created or discarded. -/
structure Idle (r : Circuit) (signature : Signature) : Prop where
  wellFormed : r.WellFormed
  simple : r.isSimple = true
  fits : r.fitsSignature signature = true
  ends : ∀ {v k}, r.graph.kind? v = some k → k.isBoundary = true ∧ k.isCreate = false ∧ k.isDiscard = false
  opgroups : r.opgroups = .empty

namespace Idle

variable (hidle : r.Idle signature)
include hidle

lemma through (h : r.Wired unit) (hu : r.boundary.get? u = some ends) : ∃ m, r.graph.HasLink m ∧ m.kind.isLinear ∧
    m.source = ⟨ends.input, 0⟩ ∧ m.target = ⟨ends.output, 0⟩ := by
  have hin : r.IsInput ends.input := ⟨u, ends, hu, rfl⟩
  obtain ⟨m, hm, hlin, hsource⟩ := (h.complete.drained_iff (Net.wireAt_of_single (h.signature_input hu))
    (WireKind.isLinear_wire _)).mpr fun hout => h.not_isOutput hin hout
  obtain ⟨k, hk⟩ := live_iff_kind?.mp (h.valid.target_live hm)
  have hfed := h.target_open hm
  obtain ⟨_, _, hu', hout⟩ := (h.only_ops hk (hidle.ends hk).1).resolve_left hfed
  have hpin := (Net.pin_of_single (by rw [← hout]; exact h.signature_output hu') (h.threaded.target_wire hm)).1
  have hunit := h.threaded.same_unit hm hlin
  rw [hsource, h.unit_input hu, hpin, ← hout, h.unit_output hu'] at hunit
  subst hunit
  cases Option.mem_unique hu hu'
  exact ⟨m, hm, hlin, hsource, by rw [hpin, hout]⟩

lemma wirePins (hu : r.boundary.get? u = some ends) : r.WirePins u [] := by
  obtain ⟨m, hm, hlin, hsource, htarget⟩ := hidle.through hidle.wellFormed.wired hu
  exact ⟨ends, hu, .snoc .nil (hsource ▸ htarget ▸ Net.joined_of_link hm hlin)⟩

lemma standsIn : r.StandsIn signature where
  simple := hidle.simple
  kinds := by
    rw [← of_decide_eq_true hidle.fits]
    exact (map_sortedBy fun k _ => by cases k <;> rfl).symm
  unwritten hmem := by
    obtain ⟨m, hm, hlin, hsource, htarget⟩ := hidle.through hidle.wellFormed.wired
      (get?_iff_mem.mpr (of_mem_zip hmem).1)
    exact ⟨m, hm, hlin, hsource, by rw [htarget]⟩

lemma check_eq (policy : OpgroupPolicy) (host : SortedMap String Signature) : policy.check host r.opgroups = .ok () := by
  rw [hidle.opgroups]
  cases policy <;> rfl

lemma node_iff (hs : Substituted c r hole policy d unit' g ι) (hsuits : c.Suits r hole) {n : Node} :
    d.graph.vertices.get? w = some n ↔ c.graph.vertices.get? w = some n ∧ ¬ hole.interior.contains w := by
  have hr := hidle.wellFormed.wired
  have htouched : ∀ {n : Node}, c.graph.vertices.get? w = some n →
      touched g (c.slotsAt ι (r.slots hole)) w n.kind = n.kind := by
    intro n hn
    have hlive := signature?_iff.mpr (live_of_get? hn)
    refine touched_of_none (fun s hmem _ heq => ?_) fun s hmem hd => ?_
    · exact hs.ready.slotted.sides_ne hlive (hs.ready.slotted.live_input hmem) heq.symm
    · obtain ⟨x, hx, rfl⟩ := mem_map.mp hmem
      obtain ⟨k, hk, _⟩ := hr.stops (mem_slots hx).1
      obtain ⟨⟨_, hk', hdis⟩, _⟩ := discards_cases hd
      cases Option.mem_unique (hs.copy.kind?_new hk) hk'
      exact absurd hdis (ne_true_of_eq_false (hidle.ends hk).2.2)
  constructor
  · intro hn
    have hk : d.graph.kind? w = some n.kind := kind?_of_get? hn
    obtain ⟨_, hn0, rfl⟩ := hs.get?_cases hn
    rcases hs.kind?_cases hr hsuits hk with ⟨_, hk0, hout, _⟩ | ⟨x, o, hx, _⟩ | ⟨s, hmem, hreset, _⟩
    · obtain ⟨m, hm, _⟩ := Option.map_eq_some_iff.mp hk0
      cases Option.mem_unique hn0 (hs.copy.old hm)
      rw [htouched hm]
      exact ⟨hm, hout⟩
    · cases (hidle.ends hx).1
    · obtain ⟨x, hx, rfl⟩ := mem_map.mp hmem
      obtain ⟨k, hk, _⟩ := hr.starts (mem_slots hx).1
      cases Option.mem_unique (hs.copy.kind?_new hk) ((resets_cases hreset).2)
      cases (hidle.ends hk).2.1
  · rintro ⟨hn, hout⟩
    rw [hs.get?_host hn hout, htouched hn]

lemma link_joined (hs : Substituted c r hole policy d unit' g ι) (h : c.Wired unit) (hhole : c.holeAt v = .ok hole)
    (hsuits : c.Suits r hole) {a b : Link} (ha : c.graph.HasLink a) (hv : a.target.vertex = v)
    (hlin : a.kind.isLinear) (hb : c.graph.HasLink b) (hab : b.source = a.target) :
    d.graph.HasLink ⟨a.source, b.target, b.kind⟩ := by
  have hr := hidle.wellFormed.wired
  have hisHole := holeAt_isHole h hhole
  have hin : ∀ {w}, hole.interior.contains w ↔ w = v := holeAt_interior hhole
  obtain ⟨e, he⟩ := ha
  have hloop : ∀ {l}, c.graph.HasLink l → l.source.vertex = v → l.target.vertex ≠ v := fun hl hs ht =>
    h.acyclic.no_loop hl (hs.trans ht.symm)
  obtain ⟨x, hslot⟩ := hisHole.enters he hlin (fun hs => hloop ⟨e, he⟩ (hin.mp hs) hv) (hin.mpr hv)
  obtain ⟨u, ends, hx⟩ := hsuits.exists_unit_of_slot hslot
  obtain ⟨_, hIsSlot⟩ := hisHole.slot hslot
  cases Option.mem_unique he hIsSlot.get?_entry
  obtain ⟨_, exit, hexit, _, _, hpath⟩ := hIsSlot.exit rfl
  have hsource : exit.source = a.target := by
    rcases Relation.ReflTransGen.cases_head hpath with heq | ⟨q, ⟨⟨k, _, hq⟩, hqin⟩, _⟩
    · exact heq.symm
    · exact absurd (hin.mp hqin) (hloop hq hv)
  obtain ⟨k, hk, _⟩ := hr.starts (mem_slots hx).1
  have hreset : c.resetPins r ι ((u, ends), e, some x) a = [] := by
    unfold resetPins
    rw [hk, Option.any_some, (hidle.ends hk).2.1]
    rfl
  obtain ⟨z, hruns, hjoined⟩ := hs.runs_slot h hr hisHole hsuits hx rfl he hexit (hidle.wirePins (mem_slots hx).1)
  rw [hreset] at hruns
  have hz : z = a.source := hruns.eq_getLastD
  rw [← hz]
  exact hjoined hb (hab.trans hsource.symm) fun ht => hloop hb (by rw [hab]; exact hv) (hin.mp ht)

end Idle

lemma sameUnits_of_ends (hboundary : c'.boundary = c.boundary) (hget : ∀ {u ends}, c.boundary.get? u = some ends →
    c'.graph.vertices.get? ends.input = c.graph.vertices.get? ends.input ∧
      c'.graph.vertices.get? ends.output = c.graph.vertices.get? ends.output) : c.SameUnits c' := by
  have hkind : ∀ {w}, c'.graph.vertices.get? w = c.graph.vertices.get? w → c'.graph.kind w = c.graph.kind w := fun h => by
    unfold Graph.kind node
    rw [h]
  refine ⟨fun u => by rw [hasUnit, hboundary, hasUnit], fun u => ?_, fun u => ?_⟩ <;>
    simp only [isCreated, isDiscarded, Circuit.ends, hboundary]
  · cases hu : c.boundary.get? u with
    | none => rfl
    | some ends => exact congrArg (· >>= fun k => pure k.isCreate) (hkind (hget hu).1)
  · cases hu : c.boundary.get? u with
    | none => rfl
    | some ends => exact congrArg (· >>= fun k => pure k.isDiscard) (hkind (hget hu).2)

/-- **Removing an operation is putting nothing in its place.** Both go through, whatever the policy for opgroups, and leave
    the commands of all other operations. -/
theorem removeOp_eq_idle (hc : c.WellFormed) (hk : c.graph.kind? v = some (.op o)) (hidle : r.Idle o.signature)
    (policy : OpgroupPolicy) :
    ∃ d d', removeOp v c = .ok ⟨⟩ d ∧ substituteVertex r v .delete policy c = .ok ⟨⟩ d' ∧ d.SameUnits d' ∧
      d'.opgroups = d.opgroups ∧ d'.phase = d.phase + r.phase ∧
      (∀ cmd, cmd ∈ d.commands ↔ cmd ∈ c.commands ∧ cmd.vertex ≠ v) ∧ (∀ cmd, cmd ∈ d'.commands ↔ cmd ∈ d.commands) ∧
      (c.graph.Numbered → d'.commands = d.commands) := by
  have h := hc.wired
  have hr := hidle.wellFormed.wired
  obtain ⟨d, hremove, hd, hpruned⟩ := removeOp_prunes h hk
  obtain ⟨g₁, hremove', _, _, hsplice⟩ := removeOp_run h hk
  obtain ⟨_, rfl⟩ := EStateM.Result.ok.inj (hremove'.symm.trans hremove)
  obtain ⟨d', hsubst⟩ := substituteVertex_run hc hidle.wellFormed hk hidle.standsIn (hidle.check_eq policy _) .delete
  obtain ⟨hole, g, ι, unit', hhole, hsuits, _, hs, hd'⟩ := substituteVertex_eq_ok hc hidle.wellFormed hsubst
  have hget : ∀ w, d'.graph.vertices.get? w = g₁.vertices.get? w := fun w => Option.ext fun n => by
    rw [hidle.node_iff hs hsuits, holeAt_interior hhole, hpruned.node, List.mem_singleton]
  have hlink : ∀ l, g₁.HasLink l → d'.graph.HasLink l := by
    intro l hl
    rcases (hsplice.link l).mp hl with ⟨hl, hsource, htarget⟩ | ⟨a, ha, hv, hlin, b, hb, hab, hsource, htarget, hkind⟩
    · exact hs.hasLink_host h hr hsuits hl (mt (holeAt_interior hhole).mp hsource) (mt (holeAt_interior hhole).mp htarget)
    · have hjoined := hidle.link_joined hs h hhole hsuits ha hv hlin hb hab
      obtain ⟨b', hb', ht', hkind', _⟩ := hsplice.origin h.threaded.toFitted h.acyclic.no_return hl
      cases h.threaded.in_unique hb hb' (htarget.symm.trans ht'.symm)
      rw [← hsource, ← htarget, hkind'] at hjoined
      exact hjoined
  have hothers := hs.others
  have hboundary : d'.boundary = c.boundary := by rw [hothers]
  have hcorr : Corresponds id id { c with graph := g₁ } d' := .of_links hd hd'.wired (fun _ => rfl) (fun _ _ heq => heq)
    (fun {w} hw => ⟨w, by rw [Live, SlotStore.contains, ← hget]; exact hw, rfl⟩)
    (fun {w n} hn => ⟨n, (hget w).trans hn, n.kind.mapOp_id.symm, rfl⟩) hlink fun u => by
      rw [hboundary]
      exact Option.map_id'.symm
  refine ⟨_, d', hremove, hsubst, sameUnits_of_ends hboundary fun _ => ⟨hget _, hget _⟩, ?_, by rw [hothers], fun cmd => ?_, fun cmd => ?_,
    fun hn => ?_⟩
  · rw [hothers, hidle.opgroups]
    unfold mergedOpgroups
    split
    · exact ext_get? fun name => by rw [get?_unionLeft, get?_empty, Option.or_none]
    · rfl
  · rw [hpruned.command, List.mem_singleton]
  · rw [hd'.wired.mem_commands, hd.mem_commands]
    by_cases hw : g₁.Live cmd.vertex
    · rw [show d'.commandAt _ cmd.vertex = _ from hcorr.commandAt_eq hd hd'.wired (fun _ => rfl) hw]
      exact iff_of_eq (congrArg (· = some cmd) Option.map_id')
    · unfold commandAt
      rw [hget, show g₁.vertices.get? cmd.vertex = none from Option.not_isSome_iff_eq_none.mp hw]
  · have hmade := made_filter hd.valid (removeOp_lasts lasting_numbered v _ _ _ hn hremove) hd'.valid
      (substituteVertex_lasts lasting_numbered r v .delete policy _ _ _ hn hsubst)
      fun {w n} hw => ⟨n, (hget w).symm.trans hw, rfl⟩
    rw [List.filter_eq_self.mpr fun w hw => ?_] at hmade
    · exact (hcorr.commands_eq hd.wellFormed hd' (fun _ => rfl) (hmade.trans (List.map_id _).symm)).trans (List.map_id' _)
    · rw [SlotStore.contains, hget]
      exact (mem_map_bySequence hd.valid).mp hw

/-- A measurement whose result is read later, taken out. -/
theorem removeOp_eq_idle_measure : ∃ c d d', (ofUnits 2 1).edited (do
      let _ ← addOp .measure [.qubit 0, .bit 0] none
      discard (addOp (.conditional .reset 1 1) [.bit 0, .qubit 1] none)) = .ok c ∧
    removeOp ⟨6, 0⟩ c = .ok ⟨⟩ d ∧ substituteVertex (ofUnits 1 1) ⟨6, 0⟩ .delete .disallow c = .ok ⟨⟩ d' ∧
    d.SameUnits d' ∧ d'.opgroups = d.opgroups ∧ ∀ cmd, cmd ∈ d'.commands ↔ cmd ∈ d.commands := by
  simp only [exists_and_left]
  refine exists_run fun c hc => ?_
  obtain ⟨o, ho, hsig⟩ : ∃ o, c.opAt ⟨6, 0⟩ = .ok o ∧ o.signature = Op.measure.signature := of_run hc (by decide +kernel)
  have hwell := wellFormed_edited hc
  have hends : ∀ p ∈ (ofUnits 1 1).graph.vertices.entries,
      p.2.kind.isBoundary = true ∧ p.2.kind.isCreate = false ∧ p.2.kind.isDiscard = false := by decide +kernel
  have hidle : (ofUnits 1 1).Idle o.signature := hsig ▸
    ⟨ofUnits_wellFormed 1 1, by decide +kernel, by decide +kernel, fun {v k} hv => by
      obtain ⟨n, hn, rfl⟩ := Option.map_eq_some_iff.mp hv
      exact hends (v, n) (mem_of_get? hn), by decide +kernel⟩
  obtain ⟨d, d', hremove, hsubst, hunits, hgroups, _, _, hcommands, _⟩ :=
    removeOp_eq_idle hwell (opAt_eq_ok ho) hidle .disallow
  exact ⟨d, hremove, d', hsubst, hunits, hgroups, hcommands⟩

/-! ## Vertices that stay behind -/

def withoutVertex (c : Circuit) (v : Vertex) : Circuit := { c with graph := c.graph.withoutVertex v }

lemma removeVertex_delete (v : Vertex) : removeVertex v .cut .delete = (do
    removeVertex v .cut .keep
    modify (·.withoutVertex v)) := by
  unfold removeVertex
  simp [bind_assoc]

lemma cut_delete (v : Vertex) (phase : Angle) :
    (do [v].forM fun v => onGraph (removeVertex v .cut .delete); addPhase phase : Edit Unit) =
      (do [v].forM fun v => onGraph (removeVertex v .cut .keep); addPhase phase; modify (withoutVertex · v)) := by
  funext c
  have hdelete := congrFun (removeVertex_delete v) c.graph
  cases hkeep : removeVertex v .cut .keep c.graph with
  | ok a g =>
    rw [bind_ok hkeep] at hdelete
    refine (bind_ok (bind_ok (onGraph_of_ok hdelete))).trans (Eq.symm ?_)
    exact bind_ok (bind_ok (onGraph_of_ok hkeep))
  | error e g =>
    rw [bind_error hkeep] at hdelete
    exact (bind_error (bind_error (onGraph_of_error hdelete))).trans
      (bind_error (bind_error (onGraph_of_error hkeep))).symm

lemma substituteVertex_delete (r : Circuit) (v : Vertex) (policy : OpgroupPolicy) (c : Circuit) :
    substituteVertex r v .delete policy c = (do substituteVertex r v .keep policy; modify (withoutVertex · v)) c := by
  unfold substituteVertex
  cases hhole : c.holeAt v with
  | error e => rw [bind_error (ask_of_error hhole), bind_error (bind_error (ask_of_error hhole))]
  | ok hole =>
    obtain ⟨_, _, _, rfl⟩ := holeAt_eq_ok hhole
    rw [bind_ok (ask_of_ok hhole), bind_assoc, bind_ok (ask_of_ok hhole)]
    unfold substitute clearHole
    have hinterior : (SortedSet.ofList [v]).toList = [v] := rfl
    simp only [bind_assoc, hinterior, cut_delete]

lemma mem_commandsAlong {l : List Vertex} {wires : Wires} {cmd : Command} (h : cmd ∈ c.commandsAlong l wires) :
    c.graph.kind? cmd.vertex = some (.op cmd.op) ∧ (c.graph.inLinks cmd.vertex).length = cmd.op.signature.length := by
  induction l generalizing wires with
  | nil => cases h
  | cons w rest ih =>
    rw [commandsAlong] at h
    split at h
    · next _ _ _ hn =>
      dsimp only at h
      split_ifs at h with hlinks
      · rcases mem_cons.mp h with rfl | h
        · exact ⟨kind?_of_get? hn, hlinks⟩
        · exact ih h
      · exact ih h
      · exact ih h
    · exact ih h

/-- **A vertex that no link touches**, where the circuit is well-formed without it. -/
structure Leftover (c : Circuit) (v : Vertex) (o : Op) : Prop where
  valid : c.graph.Valid
  wellFormed : (c.withoutVertex v).WellFormed
  kind : c.graph.kind? v = some (.op o)

lemma not_live_withoutVertex : ¬ (c.withoutVertex v).graph.Live v := fun hv => by
  obtain ⟨n, hn⟩ := live_iff.mp hv
  cases (get?_release_same _ _).symm.trans hn

namespace Leftover

variable (h : c.Leftover v o)
include h

lemma incoming_eq : c.graph.incoming v = [] :=
  eq_nil_iff_forall_not_mem.mpr fun ⟨e, l⟩ hmem => by
    obtain ⟨hl, ht⟩ := (mem_incoming h.wellFormed.valid).mp hmem
    exact not_live_withoutVertex (ht ▸ h.wellFormed.valid.target_live ⟨e, hl⟩)

lemma outgoing_eq : c.graph.outgoing v = [] :=
  eq_nil_iff_forall_not_mem.mpr fun ⟨e, l⟩ hmem => by
    obtain ⟨hl, hs⟩ := (mem_outgoing h.wellFormed.valid).mp hmem
    exact not_live_withoutVertex (hs ▸ h.wellFormed.valid.source_live ⟨e, hl⟩)

lemma inLinks_eq : c.graph.inLinks v = [] := by
  rw [inLinks, h.incoming_eq]
  rfl

lemma removeOp_eq : removeOp v c = .ok ⟨⟩ (c.withoutVertex v) := by
  obtain ⟨n, hn, _⟩ := node_of_live (live_of_kind? h.kind)
  have hisolate := isolate_run (live_of_kind? h.kind)
  rw [around, h.incoming_eq, h.outgoing_eq] at hisolate
  have hsplice : splice v c.graph = .ok ⟨⟩ c.graph := by
    show ((c.graph.inLinks v).forM _ : Graph.Edit Unit) c.graph = _
    rw [h.inLinks_eq]
    rfl
  have hremove : removeVertex v .splice .delete c.graph = .ok ⟨⟩ (c.graph.withoutVertex v) :=
    (bind_ok (Graph.ask_of_ok hn)).trans ((bind_ok hsplice).trans (bind_ok hisolate))
  unfold removeOp
  rw [bind_ok (ask_of_ok (kind_eq_ok.mpr h.kind))]
  exact onGraph_of_ok hremove

lemma walk_eq : (c.withoutVertex v).graph.walk = c.graph.walk.filter fun w => w ≠ v := by
  have hmade : (c.withoutVertex v).graph.bySequence.map Prod.fst = _ := made_of_release rfl
  unfold walk walkBy
  rw [hmade]
  refine (filter_walkFor (fun u w huw _ => ?_) le_rfl le_rfl).symm
  have hw := h.wellFormed.wired
  exact decide_eq_true fun heq => not_live_withoutVertex (heq ▸ (live_of_precedes hw.valid huw).1)

lemma commandsAlong_eq (l : List Vertex) (wires : Wires) : (c.withoutVertex v).commandsAlong (l.filter fun w => w ≠ v) wires =
      (c.commandsAlong l wires).filter fun cmd => cmd.vertex ≠ v := by
  induction l generalizing wires with
  | nil => rfl
  | cons w rest ih =>
    by_cases hw : w = v
    · subst hw
      obtain ⟨n, hn, hkind⟩ := Option.map_eq_some_iff.mp h.kind
      obtain ⟨kind, og, seq⟩ := n
      cases hkind
      rw [filter_cons_of_neg (by simp), ih, commandsAlong, hn]
      simp only [h.inLinks_eq, carry]
      by_cases hnone : 0 = o.signature.length <;> simp [hnone]
    · have hget : (c.withoutVertex v).graph.vertices.get? w = c.graph.vertices.get? w := get?_release_other _ hw
      rw [filter_cons_of_pos (by simpa using hw), commandsAlong, commandsAlong, hget]
      rcases c.graph.vertices.get? w with _ | ⟨kind, og, seq⟩
      · exact ih _
      cases kind with
      | op o' =>
        simp only [show (c.withoutVertex v).graph.inLinks w = c.graph.inLinks w from rfl]
        split_ifs
        · rw [filter_cons_of_pos (by simpa using hw), ih]
        · exact ih _
        · exact ih _
      | _ => exact ih _

lemma commands_eq : (c.withoutVertex v).commands = c.commands.filter fun cmd => cmd.vertex ≠ v := by
  rw [commands, h.walk_eq]
  exact h.commandsAlong_eq _ _

lemma signature_eq {cmd : Command} (hcmd : cmd ∈ c.commands) (hv : cmd.vertex = v) : o.signature = [] := by
  obtain ⟨hk, hlength⟩ := mem_commandsAlong hcmd
  rw [hv, h.kind] at hk
  rw [hv, h.inLinks_eq] at hlength
  cases hk
  exact length_eq_zero_iff.mp hlength.symm

lemma opCount_eq : c.opCount = (c.withoutVertex v).opCount + if o.signature = [] then 1 else 0 := by
  obtain ⟨n, hn, hkind⟩ := Option.map_eq_some_iff.mp h.kind
  have hnodup := h.valid.vertices.nodup.of_map
  have hperm : c.graph.vertices.entries.Perm ((v, n) :: (c.withoutVertex v).graph.vertices.entries) := by
    refine (perm_ext_iff_of_nodup hnodup (nodup_cons.mpr ⟨fun hmem => ?_, hnodup.filter _⟩)).mpr fun p => ?_
    · exact of_decide_eq_true (mem_filter.mp hmem).2 rfl
    · rw [mem_cons, mem_filter, decide_eq_true_eq]
      refine ⟨fun hp => (em (p.1 = v)).imp (fun hv => ?_) (⟨hp, ·⟩), ?_⟩
      · have hp' := (get?_eq_some_iff h.valid.vertices).mpr hp
        rw [hv, hn] at hp'
        exact Prod.ext hv (Option.some.inj hp').symm
      · rintro (rfl | ⟨hp, _⟩)
        · exact mem_of_get? hn
        · exact hp
  have hwired : c.isWired v n = decide (o.signature = []) := by
    unfold isWired
    rw [hkind, h.incoming_eq]
    exact decide_eq_decide.mpr (eq_comm.trans length_eq_zero_iff)
  rw [opCount, hperm.countP_eq, countP_cons, hwired]
  simp only [decide_eq_true_eq]
  rfl

end Leftover

/-- **Keeping the vertex or deleting it makes no other difference.** Both fail alike, or both go through; then removing what
    was left behind gives what deleting it gives. What was left behind is listed and counted just if it has no pins. -/
theorem deletion_policies_agree (hc : c.WellFormed) (hr : r.WellFormed) (hk : c.graph.kind? v = some (.op o))
    (policy : OpgroupPolicy) :
    (∃ e, substituteVertex r v .keep policy c = .error e c ∧ substituteVertex r v .delete policy c = .error e c) ∨
    ∃ kept deleted, substituteVertex r v .keep policy c = .ok ⟨⟩ kept ∧
      substituteVertex r v .delete policy c = .ok ⟨⟩ deleted ∧ removeOp v kept = .ok ⟨⟩ deleted ∧
      kept.SameUnits deleted ∧ kept.phase = deleted.phase ∧
      deleted.commands = kept.commands.filter (fun cmd => cmd.vertex ≠ v) ∧
      kept.opCount = deleted.opCount + (if o.signature = [] then 1 else 0) ∧
      (o.signature ≠ [] → kept.commands = deleted.commands ∧ kept.depth = deleted.depth) := by
  have h := hc.wired
  have hdelete := substituteVertex_delete r v policy c
  rcases substituteVertex_cases hc hr v policy with ⟨hole, deleted, hhole, hcheck, hpolicy, hrun⟩ | ⟨e, herror⟩
  · obtain ⟨kept, hrun', hspec, _⟩ := substitute_run h hr.wired (holeAt_isHole h hhole) hcheck hpolicy
      (not_leaks_single h hhole) .keep
    obtain ⟨hvalid, hkind⟩ := hspec rfl
    have hkeep : substituteVertex r v .keep policy c = .ok ⟨⟩ kept := (bind_ok (ask_of_ok hhole)).trans hrun'
    rw [bind_ok hkeep, hrun] at hdelete
    obtain ⟨_, rfl⟩ := EStateM.Result.ok.inj hdelete
    obtain ⟨_, _, _, _, _, _, _, _, hwell⟩ := substituteVertex_eq_ok hc hr hrun
    have hleft : kept.Leftover v o := ⟨hvalid, hwell, hkind ((holeAt_interior hhole).mpr rfl) hk⟩
    have hend : ∀ {w}, (kept.withoutVertex v).graph.Live w →
        (kept.withoutVertex v).graph.vertices.get? w = kept.graph.vertices.get? w := fun hw =>
      get?_release_other _ fun heq => not_live_withoutVertex (heq ▸ hw)
    refine .inr ⟨kept, _, hkeep, hrun, hleft.removeOp_eq, sameUnits_of_ends rfl fun hu => ?_, rfl, hleft.commands_eq,
      hleft.opCount_eq, fun hsig => ?_⟩
    · obtain ⟨_, hi, _⟩ := hwell.wired.starts hu
      exact ⟨hend (live_of_kind? hi), hend (hwell.wired.live_output hu)⟩
    · have hcommands : kept.commands = (kept.withoutVertex v).commands := by
        rw [hleft.commands_eq, List.filter_eq_self.mpr]
        exact fun cmd hcmd => decide_eq_true fun hv => hsig (hleft.signature_eq hcmd hv)
      exact ⟨hcommands, by rw [depth, hcommands, depth]⟩
  · refine .inl ⟨e, ?_, herror⟩
    rw [herror] at hdelete
    cases hkeep : substituteVertex r v .keep policy c with
    | ok a kept =>
      rw [bind_ok hkeep] at hdelete
      cases hdelete
    | error e' c₁ =>
      rw [bind_error hkeep] at hdelete
      exact hdelete.symm

/-- Bare wires for a reset: the vertex that stays behind is not listed. -/
theorem deletion_policies_agree_reset : ∃ c kept deleted, (ofUnits 1 0).edited (addOp .reset [.qubit 0] none) = .ok c ∧
    substituteVertex (ofUnits 1 0) ⟨2, 0⟩ .keep .merge c = .ok ⟨⟩ kept ∧ removeOp ⟨2, 0⟩ kept = .ok ⟨⟩ deleted ∧
    kept.commands = deleted.commands := by
  simp only [exists_and_left]
  refine exists_run fun c hc => ?_
  obtain ⟨o, ho, hpins⟩ : ∃ o, c.opAt ⟨2, 0⟩ = .ok o ∧ o.signature ≠ [] := of_run hc (by decide +kernel)
  obtain ⟨x, hx, _⟩ : ∃ x, substituteVertex (ofUnits 1 0) ⟨2, 0⟩ .keep .merge c = .ok ⟨⟩ x ∧ True :=
    of_run hc (by decide +kernel)
  have hwell := wellFormed_edited hc
  rcases deletion_policies_agree hwell (ofUnits_wellFormed 1 0) (opAt_eq_ok ho) .merge with
    ⟨_, herror, _⟩ | ⟨kept, deleted, hkeep, _, hremove, _, _, _, _, hcommands⟩
  · cases herror.symm.trans hx
  · exact ⟨kept, hkeep, deleted, hremove, (hcommands hpins).1⟩

/-- **An operation without pins that stays behind is still counted and listed.** -/
theorem leftover_without_pins : ∃ c kept deleted, ({} : Circuit).edited (addOp (.barrier []) [] none) = .ok c ∧
    substituteVertex {} ⟨0, 0⟩ .keep .merge c = .ok ⟨⟩ kept ∧ substituteVertex {} ⟨0, 0⟩ .delete .merge c = .ok ⟨⟩ deleted ∧
    kept.opCount = 1 ∧ deleted.opCount = 0 ∧ kept.commands.length = 1 ∧ deleted.commands = [] := by
  simp only [exists_and_left]
  exact exists_run fun c hc => of_run hc (by decide +kernel)

end Wireloom.Circuit
