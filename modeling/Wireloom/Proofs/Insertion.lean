import Wireloom.Proofs.Outcome

/-!
# `Circuit.insertAt` — a circuit across wires of another

A cut is a set of edges, each of which is split around a unit of the circuit that goes in. What reads a bit before the
cut reads it behind the cut afterwards.
-/

namespace Wireloom

open List Option Net

namespace Circuit

variable {c c' r : Circuit} {unit unitG unit' : Pin → UnitId} {cut reads : List Edge} {g : Graph} {ι : Vertex → Vertex}
  {x y : Filling} {keepNames : Bool} {e : Edge}

/-- The read of a bit that runs through the cut. -/
def IsCutRead (c : Circuit) (cut : List Edge) (e : Edge) : Prop :=
  ∃ l ∈ c.graph.edges.get? e, l.kind = .boolean ∧ ∃ f ∈ cut, ∃ m ∈ c.graph.edges.get? f, m.source = l.source

instance (c : Circuit) (cut : List Edge) (e : Edge) : Decidable (c.IsCutRead cut e) :=
  inferInstanceAs (Decidable (∃ l ∈ _, _ ∧ ∃ f ∈ _, ∃ m ∈ _, _))

/-- **Linear edges of a circuit**, with all reads of the bits that run through them. -/
structure IsCut (c : Circuit) (cut reads : List Edge) : Prop where
  nodup : cut.Nodup
  wire : ∀ e ∈ cut, ∃ l ∈ c.graph.edges.get? e, l.kind.isLinear = true
  reads_nodup : reads.Nodup
  mem_reads : ∀ e, e ∈ reads ↔ c.IsCutRead cut e

lemma isCut_iff : c.IsCut cut reads ↔ cut.Nodup ∧ (∀ e ∈ cut, ∃ l ∈ c.graph.edges.get? e, l.kind.isLinear) ∧
    reads.Nodup ∧ (∀ e ∈ reads, c.IsCutRead cut e) ∧ ∀ p ∈ c.graph.edges.entries, c.IsCutRead cut p.1 → p.1 ∈ reads := by
  constructor
  · intro h
    exact ⟨h.nodup, h.wire, h.reads_nodup, fun e => (h.mem_reads e).mp, fun p _ => (h.mem_reads p.1).mpr⟩
  · rintro ⟨hnodup, hwire, hreads, hsound, hcomplete⟩
    refine ⟨hnodup, hwire, hreads, fun e => ⟨hsound e, fun hread => ?_⟩⟩
    obtain ⟨l, hl, hrest⟩ := hread
    exact hcomplete (e, l) (SlotStore.mem_of_get? hl) ⟨l, hl, hrest⟩

instance (c : Circuit) (cut reads : List Edge) : Decidable (c.IsCut cut reads) := decidable_of_iff _ isCut_iff.symm

/-- **No path leads from behind the cut to a pin before it.** -/
def CleanCut (c : Circuit) (cut : List Edge) : Prop :=
  ∀ e ∈ cut, ∀ l ∈ c.graph.edges.get? e, ∀ b, c.graph.HasLink b → b.source = l.source →
    ∀ f ∈ cut, ∀ m ∈ c.graph.edges.get? f, ¬ Relation.ReflTransGen c.graph.net.Before b.target.vertex m.source.vertex

/-- The edges start at inputs. -/
def AtInputs (c : Circuit) (cut : List Edge) : Prop :=
  ∀ e ∈ cut, ∃ l ∈ c.graph.edges.get? e, ∃ p ∈ c.boundary.entries, p.2.input = l.source.vertex

instance (c : Circuit) (cut : List Edge) : Decidable (c.AtInputs cut) :=
  inferInstanceAs (Decidable (∀ e ∈ _, ∃ l ∈ _, ∃ p ∈ _, _))

lemma cleanCut_of_inputs (hc : c.WellFormed) (hstart : c.AtInputs cut) : c.CleanCut cut := by
  intro e _ l _ b hb _ f hf m hm hpath
  obtain ⟨_, hm', ⟨u, ends⟩, hu, hin⟩ := hstart f hf
  cases mem_unique hm hm'
  have hinput : c.IsInput m.source.vertex := ⟨u, ends, SortedMap.get?_iff_mem.mpr hu, hin⟩
  have hfirst : ∀ {l}, c.graph.HasLink l → l.target.vertex ≠ m.source.vertex := fun {l} hl heq =>
    hc.wired.target_open hl (heq ▸ hinput)
  rcases Relation.ReflTransGen.cases_tail hpath with heq | ⟨v, _, hstep⟩
  · exact hfirst hb heq.symm
  · generalize hw : m.source.vertex = w at hstep hfirst
    cases hstep with
    | link hl => exact hfirst hl rfl
    | hazard _ hb _ _ _ => exact hfirst hb rfl

/-- The hole of a cut has no interior. -/
def cutHole (cut reads : List Edge) : Hole := { entries := cut, exits := cut.map some, reads }

/-! ## Places of a cut -/

lemma zip_cutHole : (cutHole cut reads).entries.zip (cutHole cut reads).exits = cut.map fun e => (e, some e) :=
  map_prod_left_eq_zip.symm

lemma slot_of_cut (hx : x ∈ r.slots (cutHole cut reads)) : x.2.1 ∈ cut ∧ x.2.2 = some x.2.1 := by
  have hslot := (mem_slots hx).2
  rw [zip_cutHole] at hslot
  obtain ⟨e, he, heq⟩ := mem_map.mp hslot
  rw [← heq]
  exact ⟨he, rfl⟩

lemma exists_slot_of_cut (hsuits : c.Suits r (cutHole cut reads)) (he : e ∈ cut) :
    ∃ x ∈ r.slots (cutHole cut reads), x.2.1 = e := by
  have hslot : (e, some e) ∈ (cutHole cut reads).entries.zip (cutHole cut reads).exits := by
    rw [zip_cutHole]
    exact mem_map_of_mem he
  obtain ⟨u, _, hx⟩ := hsuits.exists_unit_of_slot hslot
  exact ⟨_, hx, rfl⟩

lemma IsCut.slot_injective (hcut : c.IsCut cut reads) (hsuits : c.Suits r (cutHole cut reads))
    (hx : x ∈ r.slots (cutHole cut reads)) (hy : y ∈ r.slots (cutHole cut reads)) (heq : x.2.1 = y.2.1) : x = y := by
  have hnodup : ((r.slots (cutHole cut reads)).map Prod.snd).Nodup := by
    rw [hsuits.map_snd, zip_cutHole]
    exact hcut.nodup.map fun _ _ he => (Prod.mk.inj he).1
  refine inj_on_of_nodup_map hnodup hx hy (Prod.ext heq ?_)
  rw [(slot_of_cut hx).2, (slot_of_cut hy).2, heq]

section Copies

variable (h : c.Wired unit) (hr : r.Wired unitG) (hcut : c.IsCut cut reads) (hsuits : c.Suits r (cutHole cut reads))
  (hcopy : Graph.IsCopy c.graph r.graph g ι keepNames)
include h hr hcut hsuits hcopy

lemma across_of_copy : Net.Across c.graph.net (c.copiedNet r g ι) c.IsInput c.IsOutput
    (c.slotsAt ι (r.slots (cutHole cut reads))) where
  toSlotted := by
    refine slotted_of_copy h hr hsuits hcopy (fun {x e} hx he => ?_) fun {x y e e' l m} hx hy he he' hl hm heq => ?_
    · obtain ⟨hmem, hexit⟩ := slot_of_cut hx
      cases mem_unique hexit he
      obtain ⟨l, hl, hlin⟩ := hcut.wire _ hmem
      exact ⟨l, hl, hlin, by rw [mem_unique hl (hsuits.entry_eq hx)]⟩
    · -- one linear link leaves a pin, and no link has two edges
      cases some.inj ((slot_of_cut hx).2.symm.trans he)
      cases some.inj ((slot_of_cut hy).2.symm.trans he')
      obtain ⟨_, hl', hlin⟩ := hcut.wire _ (slot_of_cut hx).1
      cases mem_unique hl' hl
      obtain ⟨_, hm', hmlin⟩ := hcut.wire _ (slot_of_cut hy).1
      cases mem_unique hm' hm
      have hlm : l = m := h.threaded.out_unique ⟨_, hl⟩ ⟨_, hm⟩ hlin hmlin heq
      exact hcut.slot_injective hsuits hx hy (h.simple hl (hlm ▸ hm))
  exit_eq {s} hs := by
    obtain ⟨x, hx, rfl⟩ := mem_map.mp hs
    show x.2.2.bind c.graph.edges.get? = _
    rw [(slot_of_cut hx).2]
    exact hsuits.entry_eq hx

omit hcut in
lemma exists_pin_rank : ∃ rank : Pin → ℕ ×ₗ ℕ, (∀ {l}, c.graph.net.link l → rank l.source < rank l.target) ∧
    (∀ {l}, (c.copiedNet r g ι).link l → l.kind.isLinear → rank l.source < rank l.target) ∧
    ∀ {s}, s ∈ c.slotsAt ι (r.slots (cutHole cut reads)) →
      rank s.entry.source < rank ⟨s.input, 0⟩ ∧ rank ⟨s.output, 0⟩ < rank s.entry.target := by
  classical
  obtain ⟨κ, hκ⟩ := hcopy.toHosts.exists_inverse
  obtain ⟨rH, _, _, hrH⟩ := h.exists_rank
  obtain ⟨rG, _, _, hrG⟩ := hr.exists_rank
  obtain ⟨place, f, hhost, hguest, _, hends⟩ := exists_labels hr hsuits hcopy fun p => rH p.vertex
  -- copies share the place of the pin that they come behind, and among themselves keep their order
  let rank : Pin → ℕ ×ₗ ℕ := fun p => toLex (place p, if c.graph.Live p.vertex then 0 else 1 + rG (κ p.vertex))
  have hrank : ∀ p, c.graph.Live p.vertex → rank p = toLex (rH p.vertex, 0) := fun p hp => by
    show toLex (place p, _) = _
    rw [hhost p hp, if_pos hp]
  have hrank' : ∀ p, r.graph.Live p.vertex → rank (p.map ι) = toLex (f (unitG p), 1 + rG p.vertex) := fun p hp => by
    show toLex (place (p.map ι), if c.graph.Live (ι p.vertex) then 0 else 1 + rG (κ (ι p.vertex))) = _
    rw [hguest p hp, if_neg (hcopy.toHosts.not_live hp), hκ _ hp]
  refine ⟨rank, fun {l} hl => ?_, fun {m} hm hlin => ?_, fun {s} hs => ?_⟩
  · rw [hrank _ (h.valid.source_live hl), hrank _ (h.valid.target_live hl)]
    exact lt_of_class (hrH.link hl)
  · obtain ⟨l, hl, rfl⟩ := hm
    show rank (l.source.map ι) < rank (l.target.map ι)
    rw [hrank' _ (hr.valid.source_live hl), hrank' _ (hr.valid.target_live hl), hr.threaded.same_unit hl hlin]
    exact lt_within_class (Nat.add_lt_add_left (hrG.link hl) 1)
  · obtain ⟨x, hx, rfl⟩ := mem_map.mp hs
    have hentry := hsuits.entry_eq (ι := ι) hx
    have hlink : c.graph.net.link (slotOf c.graph ι x).entry := ⟨_, hentry⟩
    obtain ⟨hin, hout⟩ := hends hx hentry
    have hnot := hcopy.toHosts.not_live (hr.live_input (mem_slots hx).1)
    rw [hrank _ (h.valid.source_live hlink), hrank _ (h.valid.target_live hlink)]
    constructor
    · show _ < toLex (place ⟨ι x.1.2.input, 0⟩, if c.graph.Live (ι x.1.2.input) then 0 else 1 + rG (κ (ι x.1.2.input)))
      rw [hin, if_neg hnot]
      exact lt_within_class (Nat.lt_of_lt_of_le Nat.zero_lt_one (Nat.le_add_right 1 _))
    · show toLex (place ⟨ι x.1.2.output, 0⟩, _) < _
      rw [hout]
      exact lt_of_class (hrH.link hlink)

lemma exists_strung : ∃ (unit' : Pin → UnitId) (rank : Pin → ℕ ×ₗ ℕ), (∀ p, c.graph.Live p.vertex → unit' p = unit p) ∧
    (Net.cut c.graph.net (c.copiedNet r g ι) (c.slotsAt ι (r.slots (cutHole cut reads)))).Strung unit'
      c.IsInput c.IsOutput rank := by
  have : Nonempty UnitId := ⟨.qubit 0⟩
  obtain ⟨unit', f, hhost, hguest, _, hends⟩ := exists_labels hr hsuits hcopy unit
  obtain ⟨rank, hrankH, hrankG, hrank⟩ := exists_pin_rank h hr hsuits hcopy
  refine ⟨unit', rank, hhost, (across_of_copy h hr hcut hsuits hcopy).strung (fun {l} hl hlin => ?_) (fun {m} hm hlin => ?_)
    (fun {s} hs => ?_) (fun hl _ => hrankH hl) hrankG hrank⟩
  · rw [hhost _ (h.valid.source_live hl), hhost _ (h.valid.target_live hl)]
    exact h.threaded.same_unit hl hlin
  · obtain ⟨l, hl, rfl⟩ := hm
    show unit' (l.source.map ι) = unit' (l.target.map ι)
    rw [hguest _ (hr.valid.source_live hl), hguest _ (hr.valid.target_live hl), hr.threaded.same_unit hl hlin]
  · obtain ⟨x, hx, rfl⟩ := mem_map.mp hs
    have hentry := hsuits.entry_eq (ι := ι) hx
    rw [hhost _ (h.valid.source_live ⟨_, hentry⟩)]
    exact hends hx hentry

end Copies

/-! ## From a run to its outcome -/

/-- **What a circuit becomes with another one across a cut.** -/
structure Inserted (c r : Circuit) (cut reads : List Edge) (c' : Circuit) (unit : Pin → UnitId) (rank : Pin → ℕ ×ₗ ℕ)
    (g : Graph) (ι : Vertex → Vertex) : Prop
    extends Filled c r (cutHole cut reads) .preserve c' g ι (Net.cut c.graph.net (c.copiedNet r g ι)
      ((r.slots (cutHole cut reads)).map (slotOf c.graph ι))) where
  suits : c.Suits r (cutHole cut reads)
  across : Net.Across c.graph.net (c.copiedNet r g ι) c.IsInput c.IsOutput
    ((r.slots (cutHole cut reads)).map (slotOf c.graph ι))
  strung : (Net.cut c.graph.net (c.copiedNet r g ι)
    ((r.slots (cutHole cut reads)).map (slotOf c.graph ι))).Strung unit c.IsInput c.IsOutput rank

lemma IsCut.mem_reads_iff (hcut : c.IsCut cut reads) (hsuits : c.Suits r (cutHole cut reads)) :
    e ∈ reads ↔ ∃ l, c.graph.edges.get? e = some l ∧ c.graph.net.CutRead (c.slotsAt ι (r.slots (cutHole cut reads))) l := by
  rw [hcut.mem_reads]
  refine exists_congr fun l => and_congr_right fun hl => ?_
  constructor
  · rintro ⟨hk, f, hf, m, hm, hsource⟩
    obtain ⟨x, hx, rfl⟩ := exists_slot_of_cut hsuits hf
    refine ⟨⟨e, hl⟩, hk, ⟨_, mem_map_of_mem hx, ?_⟩, id⟩
    rw [← some.inj (Eq.trans (Eq.symm hm) (hsuits.entry_eq hx)), hsource]
  · rintro ⟨_, hk, ⟨s, hs, hsource⟩, _⟩
    obtain ⟨x, hx, rfl⟩ := mem_map.mp hs
    exact ⟨hk, x.2.1, (slot_of_cut hx).1, _, hsuits.entry_eq hx, hsource⟩

lemma insertAt_eq_ok (h : c.Wired unit) (hr : r.Wired unitG) (hcut : c.IsCut cut reads) {a : Unit}
    (hrun : insertAt r cut reads c = .ok a c') :
    ∃ unit' rank g ι, (∀ p, c.graph.Live p.vertex → unit' p = unit p) ∧ Inserted c r cut reads c' unit' rank g ι := by
  replace hrun : substitute r (cutHole cut reads) .delete .preserve c = .ok a c' := hrun
  obtain ⟨hcheck, hpolicy⟩ := checks_of_substitute h hr hrun
  have hsuits := checkHole_eq_ok h.valid hr.valid hcheck
  obtain ⟨g, ι, _, _, hrun', hcopy, hready, hconnected, hleft⟩ := substitute_eq h hr hcheck hpolicy
    (fun hcopy => (across_of_copy h hr hcut hsuits hcopy).toSlotted)
    (fun {x e} hx he => by
      cases some.inj ((slot_of_cut hx).2.symm.trans he)
      exact ⟨_, hsuits.entry_eq (ι := id) hx⟩) .delete
  have hacross := across_of_copy h hr hcut hsuits hcopy
  obtain ⟨unit', rank, hunit, hstrung⟩ := exists_strung h hr hcut hsuits hcopy
  -- no vertex lies inside a cut and no wire of it is dropped, so clearing takes nothing out but the ends
  have hempty : ∀ v, ¬ Net.Waste (fun v => (cutHole cut reads).interior.contains v)
      (c.slotsAt ι (r.slots (cutHole cut reads))) v := fun v hv =>
    hv.elim (fun hin => by cases hin) (hacross.not_dropped v)
  have hinner : ∀ {v}, (cutHole cut reads).interior.contains v →
      (c.graph.net.signature? v).isSome ∧ ¬ c.IsInput v ∧ ¬ c.IsOutput v := fun hv => by cases hv
  obtain ⟨_, hfill, _, hcleared⟩ := hready.fill_run (fun hv => (hinner hv).1) And.left (hcut.mem_reads_iff hsuits)
    (fun hgraft => ⟨by rw [off_of_empty hempty, hacross.eq_cut hgraft], .of_empty hempty⟩)
    hstrung hacross.seated.single_of_seam hconnected r.phase .delete h.simple hcut.reads_nodup
    (fun {l} hl => hl.2.2.1.imp fun s hs => ⟨hs.1, _, hacross.exit_eq hs.1, hs.2⟩) hleft
  obtain ⟨_, rfl⟩ := EStateM.Result.ok.inj ((hrun'.trans hfill).symm.trans hrun)
  exact ⟨unit', rank, g, ι, hunit, ⟨hcopy, hready.of_graph rfl, hinner, hcleared rfl, rfl⟩, hsuits, hacross, hstrung⟩

/-! ## Ports, order and names -/

namespace Inserted

variable {rank : Pin → ℕ ×ₗ ℕ}

section

variable (hs : Inserted c r cut reads c' unit' rank g ι)
include hs

lemma strung_result : c'.graph.net.Strung unit' c.IsInput c.IsOutput rank :=
  hs.strung.splices hs.cleared.splices (hs.across.nodup_ends hs.ready.nodup (splicedBy_sublist _)) fun _ hv =>
    have hseam := seam_of_spliced hv
    ⟨hs.across.seated.single_of_seam hseam, hs.across.not_first_guest (hs.across.live_of_seam hseam)⟩

lemma ported (h : c.WellFormed) (hr : r.Wired unitG) : c'.Ported where
  toFramed := hs.framed h.toFramed hr hs.suits
  valid := hs.cleared.valid
  simple := hs.cleared.simple
  fitted := hs.strung_result.fitted
  complete := hs.toFilled.complete hs.strung_result.complete
  distinct := by
    rw [hs.boundary]
    exact h.distinct

/-- **Across a clean cut nothing closes a cycle.** What leads to a pin before the cut comes first, then the copies. -/
theorem acyclic (h : c.Wired unit) (hr : r.Wired unitG) (hclean : c.CleanCut cut) : c'.graph.net.Acyclic := by
  -- early is what leads to a pin before the cut; behind a clean cut nothing is early
  let sources : Vertex → Prop := fun v => ∃ e ∈ cut, ∃ l, c.graph.edges.get? e = some l ∧ l.source.vertex = v
  obtain ⟨_, hlayered, hranked⟩ := exists_layered h hr hs.copy (fun _ _ => id) fun hvw =>
    Net.Leads.head (R := sources) hvw
  have hcut := hs.across.ranked hlayered hranked (fun {s} hmem => by
      obtain ⟨x, hx, rfl⟩ := mem_map.mp hmem
      exact ⟨_, ⟨x.2.1, (slot_of_cut hx).1, _, hs.suits.entry_eq hx, rfl⟩, .refl⟩)
    (fun {s l} hmem hl hsource => by
      obtain ⟨x, hx, rfl⟩ := mem_map.mp hmem
      rintro ⟨_, ⟨f, hf, m, hm, rfl⟩, hpath⟩
      exact hclean _ (slot_of_cut hx).1 _ (hs.suits.entry_eq hx) _ hl hsource f hf m hm hpath)
  exact acyclic_of_ranked (hcut.splices hs.cleared.splices hs.strung.fitted)

/-- Without a cycle a wire does not come back to a vertex that reads it, so the names of wires thread the net. -/
lemma wired (h : c.Wired unit) (hr : r.Wired unitG) (hunit : ∀ p, c.graph.Live p.vertex → unit' p = unit p)
    (hacyclic : c'.graph.net.Acyclic) : c'.Wired unit' := by
  have hstrung := hs.strung_result
  refine hs.toFilled.wired h hr hs.suits hunit (threaded_of_acyclic hstrung.fitted hstrung.complete
    c'.graph.net_bounded hacyclic hstrung.same_unit ?_) hstrung.complete hacyclic
  rintro _ _ ⟨u, _, hu, rfl⟩ ⟨_, _, hu', rfl⟩ heq
  rw [(h.unit_ends_of_agrees hunit hu).1, (h.unit_ends_of_agrees hunit hu').1] at heq
  subst heq
  rw [mem_unique hu hu']

end

end Inserted

/-- **A circuit across a clean cut leaves one that passes all rules and has an order.** Across any other cut, only a
    cycle can break a rule: with an order, all rules hold. -/
theorem insertAt_verified {a : Unit} (hc : c.WellFormed) (hr : r.WellFormed) (hcut : c.IsCut cut reads)
    (hrun : insertAt r cut reads c = .ok a c') :
    (c.CleanCut cut → c'.WellFormed ∧ c'.verify = .ok () ∧ ∃ order, c'.graph.topologicalOrder = .ok order) ∧
    ((∃ order, c'.graph.topologicalOrder = .ok order) → c'.verify = .ok ()) ∧
    (c'.verify = .ok () ∨ c'.verify = .error (.invalid .cyclicWiring)) := by
  obtain ⟨unit', rank, g, ι, hunit, hs⟩ := insertAt_eq_ok hc.wired hr.wired hcut hrun
  have hported := hs.ported hc hr.wired
  refine ⟨?_, ?_, ?_⟩
  · intro hclean
    have hwired := hs.wired hc.wired hr.wired hunit (hs.acyclic hc.wired hr.wired hclean)
    obtain ⟨order, horder⟩ := (Graph.topologicalOrder_isOk_iff hwired.valid hwired.threaded).mpr hwired.acyclic
    exact ⟨hwired.wellFormed, hported.verify_of_order horder, order, horder⟩
  · rintro ⟨order, horder⟩
    exact hported.verify_of_order horder
  · rw [hported.verify_eq]
    split
    · exact .inl rfl
    · exact .inr rfl

/-- A measurement in front of a measured bit, which was read before it was measured. -/
theorem insertAt_verified_measure : ∃ r c c', (ofUnits 1 1).edited (addOp .measure [.qubit 0, .bit 0] none) = .ok r ∧
    (ofUnits 2 1).edited (do
      let _ ← addOp (.conditional .reset 1 1) [.bit 0, .qubit 1] none
      discard (addOp .measure [.qubit 0, .bit 0] none)) = .ok c ∧
    r.WellFormed ∧ c.WellFormed ∧ c.IsCut [⟨0, 1⟩, ⟨2, 1⟩] [⟨3, 0⟩] ∧ c.CleanCut [⟨0, 1⟩, ⟨2, 1⟩] ∧
    c.edited (insertAt r [⟨0, 1⟩, ⟨2, 1⟩] [⟨3, 0⟩]) = .ok c' ∧
    c'.WellFormed ∧ c'.verify = .ok () ∧ ∃ order, c'.graph.topologicalOrder = .ok order := by
  simp only [exists_and_left]
  refine exists_run fun r hr => exists_run fun c hc => ?_
  have hwr := wellFormed_edited hr
  have hwc := wellFormed_edited hc
  have hcut : c.IsCut [⟨0, 1⟩, ⟨2, 1⟩] [⟨3, 0⟩] := of_run hc (by decide +kernel)
  have hclean : c.CleanCut [⟨0, 1⟩, ⟨2, 1⟩] := cleanCut_of_inputs hwc (of_run hc (by decide +kernel))
  refine ⟨hwr, hwc, hcut, hclean, exists_and_of (of_run hr (of_run hc (by decide +kernel))) fun c' hc' => ?_⟩
  obtain ⟨_, hrun⟩ := edited_eq_ok.mp hc'
  exact (insertAt_verified hwc hwr hcut hrun).1 hclean

/-- **A cycle through a cut.** An operation across both edges of another stands before it and behind it. -/
theorem insertAt_cyclic : ∃ r c c', (ofUnits 2 0).edited (addOp (.gate .cx) [.qubit 0, .qubit 1] none) = .ok r ∧
    (ofUnits 1 0).edited (addOp (.gate .h) [.qubit 0] none) = .ok c ∧ r.WellFormed ∧ c.WellFormed ∧
    c.IsCut [⟨0, 1⟩, ⟨1, 0⟩] [] ∧ c.edited (insertAt r [⟨0, 1⟩, ⟨1, 0⟩] []) = .ok c' ∧
    c'.verify = .error (.invalid .cyclicWiring) ∧ ∀ order, c'.graph.topologicalOrder ≠ .ok order := by
  simp only [exists_and_left]
  exact exists_run fun r hr => exists_run fun c hc =>
    ⟨wellFormed_edited hr, wellFormed_edited hc, of_run hr (of_run hc (by decide +kernel))⟩

end Circuit

end Wireloom
