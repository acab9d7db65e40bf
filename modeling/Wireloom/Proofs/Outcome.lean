import Wireloom.Proofs.Commands
import Wireloom.Proofs.Substitution

/-!
# `Circuit.Substituted` — the circuit after a substitution

The contents of the host's vertices stay, but for outputs that the replacement discards; those of the copied operations
are there, and of the copied ends only resets (`Filled.kind?_cases`). Wires run as before (`Substituted.running`).
-/

namespace Wireloom.Circuit

open Wireloom.Graph Net List Option

variable {c c' r : Circuit} {unit unitG unit' : Pin → UnitId} {hole : Hole} {policy : OpgroupPolicy} {g : Graph}
  {ι : Vertex → Vertex} {v w : Vertex} {k : NodeKind} {u : UnitId} {ends : Ends} {a : Unit}

/-! ## From a run to its outcome -/

lemma checks_of_substitute (h : c.Wired unit) (hr : r.Wired unitG) {deletion : Deletion}
    (hrun : substitute r hole deletion policy c = .ok a c') :
    c.checkHole r hole = .ok () ∧ policy.check c.opgroups r.opgroups = .ok () := by
  obtain ⟨b, hcheck, hrest1⟩ := bind_ask_eq_ok.mp hrun
  obtain ⟨_, _, h2, _⟩ := bind_eq_ok.mp hrest1
  exact ⟨hcheck, (copyIn_eq_ok h hr h2).1⟩

lemma substitute_eq_ok (h : c.Wired unit) (hr : r.Wired unitG) (hhole : c.IsHole unit hole)
    (hrun : substitute r hole .delete policy c = .ok a c') :
    c.Suits r hole ∧ policy.check c.opgroups r.opgroups = .ok () ∧ ¬ c.Leaks hole.interior ∧
      ∃ g ι unit', (∀ p, c.graph.Live p.vertex → unit' p = unit p) ∧ Substituted c r hole policy c' unit' g ι := by
  obtain ⟨hcheck, hpolicy⟩ := checks_of_substitute h hr hrun
  have hleak : ¬ c.Leaks hole.interior := by
    intro hleak
    obtain ⟨c'', herror, _⟩ := substitute_error h hr hhole hcheck hpolicy hleak .delete
    rw [herror] at hrun
    cases hrun
  obtain ⟨c'', hok, _, hspec⟩ := substitute_run h hr hhole hcheck hpolicy hleak .delete
  obtain ⟨_, rfl⟩ := ok_unique hok hrun
  exact ⟨checkHole_eq_ok h.valid hr.valid hcheck, hpolicy, hleak, hspec rfl⟩

/-! ## Contents -/

lemma Wired.unit_ends_of_agrees (h : c.Wired unit) (hunit : ∀ p, c.graph.Live p.vertex → unit' p = unit p)
    (hu : c.boundary.get? u = some ends) : unit' ⟨ends.input, 0⟩ = u ∧ unit' ⟨ends.output, 0⟩ = u := by
  exact ⟨(hunit _ (h.live_input hu)).trans (h.unit_input hu), (hunit _ (h.live_output hu)).trans (h.unit_output hu)⟩

lemma live_host (hk : c.graph.kind? v = some k) : (c.graph.net.signature? v).isSome :=
  signature?_iff.mpr (live_of_kind? hk)

namespace Filled

variable {N : Net}

section

variable {n : Node}

variable (hs : Filled c r hole policy c' g ι N)
include hs

lemma boundary : c'.boundary = c.boundary := by rw [hs.others]

lemma isInput_iff : c'.IsInput v ↔ c.IsInput v := by
  unfold IsInput
  rw [hs.boundary]

lemma isOutput_iff : c'.IsOutput v ↔ c.IsOutput v := by
  unfold IsOutput
  rw [hs.boundary]

lemma get?_cases (hn : c'.graph.vertices.get? v = some n) : ∃ n0, g.vertices.get? v = some n0 ∧
      n = { n0 with kind := touched g (c.slotsAt ι (r.slots hole)) v n0.kind } := by
  by_cases hgone : v ∈ (c.slotsAt ι (r.slots hole)).flatMap (splicedBy g) ∨
      Waste (fun v => hole.interior.contains v) (c.slotsAt ι (r.slots hole)) v
  · rw [hs.cleared.gone hgone] at hn
    cases hn
  · obtain ⟨hsplice, hwaste⟩ := not_or.mp hgone
    rw [hs.cleared.stays hsplice hwaste] at hn
    obtain ⟨n0, hn0, rfl⟩ := map_eq_some_iff.mp hn
    exact ⟨n0, hn0, rfl⟩

lemma kind?_of_stays (hsplice : v ∉ (c.slotsAt ι (r.slots hole)).flatMap (splicedBy g))
    (hwaste : ¬ Waste (fun v => hole.interior.contains v) (c.slotsAt ι (r.slots hole)) v) :
    c'.graph.kind? v = (g.kind? v).map (touched g (c.slotsAt ι (r.slots hole)) v) := by
  unfold kind?
  rw [hs.cleared.stays hsplice hwaste, Option.map_map, Option.map_map]
  rfl

lemma get?_host (hn : c.graph.vertices.get? v = some n) (hR : ¬ hole.interior.contains v) : c'.graph.vertices.get? v =
      some { n with kind := touched g (c.slotsAt ι (r.slots hole)) v n.kind } := by
  have hlive := signature?_iff.mpr (live_of_get? hn)
  rw [hs.cleared.stays
    (fun hsplice => hs.ready.slotted.not_both hlive (hs.ready.slotted.live_of_seam (seam_of_spliced hsplice)))
    (fun hwaste => hR ((hs.ready.slotted.waste_host hlive).mp hwaste)), hs.copy.old hn]
  rfl

lemma kind?_host (hk : c.graph.kind? v = some k) (hR : ¬ hole.interior.contains v) :
    c'.graph.kind? v = some (touched g (c.slotsAt ι (r.slots hole)) v k) := by
  obtain ⟨n, hn, rfl⟩ := map_eq_some_iff.mp hk
  rw [kind?, hs.get?_host hn hR]
  rfl

lemma kind?_op (hr : r.Wired unitG) {o : Op} (hk : r.graph.kind? v = some (.op o)) : c'.graph.kind? (ι v) = some (.op o) := by
  have hk' := hs.copy.kind?_new hk
  -- the ends of the slots are copies of ends of units
  have hend : ∀ s ∈ c.slotsAt ι (r.slots hole), ¬ (s.input = ι v ∨ s.output = ι v) := by
    intro s hmem heq
    obtain ⟨x, hx, rfl⟩ := mem_map.mp hmem
    obtain ⟨hu, _⟩ := mem_slots hx
    rcases heq with heq | heq
    · obtain ⟨k, hk0, hstart⟩ := hr.starts hu
      rw [hs.copy.injective (live_of_kind? hk0) (live_of_kind? hk) heq, hk] at hk0
      cases hk0
      cases hstart
    · obtain ⟨k, hk0, hend⟩ := hr.stops hu
      rw [hs.copy.injective (live_of_kind? hk0) (live_of_kind? hk) heq, hk] at hk0
      cases hk0
      cases hend
  rw [hs.kind?_of_stays, hk', map_some, touched_op hk']
  · intro hsplice
    obtain ⟨s, hmem, _, _, heq⟩ := seam_of_spliced hsplice
    exact hend s hmem heq
  · rintro (hin | ⟨s, hmem, _, heq⟩)
    · exact hs.copy.toHosts.not_live (live_of_kind? hk) (signature?_iff.mp (hs.inner hin).1)
    · exact hend s hmem heq

lemma touched_host (hk : c.graph.kind? v = some k) : touched g (c.slotsAt ι (r.slots hole)) v k = k ∨
      (c.IsOutput v ∧ touched g (c.slotsAt ι (r.slots hole)) v k = .discard) := by
  by_cases hdiscard : ∃ s ∈ c.slotsAt ι (r.slots hole), discards g s v
  · obtain ⟨s, hmem, hd⟩ := hdiscard
    refine .inr ⟨hs.ready.discards_host hmem hd, ?_⟩
    unfold touched
    rw [if_neg, if_pos (any_eq_true.mpr ⟨s, hmem, hd⟩)]
    rw [List.any_eq_true]
    rintro ⟨t, ht, hr⟩
    rw [Bool.and_eq_true, decide_eq_true_eq] at hr
    exact hs.ready.slotted.sides_ne (live_host hk) (hs.ready.slotted.live_input ht) hr.2.symm
  · refine .inl (touched_of_none (fun s hmem _ heq => ?_) fun s hmem hd => hdiscard ⟨s, hmem, hd⟩)
    exact hs.ready.slotted.sides_ne (live_host hk) (hs.ready.slotted.live_input hmem) heq.symm

lemma kind?_cases (hr : r.Wired unitG) (hsuits : c.Suits r hole) (hk : c'.graph.kind? w = some k) :
    (∃ k0, c.graph.kind? w = some k0 ∧ ¬ hole.interior.contains w ∧ k = touched g (c.slotsAt ι (r.slots hole)) w k0) ∨
    (∃ v o, r.graph.kind? v = some (.op o) ∧ ι v = w ∧ k = .op o) ∨
    ∃ s ∈ c.slotsAt ι (r.slots hole), resets g s ∧ s.input = w ∧ k = .op .reset := by
  have hstays : ¬ (w ∈ (c.slotsAt ι (r.slots hole)).flatMap (splicedBy g) ∨
      Waste (fun v => hole.interior.contains v) (c.slotsAt ι (r.slots hole)) w) := by
    intro hgone
    unfold kind? at hk
    rw [hs.cleared.gone hgone] at hk
    cases hk
  obtain ⟨hsplice, hwaste⟩ := not_or.mp hstays
  have hk' := hk
  rw [hs.kind?_of_stays hsplice hwaste] at hk'
  obtain ⟨k0, hk0, rfl⟩ := map_eq_some_iff.mp hk'
  rcases hs.copy.kind?_cases hk0 with hold | ⟨v, hv, rfl⟩
  · exact .inl ⟨k0, hold, fun hin => hwaste (.inl hin), rfl⟩
  · right
    cases hb : k0.isBoundary with
    | false =>
      obtain ⟨o, rfl⟩ := exists_op_of_not_isBoundary hb
      exact .inl ⟨v, o, hv, rfl, touched_op hk0⟩
    | true =>
      -- a copied end that stays was turned into a reset
      have hslot : ∃ s ∈ c.slotsAt ι (r.slots hole), s.input = ι v ∨ s.output = ι v := by
        rcases hr.only_ops hv hb with ⟨u, ends, hu, rfl⟩ | ⟨u, ends, hu, rfl⟩
        · obtain ⟨slot, hx⟩ := hsuits.exists_slot_of_unit hu
          exact ⟨_, mem_map_of_mem hx, .inl rfl⟩
        · obtain ⟨slot, hx⟩ := hsuits.exists_slot_of_unit hu
          exact ⟨_, mem_map_of_mem hx, .inr rfl⟩
      obtain ⟨s, hmem, hend⟩ := hslot
      cases hx : s.exit with
      | none => exact absurd (.inr ⟨s, hmem, hx, hend⟩) hwaste
      | some x =>
        have hnot := fun hin => hsplice (mem_flatMap.mpr ⟨s, hmem, mem_splicedBy.mpr ⟨⟨x, hx⟩, hin⟩⟩)
        have hin : s.input = ι v := hend.resolve_right fun hout => hnot (.inr hout.symm)
        have hreset : resets g s := by
          by_contra hreset
          exact hnot (.inl ⟨hin.symm, by simpa using hreset⟩)
        refine .inr ⟨s, hmem, hreset, hin, ?_⟩
        unfold touched
        rw [if_pos (any_eq_true.mpr ⟨s, hmem, by simp [hreset, hin]⟩)]

/-! ## Well-formedness -/

lemma framed (h : c.Framed) (hr : r.Wired unitG) (hsuits : c.Suits r hole) : c'.Framed where
  starts {u ends} hu := by
    rw [hs.boundary] at hu
    obtain ⟨k, hk, hstart⟩ := h.starts hu
    have hR : ¬ hole.interior.contains ends.input := fun hin => (hs.inner hin).2.1 ⟨u, ends, hu, rfl⟩
    refine ⟨_, hs.kind?_host hk hR, ?_⟩
    rcases hs.touched_host hk with htouch | ⟨hout, _⟩
    · rw [htouch]; exact hstart
    · exact absurd hout (h.not_isOutput ⟨u, ends, hu, rfl⟩)
  stops {u ends} hu := by
    rw [hs.boundary] at hu
    obtain ⟨k, hk, hend⟩ := h.stops hu
    have hR : ¬ hole.interior.contains ends.output := fun hin => (hs.inner hin).2.2 ⟨u, ends, hu, rfl⟩
    refine ⟨_, hs.kind?_host hk hR, ?_⟩
    have hsig := hs.ready.touched_signature (hs.ready.old hk)
    rcases hs.touched_host hk with htouch | ⟨_, htouch⟩
    · rw [htouch]; exact hend
    · -- only qubits are discarded
      rw [htouch] at hsig ⊢
      rw [(endsUnit_cases hend).2.2.2] at hsig
      have hwire : u.kind.wire = .quantum := (singleton_inj.mp hsig).symm
      exact decide_eq_true (UnitKind.eq_qubit_of_wire hwire)
  only_ops {w k} hk hb := by
    rw [hs.isInput_iff, hs.isOutput_iff]
    rcases hs.kind?_cases hr hsuits hk with ⟨_, hk0, _, rfl⟩ | ⟨_, o, _, _, rfl⟩ | ⟨_, _, _, _, rfl⟩
    · rcases hs.touched_host hk0 with htouch | ⟨hout, _⟩
      · rw [htouch] at hb
        exact h.only_ops hk0 hb
      · exact .inr hout
    · cases hb
    · cases hb

lemma complete (hcomplete : c'.graph.net.Complete c.IsInput c.IsOutput) : c'.graph.net.Complete c'.IsInput c'.IsOutput := by
  have hfirst : c'.IsInput = c.IsInput := funext fun _ => propext hs.isInput_iff
  have hlast : c'.IsOutput = c.IsOutput := funext fun _ => propext hs.isOutput_iff
  rw [hfirst, hlast]
  exact hcomplete

lemma wired (h : c.Wired unit) (hr : r.Wired unitG) (hsuits : c.Suits r hole)
    (hunit : ∀ p, c.graph.Live p.vertex → unit' p = unit p) (hthreaded : c'.graph.net.Threaded unit')
    (hcomplete : c'.graph.net.Complete c.IsInput c.IsOutput) (hacyclic : c'.graph.net.Acyclic) : c'.Wired unit' where
  toFramed := hs.framed h.toFramed hr hsuits
  valid := hs.cleared.valid
  simple := hs.cleared.simple
  threaded := hthreaded
  complete := hs.complete hcomplete
  acyclic := hacyclic
  unit_input hu := (h.unit_ends_of_agrees hunit (hs.boundary ▸ hu)).1
  unit_output hu := (h.unit_ends_of_agrees hunit (hs.boundary ▸ hu)).2

end

end Filled

namespace Substituted

lemma running {α : Type} [Preorder α] {rank : Vertex → α} (hs : Substituted c r hole policy c' unit g ι)
    (hclimbs : (Net.plug c.graph.net (c.copiedNet r g ι) (fun v => hole.interior.contains v)
      (c.slotsAt ι (r.slots hole))).Climbs rank) :
    c'.graph.net.Running unit c.IsInput c.IsOutput rank :=
  Running.splices ⟨hs.plug.threaded, hs.plug.complete, hclimbs⟩ hs.cleared.splices fun _ hv =>
    hs.plug.not_first_guest (hs.plug.live_of_seam (seam_of_spliced hv))

section

variable (hs : Substituted c r hole policy c' unit' g ι)
include hs

variable (h : c.Wired unit) (hr : r.Wired unitG) (hsuits : c.Suits r hole)
  (hunit : ∀ p, c.graph.Live p.vertex → unit' p = unit p)
  (hconvex : Net.Convex c.graph.net.Before fun v => hole.interior.contains v)

include h hr hsuits in
lemma exists_climbs : ∃ rank : Vertex → ℕ ×ₗ ℕ, (Net.plug c.graph.net (c.copiedNet r g ι) (fun v => hole.interior.contains v)
        (c.slotsAt ι (r.slots hole))).Climbs rank := by
  obtain ⟨rank, hstraddles, hranked⟩ := exists_straddles h hr hs.copy
    (fun v w ⟨l, hl, hs, ht⟩ => hs ▸ ht ▸ .link hl) hsuits.convex
  exact ⟨rank, hs.plug.climbs (hs.plug.room (fun l hl => ⟨l, hl, rfl, rfl⟩) hstraddles) hranked.climbs⟩

include h hr hsuits hunit in
lemma wired (hacyclic : c'.graph.net.Acyclic) : c'.Wired unit' := by
  obtain ⟨_, hclimbs⟩ := hs.exists_climbs h hr hsuits
  have hrunning := hs.running hclimbs
  exact hs.toFilled.wired h hr hsuits hunit hrunning.threaded hrunning.complete hacyclic

include h hr hconvex in
lemma acyclic : c'.graph.net.Acyclic := by
  obtain ⟨_, hstraddles, hranked⟩ := exists_straddles h hr hs.copy (fun _ _ => id) hconvex
  have hplug := hs.plug.ranked hstraddles hranked
  exact acyclic_of_ranked (hplug.splices hs.cleared.splices hs.plug.fitted)

include h hr hsuits hunit hconvex in
/-- **The circuit is well-formed again**, if no path of links and hazards leaves the hole and comes back. -/
theorem wellFormed : c'.WellFormed :=
  (hs.wired h hr hsuits hunit (hs.acyclic h hr hconvex)).wellFormed

end

end Substituted

/-! ## A single vertex -/

lemma holeAt_interior (h : c.holeAt v = .ok hole) : hole.interior.contains w ↔ w = v := by
  obtain ⟨_, _, _, rfl⟩ := holeAt_eq_ok h
  exact contains_ofList_single

lemma Wired.convex_of_eq (h : c.Wired unit) {R : Vertex → Prop} (hR : ∀ w, R w → w = v) :
    Net.Convex c.graph.net.Before R := by
  intro x y z hx _ hxy hpath hz
  rw [hR x hx] at hxy
  rw [hR z hz] at hpath
  exact h.acyclic v (Relation.TransGen.head' hxy hpath)

lemma convex_single (h : c.Wired unit) (hhole : c.holeAt v = .ok hole) :
    Net.Convex c.graph.net.Before fun w => hole.interior.contains w :=
  h.convex_of_eq fun _ hw => (holeAt_interior hhole).mp hw

lemma not_leaks_single (h : c.Wired unit) (hhole : c.holeAt v = .ok hole) : ¬ c.Leaks hole.interior := by
  rintro ⟨l, m, _, _, _, hm, _, _, hs, ht⟩
  rw [holeAt_interior hhole] at hs ht
  have hloop : c.graph.net.Before m.source.vertex m.target.vertex := .link hm
  rw [hs, ht] at hloop
  exact h.acyclic v (.single hloop)

lemma substituteVertex_eq_ok (hc : c.WellFormed) (hr : r.WellFormed)
    (hrun : substituteVertex r v .delete policy c = .ok a c') : ∃ hole g ι unit', c.holeAt v = .ok hole ∧
      c.Suits r hole ∧ policy.check c.opgroups r.opgroups = .ok () ∧ Substituted c r hole policy c' unit' g ι ∧ c'.WellFormed := by
  have h := hc.wired
  obtain ⟨hole, hhole, hrest⟩ := bind_ask_eq_ok.mp hrun
  obtain ⟨hsuits, hpolicy, _, g, ι, unit', hunit, hs⟩ := substitute_eq_ok h hr.wired (holeAt_isHole h hhole) hrest
  exact ⟨hole, g, ι, unit', hhole, hsuits, hpolicy, hs, hs.wellFormed h hr.wired hsuits hunit (convex_single h hhole)⟩

/-! # `Circuit.substitute` on regions — when the result can be run, and what a refusal leaves -/

variable {region : SortedSet Vertex} {deletion : Deletion} {e : CircuitError}

/-! ## Running the result -/

/-- **A replaced region leaves a circuit that can be run**, if no path of links and hazards leaves the region and comes
    back. In any case only a cycle can stand in the way: with an order, all operations are listed. -/
theorem substitute_executable {a : Unit} (hc : c.WellFormed) (hr : r.WellFormed) (hhole : c.holeOf region = .ok hole)
    (hrun : substitute r hole .delete policy c = .ok a c') :
    (Net.Convex c.graph.net.Before (fun v => region.contains v = true) →
      ∃ order, c'.graph.topologicalOrder = .ok order ∧ c'.Lists order c'.commands) ∧
    ∀ order, c'.graph.topologicalOrder = .ok order → c'.WellFormed ∧ c'.Lists order c'.commands := by
  obtain ⟨hsuits, _, _, g, ι, unit', hunit, hs⟩ :=
    substitute_eq_ok hc.wired hr.wired (holeOf_isHole hc.wired hhole) hrun
  have hlists : c'.graph.net.Acyclic → c'.WellFormed ∧ c'.Lists c'.graph.walk c'.commands := fun hacyclic =>
    have hwired := hs.wired hc.wired hr.wired hsuits hunit hacyclic
    ⟨hwired.wellFormed, hwired.lists_commands⟩
  have hthreaded : c'.graph.net.Threaded unit' := by
    obtain ⟨rank, hclimbs⟩ := hs.exists_climbs hc.wired hr.wired hsuits
    exact (hs.running hclimbs).threaded
  have hvalid := hs.cleared.valid
  constructor
  · intro hconvex
    have hacyclic := hs.acyclic hc.wired hr.wired (by rw [holeOf_interior hhole]; exact hconvex)
    obtain ⟨order, horder⟩ := (Graph.topologicalOrder_isOk_iff hvalid hthreaded).mpr hacyclic
    refine ⟨order, horder, ?_⟩
    rw [Graph.topologicalOrder_eq_ok horder]
    exact (hlists hacyclic).2
  · intro order horder
    rw [Graph.topologicalOrder_eq_ok horder]
    exact hlists ((Graph.topologicalOrder_isOk_iff hvalid hthreaded).mp ⟨order, horder⟩)

/-- A measured bit that is read once, with the measurement replaced by another. -/
theorem substitute_executable_measure : ∃ r c hole c' order,
    (ofUnits 1 1).edited (addOp .measure [.qubit 0, .bit 0] none) = .ok r ∧
    (ofUnits 2 1).edited (do
      let _ ← addOp .measure [.qubit 0, .bit 0] none
      discard (addOp (.conditional .reset 1 1) [.bit 0, .qubit 1] none)) = .ok c ∧
    c.holeOf (.ofList [⟨6, 0⟩]) = .ok hole ∧ c.edited (substitute r hole .delete .merge) = .ok c' ∧
    c'.graph.topologicalOrder = .ok order ∧ c'.Lists order c'.commands := by
  simp only [exists_and_left]
  refine exists_run fun r hr => exists_run fun c hc =>
    exists_and_of (of_run hc (by decide +kernel)) fun hole hhole =>
    exists_and_of (of_run hhole (of_run hc (of_run hr (by decide +kernel)))) fun c' hc' => ?_
  have hwr := wellFormed_edited hr
  have hwc := wellFormed_edited hc
  obtain ⟨_, hrun⟩ := edited_eq_ok.mp hc'
  exact (substitute_executable hwc hwr hhole hrun).1 (hwc.wired.convex_of_eq fun _ hw => contains_ofList_single.mp hw)

/-- **A cycle through a hazard.** The bit is read between the two operations of the region: after the first, whose
    qubit it acts on, and before the second writes the bit. The replacement lets the first wait for the second. -/
theorem substitute_cyclic : ∃ r c hole c', (ofUnits 2 1).edited (do
      let _ ← addOp .measure [.qubit 1, .bit 0] none
      discard (addOp (.barrierOn 2) [.qubit 1, .qubit 0] none)) = .ok r ∧
    (ofUnits 2 1).edited (do
      let _ ← addOp .reset [.qubit 0] none
      let _ ← addOp (.conditional .reset 1 1) [.bit 0, .qubit 0] none
      discard (addOp .measure [.qubit 1, .bit 0] none)) = .ok c ∧
    r.WellFormed ∧ c.WellFormed ∧ c.holeOf (.ofList [⟨6, 0⟩, ⟨8, 0⟩]) = .ok hole ∧
    c.edited (substitute r hole .delete .merge) = .ok c' ∧ (∀ order, c'.graph.topologicalOrder ≠ .ok order) ∧
    c'.opCount = 3 ∧ c'.commands.length = 0 := by
  simp only [exists_and_left]
  refine exists_run fun r hr => exists_run fun c hc =>
    ⟨?_, ?_, of_run hr (of_run hc (by decide +kernel))⟩
  · exact wellFormed_edited hr
  · exact wellFormed_edited hc

/-! ## Refusals -/

/-- **A substitution that is refused leaves the host as it was**, unless a value leaks from a hole that passes all
    checks. From a single vertex nothing leaks. -/
theorem substitute_fails (hc : c.WellFormed) (hr : r.WellFormed)
    (hhole : (∃ region, c.holeOf region = .ok hole) ∨ ∃ v, c.holeAt v = .ok hole)
    (hrun : substitute r hole deletion policy c = .error e c') :
    (c' = c ↔ ¬ (c.checkHole r hole = .ok () ∧ policy.check c.opgroups r.opgroups = .ok () ∧ c.Leaks hole.interior)) ∧
      ∀ v, c.holeAt v = .ok hole → c' = c := by
  have hisHole := isHole_of_hole hc hhole
  cases hcheck : c.checkHole r hole with
  | error e' =>
    have hrefused : substitute r hole deletion policy c = .error e' c := bind_error (ask_of_error hcheck)
    obtain ⟨_, rfl⟩ := EStateM.Result.error.inj (hrefused.symm.trans hrun)
    simp
  | ok a =>
    cases hpolicy : policy.check c.opgroups r.opgroups with
    | error e' =>
      have hrefused : substitute r hole deletion policy c = .error e' c := by
        unfold substitute
        rw [bind_ok (ask_of_ok hcheck)]
        exact bind_error (bind_error (ask_of_error hpolicy))
      obtain ⟨_, rfl⟩ := EStateM.Result.error.inj (hrefused.symm.trans hrun)
      simp
    | ok b =>
      by_cases hleak : c.Leaks hole.interior
      · obtain ⟨c'', herror, v, hnew, hold⟩ := substitute_error hc.wired hr.wired hisHole hcheck hpolicy hleak deletion
        obtain ⟨_, rfl⟩ := EStateM.Result.error.inj (herror.symm.trans hrun)
        have hne : c'' ≠ c := fun heq => hold (heq ▸ hnew)
        exact ⟨⟨fun heq => absurd heq hne, fun hnot => absurd ⟨rfl, rfl, hleak⟩ hnot⟩,
          fun v hv => absurd hleak (not_leaks_single hc.wired hv)⟩
      · obtain ⟨c'', hok, _⟩ := substitute_run hc.wired hr.wired hisHole hcheck hpolicy hleak deletion
        cases hok.symm.trans hrun

/-- A replacement with a unit too many in the place of an operation. -/
theorem substitute_fails_mismatch : ∃ c hole e c',
    (ofUnits 1 0).edited (addOp .reset [.qubit 0] none) = .ok c ∧ c.holeAt ⟨2, 0⟩ = .ok hole ∧
    substitute (ofUnits 2 0) hole .delete .merge c = .error e c' ∧ c' = c := by
  simp only [exists_and_left]
  refine exists_run fun c hc => exists_and_of (of_run hc (by decide +kernel)) fun hole hhole => ?_
  obtain ⟨e, c', hrun, _⟩ : ∃ e c', substitute (ofUnits 2 0) hole .delete .merge c = .error e c' ∧ True :=
    of_run hhole (of_run hc (by decide +kernel))
  have hwc := wellFormed_edited hc
  exact ⟨e, c', hrun, (substitute_fails hwc (ofUnits_wellFormed 2 0) (.inr ⟨_, hhole⟩) hrun).2 _ hhole⟩

/-- **A refusal that leaves copies behind.** The region writes a bit twice, and what it wrote first is read outside. -/
theorem substitute_leaves_copies : ∃ r c hole e c', (ofUnits 1 1).edited (addOp .measure [.qubit 0, .bit 0] none) = .ok r ∧
    (ofUnits 2 1).edited (do
      let _ ← addOp .measure [.qubit 0, .bit 0] none
      let _ ← addOp (.conditional .reset 1 1) [.bit 0, .qubit 1] none
      discard (addOp .measure [.qubit 0, .bit 0] none)) = .ok c ∧
    r.WellFormed ∧ c.WellFormed ∧ c.holeOf (.ofList [⟨6, 0⟩, ⟨8, 0⟩]) = .ok hole ∧
    substitute r hole .delete .merge c = .error e c' ∧ c.graph.vertices.size = 9 ∧ c'.graph.vertices.size = 14 := by
  simp only [exists_and_left]
  refine exists_run fun r hr => exists_run fun c hc =>
    ⟨?_, ?_, of_run hr (of_run hc (by decide +kernel))⟩
  · exact wellFormed_edited hr
  · exact wellFormed_edited hc

end Wireloom.Circuit

/-! # `Circuit.Rewired` — what a substitution does to wires and reads -/

namespace Wireloom

namespace Net

variable {H G N' : Net} {R : Vertex → Prop} {unit : Pin → UnitId} {first last : Vertex → Prop} {slots : List Slot}
  {s : Slot} {l x : Link} {p q z : Pin} {ps own : List Pin} {vs : List Vertex}

namespace Fits

variable (h : Fits H G R unit first last slots)
include h

/-! ## Stretches of wire in the filled hole -/

omit h in
lemma runs_host (hp : ¬ R p.vertex) (hps : ∀ q ∈ ps, ¬ R q.vertex) (hrun : H.Runs p ps z) :
    (plug H G R slots).Runs p ps z := by
  refine hrun.mono fun {x y} hx hy ⟨k, hk, hl⟩ => ⟨k, hk, ?_⟩
  refine .host hl (hps y hy) (.outside ?_)
  rcases hx with rfl | hx
  · exact hp
  · exact hps x hx

lemma not_dropped_of_joined (hpq : G.Joined p q) (hp : ¬ Dropped slots p.vertex) : ¬ Dropped slots q.vertex := by
  obtain ⟨k, hk, hl⟩ := hpq
  rintro ⟨s, hs, hx, hin | hout⟩
  · exact h.target_ne_input hs hl hin.symm
  · exact hp ⟨s, hs, hx, .inl ((h.through hs hx hl hk).mpr hout.symm).symm⟩

lemma runs_guest (hp : ¬ Dropped slots p.vertex) (hrun : G.Runs p ps z) :
    (plug H G R slots).Runs p ps z ∧ ¬ Dropped slots z.vertex := by
  induction hrun with
  | nil => exact ⟨.nil, hp⟩
  | @snoc ps q z _ hqz ih =>
    obtain ⟨hruns, hq⟩ := ih
    have hz := h.not_dropped_of_joined hqz hq
    obtain ⟨k, hk, hl⟩ := hqz
    exact ⟨hruns.snoc ⟨k, hk, .guest hl hz (.inside hq)⟩, hz⟩

lemma runs_slot (hs : s ∈ slots) (hx : s.exit = some x) (hown : G.Runs ⟨s.input, 0⟩ (own ++ [⟨s.output, 0⟩]) ⟨s.output, 0⟩) :
    (plug H G R slots).Runs s.entry.source (⟨s.input, 0⟩ :: (own ++ [⟨s.output, 0⟩])) ⟨s.output, 0⟩ :=
  .cons ⟨s.entry.kind, h.entry_linear hs hx, .entry hs hx⟩ (h.runs_guest (h.not_dropped_input hs hx) hown).1

lemma not_seam_of_between (hown : G.Runs p (own ++ [z]) z) (hq : q ∈ own) : ¬ Seam slots q.vertex := by
  obtain ⟨⟨a, k, _, ha⟩, b, k', _, hb⟩ := hown.between hq
  rintro ⟨s, hs, _, _, hin | hout⟩
  · exact h.target_ne_input hs ha hin.symm
  · exact h.source_ne_output hs hb hout.symm

lemma not_seam_host (hv : (H.signature? p.vertex).isSome) : ¬ Seam slots p.vertex := fun hseam =>
  h.not_both hv (h.live_of_seam hseam)

end Fits

/-! ## Stretches of wire once the ends are spliced out -/

section Spliced

variable {α : Type} [Preorder α] {rank : Vertex → α} (h : Fits H G R unit first last slots)
  (hs : (plug H G R slots).Splices vs N') (hrun : (plug H G R slots).Running unit first last rank)
  (hvs : ∀ v ∈ vs, Seam slots v)
include h hs hrun hvs

lemma spliced_runs (hp : p.vertex ∉ vs) (hruns : (plug H G R slots).Runs p ps z) :
    ∃ z', N'.Runs p (ps.filter fun q => q.vertex ∉ vs) z' ∧
      ∀ {l}, (plug H G R slots).link l → l.source = z → l.target.vertex ∉ vs → N'.link ⟨z', l.target, l.kind⟩ :=
  hs.runs hrun (fun v hv => h.not_first_guest (h.live_of_seam (hvs v hv))) hruns hp

lemma spliced_link (hl : (plug H G R slots).link l) (hsource : l.source.vertex ∉ vs)
    (htarget : l.target.vertex ∉ vs) : N'.link l := by
  obtain ⟨z, hz, hlink⟩ := spliced_runs h hs hrun hvs hsource .nil
  have hsame : z = l.source := hz.eq_getLastD
  have hkept := hlink hl rfl htarget
  rw [hsame] at hkept
  exact hkept

lemma spliced_runs_host (hv : (H.signature? p.vertex).isSome) (hp : ¬ R p.vertex)
    (hps : ∀ q ∈ ps, ¬ R q.vertex) (hruns : H.Runs p ps z) : N'.Runs p ps z := by
  obtain ⟨_, hz', _⟩ := spliced_runs h hs hrun hvs (fun hmem => h.not_seam_host hv (hvs _ hmem)) (Fits.runs_host hp hps hruns)
  have hfilter : ps.filter (fun q => q.vertex ∉ vs) = ps := by
    refine List.filter_eq_self.mpr fun q hq => decide_eq_true ?_
    obtain ⟨a, k, _, ha⟩ := hruns.fed hq
    exact fun hmem => h.not_seam_host (h.host_live ha).2 (hvs _ hmem)
  rw [hfilter] at hz'
  rw [hruns.eq_getLastD, ← hz'.eq_getLastD]
  exact hz'

end Spliced

end Net

namespace Circuit

open Wireloom.Graph List Net Option

variable {c c' r : Circuit} {unit unitG unit' : Pin → UnitId} {hole : Hole} {policy : OpgroupPolicy} {g : Graph}
  {ι : Vertex → Vertex} {x : Filling} {e : Edge} {entry exit m : Link} {u : UnitId} {p z : Pin} {ps own : List Pin}

/-! ## The wires and reads of a filled hole -/

/-- **The pin of the reset that comes in at a slot**: the replacement creates the qubit there, and the host does
    not. -/
def resetPins (c r : Circuit) (ι : Vertex → Vertex) (x : Filling) (entry : Link) : List Pin :=
  if (r.graph.kind? x.1.2.input).any NodeKind.isCreate && !(c.graph.kind? entry.source.vertex).any NodeKind.isCreate
  then [⟨ι x.1.2.input, 0⟩] else []

/-- **A wire through the hole.** It passes `before` the hole and `after` it what it did, and in place of what it passed
    `inside` it passes a reset, if there is one, and copies of what the replacement's unit passes of its `own`. What was
    read where the wire left the hole is now read from the last pin of that stretch. -/
structure Refilled (c r c' : Circuit) (R : Vertex → Prop) (ι : Vertex → Vertex) (x : Filling) (entry exit : Link)
    (u : UnitId) (before inside after own : List Pin) : Prop where
  on_wire : c.OnWire u entry.source
  passed : c.WirePins u (before ++ inside ++ after)
  passed_inside : entry.target ∈ inside ∧ exit.source ∈ inside ∧ ∀ p ∈ inside, R p.vertex
  passed_outside : ∀ p ∈ before ++ after, ¬ R p.vertex
  passed_own : r.WirePins x.1.1 own
  passes : c'.WirePins u (before ++ c.resetPins r ι x entry ++ own.map (Pin.map ι) ++ after)
  steps : c'.stepsAt (before ++ c.resetPins r ι x entry ++ own.map (Pin.map ι) ++ after) =
    c.stepsAt before ++ (c.resetPins r ι x entry).map (fun _ => (some (.op .reset), 0)) ++ r.stepsAt own ++ c.stepsAt after
  reads : ∀ {m}, c.graph.HasLink m → m.kind = .boolean → m.source = exit.source → ¬ R m.target.vertex →
    c'.graph.HasLink ⟨(c.resetPins r ι x entry ++ own.map (Pin.map ι)).getLastD entry.source, m.target, .boolean⟩

/-- **`c'` is `c` with `r` in the hole**, as far as its operations, wires and reads tell. The operations of `r` stand at
    new vertices, given by `ι`. -/
structure Rewired (c r : Circuit) (hole : Hole) (c' : Circuit) (ι : Vertex → Vertex) : Prop where
  fresh : ∀ {v}, r.graph.Live v → ¬ c.graph.Live (ι v)
  injective : ∀ {v w}, r.graph.Live v → r.graph.Live w → ι v = ι w → v = w
  op_iff : ∀ {w o}, c'.graph.kind? w = some (.op o) ↔ (c.graph.kind? w = some (.op o) ∧ ¬ hole.interior.contains w = true) ∨
    (∃ v, r.graph.kind? v = some (.op o) ∧ ι v = w) ∨
    ∃ x ∈ r.slots hole, ∃ e entry, x.2.2 = some e ∧ c.graph.edges.get? x.2.1 = some entry ∧
      ⟨w, 0⟩ ∈ c.resetPins r ι x entry ∧ o = .reset
  slot : ∀ {x e}, x ∈ r.slots hole → x.2.2 = some e → ∃ entry exit u before inside after own,
    c.graph.edges.get? x.2.1 = some entry ∧ c.graph.edges.get? e = some exit ∧
      Refilled c r c' (fun v => hole.interior.contains v = true) ι x entry exit u before inside after own
  other : ∀ {u ps}, c.WirePins u ps → (∀ {x e entry}, x ∈ r.slots hole → x.2.2 = some e →
    c.graph.edges.get? x.2.1 = some entry → ¬ c.OnWire u entry.source) → c'.WirePins u ps ∧ c'.stepsAt ps = c.stepsAt ps
  read_outside : ∀ {m}, c.graph.HasLink m → m.kind = .boolean → ¬ hole.interior.contains m.source.vertex = true →
    ¬ hole.interior.contains m.target.vertex = true → c'.graph.HasLink m
  read_leaving : ∀ {m}, c.graph.HasLink m → m.kind = .boolean → hole.interior.contains m.source.vertex = true →
    ¬ hole.interior.contains m.target.vertex = true →
      ∃ x ∈ r.slots hole, ∃ e exit, x.2.2 = some e ∧ c.graph.edges.get? e = some exit ∧ exit.source = m.source
  read_copied : ∀ {m}, r.graph.HasLink m → m.kind = .boolean → ¬ r.IsInput m.source.vertex → c'.graph.HasLink (m.map ι)
  read_entering : ∀ {x entry m}, x ∈ r.slots hole → c.graph.edges.get? x.2.1 = some entry → r.graph.HasLink m →
    m.kind = .boolean → m.source = ⟨x.1.2.input, 0⟩ → c'.graph.HasLink ⟨entry.source, m.target.map ι, .boolean⟩
  read_once : ∀ {m n}, c'.graph.HasLink m → c'.graph.HasLink n → m.target = n.target → m = n
  boundary : c'.boundary = c.boundary
  phase : c'.phase = c.phase + r.phase

/-! ## The parts of a wire -/

lemma linked_of_joined {q : Pin} (h : Relation.ReflTransGen c.graph.net.Joined p q) :
    Relation.ReflTransGen c.Linked p.vertex q.vertex :=
  h.lift Pin.vertex fun _ _ ⟨_, _, hl⟩ => ⟨_, hl, rfl, rfl⟩

/-- **A wire that passes through a convex hole** has a part before it, one inside and one after it. -/
theorem IsSlot.exists_parts {region : SortedSet Vertex} {slot : Edge × Option Edge} (hslot : c.IsSlot region slot entry)
    (h : c.Wired unit) (hconvex : Net.Convex c.Linked fun v => region.contains v) (he : slot.2 = some e)
    (hexit : c.graph.edges.get? e = some exit) :
    ∃ u ends before inside after, c.boundary.get? u = some ends ∧ c.OnWire u entry.source ∧
      c.graph.net.Runs ⟨ends.input, 0⟩ before entry.source ∧ (∀ p ∈ before, ¬ region.contains p.vertex) ∧
      c.graph.net.Runs entry.target inside exit.source ∧ (∀ p ∈ inside, region.contains p.vertex) ∧
      c.graph.net.Runs exit.target after ⟨ends.output, 0⟩ ∧ (∀ p ∈ after, ¬ region.contains p.vertex) := by
  obtain ⟨_, _, hexit', hxlin, hxin, hxout, _, hxunit, hpath⟩ := hslot.exit_spec h he
  cases mem_unique hexit hexit'
  have hlink : c.graph.HasLink entry := ⟨_, hslot.get?_entry⟩
  have hxlink : c.graph.HasLink exit := ⟨_, hexit⟩
  have hon := h.onWire_unit (h.threaded.source_wire hlink) (WireKind.isLinear_carrier _)
  have hxon := h.onWire_unit (h.threaded.target_wire hxlink) hxlin
  rw [← h.threaded.same_unit hxlink hxlin, hxunit] at hxon
  obtain ⟨ends, hu, hbefore⟩ := hon
  have hafter := h.leads_output hu hxon
  obtain ⟨before, hbefore, _⟩ := exists_runs (fun hstep => ⟨hstep, trivial⟩) hbefore
  obtain ⟨inside, hinside, hin⟩ := exists_runs (fun hstep => hstep) hpath
  obtain ⟨after, hafter, _⟩ := exists_runs (fun hstep => ⟨hstep, trivial⟩) hafter
  refine ⟨_, ends, before, inside, after, hu, ⟨ends, hu, hbefore.leads (.inl rfl)⟩, hbefore, fun p hp hR => ?_, hinside,
    hin, hafter, fun p hp => ?_⟩
  · -- what leads to the hole from inside would leave it and come back
    exact hconvex.not_of_path hR (linked_of_joined (hbefore.leads (.inr hp))) hslot.outside
      (.single ⟨entry, hlink, rfl, rfl⟩) hslot.inside
  · exact hconvex hxin hxout ⟨exit, hxlink, rfl, rfl⟩ (linked_of_joined (hafter.path hp))

/-! ## Running through the copies -/

/-- The net of the host with the copies in the hole, the ends of their wires still there. -/
noncomputable abbrev filledNet (c r : Circuit) (hole : Hole) (g : Graph) (ι : Vertex → Vertex) : Net :=
  Net.plug c.graph.net (c.copiedNet r g ι) (fun v => hole.interior.contains v = true) ((r.slots hole).map (slotOf c.graph ι))

lemma copiedNet_runs (c : Circuit) (g : Graph) (ι : Vertex → Vertex) (hown : r.graph.net.Runs p ps z) :
    (c.copiedNet r g ι).Runs (p.map ι) (ps.map (Pin.map ι)) (z.map ι) := by
  induction hown with
  | nil => exact .nil
  | @snoc ps q z _ hqz ih =>
    obtain ⟨k, hk, hl⟩ := hqz
    rw [map_append, map_singleton]
    exact ih.snoc ⟨k, hk, ⟨q, z, k⟩, hl, rfl⟩

namespace Substituted

variable (hs : Substituted c r hole policy c' unit' g ι)
include hs

variable (h : c.Wired unit) (hr : r.Wired unitG) (hhole : c.IsHole unit hole)
  (hsuits : c.Suits r hole) (hx : x ∈ r.slots hole) (he : x.2.2 = some e)
  (hentry : c.graph.edges.get? x.2.1 = some entry)

include h hr hsuits in
lemma exists_running : ∃ rank : Vertex → ℕ ×ₗ ℕ, (c.filledNet r hole g ι).Running unit' c.IsInput c.IsOutput rank := by
  obtain ⟨rank, hclimbs⟩ := hs.exists_climbs h hr hsuits
  exact ⟨rank, hs.plug.threaded, hs.plug.complete, hclimbs⟩

include hr hhole hx he hentry in
lemma resets_iff : c.resetPins r ι x entry = if resets g (slotOf c.graph ι x) then [⟨ι x.1.2.input, 0⟩] else [] := by
  obtain ⟨_, _, hexit⟩ := hhole.exit_eq hx he
  obtain ⟨_, hki, _⟩ := hr.starts (mem_slots hx).1
  have hslot : (slotOf c.graph ι x).entry = entry := by unfold slotOf; rw [hentry]; rfl
  obtain ⟨_, hkb⟩ := kind?_of_signature (hs.plug.host_source (mem_map_of_mem hx))
  have hresets := resets_eq hexit (hs.copy.kind?_new hki) (hs.ready.old hkb)
  rw [hslot] at hkb
  rw [hresets]
  unfold resetPins
  rw [hki, hkb]
  rfl

include hx in
lemma mem_spliced_input (he : (slotOf c.graph ι x).exit = some exit) :
    ι x.1.2.input ∈ (c.slotsAt ι (r.slots hole)).flatMap (splicedBy g) ↔ resets g (slotOf c.graph ι x) = false := by
  have hmem : slotOf c.graph ι x ∈ c.slotsAt ι (r.slots hole) := mem_map_of_mem hx
  rw [mem_flatMap]
  constructor
  · rintro ⟨t, ht, hsplice⟩
    rcases (mem_splicedBy.mp hsplice).2 with ⟨hin, hreset⟩ | hout
    · rw [hs.plug.input_injective hmem ht hin]
      exact hreset
    · exact absurd hout (hs.plug.input_ne_output hmem ht)
  · exact fun hreset => ⟨_, hmem, mem_splicedBy.mpr ⟨⟨exit, he⟩, .inl ⟨rfl, hreset⟩⟩⟩

include h hr hsuits in
lemma hasLink_host (hm : c.graph.HasLink m) (hsource : ¬ hole.interior.contains m.source.vertex)
    (htarget : ¬ hole.interior.contains m.target.vertex) : c'.graph.HasLink m := by
  obtain ⟨_, hrunning⟩ := hs.exists_running h hr hsuits
  obtain ⟨hlive, hlive'⟩ := hs.plug.host_live hm
  exact spliced_link hs.plug.toFits hs.cleared.splices hrunning (fun _ => seam_of_spliced)
    (.host hm htarget (.outside hsource)) (fun hmem => hs.plug.not_seam_host hlive (seam_of_spliced hmem))
    fun hmem => hs.plug.not_seam_host hlive' (seam_of_spliced hmem)

include h hr hsuits in
lemma runs_host (hp : c.graph.Live p.vertex) (hout : ¬ hole.interior.contains p.vertex)
    (hps : ∀ q ∈ ps, ¬ hole.interior.contains q.vertex) (hruns : c.graph.net.Runs p ps z) :
    c'.graph.net.Runs p ps z := by
  obtain ⟨_, hrunning⟩ := hs.exists_running h hr hsuits
  exact spliced_runs_host hs.plug.toFits hs.cleared.splices hrunning (fun _ => seam_of_spliced)
    (signature?_iff.mpr hp) hout hps hruns

include hr hhole hx he hentry in
lemma filter_spliced (hown : r.graph.net.Runs ⟨x.1.2.input, 0⟩ (own ++ [⟨x.1.2.output, 0⟩]) ⟨x.1.2.output, 0⟩) :
    ((⟨ι x.1.2.input, 0⟩ : Pin) :: (own.map (Pin.map ι) ++ [⟨ι x.1.2.output, 0⟩])).filter
        (fun q => q.vertex ∉ (c.slotsAt ι (r.slots hole)).flatMap (splicedBy g)) =
      c.resetPins r ι x entry ++ own.map (Pin.map ι) := by
  obtain ⟨exit, _, hexit⟩ := hhole.exit_eq hx he
  have hmem : slotOf c.graph ι x ∈ c.slotsAt ι (r.slots hole) := mem_map_of_mem hx
  have hcopy := copiedNet_runs c g ι hown
  rw [map_append] at hcopy
  have hkept : (own.map (Pin.map ι)).filter
      (fun q => q.vertex ∉ (c.slotsAt ι (r.slots hole)).flatMap (splicedBy g)) = own.map (Pin.map ι) :=
    filter_eq_self.mpr fun q hq => decide_eq_true fun hsplice =>
      hs.plug.not_seam_of_between hcopy hq (seam_of_spliced hsplice)
  have hout : ι x.1.2.output ∈ (c.slotsAt ι (r.slots hole)).flatMap (splicedBy g) :=
    mem_flatMap.mpr ⟨_, hmem, mem_splicedBy.mpr ⟨⟨exit, hexit⟩, .inr rfl⟩⟩
  have hin := hs.mem_spliced_input hx hexit
  rw [hs.resets_iff hr hhole hx he hentry, filter_cons, filter_append, hkept]
  cases hreset : resets g (slotOf c.graph ι x) with
  | true => simp [hin, hreset, hout]
  | false => simp [hin, hreset, hout]

include h hr hhole hsuits hx he hentry in
/-- **The wire of a slot runs through the copies**, and what left the hole at the slot comes from the last of them. -/
theorem runs_slot (hexit : c.graph.edges.get? e = some exit) (hown : r.WirePins x.1.1 own) :
    ∃ z, c'.graph.net.Runs entry.source (c.resetPins r ι x entry ++ own.map (Pin.map ι)) z ∧
      ∀ {m}, c.graph.HasLink m → m.source = exit.source → ¬ hole.interior.contains m.target.vertex →
        c'.graph.HasLink ⟨z, m.target, m.kind⟩ := by
  obtain ⟨_, hrunning⟩ := hs.exists_running h hr hsuits
  have hmem : slotOf c.graph ι x ∈ c.slotsAt ι (r.slots hole) := mem_map_of_mem hx
  obtain ⟨_, hexit', hslot⟩ := hhole.exit_eq hx he
  cases mem_unique hexit hexit'
  have hsource : (slotOf c.graph ι x).entry = entry := by unfold slotOf; rw [hentry]; rfl
  obtain ⟨_, hu, hruns⟩ := hown
  cases mem_unique hu ((mem_slots hx).1)
  have hcopy := copiedNet_runs c g ι hruns
  rw [map_append] at hcopy
  have hthrough := hs.plug.runs_slot hmem hslot hcopy
  rw [hsource] at hthrough
  have hlive := (hs.plug.host_live ⟨_, hentry⟩).1
  obtain ⟨z, hz, hlink⟩ := spliced_runs hs.plug.toFits hs.cleared.splices hrunning
    (fun _ => seam_of_spliced) (fun hmem => hs.plug.not_seam_host hlive (seam_of_spliced hmem)) hthrough
  have hfilter := hs.filter_spliced hr hhole hx he hentry hruns
  refine ⟨z, ?_, fun {m} hm hms hmt => ?_⟩
  · rw [← hfilter]
    exact hz
  · refine hlink (l := ⟨⟨ι x.1.2.output, 0⟩, m.target, m.kind⟩) (.host hm hmt ?_) rfl fun hsplice =>
      hs.plug.not_seam_host (hs.plug.host_live hm).2 (seam_of_spliced hsplice)
    rw [hms]
    exact .leaving hmem hslot

/-! ## Reads of the replacement -/

variable (hm : r.graph.HasLink m) (hk : m.kind = .boolean)

include hm hk in
lemma not_end_of_read {s : Slot} (hmem : s ∈ c.slotsAt ι (r.slots hole)) :
    ¬ (s.input = ι m.target.vertex ∨ s.output = ι m.target.vertex) := by
  have hlink : (c.copiedNet r g ι).link (m.map ι) := ⟨m, hm, rfl⟩
  rintro (hin | hout)
  · exact hs.plug.target_ne_input hmem hlink hin.symm
  · exact hs.plug.read_target hlink hk hmem hout.symm

include h hr hsuits hm hk in
lemma hasLink_copied (hsource : ¬ r.IsInput m.source.vertex) : c'.graph.HasLink (m.map ι) := by
  obtain ⟨_, hrunning⟩ := hs.exists_running h hr hsuits
  have hlink : (c.copiedNet r g ι).link (m.map ι) := ⟨m, hm, rfl⟩
  have hwriter : ∀ {s}, s ∈ c.slotsAt ι (r.slots hole) → ¬ (s.input = ι m.source.vertex ∨ s.output = ι m.source.vertex) := by
    intro s hmem heq
    rcases heq with hin | hout
    · obtain ⟨x, hx, rfl⟩ := mem_map.mp hmem
      exact hsource ⟨_, _, (mem_slots hx).1, hs.copy.injective (hr.live_input (mem_slots hx).1) (hr.valid.source_live hm) hin⟩
    · exact hs.plug.source_ne_output hmem hlink hout.symm
  refine spliced_link hs.plug.toFits hs.cleared.splices hrunning (fun _ => seam_of_spliced)
    (.guest hlink (fun ⟨s, hmem, _, heq⟩ => hs.not_end_of_read hm hk hmem heq)
      (.inside fun ⟨s, hmem, _, heq⟩ => hwriter hmem heq)) (fun hsplice => ?_) fun hsplice => ?_
  · obtain ⟨s, hmem, _, _, heq⟩ := seam_of_spliced hsplice
    exact hwriter hmem heq
  · obtain ⟨s, hmem, _, _, heq⟩ := seam_of_spliced hsplice
    exact hs.not_end_of_read hm hk hmem heq

include hr hx hm hk in
lemma not_resets_of_read (hsource : m.source = ⟨x.1.2.input, 0⟩) : resets g (slotOf c.graph ι x) = false := by
  rw [Bool.eq_false_iff]
  intro hreset
  obtain ⟨_, hki, _⟩ := hr.starts (mem_slots hx).1
  cases mem_unique (hs.copy.kind?_new hki) ((resets_cases hreset).2)
  have hsig : r.graph.net.signature? x.1.2.input = some [.quantum] := signature_of_kind? hki
  have hwire := hr.threaded.source_wire hm
  rw [hsource, wireAt_of_single hsig, hk] at hwire
  cases hwire

include h hr hsuits hx in
lemma hasLink_entering (hentry : c.graph.edges.get? x.2.1 = some entry) (hm : r.graph.HasLink m)
    (hk : m.kind = .boolean) (hsource : m.source = ⟨x.1.2.input, 0⟩) :
    c'.graph.HasLink ⟨entry.source, m.target.map ι, .boolean⟩ := by
  obtain ⟨_, hrunning⟩ := hs.exists_running h hr hsuits
  have hmem : slotOf c.graph ι x ∈ c.slotsAt ι (r.slots hole) := mem_map_of_mem hx
  have hslot : (slotOf c.graph ι x).entry = entry := by unfold slotOf; rw [hentry]; rfl
  have hlink : (c.copiedNet r g ι).link (m.map ι) := ⟨m, hm, rfl⟩
  have hsource' : (m.map ι).source = ⟨ι x.1.2.input, 0⟩ := congrArg (Pin.map ι) hsource
  have hreader : ¬ Dropped (c.slotsAt ι (r.slots hole)) (m.map ι).target.vertex :=
    fun ⟨s, hmem, _, heq⟩ => hs.not_end_of_read hm hk hmem heq
  have hhost : entry.source.vertex ∉ (c.slotsAt ι (r.slots hole)).flatMap (splicedBy g) := fun hsplice =>
    hs.plug.not_seam_host (hs.plug.host_live ⟨_, hentry⟩).1 (seam_of_spliced hsplice)
  have htarget : ι m.target.vertex ∉ (c.slotsAt ι (r.slots hole)).flatMap (splicedBy g) := fun hsplice => by
    obtain ⟨s, hmem, _, _, heq⟩ := seam_of_spliced hsplice
    exact hs.not_end_of_read hm hk hmem heq
  rw [← hk]
  cases hexit : (slotOf c.graph ι x).exit with
  | none =>
    refine spliced_link hs.plug.toFits hs.cleared.splices hrunning (fun _ => seam_of_spliced)
      (.guest hlink hreader ?_) hhost htarget
    rw [hsource', ← hslot]
    exact .reading hmem hexit
  | some exit =>
    -- the copied input is spliced out, and the reads of it go back to where the wire comes from
    have henter : (c.filledNet r hole g ι).Joined entry.source ⟨ι x.1.2.input, 0⟩ := by
      rw [← hslot]
      exact ⟨_, hs.plug.entry_linear hmem hexit, .entry hmem hexit⟩
    obtain ⟨z, hz, hon⟩ := spliced_runs hs.plug.toFits hs.cleared.splices hrunning
      (fun _ => seam_of_spliced) hhost (.single henter)
    have hsplice := (hs.mem_spliced_input hx hexit).mpr (hs.not_resets_of_read hr hx hm hk hsource)
    rw [filter_cons_of_neg (by simpa using hsplice), filter_nil] at hz
    have hsame : z = entry.source := hz.eq_getLastD
    have hread := hon (.guest hlink hreader (.inside (by rw [hsource']; exact hs.plug.not_dropped_input hmem hexit)))
      hsource' htarget
    rw [hsame] at hread
    exact hread

/-! ## Operations -/

lemma kind?_host_op {v : Vertex} {o : Op} (hk : c.graph.kind? v = some (.op o))
    (hout : ¬ hole.interior.contains v) : c'.graph.kind? v = some (.op o) := by
  rw [hs.kind?_host hk hout, touched_op (hs.ready.old hk)]

lemma kind?_reset (hx : x ∈ r.slots hole) (hreset : resets g (slotOf c.graph ι x)) :
    c'.graph.kind? (ι x.1.2.input) = some (.op .reset) := by
  have hmem : slotOf c.graph ι x ∈ c.slotsAt ι (r.slots hole) := mem_map_of_mem hx
  obtain ⟨⟨_, hexit⟩, hcreate⟩ := resets_cases hreset
  have htouch : touched g (c.slotsAt ι (r.slots hole)) (ι x.1.2.input) .create = .op .reset :=
    if_pos (any_eq_true.mpr ⟨_, hmem, by rw [hreset]; exact decide_eq_true rfl⟩)
  rw [hs.kind?_of_stays, show g.kind? (ι x.1.2.input) = some .create from hcreate, map_some, htouch]
  · rw [hs.mem_spliced_input hx hexit, hreset]
    exact Bool.true_eq_false.mp
  · rintro (hin | hdrop)
    · exact hs.plug.guest_outside (hs.plug.live_input hmem) hin
    · exact hs.plug.not_dropped_input hmem hexit hdrop

/-- **The operations after a substitution** are those of the host outside the hole, those of the replacement and
    resets. -/
theorem op_iff (hr : r.Wired unitG) (hhole : c.IsHole unit hole) (hsuits : c.Suits r hole) {w : Vertex} {o : Op} :
    c'.graph.kind? w = some (.op o) ↔ (c.graph.kind? w = some (.op o) ∧ ¬ hole.interior.contains w) ∨
      (∃ v, r.graph.kind? v = some (.op o) ∧ ι v = w) ∨
      ∃ x ∈ r.slots hole, ∃ e entry, x.2.2 = some e ∧ c.graph.edges.get? x.2.1 = some entry ∧
        ⟨w, 0⟩ ∈ c.resetPins r ι x entry ∧ o = .reset := by
  constructor
  · intro hk
    rcases hs.kind?_cases hr hsuits hk with ⟨_, hk0, hout, heq⟩ | ⟨v, _, hv, hw, heq⟩ | ⟨s, hmem, hreset, hw, heq⟩
    · rcases hs.touched_host hk0 with htouch | ⟨_, htouch⟩
      · rw [htouch] at heq
        exact .inl ⟨heq ▸ hk0, hout⟩
      · rw [htouch] at heq
        cases heq
    · cases heq
      exact .inr (.inl ⟨v, hv, hw⟩)
    · cases heq
      obtain ⟨x, hx, rfl⟩ := mem_map.mp hmem
      obtain ⟨⟨_, hexit⟩, _⟩ := resets_cases hreset
      obtain ⟨e, he, _⟩ := exit_of_slotOf hexit
      refine .inr (.inr ⟨x, hx, e, _, he, hsuits.entry_eq (ι := ι) hx, ?_, rfl⟩)
      rw [hs.resets_iff hr hhole hx he (hsuits.entry_eq hx), if_pos hreset, ← hw]
      exact mem_singleton_self _
  · rintro (⟨hk, hout⟩ | ⟨v, hv, rfl⟩ | ⟨x, hx, e, entry, he, hentry, hmem, rfl⟩)
    · exact hs.kind?_host_op hk hout
    · exact hs.kind?_op hr hv
    · rw [hs.resets_iff hr hhole hx he hentry] at hmem
      split at hmem
      · next hreset =>
        rw [(Pin.mk.inj (mem_singleton.mp hmem)).1]
        exact hs.kind?_reset hx hreset
      · cases hmem

/-! ## The whole substitution -/

lemma stepsAt_host (hop : ∀ p ∈ ps, ∃ o, c.graph.kind? p.vertex = some (.op o))
    (hout : ∀ p ∈ ps, ¬ hole.interior.contains p.vertex) : c'.stepsAt ps = c.stepsAt ps := by
  refine stepsAt_congr fun p hp => ?_
  obtain ⟨o, ho⟩ := hop p hp
  rw [hs.kind?_host_op ho (hout p hp), ho]

include hr in
lemma stepsAt_copied (hop : ∀ p ∈ own, ∃ o, r.graph.kind? p.vertex = some (.op o)) :
    c'.stepsAt (own.map (Pin.map ι)) = r.stepsAt own := by
  refine stepsAt_map fun p hp => ?_
  obtain ⟨o, ho⟩ := hop p hp
  rw [hs.kind?_op hr ho, ho]

include hr hhole hx he hentry in
lemma stepsAt_reset :
    c'.stepsAt (c.resetPins r ι x entry) = (c.resetPins r ι x entry).map fun _ => (some (.op .reset), 0) := by
  rw [hs.resets_iff hr hhole hx he hentry]
  split
  · next hreset =>
    show [(c'.graph.kind? (ι x.1.2.input), 0)] = _
    rw [hs.kind?_reset hx hreset]
    rfl
  · rfl

include h hr hhole hsuits hx he hentry in
lemma refilled (hexit : c.graph.edges.get? e = some exit) : ∃ u before inside after own,
      Refilled c r c' (fun v => hole.interior.contains v) ι x entry exit u before inside after own := by
  have hslot : c.IsSlot hole.interior x.2 entry := by
    have hslot := hhole.isSlot (ι := ι) hx
    rwa [← mem_unique hentry (hsuits.entry_eq hx)] at hslot
  obtain ⟨hlin, _, hexit', hxlin, _, hxout, _⟩ := hslot.exit_spec h he
  cases mem_unique hexit hexit'
  obtain ⟨u, ends, before, inside, after, hu, hon, hbefore, hbout, hinside, hin, hafter, haout⟩ :=
    hslot.exists_parts h hsuits.convex he hexit
  obtain ⟨own, hown⟩ := hr.exists_wirePins (mem_slots hx).1
  obtain ⟨z, hz, hleave⟩ := hs.runs_slot h hr hhole hsuits hx he hentry hexit hown
  -- the pins behind the hole, from the target of the exit on, without the end of the wire
  obtain ⟨after', hcons⟩ := (Runs.cons (joined_of_link (N := c.graph.net) ⟨e, hexit⟩ hxlin) hafter).exists_concat
  have haout' : ∀ p ∈ after', ¬ hole.interior.contains p.vertex := by
    intro p hp
    have hmem : p ∈ exit.target :: after := by rw [hcons]; exact mem_append_left _ hp
    rcases mem_cons.mp hmem with rfl | hmem
    · exact hxout
    · exact haout p hmem
  have hpassed : c.WirePins u (before ++ entry.target :: inside ++ after') := by
    refine ⟨ends, hu, ?_⟩
    rw [append_assoc, ← hcons]
    exact (hbefore.append (.cons (joined_of_link ⟨_, hentry⟩ hlin) hinside)).append
      (.cons (joined_of_link ⟨e, hexit⟩ hxlin) hafter)
  have hop := fun p hp => hpassed.op_of_mem (p := p) h hp
  refine ⟨u, before, entry.target :: inside, after', own, hon, hpassed, ⟨mem_cons_self, ?_, ?_⟩, ?_, hown, ?_, ?_, ?_⟩
  · rw [hinside.eq_getLastD, getLastD_eq_getLast?]
    cases hlast : inside.getLast? with
    | none => exact mem_cons_self
    | some q => exact mem_cons_of_mem _ (mem_of_getLast? hlast)
  · intro p hp
    rcases mem_cons.mp hp with rfl | hp
    · exact hslot.inside
    · exact hin p hp
  · intro p hp
    rcases mem_append.mp hp with hp | hp
    · exact hbout p hp
    · exact haout' p hp
  · refine ⟨ends, by rw [hs.boundary]; exact hu, ?_⟩
    have hout : ¬ hole.interior.contains ends.input := fun hin =>
      (hhole.not_isInput h.toFramed hin).1 ⟨u, ends, hu, rfl⟩
    have hfirst := hs.runs_host h hr hsuits (h.live_input hu) hout hbout hbefore
    have hlast := hs.runs_host h hr hsuits (h.valid.target_live ⟨e, hexit⟩) hxout haout hafter
    have hjoin : c'.graph.net.Joined z exit.target := ⟨exit.kind, hxlin, hleave ⟨e, hexit⟩ rfl hxout⟩
    rw [append_assoc before, append_assoc, ← hcons]
    exact (hfirst.append hz).append (.cons hjoin hlast)
  · rw [stepsAt_append, stepsAt_append, stepsAt_append, hs.stepsAt_host (fun p hp => hop p (by simp [hp])) hbout,
      hs.stepsAt_host (fun p hp => hop p (by simp [hp])) haout', hs.stepsAt_reset hr hhole hx he hentry,
      hs.stepsAt_copied hr fun p hp => hown.op_of_mem hr hp]
  · intro m hm hk hsource htarget
    rw [← hz.eq_getLastD, ← hk]
    exact hleave hm hsource htarget

include h hr hhole hsuits in
lemma other (hps : c.WirePins u ps) (hother : ∀ {x e entry}, x ∈ r.slots hole → x.2.2 = some e →
      c.graph.edges.get? x.2.1 = some entry → ¬ c.OnWire u entry.source) :
    c'.WirePins u ps ∧ c'.stepsAt ps = c.stepsAt ps := by
  have hop := fun p hp => hps.op_of_mem (p := p) h hp
  obtain ⟨ends, hu, hruns⟩ := hps
  have hend : ∀ {v}, c.IsInput v ∨ c.IsOutput v → ¬ hole.interior.contains v := fun hv hin =>
    hv.elim (hhole.not_isInput h.toFramed hin).1 (hhole.not_isInput h.toFramed hin).2
  have hout : ∀ p ∈ ps ++ [⟨ends.output, 0⟩], ¬ hole.interior.contains p.vertex := by
    intro p hp hin
    -- a wire inside came in at a slot
    obtain ⟨q, k, hk, hlink⟩ := hruns.fed hp
    obtain ⟨a, ⟨ea, ha⟩, halin, haout, hain, hpath⟩ :=
      hhole.exists_entry h (h.threaded.target_wire hlink) hk hin
    obtain ⟨_, hslot⟩ := hhole.enters ha halin haout hain
    obtain ⟨_, _, hx⟩ := hsuits.exists_unit_of_slot hslot
    refine hother hx rfl ha ?_
    have hon : c.OnWire u p := ⟨ends, hu, hruns.path hp⟩
    have hunit : unit a.source = u := by
      rw [h.threaded.same_unit ⟨ea, ha⟩ halin, ← h.unit_of_onWire hon]
      exact h.threaded.unit_of_joined (hpath.lift id fun _ _ hstep => hstep.1)
    rw [← hunit]
    exact h.onWire_unit (h.threaded.source_wire ⟨ea, ha⟩) (WireKind.isLinear_carrier _)
  exact ⟨⟨ends, by rw [hs.boundary]; exact hu, hs.runs_host h hr hsuits (h.live_input hu)
    (hend (.inl ⟨u, ends, hu, rfl⟩)) hout hruns⟩,
    hs.stepsAt_host hop fun p hp => hout p (mem_append_left _ hp)⟩

include h hr hhole hsuits in
lemma rewired (hleak : ¬ c.Leaks hole.interior) : Rewired c r hole c' ι where
  fresh hv := hs.copy.toHosts.not_live hv
  injective := hs.copy.injective
  op_iff := hs.op_iff hr hhole hsuits
  slot {x e} hx he := by
    obtain ⟨exit, hexit, _⟩ := hhole.exit_eq (ι := ι) hx he
    obtain ⟨u, before, inside, after, own, hfill⟩ :=
      hs.refilled h hr hhole hsuits hx he (hsuits.entry_eq hx) hexit
    exact ⟨_, exit, u, before, inside, after, own, hsuits.entry_eq (ι := ι) hx, hexit, hfill⟩
  other hps hother := hs.other h hr hhole hsuits hps hother
  read_outside hm _ hsource htarget := hs.hasLink_host h hr hsuits hm hsource htarget
  read_leaving {m} hm hk hsource htarget := by
    have hmatched := (matched_iff (ι := ι) h hhole hsuits hm hsource).mpr fun ⟨n, hn, hlin, hns, hin⟩ =>
      hleak ⟨m, n, hm, hk, htarget, hn, hlin, hns, by rw [hns]; exact hsource, hin⟩
    obtain ⟨s, hmem, l, hl, hls⟩ := hmatched
    obtain ⟨x, hx, rfl⟩ := mem_map.mp hmem
    obtain ⟨e, he, hget⟩ := exit_of_slotOf hl
    exact ⟨x, hx, e, l, he, hget, hls⟩
  read_copied hm hk hsource := hs.hasLink_copied h hr hsuits hm hk hsource
  read_entering hx hentry hm hk hsource := hs.hasLink_entering h hr hsuits hx hentry hm hk hsource
  read_once hm hn heq := by
    obtain ⟨_, hrunning⟩ := hs.exists_running h hr hsuits
    exact (hs.running hrunning.climbs).threaded.in_unique hm hn heq
  boundary := hs.boundary
  phase := by rw [hs.others]

end Substituted

/-- **A substitution puts the replacement's wires where those of the hole were**, for the hole of a region or of a
    single vertex. -/
theorem substitute_rewires {a : Unit} (hc : c.WellFormed) (hr : r.WellFormed)
    (hhole : (∃ region, c.holeOf region = .ok hole) ∨ ∃ v, c.holeAt v = .ok hole)
    (hrun : substitute r hole .delete policy c = .ok a c') : ∃ ι, Rewired c r hole c' ι := by
  have hisHole := isHole_of_hole hc hhole
  obtain ⟨hsuits, _, hleak, g, ι, unit', _, hs⟩ := substitute_eq_ok hc.wired hr.wired hisHole hrun
  exact ⟨ι, hs.rewired hc.wired hr.wired hisHole hsuits hleak⟩

/-- A measurement whose result is read later, replaced by one of a fresh qubit. -/
theorem substitute_rewires_measure : ∃ r c hole c' ι,
    (ofUnits 1 1).edited (do createQubit (.qubit 0); discard (addOp .measure [.qubit 0, .bit 0] none)) = .ok r ∧
    (ofUnits 2 1).edited (do
      let _ ← addOp .measure [.qubit 0, .bit 0] none
      discard (addOp (.conditional .reset 1 1) [.bit 0, .qubit 1] none)) = .ok c ∧
    c.holeOf (.ofList [⟨6, 0⟩]) = .ok hole ∧ c.edited (substitute r hole .delete .merge) = .ok c' ∧
    Rewired c r hole c' ι := by
  simp only [exists_and_left]
  refine exists_run fun r hr => exists_run fun c hc =>
    exists_and_of (of_run hc (by decide +kernel)) fun hole hhole =>
    exists_and_of (of_run hhole (of_run hc (of_run hr (by decide +kernel)))) fun c' hc' => ?_
  have hwr := wellFormed_edited hr
  have hwc := wellFormed_edited hc
  obtain ⟨_, hrun⟩ := edited_eq_ok.mp hc'
  exact substitute_rewires hwc hwr (.inl ⟨_, hhole⟩) hrun

end Circuit

end Wireloom
