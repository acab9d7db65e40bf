import Wireloom.Circuit.Build
import Wireloom.Circuit.Command
import Wireloom.Proofs.Removal
import Wireloom.Proofs.WellFormed

/-!
# `Circuit.addUnit`, `Circuit.addOp` — putting operations in and taking them out

`addOp` wires the pins of a new vertex one after the other. While it is at work the vertex has pins without links; to
the wires it looks as if its signature ended after the pins that are wired (`Graph.netUpTo`).
-/

namespace Wireloom

lemma UnitId.compare_ofIndex (κ : UnitKind) (i j : Nat) : compare (ofIndex κ i) (.ofIndex κ j) = compare i j := by
  show UnitId.order _ _ = _
  simp [UnitId.order, compareLex, compareOn, UnitId.ofIndex, Std.ReflOrd.compare_self]

instance : Std.Asymm fun u w : UnitId => compare u w = .lt := ⟨fun _ _ => Std.OrientedCmp.not_lt_of_lt⟩

lemma UnitKind.eq_qubit_of_wire {κ : UnitKind} (h : κ.wire = .quantum) : κ = .qubit := by
  cases κ with
  | qubit => rfl
  | _ => cases h

namespace Circuit

open Wireloom.Graph Net SortedMap SlotStore List Option

variable {c c' : Circuit} {unit : Pin → UnitId} {u : UnitId} {ends : Ends} {v : Vertex} {a : Unit} {k : NodeKind}

/-! ## The same shape -/

/-- `k'` can stand where `k` stands. -/
structure Alike (k k' : NodeKind) : Prop where
  signature : k'.signature = k.signature
  starts : ∀ u, startsUnit u k = true → startsUnit u k' = true
  stops : ∀ u, endsUnit u k = true → endsUnit u k' = true
  boundary : k'.isBoundary = true → k.isBoundary = true

lemma Alike.refl (k : NodeKind) : Alike k k := ⟨rfl, fun _ => id, fun _ => id, id⟩

lemma alike_op {o o' : Op} (h : o'.signature = o.signature) : Alike (.op o) (.op o') :=
  ⟨h, fun _ h' => (by cases h'), fun _ h' => (by cases h'), fun h' => (by cases h')⟩

/-- **Another content of the same shape.** A circuit with the same links and the same boundary, and at every
    vertex something that can stand there, is wired alike. -/
theorem Wired.of_alike (h : c.Wired unit) (hvalid : c'.graph.Valid) (hedges : c'.graph.edges = c.graph.edges)
    (hboundary : c'.boundary = c.boundary) (hnone : ∀ v, c.graph.kind? v = none → c'.graph.kind? v = none)
    (hsome : ∀ v k, c.graph.kind? v = some k → ∃ k', c'.graph.kind? v = some k' ∧ Alike k k') : c'.Wired unit := by
  have hnet : c'.graph.net = c.graph.net := by
    unfold net
    congr 1
    · funext v
      cases hk : c.graph.kind? v with
      | none => rw [hnone v hk]
      | some k =>
        obtain ⟨k', hk', halike⟩ := hsome v k hk
        rw [hk', map_some, map_some, halike.signature]
    · funext l
      unfold HasLink
      rw [hedges]
  have hin : c'.IsInput = c.IsInput := by unfold IsInput; rw [hboundary]
  have hout : c'.IsOutput = c.IsOutput := by unfold IsOutput; rw [hboundary]
  refine { starts := ?_, stops := ?_, only_ops := ?_, valid := hvalid, simple := ?_, threaded := hnet ▸ h.threaded,
           complete := hnet ▸ hin ▸ hout ▸ h.complete, acyclic := hnet ▸ h.acyclic,
           unit_input := hboundary ▸ h.unit_input, unit_output := hboundary ▸ h.unit_output }
  · intro u ends hu
    obtain ⟨k, hk, hstart⟩ := h.starts (hboundary ▸ hu)
    obtain ⟨k', hk', halike⟩ := hsome _ _ hk
    exact ⟨k', hk', halike.starts _ hstart⟩
  · intro u ends hu
    obtain ⟨k, hk, hend⟩ := h.stops (hboundary ▸ hu)
    obtain ⟨k', hk', halike⟩ := hsome _ _ hk
    exact ⟨k', hk', halike.stops _ hend⟩
  · intro v k' hk' hb
    rw [hin, hout]
    cases hk : c.graph.kind? v with
    | none => rw [hnone v hk] at hk'; cases hk'
    | some k =>
      obtain ⟨_, hk'', halike⟩ := hsome v k hk
      rw [hk'] at hk''; cases hk''
      exact h.only_ops hk (halike.boundary hb)
  · intro e e' l he he'
    exact h.simple (hedges ▸ he) (hedges ▸ he')

lemma Wired.withKind (h : c.Wired unit) {k' : NodeKind} (hk : c.graph.kind? v = some k) (halike : Alike k k') :
    { c with graph := c.graph.withKind v k' }.Wired unit := by
  refine h.of_alike (h.valid.withKind v k') rfl rfl (fun w hw => ?_) fun w kw hw => ?_
  · have hne : w ≠ v := fun heq => by rw [heq, hk] at hw; cases hw
    exact (kind?_withKind_other hne).trans hw
  · by_cases heq : w = v
    · subst heq
      rw [hk] at hw; cases hw
      exact ⟨k', kind?_withKind_same (live_of_kind? hk), halike⟩
    · exact ⟨kw, (kind?_withKind_other heq).trans hw, Alike.refl kw⟩

lemma ends_eq_ok : c.ends u = .ok ends ↔ c.boundary.get? u = some ends := by
  unfold Circuit.ends
  cases c.boundary.get? u with
  | none => simp
  | some e => simp

lemma checkKind_eq_ok {k : UnitKind} : checkKind u k = .ok a ↔ u.kind = k := by
  unfold checkKind
  by_cases h : u.kind = k
  · simp [h]
  · simp [h]

/-! ## The two sides of a unit -/

/-- The two sides of a wire. -/
inductive Side where
  | first
  | last
  deriving DecidableEq

def Side.vertex : Side → Ends → Vertex
  | first => Ends.input
  | last => Ends.output

namespace Side

variable {s : Side}

/-- What stands at an end of a unit, if nothing special does. -/
def plain : Side → WireKind → NodeKind
  | first => .input
  | last => .output

/-- What stands at an end of a created or discarded qubit. -/
def marked : Side → NodeKind
  | first => .create
  | last => .discard

/-- What may stand at an end of a unit. -/
def fits : Side → UnitId → NodeKind → Bool
  | first => startsUnit
  | last => endsUnit

/-- Lets a qubit be created, or discarded. -/
def mark : Side → UnitId → Edit Unit
  | first => createQubit
  | last => discardQubit

lemma isBoundary_marked (s : Side) : s.marked.isBoundary := by cases s <;> rfl

lemma isBoundary_of_fits (h : s.fits u k) : k.isBoundary := by
  cases s with
  | first => exact (startsUnit_cases h).2.2.1
  | last => exact (endsUnit_cases h).2.2.1

lemma fits_cases (h : s.fits u k) : (k = s.marked ∧ u.kind = .qubit) ∨ k = s.plain u.kind.wire := by
  cases s <;> cases k <;> simp_all [fits, startsUnit, endsUnit, marked, plain, UnitId.isQubit]

lemma alike_marked (hq : u.kind = .qubit) (h : s.fits u k) : Alike k s.marked := by
  have hqubit : ∀ {u' : UnitId}, decide (WireKind.quantum = u'.kind.wire) → u'.isQubit := fun {u'} h' =>
    decide_eq_true (UnitKind.eq_qubit_of_wire (of_decide_eq_true h').symm)
  rcases fits_cases h with ⟨rfl, _⟩ | rfl
  · exact .refl _
  · rw [hq]
    cases s with
    | first => exact ⟨rfl, fun _ => hqubit, fun _ h' => (by cases h'), fun _ => rfl⟩
    | last => exact ⟨rfl, fun _ h' => (by cases h'), fun _ => hqubit, fun _ => rfl⟩

lemma mark_eq_ok (hrun : s.mark u c = .ok a c') : ∃ ends, u.kind = .qubit ∧
    c.boundary.get? u = some ends ∧ c' = { c with graph := c.graph.withKind (s.vertex ends) s.marked } := by
  have hsteps : (do
      ask fun _ => checkKind u .qubit
      let ends ← ask (·.ends u)
      onGraph (setKind (s.vertex ends) s.marked) : Edit Unit) c = .ok a c' := by
    cases s <;> exact hrun
  obtain ⟨_, hqubit, hrest⟩ := bind_ask_eq_ok.mp hsteps
  obtain ⟨ends, hends, hset⟩ := bind_ask_eq_ok.mp hrest
  obtain ⟨g, hg, rfl⟩ := onGraph_eq_ok.mp hset
  obtain ⟨_, rfl⟩ := setKind_eq_ok hg
  exact ⟨ends, checkKind_eq_ok.mp hqubit, ends_eq_ok.mp hends, rfl⟩

end Side

lemma Framed.exists_end (h : c.Framed) (s : Side) (hu : c.boundary.get? u = some ends) :
    ∃ k, c.graph.kind? (s.vertex ends) = some k ∧ s.fits u k := by
  cases s with
  | first => exact h.starts hu
  | last => exact h.stops hu

lemma Side.mark_keeps (s : Side) (u : UnitId) : Keeps WellFormed (s.mark u) := by
  intro c a c' h hrun
  obtain ⟨_, hqubit, hu, rfl⟩ := mark_eq_ok hrun
  obtain ⟨k, hk, hfits⟩ := h.exists_end s hu
  exact (h.wired.withKind hk (alike_marked hqubit hfits)).wellFormed

/-! ## Symbols -/

/-- What stands at a vertex after symbols are bound. -/
def boundKind (σ : Binding) : NodeKind → NodeKind
  | .op op => .op ((op.bind? σ).getD op)
  | k => k

lemma alike_boundKind (σ : Binding) (k : NodeKind) : Alike k (boundKind σ k) := by
  cases k with
  | op op =>
    refine alike_op ?_
    cases hop : op.bind? σ with
    | none => rfl
    | some op' => exact Op.signature_bind? hop
  | input _ => exact Alike.refl _
  | output _ => exact Alike.refl _
  | create => exact Alike.refl _
  | discard => exact Alike.refl _

lemma entries_bindSymbols (c : Circuit) (σ : Binding) : (c.bindSymbols σ).graph.vertices.entries =
    c.graph.vertices.entries.map fun p => (p.1, { p.2 with kind := boundKind σ p.2.kind }) := by
  refine map_congr_left fun p _ => ?_
  obtain ⟨w, kind, _, _⟩ := p
  cases kind with
  | op op => simp only [boundKind]; cases op.bind? σ <;> rfl
  | input _ => rfl
  | output _ => rfl
  | create => rfl
  | discard => rfl

lemma get?_bindSymbols (c : Circuit) (σ : Binding) (v : Vertex) : (c.bindSymbols σ).graph.vertices.get? v =
    (c.graph.vertices.get? v).map fun n => { n with kind := boundKind σ n.kind } := by
  unfold SlotStore.get?
  rw [entries_bindSymbols, find_map fun n : Node => { n with kind := boundKind σ n.kind }]

lemma kind?_bindSymbols (c : Circuit) (σ : Binding) (v : Vertex) :
    (c.bindSymbols σ).graph.kind? v = (c.graph.kind? v).map (boundKind σ) := by
  unfold kind?
  rw [get?_bindSymbols, Option.map_map, Option.map_map]
  rfl

lemma bindSymbols_wellFormed (h : c.WellFormed) (σ : Binding) : (c.bindSymbols σ).WellFormed := by
  have hvalid : (c.bindSymbols σ).graph.Valid := by
    refine ⟨h.valid.vertices.withEntries ?_, h.valid.edges, fun hl => ?_, fun hl => ?_⟩
    · rw [List.map_map]
      rfl
    · obtain ⟨k, hk⟩ := live_iff_kind?.mp (h.valid.source_live hl)
      exact live_iff_kind?.mpr ⟨_, by rw [kind?_bindSymbols, hk]; rfl⟩
    · obtain ⟨k, hk⟩ := live_iff_kind?.mp (h.valid.target_live hl)
      exact live_iff_kind?.mpr ⟨_, by rw [kind?_bindSymbols, hk]; rfl⟩
  refine (h.wired.of_alike hvalid rfl rfl (fun v hv => ?_) fun v k hk => ?_).wellFormed
  · rw [kind?_bindSymbols, hv]
    rfl
  · exact ⟨_, by rw [kind?_bindSymbols, hk]; rfl, alike_boundKind σ k⟩

/-! ## A new unit -/

/-- The ends that a new wire gets. -/
def newEnds (g : Graph) (u : UnitId) : Ends :=
  ⟨g.vertices.nextHandle, (g.withVertex (.input u.kind.wire) none).vertices.nextHandle⟩

def wiredGraph (g : Graph) (u : UnitId) : Graph :=
  (((g.withVertex (.input u.kind.wire) none).withVertex (.output u.kind.wire) none).withLink
    ⟨⟨(newEnds g u).input, 0⟩, ⟨(newEnds g u).output, 0⟩, u.kind.wire⟩)

lemma insertUnit_eq (c : Circuit) (u : UnitId) : c.insertUnit u =
    { c with graph := wiredGraph c.graph u,
             boundary := c.boundary.insert u (newEnds c.graph u) } := rfl

section NewWire

variable {g : Graph}

section

variable (hg : g.Valid)
include hg

lemma newEnds_ne (u : UnitId) : (newEnds g u).input ≠ (newEnds g u).output := by
  intro heq
  have hnew := not_live_nextHandle (hg.withVertex (.input u.kind.wire) none)
  rw [live_withVertex, not_or] at hnew
  exact hnew.1 heq.symm

lemma newEnds_input_new (u : UnitId) : g.kind? (newEnds g u).input = none :=
  kind?_nextHandle hg

lemma newEnds_output_new (u : UnitId) : g.kind? (newEnds g u).output = none := by
  have hnew := kind?_nextHandle (hg.withVertex (.input u.kind.wire) none)
  rw [kind?_withVertex] at hnew
  split at hnew
  · cases hnew
  · exact hnew

lemma kind?_wiredGraph (w : Vertex) : (wiredGraph g u).kind? w = if w = (newEnds g u).input then some (.input u.kind.wire)
    else if w = (newEnds g u).output then some (.output u.kind.wire)
    else g.kind? w := by
  unfold wiredGraph
  rw [kind?_withLink, kind?_withVertex, kind?_withVertex]
  show (if w = (newEnds g u).output then _ else if w = (newEnds g u).input then _ else _) = _
  by_cases hi : w = (newEnds g u).input
  · have ho := hi ▸ newEnds_ne hg _
    rw [if_neg ho, if_pos hi, if_pos hi]
  · by_cases ho : w = (newEnds g u).output
    · rw [if_pos ho, if_neg hi, if_pos ho]
    · rw [if_neg ho, if_neg hi, if_neg hi, if_neg ho]

lemma isUnion_wiredGraph (u : UnitId) : g.net.IsUnion (wire (newEnds g u).input (newEnds g u).output
      u.kind.wire) (wiredGraph g u).net where
  signature w := by
    show ((wiredGraph g u).kind? w).map _ = ((g.kind? w).map _).or (if _ ∨ _ then _ else _)
    rw [kind?_wiredGraph hg]
    by_cases hi : w = (newEnds g u).input
    · rw [if_pos hi, if_pos (.inl hi), hi, newEnds_input_new hg]
      rfl
    · rw [if_neg hi]
      by_cases ho : w = (newEnds g u).output
      · rw [if_pos ho, if_pos (.inr ho), ho, newEnds_output_new hg]
        rfl
      · rw [if_neg ho, if_neg (not_or.mpr ⟨hi, ho⟩), or_none]
  link l := by
    show (wiredGraph g u).HasLink l ↔ g.HasLink l ∨ l = _
    unfold wiredGraph
    rw [hasLink_withLink ((hg.withVertex _ _).withVertex _ _), hasLink_withVertex, hasLink_withVertex, or_comm]
  disjoint w := by
    show (g.kind? w).map _ = none ∨ (if _ ∨ _ then _ else _) = none
    by_cases hi : w = (newEnds g u).input
    · rw [hi, newEnds_input_new hg]
      exact .inl rfl
    · by_cases ho : w = (newEnds g u).output
      · rw [ho, newEnds_output_new hg]
        exact .inl rfl
      · exact .inr (if_neg (not_or.mpr ⟨hi, ho⟩))

lemma valid_wiredGraph (u : UnitId) : (wiredGraph g u).Valid := by
  refine ((hg.withVertex _ _).withVertex _ _).withLink ?_ ?_
  · exact live_withVertex.mpr (.inr (live_withVertex.mpr (.inl rfl)))
  · exact live_withVertex.mpr (.inl rfl)

lemma simple_wiredGraph (hs : g.Simple) (u : UnitId) : (wiredGraph g u).Simple := by
  refine Simple.withLink ((hg.withVertex _ _).withVertex _ _) (fun {_ _ _} => hs) fun hl => ?_
  have hlive := hg.source_live (hasLink_withVertex.mp (hasLink_withVertex.mp hl))
  exact not_live_nextHandle hg hlive

end

end NewWire

lemma exists_end_insertUnit (hu : c.boundary.get? u = none) (side : Ends → Vertex) :
    (∃ u' ends, (c.insertUnit u).boundary.get? u' = some ends ∧ side ends = v) ↔
      (∃ u' ends, c.boundary.get? u' = some ends ∧ side ends = v) ∨ v = side (newEnds c.graph u) := by
  rw [insertUnit_eq]
  simp only [get?_insert]
  constructor
  · rintro ⟨u', ends, hends, rfl⟩
    split at hends
    · cases hends; exact .inr rfl
    · exact .inl ⟨u', ends, hends, rfl⟩
  · rintro (⟨u', ends, hends, rfl⟩ | rfl)
    · refine ⟨u', ends, ?_, rfl⟩
      rw [if_neg (fun heq => by rw [heq, hu] at hends; cases hends)]
      exact hends
    · exact ⟨u, _, if_pos rfl, rfl⟩

lemma framed_insertUnit (h : c.Framed) (hvalid : c.graph.Valid) (hu : c.boundary.get? u = none) :
    (c.insertUnit u).Framed := by
  -- what was there is still there, since the new ends are new
  have hkeep : ∀ {w k}, c.graph.kind? w = some k → (wiredGraph c.graph u).kind? w = some k := by
    intro w k hk
    rw [kind?_wiredGraph hvalid, if_neg, if_neg, hk]
    · rintro rfl; rw [newEnds_output_new hvalid u] at hk; cases hk
    · rintro rfl; rw [newEnds_input_new hvalid u] at hk; cases hk
  refine ⟨fun {u' ends} hu' => ?_, fun {u' ends} hu' => ?_, fun {v k} hk hb => ?_⟩
  · rw [insertUnit_eq, get?_insert] at hu'
    split at hu'
    · next heq =>
      cases hu'; subst heq
      exact ⟨_, (kind?_wiredGraph hvalid _).trans (if_pos rfl), decide_eq_true rfl⟩
    · obtain ⟨k, hk, hstart⟩ := h.starts hu'
      exact ⟨k, hkeep hk, hstart⟩
  · rw [insertUnit_eq, get?_insert] at hu'
    split at hu'
    · next heq =>
      cases hu'; subst heq
      exact ⟨_, ((kind?_wiredGraph hvalid _).trans (if_neg (newEnds_ne hvalid _).symm)).trans (if_pos rfl), decide_eq_true rfl⟩
    · obtain ⟨k, hk, hend⟩ := h.stops hu'
      exact ⟨k, hkeep hk, hend⟩
  · refine (or_congr (exists_end_insertUnit hu Ends.input) (exists_end_insertUnit hu Ends.output)).mpr ?_
    replace hk : (wiredGraph c.graph u).kind? v = some k := hk
    rw [kind?_wiredGraph hvalid] at hk
    split at hk
    · next hv => exact .inl (.inr hv)
    · split at hk
      · next hv => exact .inr (.inr hv)
      · exact (h.only_ops hk hb).imp .inl .inl

lemma insertUnit_wellFormed (h : c.WellFormed) (hu : c.boundary.get? u = none) : (c.insertUnit u).WellFormed := by
  have hw := h.wired
  obtain ⟨rank, _, _, hrank⟩ := hw.exists_rank
  let ends := newEnds c.graph u
  have hne : ends.input ≠ ends.output := newEnds_ne hw.valid u
  have hlin : u.kind.wire.isLinear := WireKind.isLinear_wire _
  have hunion := isUnion_wiredGraph hw.valid u
  have hnew : ∀ {v}, (c.graph.net.signature? v).isSome → ¬ (v = ends.input ∨ v = ends.output) := by
    rintro v hv (rfl | rfl)
    · exact hunion.not_both hv (by rw [signature_wire_input]; rfl)
    · exact hunion.not_both hv (by rw [signature_wire_output]; rfl)
  -- the pins of the new ends are named after the new unit
  let name : Pin → UnitId := fun p =>
    if p.vertex = ends.input ∨ p.vertex = ends.output then u else WellFormed.unitAt c p
  have hthreaded : c.graph.net.Threaded name := hw.threaded.congr fun p hp => if_neg (hnew hp)
  have hwire : (wire ends.input ends.output u.kind.wire).Threaded name :=
    threaded_wire hlin ((if_pos (.inl rfl)).trans (if_pos (.inr rfl)).symm)
  -- and the two new ends are ranked by themselves
  let rank' : Vertex → ℕ := fun v => if v = ends.input ∨ v = ends.output then (if v = ends.input then 0 else 1) else rank v
  have hranked : c.graph.net.Ranked rank' := hrank.congr hw.threaded.toFitted fun v hv => if_neg (hnew hv)
  have hranked' : (wire ends.input ends.output u.kind.wire).Ranked rank' := by
    refine ranked_wire hlin ?_
    simp [rank', hne.symm]
  refine @Wired.wellFormed _ name
    { toFramed := framed_insertUnit h.toFramed hw.valid hu, valid := valid_wiredGraph hw.valid u,
      simple := simple_wiredGraph hw.valid hw.simple u, threaded := hunion.threaded hthreaded hwire,
      complete := ?_, acyclic := ?_, unit_input := fun {u' ends'} hu' => ?_, unit_output := fun {u' ends'} hu' => ?_ }
  · exact (hunion.complete hw.threaded.toFitted hwire.toFitted hw.complete (complete_wire hlin hne)).congr
      (fun v => exists_end_insertUnit hu Ends.input) fun v => exists_end_insertUnit hu Ends.output
  · exact acyclic_of_ranked (hunion.ranked hw.threaded.toFitted hwire.toFitted hranked hranked')
  · rw [insertUnit_eq, get?_insert] at hu'
    split at hu'
    · next heq => cases hu'; exact (if_pos (.inl rfl)).trans heq.symm
    · refine (if_neg (hnew ?_)).trans (hw.unit_input hu')
      rw [h.signature_input hu']; rfl
  · rw [insertUnit_eq, get?_insert] at hu'
    split at hu'
    · next heq => cases hu'; exact (if_pos (.inr rfl)).trans heq.symm
    · refine (if_neg (hnew ?_)).trans (hw.unit_output hu')
      rw [h.signature_output hu']; rfl

lemma mem_units_iff : u ∈ c.units ↔ ∃ ends, c.boundary.get? u = some ends := mem_keys_iff

lemma not_mem_units_iff : u ∉ c.units ↔ c.boundary.get? u = none := by
  rw [mem_units_iff, ← isSome_iff_exists, not_isSome_iff_eq_none]

lemma hasUnit_iff : c.hasUnit u ↔ u ∈ c.units := by
  rw [mem_units_iff, ← isSome_iff_exists]
  rfl

/-- A unit agrees with the units of its register. -/
def Admits (c : Circuit) (u : UnitId) : Prop :=
  ∀ w ∈ c.units, w.register = u.register → w.kind = u.kind ∧ w.index.length = u.index.length

lemma checkRegister_iff : c.checkRegister u = .ok a ↔ c.Admits u := by
  unfold checkRegister
  constructor
  · intro hcheck w hw hregister
    split at hcheck
    · cases hcheck
    · next hnone =>
      have hagree := find?_eq_none.mp hnone w hw
      simpa [hregister] using hagree
  · intro hagree
    have hnone : (c.units.find? fun w =>
        w.register = u.register && (w.kind ≠ u.kind || w.index.length ≠ u.index.length)) = none := by
      refine find?_eq_none.mpr fun w hw hclash => ?_
      simp only [Bool.and_eq_true, Bool.or_eq_true, decide_eq_true_eq] at hclash
      obtain ⟨hkind, hlength⟩ := hagree w hw hclash.1
      exact hclash.2.elim (· hkind) (· hlength)
    rw [hnone]

lemma addUnit_eq_ok (hrun : addUnit u c = .ok a c') : c.boundary.get? u = none ∧ c' = c.insertUnit u := by
  unfold addUnit at hrun
  rw [bind_get] at hrun
  by_cases hu : c.hasUnit u
  · rw [if_pos hu] at hrun
    cases hrun
  · rw [if_neg hu] at hrun
    obtain ⟨_, _, hrest⟩ := bind_ask_eq_ok.mp hrun
    cases hrest
    exact ⟨not_isSome_iff_eq_none.mp hu, rfl⟩

lemma addUnit_keeps (u : UnitId) : Keeps WellFormed (addUnit u) := by
  intro c a c' h hrun
  obtain ⟨hu, rfl⟩ := addUnit_eq_ok hrun
  exact insertUnit_wellFormed h hu

/-! ## Circuits of blank wires -/

lemma wellFormed_empty (hgraph : c.graph = {}) (hboundary : c.boundary = .empty) : c.WellFormed := by
  have hno : ∀ l, ¬ c.graph.HasLink l := by
    rintro l ⟨e, he⟩
    rw [hgraph] at he
    cases he
  have hnone : ∀ v, c.graph.kind? v = none := fun v => by rw [hgraph]; rfl
  have hunits : ∀ u, c.boundary.get? u = none := fun u => by rw [hboundary]; rfl
  have hwire : ∀ p, c.graph.net.wireAt p = none := fun p => by
    show ((c.graph.kind? p.vertex).map _).bind _ = none
    rw [hnone]
    rfl
  have hin : ∀ v, ¬ c.IsInput v := fun v ⟨u, ends, hu, _⟩ => by rw [hunits] at hu; cases hu
  have hout : ∀ v, ¬ c.IsOutput v := fun v ⟨u, ends, hu, _⟩ => by rw [hunits] at hu; cases hu
  refine @Wired.wellFormed _ (fun _ => .qubit 0)
    { starts := fun hu => ?_, stops := fun hu => ?_, only_ops := fun hk _ => ?_, valid := ?_,
      simple := fun {e e' l} he _ => absurd ⟨e, he⟩ (hno l), threaded := .of_unlinked hno, complete := ?_,
      acyclic := acyclic_of_ranked (.of_unlinked hno : c.graph.net.Ranked fun _ => 0), unit_input := fun hu => ?_, unit_output := fun hu => ?_ }
  · rw [hunits] at hu; cases hu
  · rw [hunits] at hu; cases hu
  · rw [hnone] at hk; cases hk
  · exact ⟨hgraph ▸ valid_empty, hgraph ▸ valid_empty, fun hl => absurd hl (hno _), fun hl => absurd hl (hno _)⟩
  · exact { fed_iff := fun hp => (by rw [hwire] at hp; cases hp),
            drained_iff := fun hp => (by rw [hwire] at hp; cases hp),
            source_open := fun hl => absurd hl (hno _), first_wire := fun hv => absurd hv (hin _),
            last_wire := fun hv => absurd hv (hout _) }
  · rw [hunits] at hu; cases hu
  · rw [hunits] at hu; cases hu

lemma foldl_insertUnit_wellFormed {us : List UnitId} (hus : us.Nodup) (h : c.WellFormed)
    (hnew : ∀ u ∈ us, c.boundary.get? u = none) : (us.foldl insertUnit c).WellFormed := by
  induction us generalizing c with
  | nil => exact h
  | cons u rest ih =>
    obtain ⟨hu, hrest⟩ := nodup_cons.mp hus
    refine ih hrest (insertUnit_wellFormed h (hnew u mem_cons_self)) fun u' hu' => ?_
    have hne : u' ≠ u := fun heq => hu (heq ▸ hu')
    rw [insertUnit_eq, get?_insert, if_neg hne]
    exact hnew u' (mem_cons_of_mem _ hu')

lemma pairwise_units (c : Circuit) : c.units.Pairwise fun u w => compare u w = .lt := pairwise_map.mpr c.boundary.ordered

lemma pairwise_ofIndex (κ : UnitKind) (n : Nat) : ((range n).map (UnitId.ofIndex κ)).Pairwise fun u w => compare u w = .lt :=
  pairwise_map.mpr (pairwise_lt_range.imp fun hlt => (UnitId.compare_ofIndex ..).trans (Nat.compare_eq_lt.mpr hlt))

lemma pairwise_defaultUnits (qubits bits : Nat) :
    ((range qubits).map UnitId.qubit ++ (range bits).map UnitId.bit).Pairwise fun u w => compare u w = .lt := by
  refine pairwise_append.mpr ⟨pairwise_ofIndex _ _, pairwise_ofIndex _ _, fun u hu w hw => ?_⟩
  obtain ⟨i, _, rfl⟩ := mem_map.mp hu
  obtain ⟨j, _, rfl⟩ := mem_map.mp hw
  rfl

lemma ofUnits_wellFormed (qubits bits : Nat) : (ofUnits qubits bits).WellFormed := by
  refine foldl_insertUnit_wellFormed ?_ (wellFormed_empty rfl rfl) fun _ _ => rfl
  refine (pairwise_defaultUnits qubits bits).imp fun {u w} hlt heq => ?_
  rw [heq, Std.ReflOrd.compare_self] at hlt
  cases hlt

/-- An edit that keeps well-formed circuits, as can be seen from its steps. -/
class WellFormedEdit {α : Type} (edit : Edit α) : Prop where
  keeps : Keeps WellFormed edit

section

variable {α β : Type} {edit : Edit α}

instance (u : UnitId) : WellFormedEdit (addUnit u) := ⟨addUnit_keeps u⟩

instance (u : UnitId) : WellFormedEdit (createQubit u) := ⟨Side.first.mark_keeps u⟩

instance (u : UnitId) : WellFormedEdit (discardQubit u) := ⟨Side.last.mark_keeps u⟩

instance [h : WellFormedEdit edit] : WellFormedEdit (discard edit) := ⟨h.keeps.discard⟩

instance {f : α → Edit β} [h : WellFormedEdit edit] [hf : ∀ a, WellFormedEdit (f a)] : WellFormedEdit (edit >>= f) :=
  ⟨h.keeps.bind fun a => (hf a).keeps⟩

lemma wellFormed_edited {qubits bits : ℕ} [h : WellFormedEdit edit]
    (hrun : (ofUnits qubits bits).edited edit = .ok c) : c.WellFormed :=
  h.keeps.edited (ofUnits_wellFormed qubits bits) hrun

end

end Circuit

/-! # `Circuit.addOp` -/

/-- The net of a graph with only the pins of `s` at `v`. -/
def Graph.netUpTo (g : Graph) (v : Vertex) (s : Signature) : Net :=
  ⟨fun w => if w = v then some s else g.net.signature? w, g.HasLink⟩

lemma Graph.netUpTo_signature {g : Graph} {v : Vertex} {k : NodeKind} (hk : g.kind? v = some k) :
    g.netUpTo v k.signature = g.net := by
  unfold netUpTo
  congr 1
  funext w
  by_cases hw : w = v
  · rw [if_pos hw, hw]
    rw [hk]
    rfl
  · rw [if_neg hw]
    rfl

namespace Circuit

open Wireloom.Graph List Net SortedMap WireKind

variable {c c' : Circuit} {unit : Pin → UnitId} {u : UnitId} {ends : Ends} {v w : Vertex} {k : WireKind} {op : Op}
  {pins : List (UnitId × WireKind)}
  {a : Unit} {args : List UnitId} {done : List (UnitId × WireKind)} {og : Option String} {rank : Vertex → ℕ ×ₗ ℕ}
  {o : Op}

/-! ## Arguments -/

lemma checkEach_eq_ok {taken : List UnitId} (h : checkEach c pins taken = .ok a) :
    (∀ p ∈ pins, c.hasUnit p.1 ∧ p.1.kind = p.2.unitKind) ∧ (∀ p ∈ pins, p.2.isLinear → p.1 ∉ taken) ∧
      pins.Pairwise fun p q => p.2.isLinear → q.2.isLinear → p.1 ≠ q.1 := by
  induction pins generalizing taken with
  | nil => simp
  | cons p rest ih =>
    obtain ⟨u, k⟩ := p
    rw [checkEach] at h
    split at h
    · cases h
    · next hunit =>
      split at h
      · cases h
      · next hkind =>
        have hfit : c.hasUnit u ∧ u.kind = k.unitKind := ⟨by simpa using hunit, by simpa using hkind⟩
        split at h
        · next hlin =>
          split at h
          · cases h
          · next htaken =>
            obtain ⟨hall, hfree, hpair⟩ := ih h
            refine ⟨forall_mem_cons.mpr ⟨hfit, hall⟩, forall_mem_cons.mpr ⟨fun _ => ?_, ?_⟩, pairwise_cons.mpr ⟨?_, hpair⟩⟩
            · simpa using htaken
            · intro q hq hqlin hmem
              exact hfree q hq hqlin (mem_cons_of_mem _ hmem)
            · rintro q hq _ hqlin rfl
              exact hfree q hq hqlin mem_cons_self
        · next hlin =>
          obtain ⟨hall, hfree, hpair⟩ := ih h
          refine ⟨forall_mem_cons.mpr ⟨hfit, hall⟩, forall_mem_cons.mpr ⟨?_, hfree⟩, pairwise_cons.mpr ⟨?_, hpair⟩⟩
          · exact fun h' => absurd h' hlin
          · exact fun q _ h' => absurd h' hlin

lemma writtenAndRead_eq_nil (h : writtenAndRead pins = []) {p q : UnitId × WireKind} (hp : p ∈ pins) (hq : q ∈ pins)
    (hplin : p.2.isLinear) (hqlin : ¬ q.2.isLinear) : p.1 ≠ q.1 := by
  intro heq
  have hmem : p.1 ∈ writtenAndRead pins := by
    refine mem_sortedBy.mpr (mem_filter.mpr ⟨?_, ?_⟩)
    · exact mem_map.mpr ⟨p, mem_filter.mpr ⟨hp, hplin⟩, rfl⟩
    · rw [contains_iff_mem, heq]
      exact mem_map.mpr ⟨q, mem_filter.mpr ⟨hq, by simpa using hqlin⟩, rfl⟩
  rw [h] at hmem
  cases hmem

/-- The units of two pins have to differ if one of the pins is linear. -/
def Apart (p q : UnitId × WireKind) : Prop := p.2.isLinear = true ∨ q.2.isLinear = true → p.1 ≠ q.1

lemma checkArgs_eq_ok (h : c.checkArgs op args = .ok a) : args.length = op.signature.length ∧
      (∀ p ∈ args.zip op.signature, c.hasUnit p.1 ∧ p.1.kind = p.2.unitKind) ∧
      (args.zip op.signature).Pairwise Apart := by
  unfold checkArgs at h
  simp only at h
  split at h
  · cases h
  · next hlen =>
    have hlen : op.signature.length = args.length := by simpa using hlen
    obtain ⟨_, heach, hrest⟩ := bind_ok_iff.mp h
    obtain ⟨hall, _, hpair⟩ := checkEach_eq_ok heach
    cases hboth : writtenAndRead (args.zip op.signature) with
    | cons u rest => rw [hboth] at hrest; cases hrest
    | nil =>
      refine ⟨hlen.symm, hall, ?_⟩
      refine hpair.imp_of_mem fun {p q} hp hq hpq hor => ?_
      by_cases hplin : p.2.isLinear <;> by_cases hqlin : q.2.isLinear
      · exact hpq hplin hqlin
      · exact writtenAndRead_eq_nil hboth hp hq hplin hqlin
      · exact (writtenAndRead_eq_nil hboth hq hp hqlin hplin).symm
      · exact absurd hor (not_or.mpr ⟨hplin, hqlin⟩)

/-! ## An operation half in place -/

/-- **The wires while an operation is put in.** The pins of `v` that are wired so far are those of `done`, each
    with its unit; the rank puts `v` after all vertices but the outputs. -/
structure Placing (c : Circuit) (unit : Pin → UnitId) (rank : Vertex → ℕ ×ₗ ℕ) (v : Vertex)
    (done : List (UnitId × WireKind)) : Prop extends c.Framed where
  valid : c.graph.Valid
  simple : c.graph.Simple
  live : c.graph.Live v
  not_input : ¬ c.IsInput v
  not_output : ¬ c.IsOutput v
  threaded : (c.graph.netUpTo v (done.map Prod.snd)).Threaded unit
  complete : (c.graph.netUpTo v (done.map Prod.snd)).Complete c.IsInput c.IsOutput
  ranked : (c.graph.netUpTo v (done.map Prod.snd)).Ranked rank
  unit_input : ∀ {u ends}, c.boundary.get? u = some ends → unit ⟨ends.input, 0⟩ = u
  unit_output : ∀ {u ends}, c.boundary.get? u = some ends → unit ⟨ends.output, 0⟩ = u
  named : ∀ {i p}, done[i]? = some p → unit ⟨v, i⟩ = p.1
  reads : ∀ {a}, c.graph.HasLink a → a.kind = .boolean → a.target.vertex = v →
    ∃ p, done[a.target.index]? = some p ∧ p.1 = unit a.source
  rank_others : ∀ {w}, w ≠ v → ¬ c.IsOutput w → rank w < rank v
  rank_outputs : ∀ {w}, c.IsOutput w → rank v < rank w

/-- **What wiring the pins of `v` does to the links**: a pin takes the link that led to the end of its unit, and a linear
    one leads to that end itself. Links that lead neither to `v` nor to the end of a unit stay, and so do those to the ends
    of units that `v` does not write. -/
structure Spares (c : Circuit) (v : Vertex) (done : List (UnitId × WireKind)) (g : Graph) : Prop where
  vertices : g.vertices = c.graph.vertices
  links : ∀ {m}, m.target.vertex ≠ v → ¬ c.IsOutput m.target.vertex → (g.HasLink m ↔ c.graph.HasLink m)
  enters : ∀ {i u k ends l}, done[i]? = some (u, k) → c.boundary.get? u = some ends → c.graph.HasLink l →
    l.target = ⟨ends.output, 0⟩ → g.HasLink ⟨l.source, ⟨v, i⟩, k⟩
  leaves : ∀ {i u k ends}, done[i]? = some (u, k) → k.isLinear = true → c.boundary.get? u = some ends →
    g.HasLink ⟨⟨v, i⟩, ⟨ends.output, 0⟩, k⟩
  passes : ∀ {u ends l}, (∀ p ∈ done, p.2.isLinear = true → p.1 ≠ u) → c.boundary.get? u = some ends →
    c.graph.HasLink l → l.target = ⟨ends.output, 0⟩ → g.HasLink l

lemma Spares.refl (c : Circuit) (v : Vertex) : c.Spares v [] c.graph where
  vertices := rfl
  links _ _ := .rfl
  enters hi := nomatch hi
  leaves hi := nomatch hi
  passes _ _ hl _ := hl

/-- **What wiring one more pin does to the links**, where `l` leads to the end of its unit. -/
structure Pinned (c : Circuit) (p : Pin) (ends : Ends) (k : WireKind) (l : Link) (g : Graph) : Prop where
  vertices : g.vertices = c.graph.vertices
  target : l.target = ⟨ends.output, 0⟩
  link : ∀ m, g.HasLink m ↔ (c.graph.HasLink m ∧ (k.isLinear = true → m ≠ l)) ∨ m = ⟨l.source, p, k⟩ ∨
    (k.isLinear = true ∧ m = ⟨p, ⟨ends.output, 0⟩, k⟩)

lemma getElem?_concat_cases {α : Type} {l : List α} {x y : α} {i : Nat} (h : (l ++ [x])[i]? = some y) :
    l[i]? = some y ∨ (i = l.length ∧ x = y) := by
  rw [getElem?_append] at h
  split at h
  · exact .inl h
  · next _ =>
    rw [getElem?_singleton] at h
    split at h
    · exact .inr ⟨by omega, Option.some.inj h⟩
    · cases h

lemma Spares.concat {g g' : Graph} {l : Link} (h : c.Spares v done g)
    (hpin : { c with graph := g }.Pinned ⟨v, done.length⟩ ends k l g') (hu : c.boundary.get? u = some ends)
    (hl : l.Avoids v) (hlast : ∀ m, g.HasLink m → m.target = ⟨ends.output, 0⟩ → m = l)
    (hends : ∀ {u' ends'}, c.boundary.get? u' = some ends' → ends'.output = ends.output → u' = u)
    (hapart : ∀ p ∈ done, Apart p (u, k)) : c.Spares v (done ++ [(u, k)]) g' where
  vertices := hpin.vertices.trans h.vertices
  links {m} hv hout := by
    rw [hpin.link]
    constructor
    · rintro (⟨hm, _⟩ | rfl | ⟨_, rfl⟩)
      · exact (h.links hv hout).mp hm
      · exact absurd rfl hv
      · exact absurd ⟨u, ends, hu, rfl⟩ hout
    · intro hm
      refine .inl ⟨(h.links hv hout).mpr hm, fun _ heq => hout ⟨u, ends, hu, ?_⟩⟩
      rw [heq, hpin.target]
  enters {i u' k' ends' m} hi hu' hm ht := by
    rw [hpin.link]
    rcases getElem?_concat_cases hi with hi | ⟨rfl, heq⟩
    · exact .inl ⟨h.enters hi hu' hm ht, fun _ heq => hl.2 (by rw [← heq])⟩
    · cases heq
      cases Option.mem_unique hu hu'
      rw [hlast m (h.passes (fun p hp hlin => hapart p hp (.inl hlin)) hu hm ht) ht]
      exact .inr (.inl rfl)
  leaves {i u' k' ends'} hi hlin hu' := by
    rw [hpin.link]
    rcases getElem?_concat_cases hi with hi | ⟨rfl, heq⟩
    · exact .inl ⟨h.leaves hi hlin hu', fun _ heq => hl.1 (by rw [← heq])⟩
    · cases heq
      cases Option.mem_unique hu hu'
      exact .inr (.inr ⟨hlin, rfl⟩)
  passes {u' ends' m} hnot hu' hm ht := by
    rw [hpin.link]
    refine .inl ⟨h.passes (fun p hp => hnot p (mem_append_left _ hp)) hu' hm ht, fun hlin heq => ?_⟩
    have houtput : ends'.output = ends.output := by
      rw [heq, hpin.target] at ht
      exact (congrArg Pin.vertex ht).symm
    exact hnot (u, k) (by simp) hlin (hends hu' houtput).symm

namespace Placing

variable {rank : Vertex → ℕ ×ₗ ℕ} {done : List (UnitId × WireKind)} {l : Link}

section

variable (h : c.Placing unit rank v done)
include h

lemma writes {p : Pin} (hp : p.vertex = v) (hwire : (c.graph.netUpTo v (done.map Prod.snd)).wireAt p = some k) :
    ∃ q ∈ done, q.1 = unit p ∧ q.2 = k := by
  cases hp
  rw [wireAt_of_signature? (if_pos rfl)] at hwire
  rw [getElem?_map] at hwire
  obtain ⟨q, hq, hk⟩ := Option.map_eq_some_iff.mp hwire
  exact ⟨q, mem_of_getElem? hq, (h.named hq).symm, hk⟩

lemma exists_lastLink (hu : c.boundary.get? u = some ends) :
    ∃ e l, c.graph.linkIn ⟨ends.output, 0⟩ = .ok (e, l) ∧ c.graph.edges.get? e = some l ∧
      l.target = ⟨ends.output, 0⟩ ∧ l.kind = u.kind.wire := by
  have hout : c.IsOutput ends.output := ⟨u, ends, hu, rfl⟩
  have hne : ends.output ≠ v := fun heq => h.not_output (heq ▸ hout)
  have hsig : (c.graph.netUpTo v (done.map Prod.snd)).signature? ends.output = some [u.kind.wire] :=
    (if_neg hne).trans (h.signature_output hu)
  have hwire := wireAt_of_single hsig
  obtain ⟨l, hl, htarget⟩ := (h.complete.fed_iff hwire).mpr fun hin => h.not_isOutput hin hout
  obtain ⟨e, hlink, he⟩ := linkIn_of_unique h.valid hl h.threaded.in_unique
  rw [htarget] at hlink
  have hkind := h.threaded.target_wire hl
  rw [htarget, hwire] at hkind
  exact ⟨e, l, hlink, he, htarget, (Option.some.inj hkind).symm⟩

lemma placeable (hu : c.boundary.get? u = some ends) (hl : c.graph.HasLink l) (htarget : l.target = ⟨ends.output, 0⟩)
    (hkind : l.kind = u.kind.wire) (hapart : ∀ p ∈ done, Apart p (u, k)) :
    (c.graph.netUpTo v (done.map Prod.snd)).Placeable c.IsInput c.IsOutput v l := by
  have hlin : l.kind.isLinear := by rw [hkind]; exact isLinear_wire _
  refine ⟨hl, hlin, ⟨u, ends, hu, by rw [htarget]⟩, fun hsv => ?_, h.not_input, h.not_output⟩
  -- a wire that comes from the new vertex belongs to an argument that is already placed
  have hwire := h.threaded.source_wire hl
  rw [carrier_eq hlin] at hwire
  obtain ⟨q, hq, hqu, hqk⟩ := h.writes hsv hwire
  refine hapart q hq (.inl (by rw [hqk]; exact hlin)) ?_
  rw [hqu, h.threaded.same_unit hl hlin, htarget, h.unit_output hu]

lemma of_links {g : Graph} {done' : List (UnitId × WireKind)} (hvert : g.vertices = c.graph.vertices)
    (hvalid : g.Valid) (hsimple : g.Simple) (hthreaded : (g.netUpTo v (done'.map Prod.snd)).Threaded unit)
    (hcomplete : (g.netUpTo v (done'.map Prod.snd)).Complete c.IsInput c.IsOutput)
    (hranked : (g.netUpTo v (done'.map Prod.snd)).Ranked rank)
    (hnamed : ∀ {i p}, done'[i]? = some p → unit ⟨v, i⟩ = p.1)
    (hreads : ∀ {a}, g.HasLink a → a.kind = .boolean → a.target.vertex = v → ∃ p, done'[a.target.index]? = some p ∧ p.1 = unit a.source)
    :
    { c with graph := g }.Placing unit rank v done' := by
  have hkind : ∀ w, g.kind? w = c.graph.kind? w := fun w => by unfold kind?; rw [hvert]
  exact
    { toFramed := h.withGraph (fun _ => (hkind _).trans) fun hk _ => (hkind _).symm.trans hk
      valid := hvalid, simple := hsimple
      live := (live_congr hvert).mpr h.live
      not_input := h.not_input, not_output := h.not_output, threaded := hthreaded, complete := hcomplete
      ranked := hranked, unit_input := h.unit_input, unit_output := h.unit_output, named := hnamed
      reads := hreads, rank_others := h.rank_others, rank_outputs := h.rank_outputs }

end

lemma hasPin (g g' : Graph) (hvert : g'.vertices = g.vertices) (v : Vertex) (done : List (UnitId × WireKind))
    (u : UnitId) (k : WireKind) :
    (g.netUpTo v (done.map Prod.snd)).HasPin v (done.map Prod.snd) k (g'.netUpTo v ((done ++ [(u, k)]).map Prod.snd)) where
  before := if_pos rfl
  after w := by
    by_cases hw : w = v
    · rw [if_pos hw, map_append]
      exact if_pos hw
    · rw [if_neg hw]
      show (if w = v then _ else g'.net.signature? w) = if w = v then _ else g.net.signature? w
      rw [if_neg hw, if_neg hw]
      show (g'.kind? w).map _ = (g.kind? w).map _
      unfold kind?
      rw [hvert]

lemma named_append (h : c.Placing unit rank v done) (hname : unit ⟨v, done.length⟩ = u)
    {i : ℕ} {p : UnitId × WireKind} (hp : (done ++ [(u, k)])[i]? = some p) : unit ⟨v, i⟩ = p.1 := by
  rcases getElem?_concat_cases hp with hp | ⟨rfl, rfl⟩
  · exact h.named hp
  · exact hname

lemma reads_append (h : c.Placing unit rank v done) {a : Link} (ha : c.graph.HasLink a) (hak : a.kind = .boolean)
    (hav : a.target.vertex = v) : ∃ p, (done ++ [(u, k)])[a.target.index]? = some p ∧ p.1 = unit a.source := by
  obtain ⟨q, hq, hqu⟩ := h.reads ha hak hav
  refine ⟨q, ?_, hqu⟩
  rw [getElem?_append_left (List.getElem?_eq_some_iff.mp hq).1, hq]

end Placing

lemma unitKind_wire_of_isLinear (hk : k.isLinear) : k.unitKind.wire = k := by
  cases k <;> simp_all [unitKind, UnitKind.wire, isLinear]

section OnePin

variable {rank : Vertex → ℕ ×ₗ ℕ} {done : List (UnitId × WireKind)} {e : Edge} {l : Link}
  (h : c.Placing unit rank v done) (hu : c.boundary.get? u = some ends) (he : c.graph.edges.get? e = some l)
  (htarget : l.target = ⟨ends.output, 0⟩) (hlkind : l.kind = u.kind.wire)
  (hname : unit ⟨v, done.length⟩ = u) (hapart : ∀ p ∈ done, Apart p (u, k))

lemma newPin_eq (v : Vertex) (done : List (UnitId × WireKind)) : newPin v (done.map Prod.snd) = ⟨v, done.length⟩ := by
  rw [newPin, length_map]

include h in
lemma Placing.link_ne_new {m : Link} (hm : c.graph.HasLink m) :
    m.source ≠ ⟨v, done.length⟩ ∧ m.target ≠ ⟨v, done.length⟩ := by
  rw [← newPin_eq]
  exact (hasPin c.graph c.graph rfl v done (.qubit 0) .boolean).link_ne_new h.threaded.toFitted hm

include hu htarget in
lemma Placing.unit_lastLink (h : c.Placing unit rank v done) (hl : c.graph.HasLink l)
    (hlin : l.kind.isLinear) : unit l.source = u := by
  rw [h.threaded.same_unit hl hlin, htarget, h.unit_output hu]

include h hu he htarget hlkind hname hapart

lemma Placing.write_run (hlin : k.isLinear) (hkind : u.kind = k.unitKind) : ∃ g, (do
        let _ ← onGraph (removeEdge e)
        let _ ← onGraph (addLink ⟨l.source, ⟨v, done.length⟩, k⟩)
        let _ ← onGraph (addLink ⟨⟨v, done.length⟩, ⟨ends.output, 0⟩, k⟩)
        pure PUnit.unit : Edit PUnit) c = .ok ⟨⟩ { c with graph := g } ∧
      { c with graph := g }.Placing unit rank v (done ++ [(u, k)]) ∧ c.Pinned ⟨v, done.length⟩ ends k l g := by
  have hl : c.graph.HasLink l := ⟨e, he⟩
  have hpl := h.placeable hu hl htarget hlkind hapart
  have hunit := h.unit_lastLink hu htarget hl hpl.linear
  have hk : k = l.kind := by rw [hlkind, hkind, unitKind_wire_of_isLinear hlin]
  have hrest := fun m => hasLink_withoutEdge (m := m) h.simple he
  obtain ⟨_, hadd2, hg2⟩ := addLink_grows (l := ⟨l.source, ⟨v, done.length⟩, k⟩)
    (h.valid.withoutEdge he) (Simple.withoutEdge (fun {_ _ _} => h.simple))
    (fun hm => (h.link_ne_new ((hrest _).mp hm).1).2 rfl) (h.valid.source_live (l := l) hl) h.live
  obtain ⟨g3, hadd3, hg3⟩ := addLink_grows (l := ⟨⟨v, done.length⟩, ⟨ends.output, 0⟩, k⟩) hg2.valid hg2.simple (by
      rw [hg2.links]
      rintro (hm | hm)
      · exact (h.link_ne_new ((hrest _).mp hm).1).1 rfl
      · exact hpl.source_ne (congrArg (fun m => m.source.vertex) hm).symm)
    (hg2.live.mpr h.live) (hg2.live.mpr (by rw [← htarget]; exact h.valid.target_live (l := l) hl))
  have hvert := hg3.vertices.trans hg2.vertices
  have hlinks : ∀ m, g3.HasLink m ↔ (c.graph.HasLink m ∧ m ≠ l) ∨ m = ⟨l.source, ⟨v, done.length⟩, k⟩ ∨
      m = ⟨⟨v, done.length⟩, ⟨ends.output, 0⟩, k⟩ := by
    intro m
    rw [hg3.links, hg2.links, hrest, or_assoc]
  have hwrite : (c.graph.netUpTo v (done.map Prod.snd)).IsWrite v (done.map Prod.snd) l
      (g3.netUpTo v ((done ++ [(u, k)]).map Prod.snd)) := by
    refine ⟨hk ▸ hasPin c.graph g3 hvert v done u k, fun m => ?_⟩
    rw [newPin_eq, htarget, ← hk]
    exact hlinks m
  have hreads : ∀ a, c.graph.HasLink a → a.kind = .boolean → a.target.vertex = v → unit a.source ≠ unit l.source := by
    intro a ha hak hav heq
    obtain ⟨q, hq, hqu⟩ := h.reads ha hak hav
    exact hapart q (mem_of_getElem? hq) (.inr hlin) (by rw [hqu, heq, hunit])
  refine ⟨g3, ?_, h.of_links hvert hg3.valid hg3.simple ?_ ?_ ?_ (h.named_append hname) fun {a} ha hak hav => ?_,
    hvert, htarget, fun m => ?_⟩
  · rw [bind_ok (onGraph_of_ok (removeEdge_of_get? he)), bind_ok (onGraph_of_ok hadd2), bind_ok (onGraph_of_ok hadd3)]
    rfl
  · exact hwrite.threaded h.threaded h.complete hpl (by rw [newPin_eq, hname, hunit]) hreads
  · exact hwrite.complete h.complete hpl
  · refine hwrite.ranked h.threaded hpl h.ranked (h.rank_others hpl.source_ne (h.complete.source_open hl))
      (h.rank_outputs hpl.last_target) fun a ha hak has => ?_
    -- a reader of the unit is another vertex, and not the end of a wire
    refine h.rank_others (fun hav => hreads a ha hak hav (by rw [has])) fun hout => ?_
    exact absurd hak (ne_boolean (h.complete.not_boolean_of_last h.threaded.toFitted ha hout))
  · have ha' : c.graph.HasLink a := by
      rcases (hlinks a).mp ha with ha | rfl | rfl
      · exact ha.1
      · exact absurd hak (ne_boolean hlin)
      · exact absurd hak (ne_boolean hlin)
    exact h.reads_append ha' hak hav
  · rw [hlinks]
    simp only [hlin, forall_const, true_and]

lemma Placing.read_run (hk : k = .boolean) (hkind : u.kind = k.unitKind) : ∃ g, (do
        let _ ← onGraph (addLink ⟨l.source, ⟨v, done.length⟩, .boolean⟩)
        pure PUnit.unit : Edit PUnit) c = .ok ⟨⟩ { c with graph := g } ∧
      { c with graph := g }.Placing unit rank v (done ++ [(u, k)]) ∧ c.Pinned ⟨v, done.length⟩ ends k l g := by
  subst hk
  have hl : c.graph.HasLink l := ⟨e, he⟩
  have hpl := h.placeable hu hl htarget hlkind hapart
  have hunit := h.unit_lastLink hu htarget hl hpl.linear
  have hclassical : l.kind = .classical := by rw [hlkind, hkind]; rfl
  obtain ⟨g2, hadd2, hg2⟩ := addLink_grows (l := ⟨l.source, ⟨v, done.length⟩, .boolean⟩) h.valid
    (fun {_ _ _} => h.simple) (fun hm => (h.link_ne_new hm).2 rfl) (h.valid.source_live (l := l) hl) h.live
  have hread : (c.graph.netUpTo v (done.map Prod.snd)).IsRead v (done.map Prod.snd) l
      (g2.netUpTo v ((done ++ [(u, boolean)]).map Prod.snd)) := by
    refine ⟨hasPin c.graph g2 hg2.vertices v done u .boolean, fun m => ?_⟩
    rw [newPin_eq]
    exact hg2.links m
  refine ⟨g2, ?_, h.of_links hg2.vertices hg2.valid hg2.simple ?_ ?_ ?_ (h.named_append hname) fun {a} ha hak hav => ?_,
    hg2.vertices, htarget, fun m => ?_⟩
  · rw [bind_ok (onGraph_of_ok hadd2)]
    rfl
  · refine hread.threaded h.threaded hpl hclassical fun b hb hbl hbv heq => ?_
    obtain ⟨q, hq, hqu, hqk⟩ := h.writes hbv (h.threaded.target_wire hb)
    exact hapart q hq (.inl (by rw [hqk]; exact hbl)) (by rw [hqu, ← heq, hunit])
  · exact hread.complete h.complete hpl
  · exact hread.ranked h.threaded hpl h.ranked (h.rank_others hpl.source_ne (h.complete.source_open hl))
      (h.rank_outputs hpl.last_target)
  · rcases (hg2.links a).mp ha with ha | rfl
    · exact h.reads_append ha hak hav
    · exact ⟨(u, .boolean), by simp, hunit.symm⟩
  · rw [hg2.links]
    simp [isLinear]

omit he htarget hlkind in
lemma wirePin_run (hkind : u.kind = k.unitKind) : ∃ g l, wirePin ⟨v, done.length⟩ u k c = .ok ⟨⟩ { c with graph := g } ∧
      { c with graph := g }.Placing unit rank v (done ++ [(u, k)]) ∧ c.graph.HasLink l ∧ l.kind = u.kind.wire ∧
      c.Pinned ⟨v, done.length⟩ ends k l g := by
  obtain ⟨e, l, hlink, he, htarget, hlkind⟩ := h.exists_lastLink hu
  unfold wirePin
  rw [bind_ok (ask_of_ok (ends_eq_ok.mpr hu)), bind_ok (ask_of_ok hlink)]
  by_cases hlin : k.isLinear
  · obtain ⟨g, hrun, hplacing, hpinned⟩ := h.write_run hu he htarget hlkind hname hapart hlin hkind
    exact ⟨g, l, (congrFun (if_pos hlin) c).trans hrun, hplacing, ⟨e, he⟩, hlkind, hpinned⟩
  · obtain ⟨g, hrun, hplacing, hpinned⟩ :=
      h.read_run hu he htarget hlkind hname hapart (eq_boolean hlin) hkind
    exact ⟨g, l, (congrFun (if_neg hlin) c).trans hrun, hplacing, ⟨e, he⟩, hlkind, hpinned⟩

end OnePin

/-! ## The whole operation -/

lemma Wired.of_graph (h : c.Wired unit) (hgraph : c'.graph = c.graph) (hboundary : c'.boundary = c.boundary) :
    c'.Wired unit := by
  refine h.of_alike ?_ ?_ hboundary (fun v hv => ?_) fun v k hk => ⟨k, ?_, Alike.refl k⟩
  · rw [hgraph]; exact h.valid
  · rw [hgraph]
  · rw [hgraph]; exact hv
  · rw [hgraph]; exact hk

lemma WellFormed.of_graph (h : c.WellFormed) (hgraph : c'.graph = c.graph) (hboundary : c'.boundary = c.boundary) :
    c'.WellFormed := (h.wired.of_graph hgraph hboundary).wellFormed

lemma isUnion_withVertex {g : Graph} (hg : g.Valid) (kind : NodeKind) (og : Option String) :
    g.net.IsUnion (bare g.vertices.nextHandle) ((g.withVertex kind og).netUpTo g.vertices.nextHandle []) where
  signature w := by
    show (if w = g.vertices.nextHandle then _ else ((g.withVertex kind og).kind? w).map _) =
      ((g.kind? w).map _).or (if w = g.vertices.nextHandle then _ else _)
    by_cases hw : w = g.vertices.nextHandle
    · rw [if_pos hw, if_pos hw, hw, kind?_nextHandle hg]
      rfl
    · rw [if_neg hw, if_neg hw, kind?_withVertex, if_neg hw, Option.or_none]
  link l := by
    show (g.withVertex kind og).HasLink l ↔ g.HasLink l ∨ False
    rw [hasLink_withVertex, or_false]
  disjoint w := by
    show (g.kind? w).map _ = none ∨ _
    by_cases hw : w = g.vertices.nextHandle
    · rw [hw, kind?_nextHandle hg]
      exact .inl rfl
    · exact .inr (if_neg hw)

lemma Wired.not_isOutput_of_before (h : c.Wired unit) (hvw : c.graph.net.Before v w) : ¬ c.IsOutput v := by
  cases hvw with
  | link hl => exact h.complete.source_open hl
  | hazard ha _ hak _ _ =>
    intro hout
    have hlin := h.complete.not_boolean_of_last h.threaded.toFitted ha hout
    exact absurd hak (ne_boolean hlin)

lemma Wired.exists_rank_last (h : c.Wired unit) (hv : ¬ c.graph.Live v) : ∃ rank : Vertex → ℕ ×ₗ ℕ, c.graph.net.Ranked rank ∧
      (∀ {w}, w ≠ v → ¬ c.IsOutput w → rank w < rank v) ∧ ∀ {w}, c.IsOutput w → rank v < rank w := by
  classical
  obtain ⟨rank, _, _, hrank⟩ := h.exists_rank
  have hlive : ∀ {w}, (c.graph.net.signature? w).isSome → w ≠ v := by
    rintro w hw rfl
    exact hv (signature?_iff.mp hw)
  have hout : ¬ c.IsOutput v := by
    rintro ⟨u, _, hu, rfl⟩
    exact hlive (by rw [h.signature_output hu]; rfl) rfl
  -- vertices in three classes: all but the outputs, the new one, the outputs
  let rank' : Vertex → ℕ ×ₗ ℕ := fun w => toLex (if w = v then 1 else if c.IsOutput w then 2 else 0, rank w)
  have hinner : ∀ {w}, w ≠ v → ¬ c.IsOutput w → rank' w = toLex (0, rank w) := by
    intro w hw ho
    simp only [rank', if_neg hw, if_neg ho]
  have hnew : rank' v = toLex (1, rank v) := by
    simp only [rank', if_true]
  have houter : ∀ {w}, c.IsOutput w → rank' w = toLex (2, rank w) := by
    intro w ho
    have hw : w ≠ v := fun heq => hout (heq ▸ ho)
    simp only [rank', if_neg hw, if_pos ho]
  refine ⟨rank', fun x y hxy => ?_, fun {w} hw ho => ?_, fun {w} ho => ?_⟩
  · obtain ⟨hx, hy⟩ := h.threaded.toFitted.live_of_before hxy
    rw [hinner (hlive hx) (h.not_isOutput_of_before hxy)]
    by_cases hyo : c.IsOutput y
    · rw [houter hyo]
      exact lt_of_class (by decide)
    · rw [hinner (hlive hy) hyo]
      exact lt_within_class (hrank x y hxy)
  · rw [hinner hw ho, hnew]
    exact lt_of_class (by decide)
  · rw [houter ho, hnew]
    exact lt_of_class (by decide)

/-- **The start**: a new vertex with none of its pins wired. The pins of the others keep their names. -/
theorem Wired.placing (h : c.Wired unit) (op : Op) (og : Option String) (pins : List (UnitId × WireKind)) :
    ∃ unit' rank, { c with graph := c.graph.withVertex (.op op) og }.Placing unit' rank c.graph.vertices.nextHandle [] ∧
      (∀ i p, pins[i]? = some p → unit' ⟨c.graph.vertices.nextHandle, i⟩ = p.1) ∧
      ∀ p, p.vertex ≠ c.graph.vertices.nextHandle → unit' p = unit p := by
  obtain ⟨rank, hranked, hothers, houtputs⟩ := h.exists_rank_last (not_live_nextHandle h.valid)
  let v := c.graph.vertices.nextHandle
  have hunion := isUnion_withVertex h.valid (.op op) og
  have hnew : ∀ {w}, (c.graph.net.signature? w).isSome → w ≠ v := by
    rintro w hw rfl
    exact hunion.not_both hw (by rw [signature_bare]; rfl)
  have hkeep : ∀ {w k}, c.graph.kind? w = some k → (c.graph.withVertex (.op op) og).kind? w = some k := by
    intro w k hk
    rw [kind?_withVertex, if_neg (hnew (signature?_iff.mpr (live_of_kind? hk))), hk]
  let unit' : Pin → UnitId := fun p => if p.vertex = v then ((pins[p.index]?).map Prod.fst).getD (.qubit 0) else unit p
  have hthreaded : c.graph.net.Threaded unit' := h.threaded.congr fun p hp => if_neg (hnew hp)
  refine ⟨unit', rank, ?_, fun i p hp => ?_, fun p hp => if_neg hp⟩
  · exact
      { toFramed := h.withGraph (fun _ => hkeep) fun hk hb => by
          rw [kind?_withVertex] at hk
          split at hk
          · cases hk; cases hb
          · exact hk
        valid := h.valid.withVertex _ _
        simple := fun {_ _ _} he he' => h.simple he he'
        live := live_withVertex.mpr (.inl rfl)
        not_input := fun ⟨u, ends, hu, hv⟩ => hnew (by rw [h.signature_input hu]; rfl) hv
        not_output := fun ⟨u, ends, hu, hv⟩ => hnew (by rw [h.signature_output hu]; rfl) hv
        threaded := hunion.threaded hthreaded threaded_bare
        complete := (hunion.complete h.threaded.toFitted (threaded_bare : Threaded _ unit').toFitted h.complete
          complete_bare).congr (fun _ => (or_false _).symm.to_iff) (fun _ => (or_false _).symm.to_iff)
        ranked := hunion.ranked h.threaded.toFitted (threaded_bare : Threaded _ unit').toFitted hranked ranked_bare
        unit_input := fun hu => (if_neg (hnew (by rw [h.signature_input hu]; rfl))).trans (h.unit_input hu)
        unit_output := fun hu => (if_neg (hnew (by rw [h.signature_output hu]; rfl))).trans (h.unit_output hu)
        named := fun hp => by simp at hp
        reads := fun {a} ha _ hav => absurd hav (hnew (h.threaded.live_of_link ha).2)
        rank_others := hothers
        rank_outputs := houtputs }
  · show (if v = v then ((pins[i]?).map Prod.fst).getD _ else _) = p.1
    rw [if_pos rfl, hp]
    rfl

lemma Placing.wired (h : c.Placing unit rank v done) (op : Op) (hk : c.graph.kind? v = some (.op op))
    (hdone : done.map Prod.snd = op.signature) : c.Wired unit := by
  have hnet : c.graph.netUpTo v (done.map Prod.snd) = c.graph.net := by
    rw [hdone]
    exact netUpTo_signature hk
  exact
    { toFramed := h.toFramed, valid := h.valid, simple := h.simple, threaded := hnet ▸ h.threaded
      complete := hnet ▸ h.complete, acyclic := hnet ▸ acyclic_of_ranked h.ranked
      unit_input := h.unit_input, unit_output := h.unit_output }

lemma wirePins_run (h : c.Placing unit rank v [])
    (hfit : ∀ p ∈ pins, c.hasUnit p.1 ∧ p.1.kind = p.2.unitKind) (hapart : pins.Pairwise Apart)
    (hnamed : ∀ i p, pins[i]? = some p → unit ⟨v, i⟩ = p.1) :
    ∃ g, pins.zipIdx.forM (fun x => wirePin ⟨v, x.2⟩ x.1.1 x.1.2) c = .ok ⟨⟩ { c with graph := g } ∧
      { c with graph := g }.Placing unit rank v pins ∧ c.Spares v pins g := by
  -- the invariant splits the pins into those that are wired and those that are left
  have hrun := forM_of_step (f := fun x : (UnitId × WireKind) × ℕ => wirePin ⟨v, x.2⟩ x.1.1 x.1.2)
    (fun rest d => ∃ done todo g, pins = done ++ todo ∧ rest = todo.zipIdx done.length ∧ d = { c with graph := g } ∧
      d.Placing unit rank v done ∧ c.Spares v done g) ?_
    ⟨[], pins, c.graph, rfl, rfl, rfl, h, .refl c v⟩
  · obtain ⟨d, hrun, done, todo, g, hpins, htodo, rfl, hplacing, hspares⟩ := hrun
    cases todo with
    | nil =>
      rw [append_nil] at hpins
      subst hpins
      exact ⟨g, hrun, hplacing, hspares⟩
    | cons x rest => rw [zipIdx_cons] at htodo; cases htodo
  · rintro x rest d ⟨done, todo, g, hpins, htodo, rfl, hplacing, hspares⟩
    cases todo with
    | nil => cases htodo
    | cons p todo =>
      obtain ⟨rfl, rfl⟩ := cons.inj htodo
      obtain ⟨hunit, hkind⟩ := hfit p (by simp [hpins])
      obtain ⟨_, hends⟩ := contains_iff.mp hunit
      have hpair : ∀ q ∈ done, Apart q p := by
        rw [hpins, pairwise_append] at hapart
        exact fun q hq => hapart.2.2 q hq p mem_cons_self
      have hname := hnamed done.length p (by rw [hpins, getElem?_append_right (le_refl _)]; simp)
      obtain ⟨g', l, hrun, hplacing', hl, hlkind, hpinned⟩ := wirePin_run hplacing hends hname hpair hkind
      have hpl := hplacing.placeable hends hl hpinned.target hlkind hpair
      refine ⟨_, hrun, done ++ [p], todo, g', by simp [hpins], by simp, rfl, hplacing', hspares.concat hpinned hends ?_
        (fun m hm ht => hplacing.threaded.in_unique hm hl (ht.trans hpinned.target.symm)) (fun hu' houtput => ?_) hpair⟩
      · exact ⟨hpl.source_ne, fun heq => hpl.not_last (heq ▸ hpl.last_target)⟩
      · exact (hplacing.unit_output hu').symm.trans (by rw [houtput, hplacing.unit_output hends])

/-- The opgroups after an operation has joined one. -/
def withOpgroup (opgroups : SortedMap String Signature) (op : Op) : Option String → SortedMap String Signature
  | none => opgroups
  | some name => opgroups.insert name op.signature

lemma get?_withOpgroup (opgroups : SortedMap String Signature) (name : String) :
    (withOpgroup opgroups op og).get? name = if og = some name then some op.signature else opgroups.get? name := by
  cases og with
  | none => rfl
  | some name' => rw [withOpgroup, get?_insert]; simp only [Option.some.injEq, eq_comm]

/-- An opgroup is new or has the signature of an operation. -/
def Joins (c : Circuit) (op : Op) (og : Option String) : Prop :=
  ∀ name s, og = some name → c.opgroups.get? name = some s → s = op.signature

/-- **An opgroup can be joined if it is new or has the signature of the operation.** Otherwise nothing changes. -/
theorem joinOpgroup_cases (op : Op) (og : Option String) (c : Circuit) :
    (c.Joins op og ∧ joinOpgroup op og c = .ok () { c with opgroups := withOpgroup c.opgroups op og }) ∨
    (¬ c.Joins op og ∧ ∃ e, joinOpgroup op og c = .error e c) := by
  cases og with
  | none => exact .inl ⟨fun _ _ hname => (nomatch hname), rfl⟩
  | some name =>
    rw [joinOpgroup, bind_get]
    cases hget : c.opgroups.get? name with
    | none =>
      refine .inl ⟨fun _ s hname hs => ?_, rfl⟩
      cases hname
      cases hget.symm.trans hs
    | some s =>
      dsimp only
      by_cases hsig : s = op.signature
      · rw [if_neg (not_not.mpr hsig)]
        have hsame : withOpgroup c.opgroups op (some name) = c.opgroups := ext_get? fun name' => by
          rw [get?_withOpgroup]
          split
          · next heq => rw [← Option.some.inj heq, hget, hsig]
          · rfl
        rw [hsame]
        refine .inl ⟨fun _ s' hname hs' => ?_, rfl⟩
        cases hname
        exact (Option.mem_unique hs' hget).trans hsig
      · rw [if_pos hsig]
        exact .inr ⟨fun hall => hsig (hall name s rfl hget), _, rfl⟩

lemma joinOpgroup_eq_ok (h : joinOpgroup op og c = .ok a c') : c.Joins op og ∧
      c' = { c with opgroups := withOpgroup c.opgroups op og } := by
  rcases joinOpgroup_cases op og c with ⟨hjoins, hok⟩ | ⟨_, e, herror⟩
  · exact ⟨hjoins, (ok_unique h hok).2⟩
  · cases herror.symm.trans h

/-- **How an operation is put in.** With arguments that pass the check and an opgroup that can be joined, `addOp` makes
    a new vertex and wires all its pins. The other pins keep their names. -/
theorem addOp_run (h : c.Wired unit) (hargs : c.checkArgs op args = .ok ()) (hjoins : c.Joins op og) :
    let c1 := { c with opgroups := withOpgroup c.opgroups op og }
    ∃ g unit' rank, addOp op args og c = .ok c.graph.vertices.nextHandle { c1 with graph := g } ∧
      { c1 with graph := g }.Placing unit' rank c.graph.vertices.nextHandle (args.zip op.signature) ∧
      { c with graph := c.graph.withVertex (.op op) og }.Spares c.graph.vertices.nextHandle (args.zip op.signature) g ∧
      { c1 with graph := g }.Wired unit' ∧ ∀ p, p.vertex ≠ c.graph.vertices.nextHandle → unit' p = unit p := by
  intro c1
  obtain ⟨hlen, hfit, hapart⟩ := checkArgs_eq_ok hargs
  have hjoin := ((joinOpgroup_cases op og c).resolve_right fun hnot => hnot.1 hjoins).2
  have h1 : c1.Wired unit := h.of_graph rfl rfl
  obtain ⟨unit', rank, hplacing, hnamed, hkept⟩ := h1.placing op og (args.zip op.signature)
  obtain ⟨g, hpins, hdone, hspares⟩ := wirePins_run hplacing hfit hapart hnamed
  refine ⟨g, unit', rank, ?_, hdone, ⟨hspares.vertices, hspares.links, hspares.enters, hspares.leaves, hspares.passes⟩,
    hdone.wired op ?_ (map_snd_zip (by rw [hlen])), hkept⟩
  · refine (bind_ok (ask_of_ok hargs)).trans ((bind_ok hjoin).trans ?_)
    exact (bind_ok (onGraph_of_ok (addVertex_run c1.graph (.op op) og))).trans (bind_ok hpins)
  · show g.kind? _ = _
    rw [show g.kind? c.graph.vertices.nextHandle = (c.graph.withVertex (.op op) og).kind? _ by
      unfold kind?; rw [hspares.vertices], kind?_withVertex, if_pos rfl]

lemma wirePin_of_keeps {P : Circuit → Prop} (hlink : ∀ l, Keeps P (onGraph (addLink l)))
    (hedge : ∀ e, Keeps P (onGraph (removeEdge e))) (p : Pin) (u : UnitId) (kind : WireKind) :
    Keeps P (wirePin p u kind) := by
  refine ask_keeps.bind fun _ => ask_keeps.bind fun _ => .ite ?_ ?_
  · exact (hedge _).bind fun _ => (hlink _).bind fun _ => (hlink _).bind fun _ => .pure _
  · exact (hlink _).bind fun _ => .pure _

lemma addOp_keeps (op : Op) (args : List UnitId) (og : Option String) : Keeps WellFormed (addOp op args og) := by
  intro c a c' h hrun
  obtain ⟨_, hargs, hrest⟩ := bind_ask_eq_ok.mp hrun
  obtain ⟨_, _, hjoin, _⟩ := bind_eq_ok.mp hrest
  obtain ⟨g, _, _, hrun', _, _, hwired, _⟩ := addOp_run h.wired hargs (joinOpgroup_eq_ok hjoin).1
  rw [hrun'] at hrun
  obtain ⟨_, rfl⟩ := EStateM.Result.ok.inj hrun
  exact hwired.wellFormed

instance (op : Op) (args : List UnitId) (og : Option String) : WellFormedEdit (addOp op args og) :=
  ⟨addOp_keeps op args og⟩

/-! ## Taking an operation out -/

lemma splice_run (h : c.Wired unit) (hv : c.graph.Live v) (hin : ¬ c.IsInput v) (hout : ¬ c.IsOutput v) :
    ∃ g, removeVertex v .splice .delete c.graph = .ok ⟨⟩ g ∧ { c with graph := g }.Wired unit ∧
      g.vertices = c.graph.vertices.release v ∧ c.graph.net.IsSplice v g.net := by
  have hspliceable := h.threaded.spliceable h.complete hout h.acyclic.no_return
  obtain ⟨g, hrun, hvalid, hsimple, hvert, hsplice⟩ := removeVertex_splice_run h.valid h.simple hv hspliceable
  obtain ⟨_, _, _, hrank⟩ := h.exists_rank
  refine ⟨g, hrun, ?_, hvert, hsplice⟩
  exact
    { toFramed := h.withGraph
        (fun hw hk => by
          rw [kind?_of_release hvert, if_neg (fun heq => (heq ▸ hw).elim hin hout), hk])
        fun hk _ => by
          rw [kind?_of_release hvert] at hk
          split at hk
          · cases hk
          · exact hk
      valid := hvalid, simple := hsimple, threaded := h.threaded.splice hsplice h.acyclic.no_return
      complete := h.complete.splice hsplice h.threaded.toFitted h.acyclic.no_return hin hout
      acyclic := acyclic_of_ranked (hrank.splice hsplice h.threaded.toFitted)
      unit_input := h.unit_input, unit_output := h.unit_output }

lemma boundary_removeOp {x : Unit} (hrun : removeOp v c = .ok x c') : c'.boundary = c.boundary := by
  obtain ⟨k, _, hrest⟩ := bind_ask_eq_ok.mp hrun
  by_cases hb : k.isBoundary
  · rw [if_pos hb] at hrest
    cases hrest
  · rw [if_neg hb] at hrest
    obtain ⟨g, _, rfl⟩ := onGraph_eq_ok.mp hrest
    rfl

lemma Wired.not_isInput_of_op (h : c.Wired unit) (hk : c.graph.kind? v = some (.op o)) : ¬ c.IsInput v := by
  rw [← h.isStart_iff hk]
  exact Bool.false_ne_true

lemma Wired.not_isOutput_of_op (h : c.Wired unit) (hk : c.graph.kind? v = some (.op o)) : ¬ c.IsOutput v := by
  rw [← h.isEnd_iff hk]
  exact Bool.false_ne_true

lemma removeOp_run (h : c.Wired unit) (hop : c.graph.kind? v = some (.op op)) :
    ∃ g, removeOp v c = .ok ⟨⟩ { c with graph := g } ∧ { c with graph := g }.Wired unit ∧
      g.vertices = c.graph.vertices.release v ∧ c.graph.net.IsSplice v g.net := by
  obtain ⟨g, hrun, hw, hvert, hsplice⟩ := splice_run h (live_of_kind? hop) (h.not_isInput_of_op hop) (h.not_isOutput_of_op hop)
  refine ⟨g, ?_, hw, hvert, hsplice⟩
  unfold removeOp
  rw [bind_ok (ask_of_ok (kind_eq_ok.mpr hop))]
  exact onGraph_of_ok hrun

lemma removeOp_error (hop : ∀ op, c.graph.kind? v ≠ some (.op op)) : ∃ e, removeOp v c = .error e c := by
  unfold removeOp
  cases hk : c.graph.kind v with
  | error e => exact ⟨e, bind_error (ask_of_error hk)⟩
  | ok k =>
    have hb : k.isBoundary := by
      cases k with
      | op op => exact absurd (kind_eq_ok.mp hk) (hop op)
      | _ => rfl
    rw [bind_ok (ask_of_ok hk), if_pos hb]
    exact ⟨_, rfl⟩

lemma removeOp_keeps (v : Vertex) : Keeps WellFormed (removeOp v) := by
  intro c a c' h hrun
  by_cases hop : ∃ op, c.graph.kind? v = some (.op op)
  · obtain ⟨op, hop⟩ := hop
    obtain ⟨g, hrun', hw, _⟩ := removeOp_run h.wired hop
    obtain ⟨_, rfl⟩ := ok_unique hrun' hrun
    exact hw.wellFormed
  · obtain ⟨e, hrun'⟩ := removeOp_error (not_exists.mp hop)
    rw [hrun'] at hrun
    cases hrun

end Circuit

end Wireloom
