import Wireloom.Proofs.Symbols

/-!
# `Circuit.dagger` twice — circuits run backwards and back again

Turning everything round twice leaves every link and every end of a unit where it was (`IsReversal.trans`). What is left
is what two reversals do to a single operation: the angles of gates are simplified.
-/

namespace Wireloom.Circuit

open Wireloom.Graph List Option

variable {c d e : Circuit} {unit unit' : Pin → UnitId} {reverseOp : Op → Except CircuitError Op} {f : Op → Op}
  {ι κ : Vertex → Vertex} {k k' : NodeKind} {v w : Vertex} {l m : Link} {phase : Angle}

/-! ## Twice round -/

lemma reversedKind_reversedKind (hf : ∀ op op', reverseOp op = .ok op' → reverseOp op' = .ok (f op))
    (h : reversedKind reverseOp k = .ok k') : reversedKind reverseOp k' = .ok (k.mapOp f) := by
  obtain ⟨_, rfl, rfl⟩ | ⟨_, rfl, rfl⟩ | ⟨o, o', rfl, ho', rfl⟩ := reversedKind_cases h
  · rfl
  · rfl
  · show (reverseOp o').map NodeKind.op = _
    rw [hf o o' ho']
    rfl

namespace IsReversal

section Twice

variable (hrev : IsReversal reverseOp ι c d)
include hrev

lemma live (hv : c.graph.Live v) : d.graph.Live (ι v) := by
  obtain ⟨n, hn⟩ := live_iff.mp hv
  obtain ⟨n', hn', _⟩ := hrev.node hn
  exact live_of_get? hn'

lemma reversible (hf : ∀ op op', reverseOp op = .ok op' → reverseOp op' = .ok (f op)) (hr : c.Reversible reverseOp) :
    d.Reversible reverseOp where
  kinds {w n'} hn' := by
    obtain ⟨_, _, _, _, hkind, _⟩ := hrev.exists_node hn'
    exact ⟨_, reversedKind_reversedKind hf hkind⟩
  linear {m} hm := by
    obtain ⟨l, hl, rfl⟩ := (hrev.link m).mp hm
    exact hr.linear (l := l) hl

lemma trans (hf : ∀ op op', reverseOp op = .ok op' → reverseOp op' = .ok (f op)) (hback : IsReversal reverseOp κ d e) :
    Corresponds f (κ ∘ ι) c e where
  injective hv hw heq := hrev.injective hv hw (hback.injective (hrev.live hv) (hrev.live hw) heq)
  surjective {x} hx := by
    obtain ⟨w, hw, rfl⟩ := hback.surjective hx
    obtain ⟨v, hv, rfl⟩ := hrev.surjective hw
    exact ⟨v, hv, rfl⟩
  node {v n} hn := by
    obtain ⟨_, hn1, hkind1, hog1⟩ := hrev.node hn
    obtain ⟨n2, hn2, hkind2, hog2⟩ := hback.node hn1
    refine ⟨n2, hn2, ?_, hog2.trans hog1⟩
    rw [reversedKind_reversedKind hf hkind1] at hkind2
    exact (Except.ok.inj hkind2).symm
  link m := by
    rw [hback.link]
    constructor
    · rintro ⟨l1, hl1, rfl⟩
      obtain ⟨l, hl, rfl⟩ := (hrev.link l1).mp hl1
      exact ⟨l, hl, rfl⟩
    · rintro ⟨l, hl, rfl⟩
      exact ⟨l.reverseMap ι, (hrev.link _).mpr ⟨l, hl, rfl⟩, rfl⟩
  boundary u := by
    rw [hback.boundary, hrev.boundary, Option.map_map]
    rfl

end Twice

/-! ## Two reversals of one circuit -/

lemma corresponds (h : c.Framed) (hc : c.graph.Valid) (hrev : IsReversal reverseOp ι c d)
    (hrev' : IsReversal reverseOp κ c e) : ∃ θ, Corresponds id θ d e := by
  obtain ⟨θ, hθ⟩ := exists_factor hrev.injective κ
  have hlink : ∀ {l}, c.graph.HasLink l → (l.reverseMap ι).map θ = l.reverseMap κ := by
    intro l hl
    unfold Link.reverseMap Link.map Pin.map
    rw [hθ _ (hc.target_live hl), hθ _ (hc.source_live hl)]
  refine ⟨θ, fun {w w'} hw hw' heq => ?_, fun {x} hx => ?_, fun {w n'} hn' => ?_, fun m => ⟨?_, ?_⟩, fun u => ?_⟩
  · obtain ⟨v, hv, rfl⟩ := hrev.surjective hw
    obtain ⟨v', hv', rfl⟩ := hrev.surjective hw'
    rw [hθ v hv, hθ v' hv'] at heq
    rw [hrev'.injective hv hv' heq]
  · obtain ⟨v, hv, rfl⟩ := hrev'.surjective hx
    exact ⟨ι v, hrev.live hv, hθ v hv⟩
  · obtain ⟨v, n, hn, rfl, hkind1, hog1⟩ := hrev.exists_node hn'
    obtain ⟨n2, hn2, hkind2, hog2⟩ := hrev'.node hn
    refine ⟨n2, (congrArg _ (hθ v (live_of_get? hn))).trans hn2, ?_, hog2.trans hog1.symm⟩
    rw [NodeKind.mapOp_id]
    exact Except.ok.inj (hkind2.symm.trans hkind1)
  · intro hm
    obtain ⟨l, hl, rfl⟩ := (hrev'.link m).mp hm
    exact ⟨l.reverseMap ι, (hrev.link _).mpr ⟨l, hl, rfl⟩, (hlink hl).symm⟩
  · rintro ⟨l', hl', rfl⟩
    obtain ⟨l, hl, rfl⟩ := (hrev.link l').mp hl'
    exact (hrev'.link _).mpr ⟨l, hl, hlink hl⟩
  · rw [hrev'.boundary, hrev.boundary]
    cases hu : c.boundary.get? u with
    | none => rfl
    | some ends =>
      unfold Ends.reverseMap Ends.map
      rw [map_some, map_some, map_some, hθ _ (h.live_input hu), hθ _ (h.live_output hu)]

lemma of_links (h : c.Wired unit) (h' : d.Wired unit') (hr : c.Reversible reverseOp) (hop : KeepsSignature reverseOp)
    (injective : ∀ {v w}, c.graph.Live v → c.graph.Live w → ι v = ι w → v = w)
    (surjective : ∀ {w}, d.graph.Live w → ∃ v, c.graph.Live v ∧ ι v = w)
    (node : ∀ {v n}, c.graph.vertices.get? v = some n → ∃ n', d.graph.vertices.get? (ι v) = some n' ∧
      reversedKind reverseOp n.kind = .ok n'.kind ∧ n'.opgroup = n.opgroup)
    (link : ∀ l, c.graph.HasLink l → d.graph.HasLink (l.reverseMap ι))
    (boundary : ∀ u, d.boundary.get? u = (c.boundary.get? u).map (Ends.reverseMap ι)) : IsReversal reverseOp ι c d where
  injective := injective
  surjective := surjective
  node := node
  boundary := boundary
  link m := by
    constructor
    · intro hm
      obtain ⟨v, hv, hvm⟩ := surjective (h'.valid.target_live hm)
      obtain ⟨n, hn⟩ := live_iff.mp hv
      obtain ⟨n', hn', hkind, _⟩ := node hn
      have hwire := h'.wireAt_of_copy hn hn' (signature_reversedKind hop hkind) hm hvm
      have hout : ¬ c.IsOutput v := by
        rintro ⟨u, ends, hu, rfl⟩
        refine h'.target_open hm ⟨u, ends.reverseMap ι, ?_, hvm⟩
        rw [boundary, hu]
        rfl
      obtain ⟨l, hl, _, hs⟩ :=
        (h.complete.drained_iff hwire (wireAt_isLinear h (fun _ => hr.linear) hwire)).mpr hout
      refine ⟨l, hl, h'.threaded.in_unique hm (link l hl) ?_⟩
      show m.target = l.source.map ι
      rw [hs]
      exact Pin.ext hvm.symm rfl
    · rintro ⟨l, hl, rfl⟩
      exact link l hl

end IsReversal

/-! ## The same circuit again -/

/-- **`e` is `c` with `f` applied to the operations**: the vertices correspond, the units, the name and the opgroups are
    those of `c`, and so are the commands in their order, with their arguments and opgroups. -/
structure Restores (f : Op → Op) (phase : Angle) (c e : Circuit) : Prop where
  matched : ∃ ι, Corresponds f ι c e
  units : e.units = c.units
  name : e.name = c.name
  opgroups : e.opgroups = c.opgroups
  phase : e.phase = phase
  commands : e.commands.map Command.content = c.commands.map fun cmd => (f cmd.op, cmd.args, cmd.opgroup)

lemma reversed_reversed (hop : KeepsSignature reverseOp)
    (hf : ∀ op op', reverseOp op = .ok op' → reverseOp op' = .ok (f op)) (hsig : ∀ op, (f op).signature = op.signature)
    (h : c.WellFormed) (hrun : c.reversed reverseOp phase = .ok d) (phase' : Angle) :
    ∃ e, d.reversed reverseOp phase' = .ok e ∧ Restores f phase' c e := by
  obtain ⟨ι, hrev⟩ := reversed_eq_ok hop h hrun
  have hback := hrev.toIsReversal.reversible hf (reversible_of_ok h hrun)
  obtain ⟨e, κ, hrun', hrev'⟩ := reversed_run hop hrev.wellFormed hback phase'
  have hmatch := hrev.toIsReversal.trans hf hrev'.toIsReversal
  have hmade : e.graph.bySequence.map Prod.fst = (c.graph.bySequence.map Prod.fst).map (κ ∘ ι) := by
    rw [hrev'.made, hrev.made, map_reverse, reverse_reverse, List.map_map]
  refine ⟨e, hrun', ⟨_, hmatch⟩, hmatch.units_eq, hrev'.name.trans hrev.name, hrev'.opgroups.trans hrev.opgroups,
    hrev'.phase, ?_⟩
  rw [hmatch.commands_eq h hrev'.wellFormed hsig hmade, List.map_map]
  rfl

/-- **The inverse of the inverse and the transpose of the transpose** exist and are the circuit again. For the inverse
    the angles of gates and phases are simplified, and so is the global phase. For the transpose only the angles of turns
    about Y are. -/
theorem dagger_transpose_involutive (h : c.WellFormed) :
    (∀ d, c.dagger = .ok d → ∃ e, d.dagger = .ok e ∧ Restores Op.simplifyAngle c.phase.simplify c e) ∧
      ∀ d, c.transpose = .ok d → ∃ e, d.transpose = .ok e ∧ Restores Op.simplifyTurn c.phase c e := by
  constructor
  · intro d hd
    obtain ⟨ι, hrev⟩ := reversed_eq_ok (fun _ _ => Op.signature_dagger) h hd
    have hphase : -d.phase = c.phase.simplify := by rw [hrev.phase, Angle.neg_neg]
    rw [← hphase]
    exact reversed_reversed (fun _ _ => Op.signature_dagger) (fun _ _ => Op.dagger_dagger) Op.signature_simplifyAngle h hd _
  · intro d hd
    obtain ⟨ι, hrev⟩ := reversed_eq_ok (fun _ _ => Op.signature_transpose) h hd
    rw [← hrev.phase]
    exact reversed_reversed (fun _ _ => Op.signature_transpose) (fun _ _ => Op.transpose_transpose)
      Op.signature_simplifyTurn h hd _

/-- Turns about Y and Z with an entangling gate between them and one of them negated twice. -/
theorem dagger_transpose_involutive_turns : ∃ c d e d' e', (ofUnits 2 0).edited (do
      let _ ← addOp (.gate (.ry (.neg (.neg (.symbol "a"))))) [.qubit 0] none
      let _ ← addOp (.gate .cx) [.qubit 0, .qubit 1] (some "pair")
      let _ ← addOp (.gate (.rz (.symbol "b"))) [.qubit 1] none
      discard (addOp (.gate .t) [.qubit 0] none)) = .ok c ∧
    (c.dagger = .ok d ∧ d.dagger = .ok e ∧ Restores Op.simplifyAngle c.phase.simplify c e) ∧
      c.transpose = .ok d' ∧ d'.transpose = .ok e' ∧ Restores Op.simplifyTurn c.phase c e' := by
  simp only [exists_and_left]
  refine exists_run fun c hc => ?_
  have hwell := wellFormed_edited hc
  obtain ⟨d, hd, _⟩ : ∃ d, c.dagger = .ok d ∧ True := of_run hc (by decide +kernel)
  obtain ⟨e, he, hrestores⟩ := (dagger_transpose_involutive hwell).1 d hd
  exact ⟨d, e, ⟨hd, he, hrestores⟩, exists_and_of (of_run hc (by decide +kernel)) fun d' hd' =>
    (dagger_transpose_involutive hwell).2 d' hd'⟩

/-! # `Circuit.dagger` of `Circuit.sequential` — circuits in a row, run backwards -/

variable {a b ab a' b' r : Circuit} {μ δ ε : Vertex → Vertex} {u : UnitId} {ends : Ends} {n : Node} {phase' : Angle}

/-! ## Rows of circuits that can be run backwards -/

lemma Reversible.not_create (hr : b.Reversible reverseOp) : b.graph.kind? v ≠ some .create := by
  intro hcreate
  obtain ⟨_, hk⟩ := hr.kind_of_kind? hcreate
  cases hk

lemma Reversible.spliced_iff (hr : b.Reversible reverseOp) : a.Spliced b v ↔ a.WasStart b v :=
  ⟨And.left, fun hstart => ⟨hstart, hr.not_create⟩⟩

lemma not_created_reversedKind {k k' : NodeKind} (h : reversedKind reverseOp k = .ok k') : k' ≠ .create ∧ k' ≠ .discard := by
  obtain ⟨_, _, rfl⟩ | ⟨_, _, rfl⟩ | ⟨_, _, _, _, rfl⟩ := reversedKind_cases h <;> exact ⟨nofun, nofun⟩

lemma IsReversal.not_created {k : NodeKind} (hrev : IsReversal reverseOp δ a a') (hk : a'.graph.kind? w = some k) :
    k ≠ .create ∧ k ≠ .discard := by
  obtain ⟨v, hv, rfl⟩ := hrev.surjective (live_of_kind? hk)
  obtain ⟨n, hn⟩ := live_iff.mp hv
  obtain ⟨_, hn', hkind, _⟩ := hrev.node hn
  rw [kind?, hn', map_some, some_inj] at hk
  exact hk ▸ not_created_reversedKind hkind

lemma IsReversal.ends_turned (hrev : IsReversal reverseOp δ a a') (hu : a.boundary.get? u = some ends) :
    a'.boundary.get? u = some (ends.reverseMap δ) := by
  rw [hrev.boundary, hu]
  rfl

lemma IsReversal.mem_units (hrev : IsReversal reverseOp δ a a') : u ∈ a'.units ↔ u ∈ a.units := by
  rw [mem_units_iff, mem_units_iff, hrev.boundary]
  cases a.boundary.get? u <;> simp

lemma Fits.turned (hfits : a.Fits b) (hregisters : a.RegistersAgree) (ha : IsReversed reverseOp phase δ a a')
    (hb : IsReversed reverseOp phase' ε b b') : b'.Fits a' where
  ends _ _ hdiscard := absurd rfl (hb.toIsReversal.not_created hdiscard).2
  registers u hu _ w hw heq :=
    (hfits.agree hregisters (hb.toIsReversal.mem_units.mp hw) (ha.toIsReversal.mem_units.mp hu) heq.symm).imp Eq.symm Eq.symm
  opgroups := by
    rw [ha.opgroups, hb.opgroups]
    exact hfits.opgroups.symm

lemma Chained.reversible (hch : Chained κ a b ab) (ha : a.WellFormed) (hb : b.WellFormed) (hab : ab.WellFormed)
    (hr : a.Reversible reverseOp) (hr' : b.Reversible reverseOp) : ab.Reversible reverseOp where
  kinds {w n} hn := by
    rcases hch.cases (live_of_get? hn) with ⟨hw, hend⟩ | ⟨v, hv, hspliced, rfl⟩
    · obtain ⟨n0, hn0⟩ := live_iff.mp hw
      cases mem_unique hn (hch.host_node hn0 hend)
      exact hr.kinds hn0
    · obtain ⟨n0, hn0⟩ := live_iff.mp hv
      obtain ⟨_, hn1, _, hkind, _⟩ := hch.guest_node hn0 hspliced
      cases mem_unique hn hn1
      rw [hkind (mt hr'.spliced_iff.mpr hspliced)]
      exact hr'.kinds hn0
  linear {m} hm := by
    cases (hch.link_iff ha.wired hb.wired hab.wired).mp hm with
    | host hl _ => exact hr.linear hl
    | @guest l _ hl _ => exact hr'.linear (l := l) hl
    | reset _ _ hcreate _ _ => exact absurd hcreate hr'.not_create

/-! ## The row of the reversals -/

/-- **Two circuits in a row, and their reversals in a row** the other way round. -/
structure TurnedRow (reverseOp : Op → Except CircuitError Op) (a b ab a' b' r : Circuit) (κ μ δ ε : Vertex → Vertex) :
    Prop where
  first : a.WellFormed
  last : b.WellFormed
  row : IsAppended κ a b ab
  reversible : a.Reversible reverseOp ∧ b.Reversible reverseOp
  firstBack : IsReversal reverseOp δ a a'
  lastBack : IsReversal reverseOp ε b b'
  back : IsAppended μ b' a' r

/-- Where the vertices of the row stand in the row of the reversals. -/
noncomputable def turnRow (a b : Circuit) (κ μ δ ε : Vertex → Vertex) : Vertex → Vertex := glue κ a b (μ ∘ δ) ε

namespace TurnedRow

variable (h : TurnedRow reverseOp a b ab a' b' r κ μ δ ε)
include h

lemma wasStart_iff (hv : a.graph.Live v) : b'.WasStart a' (δ v) ↔ a.WasEnd b v := by
  constructor
  · rintro ⟨u, next, host, hb', ha', heq⟩
    rw [h.lastBack.boundary, map_eq_some_iff] at hb'
    rw [h.firstBack.boundary, map_eq_some_iff] at ha'
    obtain ⟨next, hb, rfl⟩ := hb'
    obtain ⟨host, ha, rfl⟩ := ha'
    exact ⟨u, host, next, ha, hb, h.firstBack.injective (h.first.live_output ha) hv heq⟩
  · rintro ⟨u, host, next, ha, hb, rfl⟩
    exact ⟨u, _, _, h.lastBack.ends_turned hb, h.firstBack.ends_turned ha, rfl⟩

lemma wasEnd_iff (hv : b.graph.Live v) : b'.WasEnd a' (ε v) ↔ a.WasStart b v := by
  constructor
  · rintro ⟨u, next, host, hb', ha', heq⟩
    rw [h.lastBack.boundary, map_eq_some_iff] at hb'
    rw [h.firstBack.boundary, map_eq_some_iff] at ha'
    obtain ⟨next, hb, rfl⟩ := hb'
    obtain ⟨host, ha, rfl⟩ := ha'
    exact ⟨u, host, next, ha, hb, h.lastBack.injective (h.last.live_input hb) hv heq⟩
  · rintro ⟨u, host, next, ha, hb, rfl⟩
    exact ⟨u, _, _, h.lastBack.ends_turned hb, h.firstBack.ends_turned ha, rfl⟩

/-! ## Vertices -/

omit h in
lemma turn_first (hv : a.graph.Live v) : turnRow a b κ μ δ ε v = μ (δ v) := glue_host hv

lemma turn_last (hv : b.graph.Live v) : turnRow a b κ μ δ ε (κ v) = ε v := h.row.glue_guest hv

/-- **The vertices of the row come from one of the two circuits**, and that is where they are moved to. -/
theorem cases (hw : ab.graph.Live w) :
    (a.graph.Live w ∧ ¬ a.WasEnd b w ∧ ¬ b'.WasStart a' (δ w) ∧ turnRow a b κ μ δ ε w = μ (δ w)) ∨
    ∃ v, b.graph.Live v ∧ ¬ a.Spliced b v ∧ ¬ b'.WasEnd a' (ε v) ∧ κ v = w ∧ turnRow a b κ μ δ ε w = ε v := by
  rcases h.row.cases hw with ⟨ha, hend⟩ | ⟨v, hb, hspliced, rfl⟩
  · exact .inl ⟨ha, hend, mt (h.wasStart_iff ha).mp hend, turn_first ha⟩
  · refine .inr ⟨v, hb, hspliced, ?_, rfl, h.turn_last hb⟩
    rw [h.wasEnd_iff hb, ← h.reversible.2.spliced_iff]
    exact hspliced

lemma injective (hv : ab.graph.Live v) (hw : ab.graph.Live w) (heq : turnRow a b κ μ δ ε v = turnRow a b κ μ δ ε w) :
    v = w := by
  rcases h.cases hv with ⟨hv, _, _, hvr⟩ | ⟨x, hx, _, _, rfl, hvr⟩ <;>
    rcases h.cases hw with ⟨hw, _, _, hwr⟩ | ⟨y, hy, _, _, rfl, hwr⟩ <;> rw [hvr, hwr] at heq
  · exact h.firstBack.injective hv hw (h.back.injective (h.firstBack.live hv) (h.firstBack.live hw) heq)
  · exact absurd (heq ▸ h.lastBack.live hy) (h.back.fresh (h.firstBack.live hv))
  · exact absurd (heq ▸ h.lastBack.live hx) (h.back.fresh (h.firstBack.live hw))
  · exact congrArg κ (h.lastBack.injective hx hy heq)

lemma surjective (hw : r.graph.Live w) : ∃ v, ab.graph.Live v ∧ turnRow a b κ μ δ ε v = w := by
  rcases h.back.cases hw with ⟨hb', hend⟩ | ⟨x, ha', hspliced, rfl⟩
  · obtain ⟨v, hv, rfl⟩ := h.lastBack.surjective hb'
    rw [h.wasEnd_iff hv, ← h.reversible.2.spliced_iff] at hend
    exact ⟨κ v, h.row.live_guest hv hend, h.turn_last hv⟩
  · obtain ⟨v, hv, rfl⟩ := h.firstBack.surjective ha'
    -- nothing is created, so a joined start would have been spliced out
    have hend : ¬ a.WasEnd b v := fun hend =>
      hspliced ⟨(h.wasStart_iff hv).mpr hend, fun hcreate => absurd rfl (h.firstBack.not_created hcreate).1⟩
    exact ⟨v, h.row.live_host hv hend, turn_first hv⟩

lemma node (hn : ab.graph.vertices.get? w = some n) : ∃ n', r.graph.vertices.get? (turnRow a b κ μ δ ε w) = some n' ∧
    reversedKind reverseOp n.kind = .ok n'.kind ∧ n'.opgroup = n.opgroup := by
  rcases h.cases (live_of_get? hn) with
    ⟨hw, hend, hstart, hwr⟩ | ⟨v, hv, hspliced, hend, rfl, hwr⟩
  · obtain ⟨n0, hn0⟩ := live_iff.mp hw
    cases mem_unique hn (h.row.host_node hn0 hend)
    obtain ⟨n1, hn1, hkind, hog⟩ := h.firstBack.node hn0
    obtain ⟨n', hn', hog', hkind', _⟩ := h.back.guest_node hn1 fun hspliced => hstart hspliced.1
    refine ⟨n', hwr ▸ hn', ?_, hog'.trans hog⟩
    rw [hkind' hstart]
    exact hkind
  · obtain ⟨n0, hn0⟩ := live_iff.mp hv
    obtain ⟨n1, hn1, hog1, hkind1, _⟩ := h.row.guest_node hn0 hspliced
    cases mem_unique hn hn1
    obtain ⟨n', hn', hkind, hog⟩ := h.lastBack.node hn0
    refine ⟨n', hwr ▸ h.back.host_node hn' hend, ?_, hog.trans hog1.symm⟩
    rw [hkind1 (mt h.reversible.2.spliced_iff.mpr hspliced)]
    exact hkind

lemma boundary (u : UnitId) : r.boundary.get? u = (ab.boundary.get? u).map (Ends.reverseMap (turnRow a b κ μ δ ε)) := by
  have hfirst : ∀ {ends}, a.boundary.get? u = some ends → turnRow a b κ μ δ ε ends.input = μ (δ ends.input) ∧
      turnRow a b κ μ δ ε ends.output = μ (δ ends.output) := fun ha =>
    ⟨turn_first (h.first.live_input ha), turn_first (h.first.live_output ha)⟩
  have hlast : ∀ {ends}, b.boundary.get? u = some ends → turnRow a b κ μ δ ε (κ ends.input) = ε ends.input ∧
      turnRow a b κ μ δ ε (κ ends.output) = ε ends.output := fun hb =>
    ⟨h.turn_last (h.last.live_input hb), h.turn_last (h.last.live_output hb)⟩
  rw [h.back.boundary, h.lastBack.boundary, h.firstBack.boundary, h.row.boundary]
  cases ha : a.boundary.get? u <;> cases hb : b.boundary.get? u <;> simp [joinEnds, Ends.map, Ends.reverseMap, *]

/-! ## Links -/

/-- **Moved links**, turned round. A joined link is one of the last circuit that comes from the end of the first; in the
    row of the reversals it is one of the first that comes from the end of the last. -/
theorem link (hm : ab.graph.HasLink m) : r.graph.HasLink (m.reverseMap (turnRow a b κ μ δ ε)) := by
  have hfirst : ∀ {p : Pin}, a.graph.Live p.vertex → p.map (turnRow a b κ μ δ ε) = (p.map δ).map μ := fun hp =>
    Pin.ext (turn_first hp) rfl
  have hlast : ∀ {p : Pin}, b.graph.Live p.vertex → (p.map κ).map (turnRow a b κ μ δ ε) = p.map ε := fun hp =>
    Pin.ext (h.turn_last hp) rfl
  cases (h.row.link_iff h.first.wired h.last.wired h.row.wellFormed.wired).mp hm with
  | host hl hend =>
    have hsource := h.first.valid.source_live hl
    have htarget := h.first.valid.target_live hl
    have hback := h.back.guest_link ((h.firstBack.link _).mpr ⟨m, hl, rfl⟩) fun hspliced =>
      hend ((h.wasStart_iff htarget).mp hspliced.1)
    show r.graph.HasLink ⟨m.target.map _, m.source.map _, m.kind⟩
    rw [hfirst hsource, hfirst htarget]
    exact hback
  | @guest l q hl hq =>
    have htarget := h.last.valid.target_live hl
    show r.graph.HasLink ⟨(l.target.map κ).map _, q.map _, l.kind⟩
    rw [hlast htarget]
    have hturned := (h.lastBack.link _).mpr ⟨l, hl, rfl⟩
    cases hq with
    | copied hspliced =>
      have hsource := h.last.valid.source_live hl
      rw [hlast hsource]
      refine h.back.host_link hturned fun hend => hspliced ?_
      exact h.reversible.2.spliced_iff.mpr ((h.wasEnd_iff hsource).mp hend)
    | @joined u host next last ha hb _ hs hlast' ht =>
      -- neither link is a read, so both carry what the unit does
      have hkind : last.kind = l.kind := by
        rw [h.first.wired.kind_of_output ha hlast' ht, ← (h.last.wired.source_input hb hl hs).2,
          WireKind.carrier_eq (h.reversible.2.linear hl)]
      rw [hfirst (h.first.valid.source_live hlast'), ← hkind]
      exact h.back.joined_link (h.lastBack.ends_turned hb) (h.firstBack.ends_turned ha)
        (fun hcreate => absurd rfl (h.firstBack.not_created hcreate).1) hturned (congrArg ε hs)
        ((h.firstBack.link _).mpr ⟨last, hlast', rfl⟩) (congrArg δ ht)
  | reset _ _ hcreate _ _ => exact absurd hcreate h.reversible.2.not_create

lemma isReversal (hop : KeepsSignature reverseOp) : IsReversal reverseOp (turnRow a b κ μ δ ε) ab r :=
  .of_links h.row.wellFormed.wired h.back.wellFormed.wired
    (h.row.reversible h.first h.last h.row.wellFormed h.reversible.1 h.reversible.2) hop h.injective h.surjective h.node
    (fun _ hm => h.link hm) h.boundary

end TurnedRow

/-! ## Running rows backwards -/

lemma reversed_sequential (hop : KeepsSignature reverseOp) (ha : a.WellFormed)
    (hb : b.WellFormed) (hregisters : a.RegistersAgree) (hrow : a.sequential b = .ok ab)
    (hfirst : a.reversed reverseOp phase = .ok a') (hlast : b.reversed reverseOp phase' = .ok b') (total : Angle) :
    ∃ e r, ab.reversed reverseOp total = .ok e ∧ b'.sequential a' = .ok r ∧ Isomorphic e r := by
  obtain ⟨hfits, κ, happ⟩ := sequential_eq_ok ha hb hrow
  obtain ⟨δ, hrev⟩ := reversed_eq_ok hop ha hfirst
  obtain ⟨ε, hrev'⟩ := reversed_eq_ok hop hb hlast
  have hr := reversible_of_ok ha hfirst
  have hr' := reversible_of_ok hb hlast
  obtain ⟨r, μ, hback, happ'⟩ :=
    sequential_of_fits hrev'.wellFormed hrev.wellFormed (hfits.turned hregisters hrev hrev')
  obtain ⟨e, _, hwhole, hrevs⟩ :=
    reversed_run hop happ.wellFormed (happ.reversible ha hb happ.wellFormed hr hr') total
  have hturned : TurnedRow reverseOp a b ab a' b' r κ μ δ ε :=
    ⟨ha, hb, happ, ⟨hr, hr'⟩, hrev.toIsReversal, hrev'.toIsReversal, happ'⟩
  refine ⟨e, r, hwhole, hback,
    hrevs.toIsReversal.corresponds happ.wellFormed.toFramed happ.wellFormed.valid (hturned.isReversal hop), ?_⟩
  rw [happ'.opgroups, hrev.opgroups, hrev'.opgroups, hrevs.opgroups, happ.opgroups, hfits.opgroups.unionLeft_comm]

/-- **The inverse of a row is the row of the inverses the other way round, and so is the transpose.** If the two circuits
    have inverses and can be put in a row, the row has an inverse, the inverses can be put in a row, and these are
    isomorphic. -/
theorem dagger_transpose_sequential (ha : a.WellFormed) (hb : b.WellFormed) (hregisters : a.RegistersAgree)
    (hrow : a.sequential b = .ok ab) :
    (∀ a' b', a.dagger = .ok a' → b.dagger = .ok b' → ∃ e r, ab.dagger = .ok e ∧ b'.sequential a' = .ok r ∧ Isomorphic e r) ∧
    ∀ a' b', a.transpose = .ok a' → b.transpose = .ok b' →
      ∃ e r, ab.transpose = .ok e ∧ b'.sequential a' = .ok r ∧ Isomorphic e r :=
  ⟨fun _ _ hfirst hlast =>
      reversed_sequential (fun _ _ => Op.signature_dagger) ha hb hregisters hrow hfirst hlast _,
    fun _ _ hfirst hlast =>
      reversed_sequential (fun _ _ => Op.signature_transpose) ha hb hregisters hrow hfirst hlast _⟩

/-- Circuits that share one of their qubits, with a symbolic turn and gates of one opgroup on both sides of the seam. -/
theorem dagger_transpose_sequential_shared : ∃ a b ab a' b' e r a'' b'' e' r', (ofUnits 2 0).edited (do
      let _ ← addOp (.gate (.ry (.symbol "x"))) [.qubit 0] none
      discard (addOp (.gate .cx) [.qubit 0, .qubit 1] (some "pair"))) = .ok a ∧
    (ofUnits 1 0).edited (do
      addUnit (.qubit 2)
      let _ ← addOp (.gate .t) [.qubit 0] none
      discard (addOp (.gate .cx) [.qubit 2, .qubit 0] (some "pair"))) = .ok b ∧
    a.RegistersAgree ∧ a.sequential b = .ok ab ∧
    (a.dagger = .ok a' ∧ b.dagger = .ok b' ∧ ab.dagger = .ok e ∧ b'.sequential a' = .ok r ∧ Isomorphic e r) ∧
      a.transpose = .ok a'' ∧ b.transpose = .ok b'' ∧ ab.transpose = .ok e' ∧ b''.sequential a'' = .ok r' ∧
        Isomorphic e' r' := by
  simp only [exists_and_left]
  refine exists_run fun a ha => exists_run fun b hb => ?_
  have hregisters : a.RegistersAgree := of_run ha (by decide +kernel)
  have hwell := wellFormed_edited ha
  have hwell' := wellFormed_edited hb
  refine ⟨hregisters, exists_and_of (of_run ha (of_run hb (by decide +kernel))) fun ab hrow => ?_⟩
  have hturned := dagger_transpose_sequential hwell hwell' hregisters hrow
  obtain ⟨a', ha', _⟩ : ∃ a', a.dagger = .ok a' ∧ True := of_run ha (by decide +kernel)
  obtain ⟨b', hb', _⟩ : ∃ b', b.dagger = .ok b' ∧ True := of_run hb (by decide +kernel)
  obtain ⟨e, r, he, hr, hiso⟩ := hturned.1 a' b' ha' hb'
  refine ⟨a', b', e, r, ⟨ha', hb', he, hr, hiso⟩, exists_and_of (of_run ha (by decide +kernel)) fun a'' ha'' =>
    exists_and_of (of_run hb (by decide +kernel)) fun b'' hb'' => ?_⟩
  obtain ⟨e', r', he', hr', hiso'⟩ := hturned.2 a'' b'' ha'' hb''
  exact ⟨e', he', r', hr', hiso'⟩

end Circuit

/-! # `Circuit.dagger` — the order of a circuit run backwards -/

/-! ## Sorting in rounds -/

section Sorting

variable {α : Type} {key key' : α → ℕ} {l : List α} {x : α}

lemma insertBy_append {l' : List α} (h : ∀ y ∈ l, key y < key x) :
    insertBy key x (l ++ l') = l ++ insertBy key x l' := by
  induction l with
  | nil => rfl
  | cons y rest ih =>
    obtain ⟨hy, hrest⟩ := List.forall_mem_cons.mp h
    rw [List.cons_append, insertBy, Nat.compare_eq_gt.mpr hy, ih hrest]
    rfl

lemma insertBy_congr (h : ∀ y ∈ l, compare (key x) (key y) = compare (key' x) (key' y)) :
    insertBy key x l = insertBy key' x l := by
  induction l with
  | nil => rfl
  | cons y rest ih =>
    obtain ⟨hy, hrest⟩ := List.forall_mem_cons.mp h
    rw [insertBy, insertBy, hy, ih hrest]

lemma sortedBy_succ {p : α → Bool} (h : ∀ x, key x = if p x then key' x + 1 else 0) (l : List α) :
    sortedBy key l = (l.filter fun x => !p x) ++ sortedBy key' (l.filter p) := by
  have hkey : ∀ {x}, p x → key x = key' x + 1 := fun {x} hx => by rw [h, if_pos hx]
  have hzero : ∀ {x}, p x = false → key x = 0 := fun {x} hx => by rw [h, hx]; rfl
  induction l with
  | nil => rfl
  | cons x rest ih =>
    show insertBy key x (sortedBy key rest) = _
    rw [ih]
    cases hx : p x with
    | false =>
      rw [List.filter_cons_of_pos (by rw [hx]; rfl), List.filter_cons_of_neg (by rw [hx]; decide), insertBy_of_le]
      · rfl
      · intro y _
        rw [hzero hx, Nat.isLE_compare]
        exact Nat.zero_le _
    | true =>
      rw [List.filter_cons_of_neg (by rw [hx]; decide), List.filter_cons_of_pos hx, insertBy_append]
      · congr 1
        refine insertBy_congr fun y hy => ?_
        have hy := (List.mem_filter.mp (mem_sortedBy.mp hy)).2
        rw [hkey hx, hkey hy]
        rw [Nat.compare_eq_ite_lt, Nat.compare_eq_ite_lt]
        simp only [Nat.succ_lt_succ_iff]
      · intro y hy
        rw [hkey hx, hzero (by simpa using (List.mem_filter.mp hy).2)]
        exact Nat.succ_pos _

lemma sortedBy_of_pairwise (h : l.Pairwise fun x y => key x ≤ key y) : sortedBy key l = l := by
  induction h with
  | nil => rfl
  | @cons x rest hx _ ih =>
    show insertBy key x (sortedBy key rest) = _
    rw [ih]
    exact insertBy_of_le fun y hy => Nat.isLE_compare.mpr (hx y hy)

end Sorting

namespace Graph

open List Relation

variable {before : List (Vertex × Vertex)} {ops starts tail rest : List Vertex} {s w : Vertex} {n : ℕ}
  {reaches : Vertex → Vertex → Bool}

/-! ## Walks in rounds -/

/-- **What waits for nothing behind it comes first**, in the order of the list, if that order suits. The others are not ready
    as long as what they wait for is left. -/
theorem walkFor_free {free : Vertex → Bool} (htail : ∀ w ∈ tail, free w = false)
    (hready : ∀ u w, (u, w) ∈ before → u ∈ ops ++ tail → free w → free u)
    (hwaits : ∀ w ∈ ops, free w = false → ∃ u ∈ ops ++ tail, (u, w) ∈ before ∧ free u = false)
    (hord : ops.Pairwise fun a b => (b, a) ∉ before) (hirrefl : ∀ a, (a, a) ∉ before) :
    walkFor before (n + (ops.filter free).length) (ops ++ tail) =
      ops.filter free ++ walkFor before n ((ops.filter fun w => !free w) ++ tail) := by
  induction hfree : ops.filter free generalizing ops with
  | nil =>
    have hnone : ops.filter (fun w => !free w) = ops := filter_eq_self.mpr fun w hw => by
      simpa using filter_eq_nil_iff.mp hfree w hw
    rw [hnone]
    rfl
  | cons w rest ih =>
    obtain ⟨as, bs, rfl, has, hw, rfl⟩ := filter_eq_cons_iff.mp hfree
    have herase : (as ++ w :: bs ++ tail).erase w = as ++ bs ++ tail := by
      rw [append_assoc, erase_append_right _ fun hmem => has w hmem hw, cons_append, erase_cons_head, append_assoc]
    have hsubset : ∀ {u}, u ∈ as ++ bs ++ tail → u ∈ as ++ w :: bs ++ tail := fun hu => mem_of_mem_erase (herase ▸ hu)
    have hfind : (as ++ w :: bs ++ tail).find? (isReady before (as ++ w :: bs ++ tail)) = some w := by
      refine find?_eq_some_iff_append.mpr ⟨isReady_iff.mpr fun u hu hmem => ?_, as, bs ++ tail, by simp, fun a ha => ?_⟩
      · -- what lies before `w` would be free and stand behind `w`
        have hfreeu := hready u w hu hmem hw
        rcases mem_append.mp hmem with hmem | hmem
        · rcases mem_append.mp hmem with hmem | hmem
          · exact has u hmem hfreeu
          · rcases mem_cons.mp hmem with rfl | hmem
            · exact hirrefl _ hu
            · exact (pairwise_cons.mp (pairwise_append.mp hord).2.1).1 u hmem hu
        · rw [htail u hmem] at hfreeu
          cases hfreeu
      · obtain ⟨u, hmem, hu, _⟩ := hwaits a (mem_append_left _ ha) (by simpa using has a ha)
        rw [Bool.not_eq_true', ← Bool.not_eq_true, isReady_iff]
        exact fun hnot => hnot u hu hmem
    have hnext := @ih (as ++ bs) (fun u v hu hmem => hready u v hu (hsubset hmem)) (fun v hv hv' => ?_)
      (hord.sublist ((sublist_cons_self w bs).append_left as)) ?_
    · rw [length_cons, ← Nat.add_assoc, walkFor, hfind]
      show w :: walkFor before _ ((as ++ w :: bs ++ tail).erase w) = _
      rw [herase, hnext, filter_append, filter_append, filter_cons_of_neg (by rw [hw]; decide), cons_append]
    · obtain ⟨u, hmem, hu, hfreeu⟩ := hwaits v (((sublist_cons_self w bs).append_left as).subset hv) hv'
      have hne : u ≠ w := by
        rintro rfl
        rw [hw] at hfreeu
        cases hfreeu
      exact ⟨u, herase ▸ (mem_erase_of_ne hne).mpr hmem, hu, hfreeu⟩
    · rw [filter_append, filter_eq_nil_iff.mpr has, nil_append]

lemma walkFor_round {waits : Vertex → Bool} (htail : ∀ t ∈ s :: rest, waits t)
    (hnext : ∀ u w, (u, w) ∈ before → waits u → waits w)
    (hback : ∀ w ∈ ops, waits w → ∃ u ∈ ops.filter waits ++ s :: rest, (u, w) ∈ before) (hapart : s ∉ ops)
    (hstart : ∀ u, (u, s) ∉ before) (hord : ops.Pairwise fun a b => (b, a) ∉ before) (hirrefl : ∀ a, (a, a) ∉ before) :
    walkFor before (ops ++ s :: rest).length (ops ++ s :: rest) =
      (ops.filter fun w => !waits w) ++ s :: walkFor before (ops.filter waits ++ rest).length (ops.filter waits ++ rest) := by
  have hfree : walkFor before ((ops.filter waits ++ rest).length + 1 + (ops.filter fun w => !waits w).length)
      (ops ++ s :: rest) = (ops.filter fun w => !waits w) ++
        walkFor before ((ops.filter waits ++ rest).length + 1) ((ops.filter fun w => !!waits w) ++ s :: rest) := by
    refine walkFor_free (fun t ht => by rw [htail t ht]; rfl) (fun u w hstep _ hw => ?_) (fun w hw hwait => ?_) hord hirrefl
    · rw [Bool.not_eq_true', ← Bool.not_eq_true] at hw ⊢
      exact fun hu => hw (hnext u w hstep hu)
    · obtain ⟨u, hu, hstep⟩ := hback w hw (by simpa using hwait)
      rcases mem_append.mp hu with hu | hu
      · exact ⟨u, mem_append_left _ (mem_of_mem_filter hu), hstep, by rw [(mem_filter.mp hu).2]; rfl⟩
      · exact ⟨u, mem_append_right _ hu, hstep, by rw [htail u hu]; rfl⟩
  have hfind : (ops.filter waits ++ s :: rest).find? (isReady before (ops.filter waits ++ s :: rest)) = some s := by
    refine find?_eq_some_iff_append.mpr ⟨isReady_iff.mpr fun u hu => absurd hu (hstart u), _, rest, rfl, fun w hw => ?_⟩
    obtain ⟨u, hu, hstep⟩ := hback w (mem_of_mem_filter hw) (mem_filter.mp hw).2
    rw [Bool.not_eq_true', ← Bool.not_eq_true, isReady_iff]
    exact fun hnot => hnot u hstep hu
  have herase : (ops.filter waits ++ s :: rest).erase s = ops.filter waits ++ rest := by
    rw [erase_append_right _ fun hs => hapart (mem_of_mem_filter hs), erase_cons_head]
  have hlength : (ops ++ s :: rest).length = (ops.filter waits ++ rest).length + 1 + (ops.filter fun w => !waits w).length := by
    have hsplit := length_eq_length_filter_add (l := ops) waits
    rw [length_append, length_append, length_cons]
    omega
  simp only [Bool.not_not] at hfree
  rw [hlength, hfree, walkFor, hfind]
  show _ ++ s :: walkFor before _ ((ops.filter waits ++ s :: rest).erase s) = _
  rw [herase]

/-- The round of a vertex: how many starts are listed until none of those that are left leads to it. -/
def round (reaches : Vertex → Vertex → Bool) : List Vertex → Vertex → ℕ
  | [], _ => 0
  | s :: rest, w => if (s :: rest).any (reaches · w) then round reaches rest w + 1 else 0

lemma walkFor_rounds {β : Type} {f : Vertex → Option β}
    (hreaches : ∀ s w, reaches s w ↔ ReflTransGen (fun x y => (x, y) ∈ before) s w)
    (hfound : ∀ s ∈ starts, ∀ u w, reaches s u → (u, w) ∈ before → u = s ∨ u ∈ ops)
    (hapart : ∀ s ∈ starts, s ∉ ops) (hstart : ∀ s ∈ starts, ∀ u, (u, s) ∉ before) (hf : ∀ s ∈ starts, f s = none)
    (hord : ops.Pairwise fun a b => (b, a) ∉ before) (hirrefl : ∀ a, (a, a) ∉ before) :
    (walkFor before (ops ++ starts).length (ops ++ starts)).filterMap f =
      (sortedBy (round reaches starts) ops).filterMap f := by
  induction starts generalizing ops with
  | nil =>
    have hwalk : walkFor before (0 + (ops.filter fun _ => true).length) (ops ++ []) = _ :=
      walkFor_free (by simp) (fun _ _ _ _ => id) (by simp) hord hirrefl
    have hsorted : sortedBy (round reaches []) ops = ops :=
      (@sortedBy_succ _ _ (fun _ => 0) (fun _ => false) (fun _ => rfl) ops).trans (by simp [sortedBy])
    rw [hsorted]
    simpa [walkFor] using congrArg (filterMap f) hwalk
  | cons s rest ih =>
    let waits : Vertex → Bool := fun w => (s :: rest).any (reaches · w)
    have hwaits : ∀ {w}, waits w ↔ ∃ t ∈ s :: rest, reaches t w := any_eq_true
    have hround := @walkFor_round before ops rest s waits ?_ ?_ ?_ (hapart s mem_cons_self) (hstart s mem_cons_self)
      hord hirrefl
    have hrest := @ih (ops.filter waits) (fun t ht u w hr hstep => ?_) (fun t ht hmem => ?_)
      (fun t ht => hstart t (mem_cons_of_mem _ ht)) (fun t ht => hf t (mem_cons_of_mem _ ht)) (hord.filter _)
    · rw [hround, filterMap_append, filterMap_cons_none (hf s mem_cons_self), hrest, ← filterMap_append]
      exact congrArg (filterMap f) (sortedBy_succ (fun _ => rfl) ops).symm
    · refine (hfound t (mem_cons_of_mem _ ht) u w hr hstep).imp_right fun hu => mem_filter.mpr ⟨hu, ?_⟩
      exact hwaits.mpr ⟨t, mem_cons_of_mem _ ht, hr⟩
    · exact hapart t (mem_cons_of_mem _ ht) (mem_of_mem_filter hmem)
    · exact fun t ht => hwaits.mpr ⟨t, ht, (hreaches t t).mpr .refl⟩
    · intro u w hstep hu
      obtain ⟨t, ht, hr⟩ := hwaits.mp hu
      exact hwaits.mpr ⟨t, ht, (hreaches t w).mpr (((hreaches t u).mp hr).tail hstep)⟩
    · -- what a start leads to has the start in front of it, or something else that the start leads to
      intro w hw hwait
      obtain ⟨t, ht, hr⟩ := hwaits.mp hwait
      rcases ReflTransGen.cases_tail ((hreaches t w).mp hr) with rfl | ⟨u, hpath, hstep⟩
      · exact absurd hw (hapart _ ht)
      · have hru := (hreaches t u).mpr hpath
        refine ⟨u, mem_append.mpr ?_, hstep⟩
        rcases hfound t ht u w hru hstep with rfl | hu
        · exact .inr ht
        · exact .inl (mem_filter.mpr ⟨hu, hwaits.mpr ⟨t, ht, hru⟩⟩)

lemma round_map {reaches' : Vertex → Vertex → Bool} {ι : Vertex → Vertex}
    (h : ∀ s ∈ starts, reaches' (ι s) (ι w) = reaches s w) : round reaches' (starts.map ι) (ι w) = round reaches starts w := by
  induction starts with
  | nil => rfl
  | cons s rest ih =>
    have hany : ((s :: rest).map ι).any (reaches' · (ι w)) = (s :: rest).any (reaches · w) := by
      rw [any_map, Bool.eq_iff_iff, any_eq_true, any_eq_true]
      exact exists_congr fun t => and_congr_right fun ht => by rw [Function.comp_apply, h t ht]
    rw [map_cons, round, round, ← map_cons, hany, ih fun t ht => h t (mem_cons_of_mem _ ht)]

end Graph

namespace Circuit

open Wireloom.Graph List SortedMap

variable {c c' d : Circuit} {unit unit' : Pin → UnitId} {reverseOp : Op → Except CircuitError Op} {ι : Vertex → Vertex}
  {u : UnitId} {ends : Ends} {v w x y : Vertex} {p q : Pin} {op : Op} {args : List UnitId} {og : Option String}
  {cmd : Command} {phase : Angle}

/-! ## Circuits built from nothing -/

/-- **A circuit made one operation after the other on units that were there before**: the vertices were made unit by unit, and
    then one for each command. -/
structure Laid (c : Circuit) : Prop where
  wellFormed : c.WellFormed
  sequenced : c.Sequenced
  made : c.graph.bySequence.map Prod.fst =
    (c.boundary.entries.flatMap fun p => [p.2.input, p.2.output]) ++ c.commands.map Command.vertex

lemma made_foldl_insertUnit {us : List UnitId} (hus : (c.boundary.entries.map Prod.fst ++ us).Pairwise fun u w => compare u w = .lt)
    (hg : c.graph.Valid) (hseq : c.Sequenced)
    (hmade : c.graph.bySequence.map Prod.fst = c.boundary.entries.flatMap fun p => [p.2.input, p.2.output]) :
    (us.foldl insertUnit c).graph.bySequence.map Prod.fst =
      (us.foldl insertUnit c).boundary.entries.flatMap fun p => [p.2.input, p.2.output] := by
  induction us generalizing c with
  | nil => exact hmade
  | cons u rest ih =>
    have hentries : (c.insertUnit u).boundary.entries = c.boundary.entries ++ [(u, newEnds c.graph u)] :=
      insertEntry_of_lt fun p hp => (pairwise_append.mp hus).2.2 _ (mem_map_of_mem hp) u mem_cons_self
    have hvertices : (c.insertUnit u).graph.bySequence.map Prod.fst = c.graph.bySequence.map Prod.fst ++
        [(newEnds c.graph u).input] ++ [(newEnds c.graph u).output] := by
      have hfirst : (c.graph.withVertex (.input u.kind.wire) none).bySequence.map Prod.fst = _ := made_withVertex hg hseq
      have hlast : (wiredGraph c.graph u).bySequence.map Prod.fst = _ :=
        (made_of_vertices rfl).trans (made_withVertex (hg.withVertex _ none) (Graph.Sequenced.withVertex hseq))
      rw [hfirst] at hlast
      exact hlast
    refine ih ?_ (valid_wiredGraph hg u) (Graph.Sequenced.withVertex (Graph.Sequenced.withVertex hseq)) ?_
    · rw [hentries, map_append, append_assoc]
      exact hus
    · rw [hentries, hvertices, hmade, flatMap_append, append_assoc]
      rfl

lemma laid_ofUnits (qubits bits : ℕ) : (ofUnits qubits bits).Laid := by
  have hbare := (Blank.ofUnits qubits bits).bare
  refine ⟨ofUnits_wellFormed qubits bits, hbare.sequenced, ?_⟩
  rw [hbare.commands_eq_nil (ofUnits_wellFormed qubits bits), map_nil, append_nil]
  exact made_foldl_insertUnit (pairwise_defaultUnits qubits bits) (wellFormed_empty rfl rfl).valid
    (fun _ _ hn => nomatch hn) rfl

lemma addOp_laid (op : Op) (args : List UnitId) (og : Option String) : Keeps Laid (addOp op args og) := by
  intro c v c' h hrun
  obtain ⟨_, _, _, hext⟩ := addOp_eq_ok h.wellFormed.wired hrun
  refine ⟨hext.wired'.wellFormed, addOp_sequenced op args og _ _ _ h.sequenced hrun, ?_⟩
  rw [hext.boundary, hext.commands_eq h.sequenced, map_append, ← append_assoc, ← h.made,
    made_of_vertices hext.vertices, made_withVertex hext.valid h.sequenced]
  rfl

/-! ## Turned round -/

/-- **A command and what stands for it in the circuit run backwards**: the reversed operation on the same units, in the same
    opgroup. -/
structure Turned (reverseOp : Op → Except CircuitError Op) (cmd cmd' : Command) : Prop where
  op : reverseOp cmd.op = .ok cmd'.op
  args : cmd'.args = cmd.args
  opgroup : cmd'.opgroup = cmd.opgroup

/-- The round of a command when the circuit is run backwards. Units start there from the last one on, and the command waits
    for those whose ends it leads to. -/
def turn (c : Circuit) (cmd : Command) : ℕ :=
  round (fun out v => (c.graph.reachable [v]).contains out) (c.boundary.entries.map fun p => p.2.output).reverse cmd.vertex

lemma Wired.path_to_output (h : c.Wired unit) {k : WireKind} (hp : c.graph.net.wireAt p = some k)
    (hk : k.isLinear) : ∃ ends, c.boundary.get? (unit p) = some ends ∧
      Relation.ReflTransGen c.graph.net.Joined p ⟨ends.output, 0⟩ := by
  obtain ⟨_, _, hbound, hrank⟩ := h.exists_rank
  obtain ⟨_, ⟨u, ends, hu, rfl⟩, hpath⟩ :=
    Net.exists_last h.threaded.toFitted h.complete hbound (fun _ => hrank.link) hp hk
  rw [h.threaded.unit_of_joined hpath, h.unit_output hu]
  exact ⟨ends, hu, hpath⟩

lemma precedes_iff_linked (hg : c.graph.Valid) (hlin : ∀ {l}, c.graph.HasLink l → l.kind.isLinear) :
    (x, y) ∈ c.graph.linkPairs ++ c.graph.hazards ↔ c.Linked x y := by
  rw [mem_append, mem_linkPairs hg]
  refine or_iff_left fun hhazard => ?_
  obtain ⟨a, _, ha, _, hk, _⟩ := links_of_hazard hg hhazard
  exact WireKind.ne_boolean (hlin ha) hk

namespace IsReversal

variable (hrev : IsReversal reverseOp ι c d)
include hrev

lemma linked (h : c.Linked v w) : d.Linked (ι w) (ι v) := by
  obtain ⟨l, hl, rfl, rfl⟩ := h
  exact ⟨_, (hrev.link _).mpr ⟨l, hl, rfl⟩, rfl, rfl⟩

lemma of_linked (h : d.Linked x y) : ∃ v w, c.Linked v w ∧ x = ι w ∧ y = ι v := by
  obtain ⟨m, hm, rfl, rfl⟩ := h
  obtain ⟨l, hl, rfl⟩ := (hrev.link m).mp hm
  exact ⟨_, _, ⟨l, hl, rfl, rfl⟩, rfl, rfl⟩

lemma path_iff (hg : c.graph.Valid) (hv : c.graph.Live v) (hw : c.graph.Live w) :
    Relation.ReflTransGen d.Linked (ι w) (ι v) ↔ Relation.ReflTransGen c.Linked v w := by
  have hlive : ∀ {x y}, c.Linked x y → c.graph.Live x ∧ c.graph.Live y := by
    rintro x y ⟨l, hl, rfl, rfl⟩
    exact ⟨hg.source_live hl, hg.target_live hl⟩
  constructor
  · intro hpath
    have hback : ∀ {y}, Relation.ReflTransGen d.Linked (ι w) y →
        ∃ x, c.graph.Live x ∧ y = ι x ∧ Relation.ReflTransGen c.Linked x w := by
      intro y hpath
      induction hpath with
      | refl => exact ⟨w, hw, rfl, .refl⟩
      | tail _ hstep ih =>
        obtain ⟨x, hx, rfl, hpath⟩ := ih
        obtain ⟨a, b, hab, hb, rfl⟩ := hrev.of_linked hstep
        cases hrev.injective hx (hlive hab).2 hb
        exact ⟨a, (hlive hab).1, rfl, .head hab hpath⟩
    obtain ⟨x, hx, heq, hpath⟩ := hback hpath
    cases hrev.injective hv hx heq
    exact hpath
  · intro hpath
    induction hpath using Relation.ReflTransGen.head_induction_on with
    | refl => exact .refl
    | head hstep _ ih => exact (ih (hlive hstep).2).tail (hrev.linked hstep)

lemma unit_eq (h : c.Wired unit) (h' : d.Wired unit') {k : WireKind} (hp : c.graph.net.wireAt p = some k)
    (hk : k.isLinear) : unit' (p.map ι) = unit p := by
  obtain ⟨ends, hu, hpath⟩ := h.path_to_output hp hk
  have hends : d.boundary.get? (unit p) = some (ends.reverseMap ι) := by
    rw [hrev.boundary, hu]
    rfl
  refine h'.unit_of_onWire ⟨_, hends, ?_⟩
  clear hp hu hends
  induction hpath using Relation.ReflTransGen.head_induction_on with
  | refl => exact .refl
  | head hstep _ ih =>
    obtain ⟨k, hk, hl⟩ := hstep
    exact ih.tail ⟨k, hk, (hrev.link _).mpr ⟨_, hl, rfl⟩⟩

lemma command_turned (h : c.Wired unit) (h' : d.Wired unit')
    (hop : KeepsSignature reverseOp) (hr : c.Reversible reverseOp) (hcmd : c.commandAt unit v = some cmd) :
    ∃ cmd', d.commandAt unit' (ι v) = some cmd' ∧ Turned reverseOp cmd cmd' := by
  obtain ⟨rfl, hargs, k, hn⟩ := of_commandAt hcmd
  obtain ⟨⟨_, _, _⟩, hn', hkind, rfl⟩ := hrev.node hn
  obtain ⟨op', hop', rfl⟩ := except_map_eq_ok.mp hkind
  have hkind : c.graph.kind? cmd.vertex = some (.op cmd.op) := kind?_of_get? hn
  have hkind' : d.graph.kind? (ι cmd.vertex) = some (.op op') := kind?_of_get? hn'
  refine ⟨⟨op', _, _, _⟩, by unfold commandAt; rw [hn'], hop', ?_, rfl⟩
  rw [hargs]
  refine units_eq_of_links h h' hn hn' (h.not_isInput_of_op hkind) (h'.not_isInput_of_op hkind') (hop _ _ hop')
    fun m hm hmv => ?_
  obtain ⟨l, hl, rfl⟩ := (hrev.link m).mp hm
  have hv := hrev.injective (h.valid.source_live hl) (live_of_kind? hkind) hmv
  obtain ⟨before, hbefore, htarget⟩ := (h.complete.fed_iff (h.threaded.source_wire hl)).mpr
    (by rw [hv]; exact h.not_isInput_of_op hkind)
  refine ⟨before, hbefore, by rw [htarget, hv], by rw [htarget]; rfl, ?_⟩
  calc unit before.source
    _ = unit l.source := by rw [h.threaded.same_unit hbefore (hr.linear hbefore), htarget]
    _ = unit l.target := h.threaded.same_unit hl (hr.linear hl)
    _ = unit' (l.target.map ι) := (hrev.unit_eq h h' (h.threaded.target_wire hl) (hr.linear hl)).symm

end IsReversal

/-! ## Rounds of commands -/

lemma Laid.mem_commands (h : c.Laid) (hv : c.graph.Live v) (hin : ¬ c.IsInput v) (hout : ¬ c.IsOutput v) :
    v ∈ c.commands.map Command.vertex := by
  have hmem := (mem_map_bySequence h.wellFormed.valid).mpr hv
  rw [h.made] at hmem
  refine (mem_append.mp hmem).resolve_left fun hends => ?_
  obtain ⟨⟨u, ends⟩, hu, hmem⟩ := mem_flatMap.mp hends
  have hget := get?_iff_mem.mpr hu
  rcases mem_cons.mp hmem with rfl | hmem
  · exact hin ⟨u, ends, hget, rfl⟩
  · exact hout ⟨u, ends, hget, (mem_singleton.mp hmem).symm⟩

lemma Wired.pairwise_commands (h : c.Wired unit) : (c.commands.map Command.vertex).Pairwise fun v w => ¬ c.Linked w v := by
  have hwalk : ∀ {done rest}, c.graph.walk = done ++ rest → rest.Pairwise fun v w => ¬ c.Linked w v := by
    intro done rest hwalk
    induction rest generalizing done with
    | nil => exact .nil
    | cons v rest ih =>
      refine pairwise_cons.mpr ⟨fun w hw hstep => ?_, ih (hwalk.trans (append_cons done v rest))⟩
      obtain ⟨l, hl, rfl, rfl⟩ := hstep
      have hnodup := nodup_walk h.valid
      rw [hwalk] at hnodup
      exact (nodup_append.mp hnodup).2.2 _ (walk_after h.valid h.threaded hwalk (.link hl)) _ (mem_cons_of_mem _ hw) rfl
  rw [h.map_vertex_commands]
  exact (@hwalk [] _ rfl).filter _

lemma Wired.commandAt_of_isInput (h : c.Wired unit) (hv : c.IsInput v) : c.commandAt unit v = none := by
  cases hcmd : c.commandAt unit v with
  | none => rfl
  | some cmd =>
    obtain ⟨_, _, k, hn⟩ := of_commandAt hcmd
    exact absurd hv (h.not_isInput_of_op (kind?_of_get? hn))

lemma contains_reachable (hg : c.graph.Valid) : (c.graph.reachable [v]).contains w ↔ Relation.ReflTransGen c.Linked v w := by
  rw [contains_iff_mem]
  refine ⟨fun hw => ?_, mem_reachable hg (mem_singleton_self v)⟩
  obtain ⟨x, hx, hpath⟩ := path_of_mem_growFor hg hw
  cases mem_singleton.mp (mem_eraseDups.mp hx)
  exact hpath

lemma forall₂_filterMap {α β : Type} {R : α → β → Prop} {f : α → Option β} {l : List α}
    (h : ∀ a ∈ l, ∃ b, f a = some b ∧ R a b) : Forall₂ R l (l.filterMap f) := by
  induction l with
  | nil => exact .nil
  | cons a rest ih =>
    obtain ⟨⟨b, hb, hab⟩, hrest⟩ := forall_mem_cons.mp h
    rw [filterMap_cons_some hb]
    exact .cons hab (ih hrest)

namespace IsReversed

variable (hrev : IsReversed reverseOp phase ι c d)
include hrev

lemma isInput (hu : c.boundary.get? u = some ends) : d.IsInput (ι ends.output) :=
  ⟨u, _, (hrev.boundary u).trans (congrArg (Option.map _) hu), rfl⟩

lemma isOutput (hu : c.boundary.get? u = some ends) : d.IsOutput (ι ends.input) :=
  ⟨u, _, (hrev.boundary u).trans (congrArg (Option.map _) hu), rfl⟩

/-- **What a walk through the reversed circuit goes by**: operations in the opposite order, and behind them the units. -/
theorem made_inner (h : c.Laid) (hinner : ∀ cmd ∈ c.commands, d.isInner (ι cmd.vertex)) :
    (d.graph.bySequence.map Prod.fst).filter d.isInner = (c.commands.reverse.map fun cmd => ι cmd.vertex) ++
      (c.boundary.entries.map fun p => p.2.output).reverse.map ι := by
  have hends : ∀ {es : List (UnitId × Ends)}, es ⊆ c.boundary.entries →
      ((es.flatMap fun p => [p.2.input, p.2.output]).map ι).reverse.filter d.isInner =
        (es.map fun p => p.2.output).reverse.map ι := by
    intro es hes
    induction es with
    | nil => rfl
    | cons p rest ih =>
      have hp := get?_iff_mem.mpr (hes mem_cons_self)
      have hfirst := hrev.wellFormed.isInner_iff.mpr (hrev.wellFormed.not_isOutput (hrev.isInput hp))
      have hlast : ¬ d.isInner (ι p.2.input) := fun hinner =>
        hrev.wellFormed.isInner_iff.mp hinner (hrev.isOutput hp)
      simp only [flatMap_cons, map_append, map_cons, map_nil, reverse_cons, nil_append, append_nil,
        filter_append, cons_append, filter_cons_of_pos hfirst, filter_cons_of_neg hlast, filter_nil,
        ih fun q hq => hes (mem_cons_of_mem _ hq)]
  rw [hrev.made, h.made, map_append, reverse_append, filter_append, hends (Subset.refl _), map_map, ← map_reverse]
  congr 1
  refine filter_eq_self.mpr fun w hw => ?_
  obtain ⟨cmd, hcmd, rfl⟩ := mem_map.mp hw
  exact hinner cmd (mem_reverse.mp hcmd)

lemma eq_or_mem_of_path (h : c.Laid) (hpath : Relation.ReflTransGen d.Linked x y) (hstep : d.Linked y w) : y = x ∨ y ∈ c.commands.reverse.map fun cmd => ι cmd.vertex := by
  have hd := hrev.wellFormed.wired
  rcases Relation.ReflTransGen.cases_tail hpath with heq | ⟨_, _, l, hl, rfl, rfl⟩
  · exact .inl heq
  obtain ⟨m, hm, hsource, _⟩ := hstep
  obtain ⟨v, hv, hvl⟩ := hrev.surjective (hd.valid.target_live hl)
  have hin : ¬ c.IsInput v := by
    rintro ⟨u, ends, hu, rfl⟩
    exact hd.complete.source_open hm (hsource ▸ hvl ▸ hrev.isOutput hu)
  have hout : ¬ c.IsOutput v := by
    rintro ⟨u, ends, hu, rfl⟩
    exact hd.target_open hl (hvl ▸ hrev.isInput hu)
  obtain ⟨cmd, hcmd, rfl⟩ := mem_map.mp (h.mem_commands hv hin hout)
  exact .inr (mem_map.mpr ⟨cmd, mem_reverse.mpr hcmd, hvl⟩)

lemma pairwise_commands (h : c.WellFormed) :
    (c.commands.reverse.map fun cmd => ι cmd.vertex).Pairwise fun x y => ¬ d.Linked y x := by
  refine pairwise_map.mpr (pairwise_reverse.mpr ?_)
  refine (pairwise_map.mp h.wired.pairwise_commands).imp_of_mem fun ha hb hnot hstep => hnot ?_
  obtain ⟨v, w, ⟨l, hl, rfl, rfl⟩, hw, hv⟩ := hrev.of_linked hstep
  obtain ⟨_, _, _, hna⟩ := of_commandAt (h.wired.mem_commands.mp ha)
  obtain ⟨_, _, _, hnb⟩ := of_commandAt (h.wired.mem_commands.mp hb)
  exact ⟨l, hl, (hrev.injective (live_of_get? hnb) (h.valid.source_live hl) hv).symm,
    (hrev.injective (live_of_get? hna) (h.valid.target_live hl) hw).symm⟩

end IsReversed

/-- **Run backwards, a circuit lists its commands in rounds**, and within a round in the opposite order. -/
theorem reversed_in_rounds (hop : KeepsSignature reverseOp) (h : c.Laid) (hrun : c.reversed reverseOp phase = .ok d) :
    Forall₂ (Turned reverseOp) (sortedBy c.turn c.commands.reverse) d.commands := by
  obtain ⟨ι, hrev⟩ := reversed_eq_ok hop h.wellFormed hrun
  have hr := reversible_of_ok h.wellFormed hrun
  have hc := h.wellFormed.wired
  have hd := hrev.wellFormed.wired
  have hlin : ∀ {m}, d.graph.HasLink m → m.kind.isLinear := by
    intro m hm
    obtain ⟨l, hl, rfl⟩ := (hrev.link m).mp hm
    exact hr.linear (l := l) hl
  have hbefore : ∀ {x y}, (x, y) ∈ d.graph.linkPairs ++ d.graph.hazards ↔ d.Linked x y :=
    precedes_iff_linked hd.valid hlin
  have hturned : ∀ cmd ∈ c.commands.reverse, ∃ cmd', d.commandAt (WellFormed.unitAt d) (ι cmd.vertex) = some cmd' ∧
      Turned reverseOp cmd cmd' :=
    fun cmd hcmd => hrev.command_turned hc hd hop hr (hc.mem_commands.mp (mem_reverse.mp hcmd))
  have hstarts : ∀ x ∈ (c.boundary.entries.map fun p => p.2.output).reverse.map ι, d.IsInput x := by
    intro x hx
    obtain ⟨_, hout, rfl⟩ := mem_map.mp hx
    obtain ⟨p, hp, rfl⟩ := mem_map.mp (mem_reverse.mp hout)
    exact hrev.isInput (get?_iff_mem.mpr hp)
  have hinner : ∀ cmd ∈ c.commands, d.isInner (ι cmd.vertex) := by
    intro cmd hcmd
    obtain ⟨cmd', hcmd', _⟩ := hturned cmd (mem_reverse.mpr hcmd)
    obtain ⟨_, _, k, hn⟩ := of_commandAt hcmd'
    simp [isInner, kind?, hn, NodeKind.isEnd]
  -- paths to the end of a wire in `c` are those from its start in `d`, so turns are rounds
  have hkey : ∀ cmd ∈ c.commands.reverse, round (fun x y => (d.graph.reachable [x]).contains y)
      ((c.boundary.entries.map fun p => p.2.output).reverse.map ι) (ι cmd.vertex) = c.turn cmd := by
    intro cmd hcmd
    obtain ⟨_, _, k, hn⟩ := of_commandAt (hc.mem_commands.mp (mem_reverse.mp hcmd))
    refine round_map fun x hx => ?_
    obtain ⟨p, hp, rfl⟩ := mem_map.mp (mem_reverse.mp hx)
    rw [Bool.eq_iff_iff, contains_reachable hd.valid, contains_reachable hc.valid]
    exact hrev.path_iff hc.valid (live_of_get? hn) (hc.live_output (get?_iff_mem.mpr hp))
  have hcommands : d.commands = ((sortedBy c.turn c.commands.reverse).map fun cmd => ι cmd.vertex).filterMap
      (d.commandAt (WellFormed.unitAt d)) := by
    rw [map_sortedBy hkey, hd.commands_filter fun w _ hw => hd.isInner_iff.mpr hw]
    unfold walk walkBy
    rw [filter_walkFor ?_ le_rfl le_rfl, hrev.made_inner h hinner, walkFor_rounds]
    · intro x y
      rw [contains_reachable hd.valid]
      simp only [hbefore]
    · intro x _ y w hpath hstep
      exact hrev.eq_or_mem_of_path h ((contains_reachable hd.valid).mp hpath) (hbefore.mp hstep)
    · intro x hx hmem
      obtain ⟨cmd, hcmd, rfl⟩ := mem_map.mp hmem
      obtain ⟨cmd', hcmd', _⟩ := hturned cmd hcmd
      cases (hd.commandAt_of_isInput (hstarts _ hx)).symm.trans hcmd'
    · intro x hx y hstep
      obtain ⟨l, hl, _, rfl⟩ := hbefore.mp hstep
      exact hd.target_open hl (hstarts _ hx)
    · exact fun x hx => hd.commandAt_of_isInput (hstarts x hx)
    · exact (hrev.pairwise_commands h.wellFormed).imp fun hnot hstep => hnot (hbefore.mp hstep)
    · intro x hstep
      obtain ⟨l, hl, hx, rfl⟩ := hbefore.mp hstep
      exact hd.acyclic.no_loop hl hx
    · intro x y hstep _
      obtain ⟨l, hl, rfl, _⟩ := hbefore.mp hstep
      exact hd.isInner_iff.mpr (hd.complete.source_open hl)
  rw [hcommands, filterMap_map]
  exact forall₂_filterMap fun cmd hcmd => hturned cmd (mem_sortedBy.mp hcmd)

/-- **The dagger of a circuit that was built one operation after the other** has the daggers of the operations on the same units,
    in the same opgroups, and lists them in rounds: each of its commands stands for the command in the same place when the
    commands, in the opposite order, are sorted by their turns. So where no command overtakes another the order is the
    opposite one. -/
theorem dagger_commands_in_rounds {qubits bits : ℕ} {cmds : List Command}
    (hbuild : (ofUnits qubits bits).edited (replay cmds) = .ok c) (hd : c.dagger = .ok d) :
    Forall₂ (Turned Op.dagger) (sortedBy c.turn c.commands.reverse) d.commands ∧
      ((c.commands.reverse.Pairwise fun a b => c.turn a ≤ c.turn b) →
        Forall₂ (Turned Op.dagger) c.commands.reverse d.commands) := by
  have hlaid : c.Laid := (Keeps.forM fun cmd _ => (addOp_laid _ _ _).discard).edited (laid_ofUnits qubits bits) hbuild
  have hrounds := reversed_in_rounds (fun _ _ => Op.signature_dagger) hlaid hd
  refine ⟨hrounds, fun hsorted => ?_⟩
  rwa [sortedBy_of_pairwise hsorted] at hrounds

/-- What ends on the last qubit comes first, and a gate in an opgroup stays in it. -/
theorem dagger_commands_in_rounds_pair : ∃ c d, (ofUnits 2 0).edited (replay [⟨.gate .h, [.qubit 0], none, ⟨0, 0⟩⟩,
      ⟨.gate .s, [.qubit 1], none, ⟨0, 0⟩⟩, ⟨.gate .cx, [.qubit 0, .qubit 1], some "pair", ⟨0, 0⟩⟩,
      ⟨.gate .x, [.qubit 1], none, ⟨0, 0⟩⟩]) = .ok c ∧ c.dagger = .ok d ∧
    c.commands.reverse.map c.turn = [1, 2, 2, 2] ∧ Forall₂ (Turned Op.dagger) c.commands.reverse d.commands := by
  simp only [exists_and_left]
  refine exists_run fun c hc => exists_and_of (of_run hc (by decide +kernel)) fun d hd => ?_
  have hturns : c.commands.reverse.map c.turn = [1, 2, 2, 2] := of_run hc (by decide +kernel)
  refine ⟨hturns, (dagger_commands_in_rounds hc hd).2 (pairwise_map.mp ?_)⟩
  rw [hturns]
  decide

/-- **Commands that have nothing to do with each other can keep their order**: after a gate on the last qubit and one on the
    first, that on the last comes first in the dagger, too. -/
theorem dagger_keeps_order : ∃ c d, (ofUnits 2 0).edited (replay [⟨.gate .x, [.qubit 1], none, ⟨0, 0⟩⟩,
      ⟨.gate .h, [.qubit 0], none, ⟨0, 0⟩⟩]) = .ok c ∧ c.dagger = .ok d ∧
    c.commands.map Command.args = [[.qubit 1], [.qubit 0]] ∧ d.commands.map Command.args = [[.qubit 1], [.qubit 0]] ∧
    ¬ Forall₂ (Turned Op.dagger) c.commands.reverse d.commands := by
  simp only [exists_and_left]
  refine exists_run fun c hc => exists_and_of (of_run hc (by decide +kernel)) fun d hd => ?_
  have hargs : c.commands.map Command.args = [[.qubit 1], [.qubit 0]] := of_run hc (by decide +kernel)
  have hargs' : d.commands.map Command.args = [[.qubit 1], [.qubit 0]] := of_run hd (of_run hc (by decide +kernel))
  refine ⟨hargs, hargs', fun hturned => ?_⟩
  have hsame : d.commands.map Command.args = c.commands.reverse.map Command.args :=
    (forall₂_eq_eq_eq ▸ forall₂_map_left_iff.mpr (forall₂_map_right_iff.mpr (hturned.flip.imp fun _ _ h => h.args)))
  rw [map_reverse, hargs, hargs'] at hsame
  revert hsame
  decide

end Circuit

end Wireloom
