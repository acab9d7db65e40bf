import Wireloom.Proofs.Reduction

/-!
# `Circuit.rename`, `Circuit.removeBlankWires` — what the upkeep of units does to the commands

A wire is blank just if no command touches its unit (`isBlank_iff`), so taking out the blank wires leaves the commands as
they are. Flattening counts the units of each kind in order, so no two of them get one name.
-/

namespace Wireloom

open Wireloom.Graph Net List Option SortedMap

variable {c c' : Circuit} {unit : Pin → UnitId} {ρ : Renaming} {u w : UnitId} {ends : Ends} {v : Vertex}

namespace Circuit

/-! ## Idle units -/

lemma IsBlank.notMem_args (hblank : c.IsBlank ends) (h : c.Wired unit) (hu : c.boundary.get? u = some ends)
    {cmd : Command} (hcmd : cmd ∈ c.commands) : u ∉ cmd.args := by
  intro hmem
  obtain ⟨l, hl, htarget, rfl⟩ := h.exists_link_of_mem hcmd hmem
  obtain ⟨_, hu', hpath⟩ := h.onWire_unit (h.threaded.source_wire hl) (WireKind.isLinear_carrier _)
  cases mem_unique hu hu'
  have hout : c.IsOutput ends.output := ⟨_, ends, hu, rfl⟩
  rcases Relation.ReflTransGen.cases_head hpath with hsource | ⟨q, ⟨k, _, hq⟩, hrest⟩
  · -- the command would stand at the output
    obtain ⟨i, hi⟩ := getElem?_of_mem hcmd
    obtain ⟨k, hk, hend⟩ := h.stops hu
    rw [← hblank l hl (by rw [← hsource]), htarget, h.kind_command hi] at hk
    cases hk
    cases hend
  · have hend : q.vertex = ends.output := hblank _ hq rfl
    rcases Relation.ReflTransGen.cases_head hrest with rfl | ⟨_, ⟨_, _, hnext⟩, _⟩
    · exact h.complete.source_open hl (hend ▸ hout)
    · exact h.complete.source_open hnext (hend ▸ hout)

/-- **A wire is blank if no command touches its unit**, and only then. -/
theorem isBlank_iff (h : c.Wired unit) (hu : c.boundary.get? u = some ends) :
    c.IsBlank ends ↔ ∀ cmd ∈ c.commands, u ∉ cmd.args := by
  refine ⟨fun hblank cmd hcmd => hblank.notMem_args h hu hcmd, fun hidle l hl hsource => ?_⟩
  have hpin := (pin_of_single (by rw [hsource]; exact h.signature_input hu) (h.threaded.source_wire hl)).1
  rw [hsource] at hpin
  obtain ⟨k, hk⟩ := live_iff_kind?.mp (h.valid.target_live hl)
  cases hb : k.isBoundary with
  | true =>
    obtain ⟨u', ends', hu', heq⟩ := (h.only_ops hk hb).resolve_left (h.target_open hl)
    obtain ⟨htarget, hkind⟩ := pin_of_single (by rw [← heq]; exact h.signature_output hu') (h.threaded.target_wire hl)
    have hsame := h.threaded.same_unit hl (hkind ▸ WireKind.isLinear_wire _)
    rw [hpin, h.unit_input hu, htarget, ← heq, h.unit_output hu'] at hsame
    subst hsame
    rw [← heq, mem_unique hu hu']
  | false =>
    obtain ⟨op, rfl⟩ := exists_op_of_not_isBoundary hb
    obtain ⟨cmd, hcmd⟩ := exists_commandAt unit hk
    obtain ⟨hvertex, hargs, _⟩ := of_commandAt hcmd
    obtain ⟨e, he⟩ := hl
    refine absurd ?_ (hidle cmd (h.mem_commands.mpr (hvertex ▸ hcmd)))
    have hmem := mem_map_of_mem (f := fun p => unit p.2.source) ((mem_inLinks h.valid).mpr ⟨he, rfl⟩)
    rwa [← hargs, hpin, h.unit_input hu] at hmem

/-! ## Commands without the idle units -/

section

variable {blank : List (UnitId × Ends)} (h : c.Wired unit) (hall : ∀ x ∈ blank, c.boundary.get? x.1 = some x.2 ∧ c.IsBlank x.2)
include h hall

lemma offWires_iff {l : Link} (hl : c.graph.HasLink l) : OffWires blank l.source.vertex ↔ OffWires blank l.target.vertex := by
  refine forall₂_congr fun x hx => ?_
  have hclosed := ((hall x hx).2.closed h (hall x hx).1 hl).1
  tauto

lemma offWires_of_before {w : Vertex} (hvw : c.graph.net.Before v w) (hw : OffWires blank w) : OffWires blank v := by
  cases hvw with
  | link hl => exact (offWires_iff h hall hl).mpr hw
  | hazard ha hb _ _ heq =>
    have hoff := (offWires_iff h hall hb).mpr hw
    rwa [← heq, offWires_iff h hall ha] at hoff

lemma offWires_of_op {op : Op} (hk : c.graph.kind? v = some (.op op)) : OffWires blank v := by
  refine fun x hx => ⟨fun heq => h.not_isInput_of_op hk ⟨x.1, x.2, (hall x hx).1, heq.symm⟩, ?_⟩
  rintro rfl
  obtain ⟨_, hk', hend⟩ := h.stops (hall x hx).1
  cases mem_unique hk hk'
  cases hend

variable (htrim : IsTrimmed blank c c') (h' : c'.Wired unit)
include htrim

lemma IsTrimmed.hasLink_iff (l : Link) : c'.graph.HasLink l ↔ c.graph.HasLink l ∧ OffWires blank l.target.vertex := by
  rw [htrim.link]
  refine and_congr_right fun hl => ?_
  constructor
  · intro hoff x hx
    obtain ⟨_, _, htarget⟩ := (hall x hx).2.closed h (hall x hx).1 hl
    exact ⟨htarget, (hoff x hx).2⟩
  · intro hoff x hx
    exact ⟨((offWires_iff h hall hl).mpr hoff x hx).1, (hoff x hx).2⟩

lemma IsTrimmed.before_iff {w : Vertex} (hw : OffWires blank w) : c'.graph.net.Before v w ↔ c.graph.net.Before v w := by
  have hlink := htrim.hasLink_iff h hall
  constructor
  · rintro (hl | ⟨ha, hb, hread, hwrite, heq⟩)
    · exact .link ((hlink _).mp hl).1
    · exact .hazard ((hlink _).mp ha).1 ((hlink _).mp hb).1 hread hwrite heq
  · intro hvw
    have hv := offWires_of_before h hall hvw hw
    cases hvw with
    | link hl => exact .link ((hlink _).mpr ⟨hl, hw⟩)
    | hazard ha hb hread hwrite heq =>
      exact .hazard ((hlink _).mpr ⟨ha, hv⟩) ((hlink _).mpr ⟨hb, hw⟩) hread hwrite heq

include h'

lemma IsTrimmed.walk_eq : c'.graph.walk = c.graph.walk.filter fun v => OffWires blank v := by
  unfold walk walkBy
  rw [htrim.made, filter_walkFor (fun v w hvw hw => ?_) le_rfl le_rfl]
  · refine walkFor_congr fun v hv w hw => ?_
    rw [mem_pairs_iff h'.valid h'.threaded, mem_pairs_iff h.valid h.threaded]
    exact htrim.before_iff h hall (of_decide_eq_true (mem_filter.mp hw).2)
  · rw [mem_pairs_iff h.valid h.threaded] at hvw
    exact decide_eq_true (offWires_of_before h hall hvw (of_decide_eq_true hw))

lemma IsTrimmed.commands_eq : c'.commands = c.commands := by
  rw [h'.commands_eq, h.commands_eq, htrim.walk_eq h hall h', filterMap_filter]
  refine filterMap_congr fun v _ => ?_
  split
  · next hoff =>
    refine commandAt_eq_of_links h h' ?_ fun m hm _ => ⟨m, ((htrim.link m).mp hm).1, rfl, rfl⟩
    exact Option.ext fun n => htrim.node.trans (and_iff_left (of_decide_eq_true hoff))
  · next hoff =>
    refine (eq_none_iff_forall_ne_some.mpr fun cmd hcmd => hoff (decide_eq_true ?_)).symm
    obtain ⟨_, _, _, hn⟩ := of_commandAt hcmd
    exact offWires_of_op h hall (kind?_of_get? hn)

end

open Classical in
lemma blank_units_eq (h : c.Wired unit) : (c.boundary.entries.filter fun x => c.IsBlank x.2).map Prod.fst =
    c.units.filter fun u => ∀ cmd ∈ c.commands, u ∉ cmd.args := by
  unfold units SortedMap.keys
  rw [List.filter_map]
  refine congrArg (map _) (filter_congr fun x hx => ?_)
  exact decide_eq_decide.mpr (isBlank_iff h (get?_iff_mem.mpr hx))

/-- **Taking out blank wires** takes out the units that no command touches, in order, and nothing else: the other units keep
    their ends, and the commands and the phase stay. The second time there is nothing to take out. -/
theorem removeBlankWires_exact (h : c.WellFormed) : ∃ c',
    removeBlankWires c = .ok (c.units.filter fun u => ∀ cmd ∈ c.commands, u ∉ cmd.args) c' ∧ c'.WellFormed ∧
    (∀ u, c'.boundary.get? u = if ∃ cmd ∈ c.commands, u ∈ cmd.args then c.boundary.get? u else none) ∧
    c'.commands = c.commands ∧ c'.phase = c.phase ∧ removeBlankWires c' = .ok [] c' := by
  classical
  obtain ⟨c', hrun, hw, htrim⟩ := removeBlankWires_run h.wired
  have hcommands := htrim.commands_eq h.wired (fun x hx => by
    obtain ⟨hx, hblank⟩ := mem_filter.mp hx
    exact ⟨get?_iff_mem.mpr hx, of_decide_eq_true hblank⟩) hw
  have hends := htrim.ends
  rw [blank_units_eq h.wired] at hrun hends
  replace hends : ∀ u, c'.boundary.get? u = if ∃ cmd ∈ c.commands, u ∈ cmd.args then c.boundary.get? u else none := by
    intro u
    rw [hends]
    split
    · next hmem =>
      rw [if_neg]
      rintro ⟨cmd, hcmd, hu⟩
      exact of_decide_eq_true (mem_filter.mp hmem).2 cmd hcmd hu
    · next hmem =>
      split
      · rfl
      · next hidle =>
        refine eq_none_iff_forall_ne_some.mpr fun ends hu => hmem (mem_filter.mpr ⟨mem_keys_iff.mpr ⟨ends, hu⟩, ?_⟩)
        exact decide_eq_true fun cmd hcmd hargs => hidle ⟨cmd, hcmd, hargs⟩
  -- each unit that is left is touched by a command that is left
  have hnone : (c'.boundary.entries.filter fun x => c'.IsBlank x.2) = [] := by
    refine map_eq_nil_iff.mp ((blank_units_eq hw).trans (filter_eq_nil_iff.mpr fun u hu hidle => ?_))
    obtain ⟨ends, hu⟩ := mem_keys_iff.mp hu
    rw [hends] at hu
    obtain ⟨⟨cmd, hcmd, hargs⟩, _⟩ := ite_none_right_eq_some.mp hu
    exact of_decide_eq_true hidle cmd (hcommands ▸ hcmd) hargs
  refine ⟨c', hrun, hw.wellFormed, hends, hcommands, by rw [htrim.others], ?_⟩
  unfold removeBlankWires
  rw [bind_ok (ask_of_ok (blankUnits_run hw)), hnone]
  rfl

/-- A bit is only read, a qubit is not touched at all and goes. -/
theorem removeBlankWires_exact_read : ∃ c, (ofUnits 2 1).edited
      (addOp (.conditional .reset 1 1) [.bit 0, .qubit 0] none) = .ok c ∧ c.WellFormed ∧
    ∃ c', removeBlankWires c = .ok [.qubit 1] c' ∧ c'.commands = c.commands := by
  refine exists_run fun c hc => ?_
  have hwell := wellFormed_edited hc
  obtain ⟨c', hrun, _, _, hcommands, _⟩ := removeBlankWires_exact hwell
  refine ⟨hwell, c', ?_, hcommands⟩
  rw [hrun, show (c.units.filter fun u => ∀ cmd ∈ c.commands, u ∉ cmd.args) = [.qubit 1] from
    of_run hc (by decide +kernel)]

end Circuit

/-! ## Flattening -/

lemma countP_take_zipIdx {α : Type} (p : α → Bool) (l : List α) :
    ((l.zipIdx.filter fun x => p x.1).map fun x => (l.take x.2).countP p) = range (l.countP p) := by
  induction l using reverseRecOn with
  | nil => rfl
  | append_singleton l a ih =>
    have hstart : ((l.zipIdx.filter fun x => p x.1).map fun x => ((l ++ [a]).take x.2).countP p) = range (l.countP p) := by
      rw [← ih]
      refine map_congr_left fun x hx => ?_
      have hlt := snd_lt_of_mem_zipIdx (mem_filter.mp hx).1
      rw [take_append_of_le_length (by omega)]
    rw [zipIdx_append, filter_append, map_append, hstart, countP_append, countP_singleton]
    cases ha : p a with
    | false => simp [ha]
    | true => simp [ha, range_succ]

namespace Renaming

variable {units : List UnitId} (hordered : units.Pairwise fun u w => compare u w = .lt)
include hordered

lemma kind_flattening (u : UnitId) : ((flattening units).apply u).kind = u.kind := by
  unfold apply
  cases hu : (flattening units).get? u with
  | none => rfl
  | some w =>
    rw [get?_iff_mem, entries_flattening hordered] at hu
    obtain ⟨x, _, heq⟩ := mem_map.mp hu
    cases heq
    rfl

/-- **Flattening counts the units of each kind** in the given order. -/
theorem map_flattening (k : UnitKind) : (units.filter (·.kind = k)).map (flattening units).apply =
    (range (units.countP (·.kind = k))).map (.ofIndex k) := by
  have hfilter : units.filter (·.kind = k) = (units.zipIdx.filter fun x => x.1.kind = k).map Prod.fst := by
    conv_lhs => rw [← zipIdx_map_fst 0 units, List.filter_map]
    rfl
  rw [hfilter, ← countP_take_zipIdx, List.map_map, List.map_map]
  refine map_congr_left fun x hx => ?_
  obtain ⟨hmem, hk⟩ := mem_filter.mp hx
  obtain rfl : x.1.kind = k := of_decide_eq_true hk
  exact apply_flattening hordered hmem

lemma flattening_injective (hu : u ∈ units) (hw : w ∈ units)
    (heq : (flattening units).apply u = (flattening units).apply w) : u = w := by
  have hkind := congrArg UnitId.kind heq
  rw [kind_flattening hordered, kind_flattening hordered] at hkind
  have hnodup : ((units.filter (·.kind = w.kind)).map (flattening units).apply).Nodup := by
    rw [map_flattening hordered]
    exact nodup_range.map fun i j hij => by cases hij; rfl
  exact inj_on_of_nodup_map hnodup (mem_filter.mpr ⟨hu, decide_eq_true hkind⟩) (mem_filter.mpr ⟨hw, decide_eq_true rfl⟩) heq

lemma flattening_mono (hu : u ∈ units) (hw : w ∈ units) (hkind : u.kind = w.kind) (hlt : compare u w = .lt) :
    compare ((flattening units).apply u) ((flattening units).apply w) = .lt := by
  have hlater := Circuit.pairwise_ofIndex w.kind (units.countP (·.kind = w.kind))
  rw [← map_flattening hordered, pairwise_map] at hlater
  refine Pairwise.forall_of_forall_of_flip (l := units.filter (·.kind = w.kind))
    (R := fun a b => compare a b = .lt → compare (apply _ a) (apply _ b) = .lt)
    (fun a _ heq => ?_) (hlater.imp fun {a b} h (_ : compare a b = .lt) => h) ((hordered.filter _).imp fun hlt hgt => ?_)
    (mem_filter.mpr ⟨hu, decide_eq_true hkind⟩) (mem_filter.mpr ⟨hw, decide_eq_true rfl⟩) hlt
  · rw [Std.ReflOrd.compare_self] at heq
    cases heq
  · exact absurd hgt (Std.OrientedCmp.not_lt_of_lt hlt)

end Renaming

namespace Circuit

lemma IsRenamed.filter_units (hren : IsRenamed (.flattening c.units) c c') (k : UnitKind) :
    c'.units.filter (·.kind = k) = (range (c.units.countP (·.kind = k))).map (.ofIndex k) := by
  rw [← Renaming.map_flattening c.pairwise_units]
  refine (c'.pairwise_units.filter _).eq_of_mem_iff ?_ fun w => ?_
  · rw [Renaming.map_flattening c.pairwise_units]
    exact pairwise_ofIndex _ _
  · simp only [mem_filter, hren.mem_units, List.mem_map, decide_eq_true_eq]
    constructor
    · rintro ⟨⟨u, hu, rfl⟩, hk⟩
      exact ⟨u, ⟨hu, hren.kind u ▸ hk⟩, rfl⟩
    · rintro ⟨u, ⟨hu, hk⟩, rfl⟩
      exact ⟨⟨u, hu, rfl⟩, (hren.kind u).trans hk⟩

lemma flattenRegisters_run (c : Circuit) :
    ∃ c', flattenRegisters c = .ok (.flattening c.units) c' ∧ IsRenamed (.flattening c.units) c c' := by
  obtain ⟨⟨changed, c'⟩, hrun⟩ := exists_rename_iff.mpr ⟨Renaming.kind_flattening c.pairwise_units,
    fun _ hu _ hw => Renaming.flattening_injective c.pairwise_units hu hw⟩
  exact ⟨c', bind_ok (revise_eq_ok.mpr hrun), rename_eq_ok hrun⟩

lemma IsRenamed.flattening_fixed (hren : IsRenamed (.flattening c.units) c c') (hu : u ∈ c'.units) :
    (Renaming.flattening c'.units).apply u = u := by
  have hsame := Renaming.map_flattening c'.pairwise_units u.kind
  have hmem : u ∈ c'.units.filter (·.kind = u.kind) := mem_filter.mpr ⟨hu, decide_eq_true rfl⟩
  rw [countP_eq_length_filter, hren.filter_units, length_map, length_range] at hsame
  rw [hren.filter_units] at hmem
  exact map_inj_left.mp (hsame.trans (map_id _).symm) u hmem

/-- **Renaming and flattening are exact.** A renaming goes through just if it changes no kind and gives no two units one name;
    then it touches only names, all at once, and tells whether one changed. Flattening always goes through: it counts the
    units of each kind from zero, in order, and the second time it finds every unit in its place. -/
theorem rename_flatten_exact (h : c.WellFormed) (ρ : Renaming) :
    ((∃ changed c', renameUnits ρ c = .ok changed c') ↔ (∀ u, (ρ.apply u).kind = u.kind) ∧
      ∀ u ∈ c.units, ∀ w ∈ c.units, ρ.apply u = ρ.apply w → u = w) ∧
    (∀ changed c', renameUnits ρ c = .ok changed c' → c'.graph = c.graph ∧
      c'.commands = c.commands.map (Command.rename ρ) ∧ (changed = true ↔ ∃ u ∈ c.units, ρ.apply u ≠ u)) ∧
    (∀ e c', renameUnits ρ c = .error e c' → c' = c) ∧
    ∃ φ c', flattenRegisters c = .ok φ c' ∧ c'.graph = c.graph ∧ c'.commands = c.commands.map (Command.rename φ) ∧
      (∀ u ∈ c.units, (φ.apply u).kind = u.kind) ∧
      (∀ u ∈ c.units, ∀ w ∈ c.units, φ.apply u = φ.apply w → u = w) ∧
      (∀ u ∈ c.units, ∀ w ∈ c.units, u.kind = w.kind → compare u w = .lt → compare (φ.apply u) (φ.apply w) = .lt) ∧
      c'.isSimple = true ∧
      (∀ k, c'.units.filter (·.kind = k) = (range (c.units.countP (·.kind = k))).map (.ofIndex k)) ∧
      ∃ φ', flattenRegisters c' = .ok φ' c' ∧ ∀ u ∈ c'.units, φ'.apply u = u := by
  refine ⟨?_, fun changed c' hrun => ?_, fun e c' hrun => ?_, ?_⟩
  · simp only [renameUnits, revise_eq_ok]
    rw [← exists_rename_iff, Prod.exists]
  · have hok := revise_eq_ok.mp hrun
    have hren := rename_eq_ok hok
    refine ⟨hren.graph_eq, hren.commands_eq h, ?_⟩
    simp [changed_of_rename hok]
  · rcases renameUnits_cases ρ c with ⟨_, _, hok, _⟩ | ⟨_, herror⟩
    · cases hok.symm.trans hrun
    · cases herror.symm.trans hrun
      rfl
  · obtain ⟨c', hrun, hren⟩ := flattenRegisters_run c
    obtain ⟨c'', hagain, hren'⟩ := flattenRegisters_run c'
    have hfixed : ∀ u ∈ c'.units, (Renaming.flattening c'.units).apply u = u := fun _ => hren.flattening_fixed
    rw [hren'.eq_of_fixed hfixed] at hagain
    exact ⟨_, c', hrun, hren.graph_eq, hren.commands_eq h, fun u _ => hren.kind u,
      fun u hu w hw => Renaming.flattening_injective c.pairwise_units hu hw,
      fun u hu w hw => Renaming.flattening_mono c.pairwise_units hu hw, isSimple_flattenRegisters hrun,
      hren.filter_units, _, hagain, hfixed⟩

/-- The two qubits change names at once. Flattened, the one of the other register comes first. -/
theorem rename_flatten_exact_swap : let ρ : Renaming := .ofList [(.node 7, .qubit 1), (.qubit 1, .node 7)]
    ∃ c, ({} : Circuit).edited (do
        addUnit (.qubit 1)
        addUnit (.node 7)
        discard (addOp .reset [.qubit 1] none)) = .ok c ∧ c.WellFormed ∧
      (∃ c', renameUnits ρ c = .ok true c' ∧ c'.commands = c.commands.map (Command.rename ρ)) ∧
      ∃ φ c', flattenRegisters c = .ok φ c' ∧ c'.units.filter (·.kind = .qubit) = [.qubit 0, .qubit 1] := by
  intro ρ
  refine exists_run fun c hc => ?_
  have hwell : c.WellFormed :=
    ((addUnit_keeps _).bind fun _ => (addUnit_keeps _).bind fun _ => (addOp_keeps _ _ _).bind fun _ => Keeps.pure _).edited
      (wellFormed_empty rfl rfl) hc
  obtain ⟨_, hrenamed, _, φ, c', hflat, _, _, _, _, _, _, hunits, _⟩ := rename_flatten_exact hwell ρ
  obtain ⟨d, hrun, _⟩ : ∃ d, renameUnits ρ c = .ok true d ∧ True := of_run hc (by decide +kernel)
  refine ⟨hwell, ⟨d, hrun, (hrenamed true d hrun).2.1⟩, φ, c', hflat, (hunits .qubit).trans ?_⟩
  rw [show c.units.countP (·.kind = .qubit) = 2 from of_run hc (by decide +kernel)]
  rfl

end Circuit

end Wireloom
