import Wireloom.Proofs.Config
import Wireloom.Proofs.Involution
import Wireloom.Proofs.StandIn

/-!
# `Circuit.RegistersAgree`, `Circuit.substituteConditional` — all that goes in, goes in under the conditions
-/

namespace Wireloom

open List SortedMap

/-- **The new names agree.** Units that are renamed into one register have the same kind and as many indices. -/
def Renaming.Agrees (ρ : Renaming) (us : List UnitId) : Prop :=
  ∀ u ∈ us, ∀ w ∈ us, (ρ.apply u).register = (ρ.apply w).register →
    (ρ.apply u).kind = (ρ.apply w).kind ∧ (ρ.apply u).index.length = (ρ.apply w).index.length

instance (ρ : Renaming) (us : List UnitId) : Decidable (ρ.Agrees us) :=
  inferInstanceAs (Decidable (∀ u ∈ us, ∀ w ∈ us, _))

lemma UnitKind.defaultRegister_injective {k k' : UnitKind} (h : k.defaultRegister = k'.defaultRegister) : k = k' := by
  revert h
  cases k <;> cases k' <;> decide

namespace Circuit

variable {c c' d d' guest : Circuit} {u w : UnitId} {ρ : Renaming} {ι : Vertex → Vertex} {rest : List UnitId} {a : Unit}

/-- Units of two circuits that are of one register have as many indices. -/
def SharesIndices (c guest : Circuit) : Prop :=
  ∀ u ∈ c.units, ∀ w ∈ guest.units, u.register = w.register → u.index.length = w.index.length

instance (c guest : Circuit) : Decidable (c.SharesIndices guest) :=
  inferInstanceAs (Decidable (∀ u ∈ c.units, ∀ w ∈ guest.units, _))

/-! ## Units that come and go -/

variable (hc : c.WellFormed) (hguest : guest.WellFormed) (h : c.RegistersAgree) (hboundary : d.boundary = c.boundary)

include h in
lemma RegistersAgree.of_subset (hsub : ∀ u ∈ d.units, u ∈ c.units) : d.RegistersAgree :=
  fun u hu w hw => h u (hsub u hu) w (hsub w hw)

include hboundary in
lemma units_of_boundary : d.units = c.units := by
  unfold units
  rw [hboundary]

include h hboundary in
lemma RegistersAgree.of_boundary : d.RegistersAgree :=
  h.of_subset fun _ hu => units_of_boundary hboundary ▸ hu

lemma mem_units_insertUnit : w ∈ (c.insertUnit u).units ↔ w = u ∨ w ∈ c.units := by
  rw [mem_units_iff, mem_units_iff, insertUnit_eq, get?_insert]
  by_cases heq : w = u <;> simp [heq]

include h in
/-- **A new unit keeps the registers in order** if and only if it agrees with its own. -/
theorem registersAgree_insertUnit_iff : (c.insertUnit u).RegistersAgree ↔ c.Admits u := by
  constructor
  · intro h' w hw
    exact h' w (mem_units_insertUnit.mpr (.inr hw)) u (mem_units_insertUnit.mpr (.inl rfl))
  · intro hu v hv w hw heq
    rcases mem_units_insertUnit.mp hv with rfl | hv' <;> rcases mem_units_insertUnit.mp hw with rfl | hw'
    · exact ⟨rfl, rfl⟩
    · exact (hu w hw' heq.symm).imp Eq.symm Eq.symm
    · exact hu v hv' heq
    · exact h v hv' w hw' heq

include h in
lemma addUnit_agrees_iff (hu : u ∉ c.units) : (∃ a c', addUnit u c = .ok a c') ↔ (c.insertUnit u).RegistersAgree := by
  rw [registersAgree_insertUnit_iff h]
  have hnone : c.hasUnit u = false :=
    Bool.eq_false_iff.mpr fun hmem => hu (mem_units_iff.mpr (contains_iff.mp hmem))
  constructor
  · rintro ⟨a, c', hrun⟩
    rcases addUnit_cases u c with ⟨_, hregister, _⟩ | ⟨e, herror⟩
    · exact hregister
    · cases herror.symm.trans hrun
  · exact fun hregister => ⟨(), _, addUnit_run hnone hregister⟩

include h in
lemma addUnit_agrees (hrun : addUnit u c = .ok a c') : c'.RegistersAgree := by
  obtain ⟨hnone, rfl⟩ := addUnit_eq_ok hrun
  exact (addUnit_agrees_iff h (not_mem_units_iff.mpr hnone)).mp ⟨a, _, hrun⟩

lemma agree_of_isSimple (h : c.isSimple) : c.RegistersAgree := by
  have hdefault : ∀ u ∈ c.units, u.register = u.kind.defaultRegister ∧ u.index.length = 1 := fun u hu => by
    simpa [UnitId.inDefaultRegister] using all_eq_true.mp h u hu
  intro u hu w hw heq
  obtain ⟨hregister, hindex⟩ := hdefault u hu
  obtain ⟨hregister', hindex'⟩ := hdefault w hw
  refine ⟨UnitKind.defaultRegister_injective ?_, hindex.trans hindex'.symm⟩
  rw [← hregister, ← hregister', heq]

lemma mem_units_foldl_insertUnit {us : List UnitId} : w ∈ (us.foldl insertUnit c).units ↔ w ∈ us ∨ w ∈ c.units := by
  induction us generalizing c with
  | nil => simp
  | cons u rest ih => rw [foldl_cons, ih, mem_units_insertUnit, mem_cons]; tauto

lemma isSimple_ofUnits (qubits bits : Nat) : (ofUnits qubits bits).isSimple := by
  refine all_eq_true.mpr fun u hu => ?_
  rcases mem_units_foldl_insertUnit.mp hu with hmem | hmem
  · rcases mem_append.mp hmem with hmem | hmem <;> obtain ⟨i, _, rfl⟩ := mem_map.mp hmem <;> rfl
  · cases hmem

lemma boundary_mark {s : Side} (hrun : s.mark u c = .ok a c') : c'.boundary = c.boundary := by
  obtain ⟨_, _, _, rfl⟩ := Side.mark_eq_ok hrun
  rfl

lemma addOp_of_others {P : Circuit → Prop} (hP : ∀ d graph opgroups, P d → P { d with graph, opgroups }) (op : Op)
    (args : List UnitId) (og : Option String) : Keeps P (addOp op args og) := by
  have hgraph : ∀ {α : Type} (edit : Graph.Edit α), Keeps P (onGraph edit) := by
    intro α edit d a d' h hrun
    obtain ⟨g, _, rfl⟩ := onGraph_eq_ok.mp hrun
    exact hP d g d.opgroups h
  have hjoin : Keeps P (joinOpgroup op og) := by
    intro d a d' h hrun
    cases (joinOpgroup_eq_ok hrun).2
    exact hP d d.graph _ h
  refine ask_keeps.bind fun _ => hjoin.bind fun _ => (hgraph _).bind fun v => ?_
  refine Keeps.bind (Keeps.forM fun x _ => ?_) fun _ => Keeps.pure _
  exact wirePin_of_keeps (fun _ => hgraph _) (fun _ => hgraph _) _ _ _

lemma removeBlankWires_agrees {units : List UnitId} (hc : c.WellFormed) (h : c.RegistersAgree)
    (hrun : removeBlankWires c = .ok units c') : c'.RegistersAgree := by
  obtain ⟨_, hrun1, _, htrimmed⟩ := removeBlankWires_run hc.wired
  obtain ⟨_, rfl⟩ := ok_unique hrun1 hrun
  refine h.of_subset fun u hu => ?_
  obtain ⟨ends, hends⟩ := mem_units_iff.mp hu
  rw [htrimmed.ends] at hends
  split at hends
  · cases hends
  · exact mem_units_iff.mpr ⟨ends, hends⟩

include hc h in
lemma dagger_agrees (hrun : c.dagger = .ok c') : c'.RegistersAgree := by
  obtain ⟨_, hrev⟩ := reversed_eq_ok (fun _ _ => Op.signature_dagger) hc hrun
  exact h.of_subset fun u => hrev.toIsReversal.mem_units.mp

/-! ## Renamed units -/

lemma IsRenamed.agrees_iff (hren : IsRenamed ρ c c') : c'.RegistersAgree ↔ ρ.Agrees c.units := by
  constructor
  · intro h u hu w hw
    exact h _ (hren.mem_units.mpr ⟨u, hu, rfl⟩) _ (hren.mem_units.mpr ⟨w, hw, rfl⟩)
  · intro h u' hu' w' hw'
    obtain ⟨u, hu, rfl⟩ := hren.mem_units.mp hu'
    obtain ⟨w, hw, rfl⟩ := hren.mem_units.mp hw'
    exact h u hu w hw

lemma renameUnits_agrees_iff {changed : Bool} (hrun : renameUnits ρ c = .ok changed c') :
    c'.RegistersAgree ↔ ρ.Agrees c.units :=
  (rename_eq_ok (revise_eq_ok.mp hrun)).agrees_iff

/-! ## Two circuits -/

lemma Chained.agrees_iff (hch : Chained ι c guest d) : d.RegistersAgree ↔ c.RegistersAgree ∧ guest.RegistersAgree ∧
    ∀ u ∈ c.units, ∀ w ∈ guest.units, u.register = w.register → u.kind = w.kind ∧ u.index.length = w.index.length := by
  constructor
  · intro h
    exact ⟨h.of_subset fun u hu => hch.mem_units.mpr (.inl hu), h.of_subset fun u hu => hch.mem_units.mpr (.inr hu),
      fun u hu w hw => h u (hch.mem_units.mpr (.inl hu)) w (hch.mem_units.mpr (.inr hw))⟩
  · rintro ⟨hc, hguest, hboth⟩ u hu w hw heq
    rcases hch.mem_units.mp hu with hu | hu <;> rcases hch.mem_units.mp hw with hw | hw
    · exact hc u hu w hw heq
    · exact hboth u hu w hw heq
    · exact (hboth w hw u hu heq.symm).imp Eq.symm Eq.symm
    · exact hguest u hu w hw heq

include hc hguest in
/-- **One circuit after another.** The host is compared with the renamed units, so it is enough that these agree. -/
theorem appendRenamed_agrees_iff (hrun : appendRenamed guest ρ c = .ok a c') :
    c'.RegistersAgree ↔ c.RegistersAgree ∧ ρ.Agrees guest.units := by
  obtain ⟨_, _, _, hrename, hfits, happended⟩ := appendRenamed_eq_ok hc hguest hrun
  rw [happended.toChained.agrees_iff, (rename_eq_ok hrename).agrees_iff]
  constructor
  · exact fun h => ⟨h.1, h.2.1⟩
  · exact fun h => ⟨h.1, h.2, fun u hu w hw => hfits.agree h.1 hw hu⟩

include hc hguest in
lemma parallel_agrees_iff (hrun : c.parallel guest = .ok c') :
    c'.RegistersAgree ↔ c.RegistersAgree ∧ guest.RegistersAgree ∧ c.SharesIndices guest := by
  obtain ⟨hmerge, _, _, happended, _⟩ := parallel_eq_ok hc hguest hrun
  rw [happended.toChained.agrees_iff]
  constructor
  · rintro ⟨h, h', hboth⟩
    exact ⟨h, h', fun u hu w hw heq => (hboth u hu w hw heq).2⟩
  · rintro ⟨h, h', hshares⟩
    refine ⟨h, h', fun u hu w hw heq => ⟨by_contra fun hne => ?_, hshares u hu w hw heq⟩⟩
    exact checkMerge_iff.mp hmerge ⟨w, hw, .inr ⟨u, hu, heq, hne⟩⟩

/-! ## Units added anew -/

/-- **`d` has the units of `c`**, but for those that are still to be added, and its registers agree. -/
structure Gathers (c : Circuit) (rest : List UnitId) (d : Circuit) : Prop where
  agree : d.RegistersAgree
  units : ∀ u ∈ c.units, u ∈ rest ∨ u ∈ d.units

namespace Gathers

lemma of_boundary (h : Gathers c rest d) (hboundary : d'.boundary = d.boundary) : Gathers c rest d' := by
  have hunits := units_of_boundary hboundary
  exact ⟨h.agree.of_boundary hboundary, fun u hu => hunits ▸ h.units u hu⟩

lemma addUnit (h : Gathers c (u :: rest) d) (hrun : addUnit u d = .ok a d') : Gathers c rest d' := by
  refine ⟨addUnit_agrees h.agree hrun, fun w hw => ?_⟩
  obtain ⟨_, rfl⟩ := addUnit_eq_ok hrun
  rw [mem_units_insertUnit]
  rcases h.units w hw with hmem | hmem
  · rcases mem_cons.mp hmem with rfl | hmem
    · exact .inr (.inl rfl)
    · exact .inl hmem
  · exact .inr (.inr hmem)

lemma cons (h : Gathers c rest d) (u : UnitId) : Gathers c (u :: rest) d :=
  ⟨h.agree, fun w hw => (h.units w hw).imp_left (mem_cons_of_mem _)⟩

lemma mark_keeps (s : Side) (u : UnitId) : Keeps (Gathers c rest) (s.mark u) :=
  fun _ _ _ h hrun => h.of_boundary (boundary_mark hrun)

lemma addOp_keeps (op : Op) (args : List UnitId) (og : Option String) : Keeps (Gathers c rest) (addOp op args og) :=
  addOp_of_others (fun _ _ _ h => h.of_boundary rfl) op args og

lemma addUnitLike (h : Gathers c (u :: rest) d) (hrun : c.addUnitLike u d = .ok a d') :
    Gathers c rest d' := by
  obtain ⟨_, _, hadd, hrest⟩ := bind_eq_ok.mp hrun
  refine (ask_keeps.bind fun _ => ?_ : Keeps (Gathers c rest) _) _ _ _ (h.addUnit hadd) hrest
  exact .when (mark_keeps .first u) (ask_keeps.bind fun _ => .ite (mark_keeps .last u) (.pure _))

end Gathers

/-- **A circuit under a condition**: its registers agree, and so did those of the circuit. -/
theorem conditioned_agrees {bits : List UnitId} {value : Nat} (hrun : c.conditioned bits value = .ok c') :
    c.RegistersAgree ∧ c'.RegistersAgree := by
  obtain ⟨a, hrun⟩ := edited_eq_ok.mp hrun
  obtain ⟨_, d, hunits, hrest⟩ := bind_eq_ok.mp hrun
  have hstart : Gathers c c.units { name := c.name } := ⟨fun _ hu => (nomatch hu), fun _ hu => .inl hu⟩
  have hgathered : Gathers c [] d := forM_ok_induction (Gathers c) (fun _ _ _ _ _ h => h.addUnitLike) hstart hunits
  have hend := conditions_keep (fun u _ _ _ h hrun => (h.cons u).addUnit hrun)
    Gathers.addOp_keeps c bits value _ _ _ hgathered hrest
  exact ⟨hend.agree.of_subset fun u hu => (hend.units u hu).resolve_left not_mem_nil, hend.agree⟩

/-! ## All calls -/

/-- **Circuits made with care.** Calls that check less than `addUnit` are given units that agree. -/
inductive Disciplined : Circuit → Prop
  | empty (name : Option String) : Disciplined { name }
  | ofUnits (qubits bits : Nat) : Disciplined (ofUnits qubits bits)
  | addUnit {c c' : Circuit} {u : UnitId} {a : Unit} : Disciplined c → addUnit u c = .ok a c' → Disciplined c'
  | createQubit {c c' : Circuit} {u : UnitId} {a : Unit} : Disciplined c → createQubit u c = .ok a c' → Disciplined c'
  | discardQubit {c c' : Circuit} {u : UnitId} {a : Unit} : Disciplined c → discardQubit u c = .ok a c' → Disciplined c'
  | addOp {c c' : Circuit} {op : Op} {args : List UnitId} {opgroup : Option String} {v : Vertex} : Disciplined c →
      addOp op args opgroup c = .ok v c' → Disciplined c'
  | renameUnits {c c' : Circuit} {ρ : Renaming} {changed : Bool} : Disciplined c → ρ.Agrees c.units →
      renameUnits ρ c = .ok changed c' → Disciplined c'
  | flattenRegisters {c c' : Circuit} {ρ : Renaming} : Disciplined c → flattenRegisters c = .ok ρ c' → Disciplined c'
  | removeBlankWires {c c' : Circuit} {units : List UnitId} : Disciplined c →
      removeBlankWires c = .ok units c' → Disciplined c'
  | append {c c' guest : Circuit} {ρ : Renaming} {a : Unit} : Disciplined c → Disciplined guest → ρ.Agrees guest.units →
      appendRenamed guest ρ c = .ok a c' → Disciplined c'
  | parallel {c c' guest : Circuit} : Disciplined c → Disciplined guest → c.SharesIndices guest →
      c.parallel guest = .ok c' → Disciplined c'
  | dagger {c c' : Circuit} : Disciplined c → c.dagger = .ok c' → Disciplined c'
  | conditioned {c c' : Circuit} {bits : List UnitId} {value : Nat} : Disciplined c →
      c.conditioned bits value = .ok c' → Disciplined c'

namespace Disciplined

lemma reachable (h : Disciplined c) : Reachable c := by
  induction h with
  | empty name => exact .empty name
  | ofUnits qubits bits => exact .ofUnits qubits bits
  | addUnit _ hrun ih => exact .addUnit ih hrun
  | createQubit _ hrun ih => exact .createQubit ih hrun
  | discardQubit _ hrun ih => exact .discardQubit ih hrun
  | addOp _ hrun ih => exact .addOp ih hrun
  | renameUnits _ _ hrun ih => exact .renameUnits ih hrun
  | flattenRegisters _ hrun ih => exact .flattenRegisters ih hrun
  | removeBlankWires _ hrun ih => exact .removeBlankWires ih hrun
  | append _ _ _ hrun ih ihg => exact .append ih ihg hrun
  | parallel _ _ _ hrun ih ihg => exact .parallel ih ihg hrun
  | dagger _ hrun ih => exact .dagger ih hrun
  | conditioned _ hrun ih => exact .conditioned ih hrun

lemma wellFormed (h : Disciplined c) : c.WellFormed := h.reachable.coherent.wellFormed

lemma agree (h : Disciplined c) : c.RegistersAgree := by
  induction h with
  | empty name => exact fun _ hu => nomatch hu
  | ofUnits qubits bits => exact agree_of_isSimple (isSimple_ofUnits qubits bits)
  | addUnit _ hrun ih => exact addUnit_agrees ih hrun
  | @createQubit _ _ u _ _ hrun ih =>
    have hmark : Side.first.mark u _ = _ := hrun
    exact ih.of_boundary (boundary_mark hmark)
  | @discardQubit _ _ u _ _ hrun ih =>
    have hmark : Side.last.mark u _ = _ := hrun
    exact ih.of_boundary (boundary_mark hmark)
  | addOp _ hrun ih => exact addOp_of_others (fun _ _ _ h => h.of_boundary rfl) _ _ _ _ _ _ ih hrun
  | renameUnits _ hnames hrun _ => exact (renameUnits_agrees_iff hrun).mpr hnames
  | flattenRegisters _ hrun _ => exact agree_of_isSimple (isSimple_flattenRegisters hrun)
  | removeBlankWires h hrun ih => exact removeBlankWires_agrees h.wellFormed ih hrun
  | append h hguest hnames hrun ih _ =>
    exact (appendRenamed_agrees_iff h.wellFormed hguest.wellFormed hrun).mpr ⟨ih, hnames⟩
  | parallel h hguest hshares hrun ih ihg =>
    exact (parallel_agrees_iff h.wellFormed hguest.wellFormed hrun).mpr ⟨ih, ihg, hshares⟩
  | dagger h hrun ih => exact dagger_agrees h.wellFormed ih hrun
  | conditioned _ hrun _ => exact (conditioned_agrees hrun).2

end Disciplined

/-- **Units of one register are of one kind and have as many indices** in every circuit made with care. A new unit is
    refused exactly if it would break this. After a renaming the registers agree exactly if the new names do, after a
    second circuit is put behind the first exactly if its renamed units do, and with a second circuit beside the first
    exactly if shared registers have as many indices. Only where registers agree can a circuit be put under a condition. -/
theorem registersAgree_of_disciplined (h : Disciplined c) : c.RegistersAgree ∧
    (∀ u, u ∉ c.units → ((∃ a c', addUnit u c = .ok a c') ↔ (c.insertUnit u).RegistersAgree)) ∧
    (∀ ρ changed c', renameUnits ρ c = .ok changed c' → (c'.RegistersAgree ↔ ρ.Agrees c.units)) ∧
    (∀ guest ρ a c', Disciplined guest → appendRenamed guest ρ c = .ok a c' → (c'.RegistersAgree ↔ ρ.Agrees guest.units)) ∧
    (∀ guest c', Disciplined guest → c.parallel guest = .ok c' → (c'.RegistersAgree ↔ c.SharesIndices guest)) ∧
    ∀ (d : Circuit) bits value d', d.conditioned bits value = .ok d' → d.RegistersAgree := by
  have hagree := h.agree
  refine ⟨hagree, fun u hu => addUnit_agrees_iff hagree hu, fun _ _ _ => renameUnits_agrees_iff, ?_, ?_,
    fun _ _ _ _ hrun => (conditioned_agrees hrun).1⟩
  · intro guest ρ a c' hguest hrun
    rw [appendRenamed_agrees_iff h.wellFormed hguest.wellFormed hrun]
    exact and_iff_right hagree
  · intro guest c' hguest hrun
    rw [parallel_agrees_iff h.wellFormed hguest.wellFormed hrun]
    exact (and_iff_right hagree).trans (and_iff_right hguest.agree)

/-- Physical qubits, joined by a second circuit: the names that calls bring decide whether the registers still agree. -/
theorem registersAgree_of_disciplined_node : ∃ c₁ c e : Circuit,
    (ofUnits 1 1).edited (renameUnits (.ofList [(.qubit 0, .node 0)])) = .ok c₁ ∧
    c₁.edited (appendRenamed (ofUnits 2 0) (.ofList [(.qubit 0, .node 0), (.qubit 1, .node 1)])) = .ok c ∧
    edited {} (addUnit ⟨.qubit, "node", [0, 0]⟩) = .ok e ∧
    c.RegistersAgree ∧ ¬ (∃ a c', addUnit ⟨.bit, "node", [2]⟩ c = .ok a c') ∧
    (∃ c', renameUnits (.ofList [(.node 0, .node 2)]) c = .ok true c' ∧ c'.RegistersAgree) ∧
    (∃ c', appendRenamed (ofUnits 1 1) (.ofList [(.qubit 0, ⟨.qubit, "c", [5]⟩)]) {} = .ok () c' ∧ ¬ c'.RegistersAgree) ∧
    ∃ c', c.parallel e = .ok c' ∧ ¬ c'.RegistersAgree ∧ ∀ bits value d, c'.conditioned bits value ≠ .ok d := by
  simp only [exists_and_left]
  refine exists_run fun c₁ h₁ => exists_and_of (of_run h₁ (by decide +kernel)) fun c hc =>
    exists_run fun e he => ?_
  obtain ⟨_, hrename⟩ := edited_eq_ok.mp h₁
  obtain ⟨_, happend⟩ := edited_eq_ok.mp hc
  obtain ⟨_, hadd⟩ := edited_eq_ok.mp he
  have hdisciplined : Disciplined c := .append (.renameUnits (.ofUnits 1 1) (by decide +kernel) hrename) (.ofUnits 2 0)
    (by decide +kernel) happend
  obtain ⟨hagree, haddUnit, hrenameUnits, _, hparallel, hconditioned⟩ := registersAgree_of_disciplined hdisciplined
  obtain ⟨_, _, _, hafter, _⟩ := registersAgree_of_disciplined (.empty none)
  refine ⟨hagree, mt (haddUnit _ ?_).mp ?_,
    exists_and_of (of_run hc (of_run h₁ (by decide +kernel))) fun x hx => (hrenameUnits _ _ _ hx).mpr ?_,
    exists_run fun y hy => mt (hafter _ _ _ _ (.ofUnits 1 1) hy).mp (by decide +kernel),
    exists_and_of (of_run hc (of_run h₁ (of_run he (by decide +kernel)))) fun f hf => ?_⟩
  · exact of_run hc (of_run h₁ (by decide +kernel))
  · exact of_run hc (of_run h₁ (by decide +kernel))
  · exact of_run hc (of_run h₁ (by decide +kernel))
  · have hbeside := mt (hparallel _ _ (.addUnit (.empty none) hadd) hf).mp
      (of_run hc (of_run h₁ (of_run he (by decide +kernel))))
    exact ⟨hbeside, fun _ _ _ hcond => hbeside (hconditioned _ _ _ _ hcond)⟩

/-- **A qubit can be renamed into the register of the bits.** The registers disagree from then on: the circuit cannot be
    put under a condition, although nothing was wrong before, and no further bit fits in. Side by side, circuits bring
    units of one register with one index and with two. -/
theorem registers_disagree : ∃ c d e f : Circuit,
    (ofUnits 1 1).edited (renameUnits (.ofList [(.qubit 0, ⟨.qubit, "c", [5]⟩)])) = .ok c ∧ ¬ c.RegistersAgree ∧
    ((ofUnits 1 1).conditioned [.bit 0] 1).isOk = true ∧ (c.conditioned [.bit 0] 1).isOk = false ∧
    (c.edited (addUnit (.bit 1))).isOk = false ∧
    edited {} (addUnit ⟨.qubit, "a", [0]⟩) = .ok d ∧ edited {} (addUnit ⟨.qubit, "a", [0, 0]⟩) = .ok e ∧
    d.parallel e = .ok f ∧ ¬ f.RegistersAgree := by
  simp only [exists_and_left]
  decide +kernel

end Circuit

end Wireloom

/-! # `Circuit.conditioned` — a circuit under one condition -/

namespace Wireloom.Circuit

open Wireloom.Graph List

variable {c c' d d' : Circuit} {u w : UnitId} {us rest bits : List UnitId} {a : Unit} {value : Nat} {op : Op} {s : Side}
  {args : List UnitId} {cmd : Command}

/-! ## Units with their ends -/

/-- What stands at an end of a unit under a condition: as in `c`, and something plain at a condition bit that `c` does not
    have. -/
def outline (c : Circuit) (s : Side) (u : UnitId) : NodeKind := (c.endAt? s u).getD (s.plain u.kind.wire)

lemma Framed.outline_of_bit (h : c.Framed) (hu : u.kind = .bit) : c.outline s u = s.plain u.kind.wire := by
  unfold outline
  cases hends : c.boundary.get? u with
  | none => rw [endAt?, hends]; rfl
  | some ends =>
    obtain ⟨k, hk, hfits⟩ := h.exists_end s hends
    rw [endAt?_of_ends s hends, hk]
    rcases Side.fits_cases hfits with ⟨_, hqubit⟩ | rfl
    · cases hu.symm.trans hqubit
    · rfl

/-- **The units `us`**, but for those that are still to be added, with the ends that they have in `c`. -/
structure Outlines (c : Circuit) (us rest : List UnitId) (d : Circuit) : Prop where
  units : ∀ u, u ∈ us ↔ u ∈ rest ∨ u ∈ d.units
  ends : ∀ s, ∀ u ∈ d.units, d.endAt? s u = some (c.outline s u)

lemma mark_like {marked : Bool} (hc : c.Framed) (hd : Blank d) (hflag : s.flag c u = .ok marked)
    (hu : d.endAt? s u = some (s.plain u.kind.wire)) (hrun : (if marked then s.mark u else pure ()) d = .ok a d') :
    Blank d' ∧ d'.units = d.units ∧ ∀ t w, d'.endAt? t w = if t = s ∧ w = u then some (c.outline s u) else d.endAt? t w := by
  unfold outline
  rcases hc.flag_cases s u with ⟨_, hflag'⟩ | ⟨hend, hflag'⟩ | ⟨hend, hflag'⟩
  · cases hflag'.symm.trans hflag
  · cases hflag'.symm.trans hflag
    obtain ⟨_, _, hends, rfl⟩ := Side.mark_eq_ok hrun
    rw [hend]
    exact ⟨hd.mark hrun, rfl, fun t w => endAt?_withKind hd.wellFormed hends s t w⟩
  · cases hflag'.symm.trans hflag
    cases hrun
    refine ⟨hd, rfl, fun t w => ?_⟩
    rw [hend]
    split
    · next heq => rw [heq.1, heq.2, hu]; rfl
    · rfl

namespace Outlines

lemma insertUnit (h : c.Outlines us (u :: rest) d) (hunits : ∀ w, w ∈ d'.units ↔ w = u ∨ w ∈ d.units)
    (hends : ∀ t w, d'.endAt? t w = if w = u then some (c.outline t u) else d.endAt? t w) : c.Outlines us rest d' := by
  refine ⟨fun w => ?_, fun t w hw => ?_⟩
  · rw [h.units, hunits, mem_cons, or_assoc, or_left_comm]
  · rw [hends]
    split
    · next heq => rw [heq]
    · next hne => exact h.ends t w (((hunits w).mp hw).resolve_left hne)

lemma addUnitLike (hc : c.Framed) (h : Blank d ∧ c.Outlines us (u :: rest) d) (hrun : c.addUnitLike u d = .ok a d') :
    Blank d' ∧ c.Outlines us rest d' := by
  obtain ⟨_, d1, hadd, hrest1⟩ := bind_eq_ok.mp hrun
  obtain ⟨created, hcreated, hrest2⟩ := bind_ask_eq_ok.mp hrest1
  replace hrest2 : ((if created then createQubit u else pure ()) >>= fun _ => do
      if ← ask fun _ => c.isDiscarded u then discardQubit u : Edit Unit) d1 = .ok a d' := by
    cases created <;> exact hrest2
  obtain ⟨_, _, hfirst, hrest3⟩ := bind_eq_ok.mp hrest2
  obtain ⟨_, hdiscarded, hlast⟩ := bind_ask_eq_ok.mp hrest3
  have hd1 : Blank d1 := .addUnit h.1 hadd
  obtain ⟨_, rfl⟩ := addUnit_eq_ok hadd
  have hends1 := endAt?_insertUnit h.1.wellFormed (u := u)
  obtain ⟨hd2, hunits2, hends2⟩ := mark_like (s := .first) hc hd1 hcreated ((hends1 _ _).trans (if_pos rfl)) hfirst
  obtain ⟨hd3, hunits3, hends3⟩ := mark_like (s := .last) hc hd2 hdiscarded
    ((hends2 _ _).trans ((if_neg fun h => nomatch h.1).trans ((hends1 _ _).trans (if_pos rfl)))) hlast
  refine ⟨hd3, h.2.insertUnit (fun w => ?_) fun t w => ?_⟩
  · rw [hunits3, hunits2, mem_units_insertUnit]
  · rw [hends3, hends2, hends1]
    cases t <;> by_cases hw : w = u <;> simp [hw]

lemma addConditionBit (hc : c.Framed) (h : Blank d ∧ c.Outlines us (u :: rest) d)
    (hrun : addConditionBit u d = .ok a d') : Blank d' ∧ c.Outlines us rest d' := by
  obtain ⟨_, hbit, hrest⟩ := bind_ask_eq_ok.mp hrun
  rw [bind_get] at hrest
  split at hrest
  · refine ⟨.addUnit h.1 hrest, ?_⟩
    obtain ⟨_, rfl⟩ := addUnit_eq_ok hrest
    refine h.2.insertUnit (fun w => mem_units_insertUnit) fun t w => ?_
    rw [endAt?_insertUnit h.1.wellFormed, hc.outline_of_bit (checkKind_eq_ok.mp hbit)]
  · next hu =>
    cases hrest
    have hmem : u ∈ d.units := hasUnit_iff.mp (by simpa using hu)
    refine ⟨h.1, fun w => ?_, h.2.ends⟩
    rw [h.2.units, mem_cons, or_assoc]
    refine or_iff_right_of_imp ?_
    rintro rfl
    exact .inr hmem

end Outlines

/-! ## Commands under a condition -/

lemma phase_conditioned (hrun : c.conditioned bits value = .ok c') : c'.phase = .zero := by
  refine conditioned_of_keeps (P := fun d => d.phase = .zero) rfl (fun u d _ d' h hrun => ?_)
    (fun s u d _ d' h hrun => ?_) (addOp_of_others fun _ _ _ h => h) hrun
  · obtain ⟨_, rfl⟩ := addUnit_eq_ok hrun
    exact h
  · obtain ⟨_, _, _, rfl⟩ := Side.mark_eq_ok hrun
    exact h

/-- **The state after some commands were added under a condition.** -/
structure Conditioning (c : Circuit) (us : List UnitId) (done : List (Op × List UnitId × Option String)) (d : Circuit) :
    Prop extends c.Outlines us [] d where
  reachable : Reachable d
  contents : d.commands.map Command.content = done

lemma Conditioning.addOp {done : List (Op × List UnitId × Option String)} {og : Option String}
    {x : Vertex} (h : c.Conditioning us done d) (hrun : addOp op args og d = .ok x d') :
    c.Conditioning us (done ++ [(op, args, og)]) d' := by
  have hwell := h.reachable.coherent.wellFormed
  obtain ⟨_, _, _, hextends⟩ := addOp_eq_ok hwell.wired hrun
  have hunits := units_of_boundary hextends.boundary
  refine ⟨⟨fun u => ?_, fun s u hu => ?_⟩, .addOp h.reachable hrun, ?_⟩
  · rw [h.units, hunits]
  · rw [hextends.endAt?_eq]
    exact h.ends s u (hunits ▸ hu)
  · rw [hextends.commands_eq h.reachable.sequenced, map_append, h.contents]
    rfl

lemma conditioned_eq_ok {op' : Op} {width : Nat} (h : op.conditioned width value = .ok op') :
    op' = .conditional op width value := by
  unfold Op.conditioned at h
  split at h <;> cases h
  rfl

/-- What a command is under a condition. -/
def wrapped (bits : List UnitId) (value : Nat) (cmd : Command) : Op × List UnitId × Option String :=
  (.conditional cmd.op bits.length value, bits ++ cmd.args, cmd.opgroup)

/-- What the phase of a circuit is under a condition: an operation, unless it is zero. -/
def wrappedPhase (bits : List UnitId) (value : Nat) (c : Circuit) : List (Op × List UnitId × Option String) :=
  if c.phase.isZero then [] else [(.conditional (.phase c.phase) bits.length value, bits, none)]

/-- **`d` is `c` under the condition that `bits` read `value`.** -/
structure IsConditioned (bits : List UnitId) (value : Nat) (c d : Circuit) : Prop where
  wellFormed : d.WellFormed
  units : ∀ u, u ∈ d.units ↔ u ∈ c.units ∨ u ∈ bits
  ends : ∀ s, ∀ u ∈ d.units, d.endAt? s u = some (c.outline s u)
  contents : d.commands.map Command.content = c.commands.map (wrapped bits value) ++ wrappedPhase bits value c
  unwritten : ∀ cmd ∈ c.commands, writesAny bits cmd = false

lemma isConditioned_of_ok (hc : c.Framed) (hrun : c.conditioned bits value = .ok c') : IsConditioned bits value c c' := by
  have hwell := (conditioned_coherent hrun).wellFormed
  obtain ⟨_, hrun⟩ := edited_eq_ok.mp hrun
  obtain ⟨_, _, hunits, hrest1⟩ := bind_eq_ok.mp hrun
  obtain ⟨_, _, hbits, hrest2⟩ := bind_eq_ok.mp hrest1
  obtain ⟨_, _, hcmds, hrest3⟩ := bind_eq_ok.mp hrest2
  have hstart : c.Outlines (c.units ++ bits) (c.units ++ bits) { name := c.name } :=
    ⟨fun u => (or_iff_left (nomatch ·)).symm, fun _ u hu => nomatch hu⟩
  have hlike := forM_ok_induction (fun rest d => Blank d ∧ c.Outlines (c.units ++ bits) (rest ++ bits) d)
    (fun _ _ _ _ _ h => Outlines.addUnitLike hc h) ⟨.empty _, hstart⟩ hunits
  obtain ⟨hblank, houtlines⟩ := forM_ok_induction (fun rest d => Blank d ∧ c.Outlines (c.units ++ bits) rest d)
    (fun _ _ _ _ _ h => Outlines.addConditionBit hc h) hlike hbits
  -- the commands up to here were added under the condition, and none of them writes its bits
  obtain ⟨done, h, hall, hnone⟩ := forM_ok_induction (fun rest d => ∃ done : List Command,
      c.Conditioning (c.units ++ bits) (done.map (wrapped bits value)) d ∧ c.commands = done ++ rest ∧
        ∀ cmd ∈ done, writesAny bits cmd = false)
    (fun cmd rest d _ d' ⟨done, h, hall, hnone⟩ hrun => by
      unfold addConditioned at hrun
      split at hrun
      · cases hrun
      next hwrites =>
        obtain ⟨op, hop, hrun⟩ := bind_ask_eq_ok.mp hrun
        obtain ⟨x, hrun⟩ := discard_eq_ok.mp hrun
        cases conditioned_eq_ok hop
        refine ⟨done ++ [cmd], ?_, by simp [hall], forall_mem_append.mpr ⟨hnone, by simpa using hwrites⟩⟩
        rw [map_append]
        exact h.addOp hrun)
    ⟨[], ⟨houtlines, hblank.reachable, by rw [hblank.bare.commands_eq_nil hblank.wellFormed]; rfl⟩, rfl, by simp⟩ hcmds
  rw [append_nil] at hall
  subst hall
  have hend : c.Conditioning (c.units ++ bits) (c.commands.map (wrapped bits value) ++ wrappedPhase bits value c) c' := by
    unfold wrappedPhase
    cases hzero : c.phase.isZero with
    | true =>
      rw [hzero] at hrest3
      cases hrest3
      rwa [if_pos rfl, append_nil]
    | false =>
      rw [hzero] at hrest3
      obtain ⟨op, hop, hrest4⟩ := bind_ask_eq_ok.mp hrest3
      obtain ⟨x, hadd⟩ := discard_eq_ok.mp hrest4
      cases conditioned_eq_ok hop
      exact h.addOp hadd
  refine ⟨hwell, fun u => ?_, hend.ends, hend.contents, hnone⟩
  rw [← mem_append, hend.units, or_iff_right not_mem_nil]

/-! ## What is written under a condition -/

lemma writesAny_iff : writesAny bits cmd ↔
    ∃ u ∈ bits, (u, WireKind.classical) ∈ cmd.args.zip cmd.op.signature := by
  unfold writesAny
  rw [any_eq_true]
  constructor
  · rintro ⟨⟨u, kind⟩, hmem, hwrites⟩
    obtain ⟨rfl, hu⟩ : kind = .classical ∧ u ∈ bits := by simpa using hwrites
    exact ⟨u, hu, hmem⟩
  · rintro ⟨u, hu, hmem⟩
    exact ⟨_, hmem, by simpa using hu⟩

lemma mem_zip_conditional {op : Op}
    (h : (u, WireKind.classical) ∈ (bits ++ args).zip (Op.conditional op bits.length value).signature) :
    (u, WireKind.classical) ∈ args.zip op.signature := by
  replace h : (u, WireKind.classical) ∈ (bits ++ args).zip (replicate bits.length .boolean ++ op.signature) := h
  rw [zip_append length_replicate.symm] at h
  rcases mem_append.mp h with hread | hmem
  · cases eq_of_mem_replicate (of_mem_zip hread).2
  · exact hmem

lemma IsConditioned.not_written (h : IsConditioned bits value c d) (hcmd : cmd ∈ d.commands)
    (hu : u ∈ bits) : (u, WireKind.classical) ∉ cmd.args.zip cmd.op.signature := by
  intro hmem
  have hcontent : cmd.content ∈ d.commands.map Command.content := mem_map_of_mem hcmd
  rw [h.contents, mem_append] at hcontent
  rcases hcontent with hwrapped | hphase
  · obtain ⟨cmd0, hcmd0, heq⟩ := List.mem_map.mp hwrapped
    obtain ⟨hop, hargs, _⟩ : _ = cmd.op ∧ _ = cmd.args ∧ _ := by simpa [wrapped, Command.content] using heq
    rw [← hop, ← hargs] at hmem
    have hwrites := writesAny_iff.mpr ⟨u, hu, mem_zip_conditional hmem⟩
    rw [h.unwritten cmd0 hcmd0] at hwrites
    cases hwrites
  · unfold wrappedPhase at hphase
    split at hphase
    · cases hphase
    · obtain ⟨hop, hargs, _⟩ : cmd.op = _ ∧ cmd.args = _ ∧ _ := by simpa [Command.content] using hphase
      rw [hop, hargs] at hmem
      have hnone : (u, WireKind.classical) ∈ (bits ++ []).zip (Op.conditional (.phase c.phase) bits.length value).signature := by
        rwa [append_nil]
      cases mem_zip_conditional hnone

/-- **A circuit under a condition does what it did, under the condition**: each command once, in order, on the same
    arguments and in the same opgroup, and then its phase, unless it is zero. It has the units of the circuit, created and
    discarded as there, and the condition bits, which nothing writes. A circuit that writes one of them is refused. -/
theorem conditioned_exactly (hc : c.WellFormed) (bits : List UnitId) (value : Nat) : (∀ d, c.conditioned bits value = .ok d →
      d.commands.map Command.content = c.commands.map (wrapped bits value) ++ wrappedPhase bits value c ∧
      (∀ u, u ∈ d.units ↔ u ∈ c.units ∨ u ∈ bits) ∧
      (∀ u ∈ c.units, d.isCreated u = c.isCreated u ∧ d.isDiscarded u = c.isDiscarded u) ∧
      (∀ u ∈ bits, u ∉ c.units → d.isCreated u = .ok false ∧ d.isDiscarded u = .ok false) ∧
      d.phase = .zero ∧
      ∀ cmd ∈ d.commands, ∀ u ∈ bits, (u, WireKind.classical) ∉ cmd.args.zip cmd.op.signature) ∧
    ((∃ cmd ∈ c.commands, ∃ u ∈ bits, (u, WireKind.classical) ∈ cmd.args.zip cmd.op.signature) →
      ∃ e, c.conditioned bits value = .error e) := by
  refine ⟨fun d hrun => ?_, fun ⟨cmd, hcmd, hwrites⟩ => ?_⟩
  · have h := isConditioned_of_ok hc.toFramed hrun
    have hframed := h.wellFormed.toFramed
    have hold : ∀ (s : Side), ∀ u ∈ c.units, s.flag d u = s.flag c u := by
      intro s u hu
      obtain ⟨_, hends⟩ := mem_units_iff.mp hu
      obtain ⟨k, hk, _⟩ := hc.toFramed.exists_end s hends
      have hend := (endAt?_of_ends s hends).trans hk
      rw [hc.toFramed.flag_eq_iff hframed, h.ends s u ((h.units u).mpr (.inl hu)), outline, hend]
      rfl
    have hnew : ∀ (s : Side), ∀ u ∈ bits, u ∉ c.units → s.flag d u = .ok false := by
      intro s u hu hnot
      have hnone : c.endAt? s u = none := by rw [endAt?, not_mem_units_iff.mp hnot]; rfl
      have hend := h.ends s u ((h.units u).mpr (.inr hu))
      rw [outline, hnone, Option.getD_none] at hend
      rcases hframed.flag_cases s u with ⟨hend', _⟩ | ⟨hend', _⟩ | ⟨_, hflag⟩
      · cases hend'.symm.trans hend
      · cases s <;> cases hend'.symm.trans hend
      · exact hflag
    exact ⟨h.contents, h.units, fun u hu => ⟨hold .first u hu, hold .last u hu⟩,
      fun u hu hnot => ⟨hnew .first u hu hnot, hnew .last u hu hnot⟩, phase_conditioned hrun,
      fun cmd hcmd u hu => h.not_written hcmd hu⟩
  · cases hrun : c.conditioned bits value with
    | error e => exact ⟨e, rfl⟩
    | ok d =>
      have hnone := (isConditioned_of_ok hc.toFramed hrun).unwritten cmd hcmd
      rw [writesAny_iff.mpr hwrites] at hnone
      cases hnone

/-- A reset under a condition that reads one bit twice, and a measurement that cannot be put under a condition on its own
    outcome. -/
theorem conditioned_exactly_twice : ∃ c d e, (ofUnits 1 1).edited (do
      let _ ← addOp .reset [.qubit 0] (some "r")
      discard (addOp .measure [.qubit 0, .bit 0] none)) = .ok c ∧
    c.conditioned [.bit 1, .bit 1] 3 = .ok d ∧
    d.commands.map Command.content = c.commands.map (wrapped [.bit 1, .bit 1] 3) ∧
    c.conditioned [.bit 0] 1 = .error e := by
  simp only [exists_and_left]
  refine exists_run fun c hc => exists_and_of (of_run hc (by decide +kernel)) fun d hd => ?_
  have hwell := wellFormed_edited hc
  obtain ⟨hcontents, _⟩ := (conditioned_exactly hwell [.bit 1, .bit 1] 3).1 d hd
  have hzero : c.phase.isZero = true := of_run hc (by decide +kernel)
  rw [wrappedPhase, if_pos hzero, append_nil] at hcontents
  have hwrites : ∃ cmd ∈ c.commands, ∃ u ∈ [UnitId.bit 0], (u, WireKind.classical) ∈ cmd.args.zip cmd.op.signature :=
    of_run hc (by decide +kernel)
  exact ⟨hcontents, (conditioned_exactly hwell [.bit 0] 1).2 hwrites⟩

end Circuit

/-! # `Circuit.Substituted` — the commands of a replacement in the host -/

abbrev Effect := Op × List UnitId

def Command.effect (cmd : Command) : Effect := (cmd.op, cmd.args)

namespace Circuit

open Wireloom.Graph List

variable {c c' r : Circuit} {unit unitG unit' : Pin → UnitId} {hole : Hole} {policy : OpgroupPolicy} {g : Graph}
  {ι : Vertex → Vertex} {τ : UnitId → UnitId} {u : UnitId} {p : Pin} {v w : Vertex} {m : Link} {o : Op} {cmd : Command}

namespace Substituted

variable (hs : Substituted c r hole policy c' unit' g ι) (hsuits : c.Suits r hole)
  (hτ : ∀ {x entry}, x ∈ r.slots hole → c.graph.edges.get? x.2.1 = some entry → τ x.1.1 = unit' entry.source)
include hs hsuits hτ

lemma name_copied (hp : r.OnWire u p) : unit' (p.map ι) = τ u := by
  obtain ⟨ends, hu, hpath⟩ := hp
  obtain ⟨_, hx⟩ := hsuits.exists_slot_of_unit hu
  have hcopied : Relation.ReflTransGen (c.copiedNet r g ι).Joined ⟨ι ends.input, 0⟩ (p.map ι) :=
    hpath.lift (Pin.map ι) fun _ _ ⟨k, hk, hl⟩ => ⟨k, hk, _, hl, rfl⟩
  rw [← hs.plug.guest_threaded.unit_of_joined hcopied, hτ hx (hsuits.entry_eq hx)]
  exact hs.plug.unit_input (mem_map_of_mem hx)

lemma link_into_copy (h : c.Wired unit) (hr : r.Wired unitG) (h' : c'.Wired unit')
    (hk : r.graph.kind? w = some (.op o)) (ht : m.target.vertex = ι w) (hm : c'.graph.HasLink m) :
    ∃ l, r.graph.HasLink l ∧ l.target = ⟨w, m.target.index⟩ ∧ unit' m.source = τ (unitG l.source) := by
  have hwire : r.graph.net.wireAt ⟨w, m.target.index⟩ = some m.kind := by
    rw [wireAt_of_kind? hk, ← h'.threaded.target_wire hm, wireAt_of_kind? (ht ▸ hs.kind?_op hr hk)]
  obtain ⟨l, hl, hlt⟩ := (hr.complete.fed_iff hwire).mpr (hr.not_isInput_of_op hk)
  refine ⟨l, hl, hlt, ?_⟩
  have hpin : m.target = l.target.map ι := by
    rw [hlt]
    exact Pin.ext ht rfl
  have hkind : l.kind = m.kind := Option.mem_unique (hr.threaded.target_wire hl) (hlt ▸ hwire)
  have hname := hs.name_copied hsuits hτ (hr.onWire_unit (hr.threaded.source_wire hl) (WireKind.isLinear_carrier _))
  by_cases hlin : l.kind.isLinear
  · rw [h'.threaded.same_unit hm (hkind ▸ hlin), hpin, hr.threaded.same_unit hl hlin]
    exact hs.name_copied hsuits hτ (hr.onWire_unit (hr.threaded.target_wire hl) hlin)
  · have hbool := WireKind.eq_boolean hlin
    by_cases hin : r.IsInput l.source.vertex
    · -- a read of what comes in at a slot reads what came in
      obtain ⟨u, ends, hu, hv⟩ := hin
      have hsource : l.source = ⟨ends.input, 0⟩ := by
        rw [(Net.pin_of_single (hv ▸ hr.signature_input hu) (hr.threaded.source_wire hl)).1, hv]
      obtain ⟨_, hx⟩ := hsuits.exists_slot_of_unit hu
      have hread := hs.hasLink_entering h hr hsuits hx (hsuits.entry_eq (ι := ι) hx) hl hbool hsource
      rw [h'.threaded.in_unique hm hread hpin, ← hname, hsource]
      exact (hs.plug.unit_input (mem_map_of_mem hx)).symm
    · rw [h'.threaded.in_unique hm (hs.hasLink_copied h hr hsuits hl hbool hin) hpin]
      exact hname

lemma commandAt_copied (h : c.Wired unit) (hr : r.Wired unitG) (h' : c'.Wired unit') (hcmd : r.commandAt unitG w = some cmd) :
    ∃ og, c'.commandAt unit' (ι w) = some ⟨cmd.op, cmd.args.map τ, og, ι w⟩ := by
  obtain ⟨rfl, hargs, _, hn⟩ := of_commandAt hcmd
  have hk : r.graph.kind? cmd.vertex = some (.op cmd.op) := by rw [Graph.kind?, hn]; rfl
  have hin := hr.not_isInput_of_op hk
  have hk' := hs.kind?_op hr hk
  obtain ⟨⟨_, og, _⟩, hn', rfl⟩ := Option.map_eq_some_iff.mp hk'
  have hlength : (cmd.args.map τ).length = cmd.op.signature.length := by
    rw [length_map, hargs, length_map, hr.length_inLinks hn hin]
    rfl
  have hunits := h'.units_eq hn' (h'.not_isInput_of_op hk') hlength fun m hm ht => by
      obtain ⟨l, hl, hlt, hname⟩ := hs.link_into_copy hsuits hτ h hr h' hk ht hm
      have harg := hr.units_getElem? hn hin hl (congrArg Pin.vertex hlt)
      rw [← hargs, hlt] at harg
      rw [getElem?_map, harg, hname]
      rfl
  refine ⟨og, ?_⟩
  unfold commandAt
  rw [hn', ← hunits]

end Substituted

/-! ## A single vertex -/

lemma exists_map_eq {α β : Type} [DecidableEq α] (b : β) {l : List α} {l' : List β} (hl : l.Nodup)
    (hlength : l.length = l'.length) : ∃ f, l.map f = l' := by
  induction l generalizing l' with
  | nil => exact ⟨fun _ => b, (length_eq_zero_iff.mp hlength.symm).symm⟩
  | cons x rest ih =>
    obtain ⟨hx, hrest⟩ := nodup_cons.mp hl
    obtain ⟨y, _, rfl⟩ := exists_cons_of_length_eq_add_one hlength.symm
    obtain ⟨f, rfl⟩ := ih hrest (Nat.succ.inj hlength)
    refine ⟨Function.update f x y, ?_⟩
    rw [map_cons, Function.update_self]
    refine congrArg _ (map_congr_left fun z hz => Function.update_of_ne ?_ _ _)
    rintro rfl
    exact hx hz

lemma Wired.filter_slotLinks (h : c.Wired unit) (hk : c.graph.kind? v = some (.op o)) (κ : UnitKind) :
    ((c.slotLinks v).map fun p => unit p.2.source).filter (·.kind = κ) =
      ((c.graph.inLinks v).map fun p => unit p.2.source).filter (·.kind = κ) := by
  have hkey : ∀ p ∈ (c.graph.inLinks v).filter ((fun u : UnitId => decide (u.kind = κ)) ∘ fun p => unit p.2.source),
      slotRank p.2.kind = κ.rank := by
    intro p hp
    obtain ⟨hp, hkind⟩ := mem_filter.mp hp
    have hfits := (h.unit_fits (h.threaded.source_wire ⟨p.1, ((mem_inLinks h.valid).mp hp).1⟩)).2
    rw [← of_decide_eq_true hkind, hfits]
    cases p.2.kind <;> rfl
  rw [filter_map, filter_map, h.slotLinks_eq hk, filter_sortedBy]
  generalize (c.graph.inLinks v).filter _ = l at hkey ⊢
  congr 1
  induction l with
  | nil => rfl
  | cons p rest ih =>
    obtain ⟨hp, hrest⟩ := forall_mem_cons.mp hkey
    show insertBy _ p (sortedBy _ rest) = _
    rw [ih hrest, insertBy_of_le fun q hq => by rw [hp, hrest q hq, Nat.compare_eq_eq.mpr rfl]; rfl]

/-- **The units of a replacement stand for the arguments of the operation**, kind by kind. -/
theorem Wired.exists_placement (h : c.Wired unit) (hhole : c.holeAt v = .ok hole) (hsuits : c.Suits r hole)
    (hk : c.graph.kind? v = some (.op o)) : ∃ τ : UnitId → UnitId,
      (∀ {x entry}, x ∈ r.slots hole → c.graph.edges.get? x.2.1 = some entry → τ x.1.1 = unit entry.source) ∧
      ∀ κ, (r.units.filter (·.kind = κ)).map τ = ((c.graph.inLinks v).map fun p => unit p.2.source).filter (·.kind = κ) := by
  have hsize : r.boundary.entries.length = (c.slotLinks v).length := by
    obtain ⟨_, _, _, rfl⟩ := holeAt_eq_ok hhole
    exact hsuits.size_eq.trans (length_map _)
  obtain ⟨τ, hτ⟩ : ∃ τ, r.units.map τ = (c.slotLinks v).map fun p => unit p.2.source :=
    exists_map_eq (.qubit 0) (SortedMap.nodup_keys r.boundary) (by rw [length_map, ← hsize]; exact length_map _)
  have hslot : ∀ {x entry}, x ∈ r.slots hole → c.graph.edges.get? x.2.1 = some entry → τ x.1.1 = unit entry.source := by
    intro x entry hx hentry
    obtain ⟨i, hi⟩ := getElem?_of_mem hx
    obtain ⟨p, hu, hp, hedge, _⟩ := (slots_holeAt hhole).mp hi
    have hlink := ((mem_slotLinks h.valid).mp (mem_of_getElem? hp)).1
    cases Option.mem_unique hentry (hedge ▸ hlink)
    have hplace := congrArg (·[i]?) hτ
    simp only [units, SortedMap.keys, getElem?_map, hu, hp, Option.map_some] at hplace
    exact Option.some.inj hplace
  refine ⟨τ, hslot, fun κ => ?_⟩
  rw [← h.filter_slotLinks hk, ← hτ, filter_map]
  refine congrArg _ (filter_congr fun u hu => ?_)
  -- a unit stands for one of its kind
  obtain ⟨⟨_, _⟩, hends, rfl⟩ := mem_map.mp hu
  obtain ⟨_, hx⟩ := hsuits.exists_slot_of_unit (SortedMap.get?_iff_mem.mpr hends)
  obtain ⟨l, hl, hkind, _⟩ := hsuits.slot hx
  rw [Function.comp, hslot hx hl, (h.unit_fits (h.threaded.source_wire ⟨_, hl⟩)).2, hkind]

lemma Substituted.args_reset (hs : Substituted c r hole policy c' unit' g ι) (hsuits : c.Suits r hole)
    (hτ : ∀ {x entry}, x ∈ r.slots hole → c.graph.edges.get? x.2.1 = some entry → τ x.1.1 = unit' entry.source)
    (h' : c'.Wired unit') {ends : Ends} (hu : r.boundary.get? u = some ends) (hcmd : cmd ∈ c'.commands)
    (hv : ι ends.input = cmd.vertex) (hop : cmd.op = .reset) : cmd.args = [τ u] := by
  obtain ⟨_, hargs, k, hn⟩ := of_commandAt (h'.mem_commands.mp hcmd)
  have hk : c'.graph.kind? cmd.vertex = some (.op .reset) := by rw [Graph.kind?, hn, ← hop]; rfl
  rw [hargs]
  refine h'.units_eq hn (h'.not_isInput_of_op hk) (by rw [hop]; rfl) fun l hl ht => ?_
  obtain ⟨htarget, hkind⟩ := Net.pin_of_single (signature_of_kind? (ht ▸ hk)) (h'.threaded.target_wire hl)
  rw [h'.threaded.same_unit hl (by rw [hkind]; rfl), htarget, ht, ← hv]
  exact congrArg some (hs.name_copied hsuits hτ ⟨ends, hu, .refl⟩).symm

/-- **What a replacement does in the place of an operation.** Its commands come in, on the arguments that its units stand
    for, and resets for the qubits that it creates. -/
theorem substituteVertex_commands (hc : c.WellFormed) (hr : r.WellFormed) {a : Unit}
    (hrun : substituteVertex r cmd.vertex .delete policy c = .ok a c') (hcmd : cmd ∈ c.commands) :
    ∃ (τ : UnitId → UnitId) (added : List Command), (∀ κ, (r.units.filter (·.kind = κ)).map τ = cmd.args.filter (·.kind = κ)) ∧
      added.map Command.effect = r.commands.map (fun x => (x.op, x.args.map τ)) ∧ (added.map Command.vertex).Nodup ∧
      (∀ x ∈ added, x ∈ c'.commands ∧ ¬ c.graph.Live x.vertex) ∧
      (∀ x ∈ c'.commands, ¬ c.graph.Live x.vertex → x ∈ added ∨
        x.op = .reset ∧ ∃ u, r.endAt? .first u = some .create ∧ x.args = [τ u]) ∧
      c'.phase = c.phase + r.phase := by
  have h := hc.wired
  have hrw := hr.wired
  obtain ⟨hole, hhole, hrest⟩ := bind_ask_eq_ok.mp hrun
  obtain ⟨hsuits, _, _, g, ι, unit', hunit, hs⟩ := substitute_eq_ok h hrw (holeAt_isHole h hhole) hrest
  have h' := hs.wired h hrw hsuits hunit (hs.acyclic h hrw (convex_single h hhole))
  obtain ⟨_, hargs, k, hn⟩ := of_commandAt (h.mem_commands.mp hcmd)
  obtain ⟨τ, hplace, hkinds⟩ := h.exists_placement hhole hsuits (by rw [Graph.kind?, hn]; rfl)
  have hτ : ∀ {x entry}, x ∈ r.slots hole → c.graph.edges.get? x.2.1 = some entry → τ x.1.1 = unit' entry.source :=
    fun hx he => (hplace hx he).trans (hunit _ (h.valid.source_live ⟨_, he⟩)).symm
  have hcopied : ∀ x ∈ r.commands, ∃ og, c'.commandAt unit' (ι x.vertex) = some ⟨x.op, x.args.map τ, og, ι x.vertex⟩ :=
    fun x hx => hs.commandAt_copied hsuits hτ h hrw h' (hrw.mem_commands.mp hx)
  have hlive : ∀ x ∈ r.commands, r.graph.Live x.vertex := fun x hx => by
    obtain ⟨_, hx⟩ := hrw.lists_commands.content x hx
    exact live_of_get? hx
  refine ⟨τ, r.commands.filterMap fun x => c'.commandAt unit' (ι x.vertex), fun κ => by rw [hkinds, hargs], ?_, ?_, ?_,
    fun x hx hnew => ?_, by rw [hs.others]⟩
  · rw [map_filterMap, ← filterMap_eq_map]
    refine filterMap_congr fun x hx => ?_
    obtain ⟨og, heq⟩ := hcopied x hx
    rw [heq]
    rfl
  · have hvertices : (r.commands.filterMap fun x => c'.commandAt unit' (ι x.vertex)).map Command.vertex =
        (r.commands.map Command.vertex).map ι := by
      rw [map_filterMap, map_map, ← filterMap_eq_map]
      refine filterMap_congr fun x hx => ?_
      obtain ⟨og, heq⟩ := hcopied x hx
      rw [heq]
      rfl
    rw [hvertices]
    refine hrw.lists_commands.nodup.map_on fun v hv w hw heq => ?_
    obtain ⟨x, hx, rfl⟩ := mem_map.mp hv
    obtain ⟨y, hy, rfl⟩ := mem_map.mp hw
    exact hs.copy.injective (hlive x hx) (hlive y hy) heq
  · intro x hx
    obtain ⟨y, hy, heq⟩ := mem_filterMap.mp hx
    rw [h'.mem_commands, (of_commandAt heq).1]
    exact ⟨heq, hs.copy.toHosts.not_live (hlive y hy)⟩
  -- what is new is a copy, or a reset where the replacement creates a qubit
  · obtain ⟨_, hx'⟩ := h'.lists_commands.content x hx
    have hk : c'.graph.kind? x.vertex = some (.op x.op) := by rw [Graph.kind?, hx']; rfl
    rcases hs.kind?_cases hrw hsuits hk with ⟨_, hk, _⟩ | ⟨w, o, hk, hw, _⟩ | ⟨s, hmem, hreset, hw, hop⟩
    · exact absurd (Graph.live_of_kind? hk) hnew
    · obtain ⟨i, y, hy, rfl⟩ := hrw.exists_command hk
      refine .inl (mem_filterMap.mpr ⟨y, mem_of_getElem? hy, ?_⟩)
      rw [hw]
      exact h'.mem_commands.mp hx
    · obtain ⟨⟨⟨u, _⟩, _⟩, hx0, rfl⟩ := mem_map.mp hmem
      obtain ⟨hu, _⟩ := mem_slots hx0
      obtain ⟨k, hk0, _⟩ := hrw.starts hu
      have hcreate := (hs.copy.kind?_new hk0).symm.trans (resets_cases hreset).2
      have hop := NodeKind.op.inj hop
      refine .inr ⟨hop, u, ?_, hs.args_reset hsuits hτ h' hu hx hw hop⟩
      rw [endAt?_of_ends .first hu]
      exact hk0.trans hcreate

end Circuit

/-! # `Circuit.substituteConditional` — operations under conditions -/

/-- The operation under conditions given from the outermost in. -/
def Op.under (layers : List (Nat × Nat)) (op : Op) : Op :=
  layers.foldr (fun layer o => .conditional o layer.1 layer.2) op

lemma Op.layers_under (layers : List (Nat × Nat)) (op : Op) : (op.under layers).layers = layers ++ op.layers := by
  induction layers with
  | nil => rfl
  | cons layer rest ih => exact congrArg (layer :: ·) ih

/-- The effect under conditions on `bits`. -/
def Effect.under (layers : List (Nat × Nat)) (bits : List UnitId) (e : Effect) : Effect := (e.1.under layers, bits ++ e.2)

/-- The bits that the conditions over a command read, the outermost first. -/
def Command.conditionBits (cmd : Command) : List UnitId := cmd.args.take (Circuit.totalWidth cmd.op.layers)

/-- What a command acts on under its conditions. -/
def Command.operands (cmd : Command) : List UnitId := cmd.args.drop (Circuit.totalWidth cmd.op.layers)

namespace Circuit

open Wireloom.Graph List

variable {c c' d d' e r : Circuit} {unit : Pin → UnitId} {u w : UnitId} {us rest bits bits' : List UnitId} {a : Unit}
  {policy : OpgroupPolicy} {ρ : Renaming} {value offset : Nat} {layers layers' : List (Nat × Nat)} {v : Vertex} {op : Op}
  {n : Nat} {cmd : Command}

/-- **What a circuit does**: its operations on their arguments and, unless it is zero, its global phase as one more. -/
def effects (c : Circuit) : List Effect :=
  c.commands.map Command.effect ++ if c.phase.isZero then [] else [(.phase c.phase, [])]

lemma effects_of_zero (h : c.phase = .zero) : c.effects = c.commands.map Command.effect := by
  rw [effects, h, if_pos (show Angle.zero.isZero from rfl), append_nil]

/-! ## One condition -/

/-- **`c'` does what `c` does, under conditions on `bits`.** -/
structure Wraps (bits : List UnitId) (layers : List (Nat × Nat)) (c c' : Circuit) : Prop where
  wellFormed : c'.WellFormed
  units : ∀ u, u ∈ c'.units ↔ u ∈ c.units ∨ u ∈ bits
  created : ∀ u, c'.endAt? .first u = some .create → c.endAt? .first u = some .create
  effects : c'.effects = c.effects.map (Effect.under layers bits)

lemma conditioned_wraps (hc : c.Framed) (hrun : c.conditioned bits value = .ok c') :
    Wraps bits [(bits.length, value)] c c' := by
  have h := isConditioned_of_ok hc hrun
  refine ⟨h.wellFormed, h.units, fun u hu => ?_, ?_⟩
  · obtain ⟨ends, hends, _⟩ := Option.bind_eq_some_iff.mp hu
    have hend := (h.ends .first u (mem_units_iff.mpr ⟨ends, hends⟩)).symm.trans hu
    unfold outline at hend
    cases hc : c.endAt? .first u with
    | none => rw [hc] at hend; cases hend
    | some k => rw [hc] at hend; exact hend
  · have heffects : c'.commands.map Command.effect = (c'.commands.map Command.content).map fun x => (x.1, x.2.1) := by
      rw [map_map]
      rfl
    rw [effects_of_zero (phase_conditioned hrun), heffects, h.contents, effects, map_append, map_append, map_map, map_map,
      wrappedPhase]
    refine congrArg (_ ++ ·) ?_
    cases c.phase.isZero with
    | true => rfl
    | false => exact congrArg (fun args => [((Op.phase c.phase).conditional bits.length value, args)]) (append_nil bits).symm

/-! ## All conditions of an operation -/

lemma Wraps.trans (h : Wraps bits layers c d) (h' : Wraps bits' layers' d e) :
    Wraps (bits' ++ bits) (layers' ++ layers) c e where
  wellFormed := h'.wellFormed
  units u := by rw [h'.units, h.units, mem_append, or_assoc, or_comm (a := u ∈ bits)]
  created u hu := h.created u (h'.created u hu)
  effects := by
    rw [h'.effects, h.effects, map_map]
    exact map_congr_left fun e _ => Prod.ext foldr_append.symm (append_assoc ..).symm

lemma underLayers_wraps (hc : c.WellFormed) (hrun : c.underLayers offset layers = .ok c') :
    Wraps ((range' offset (totalWidth layers)).map .bit) layers c c' := by
  induction layers generalizing offset c' with
  | nil =>
    cases hrun
    exact ⟨hc, fun u => (or_iff_left not_mem_nil).symm, fun _ => id, (map_id' _).symm⟩
  | cons layer rest ih =>
    obtain ⟨_, hinner, hrun⟩ := bind_ok_iff.mp hrun
    have hbits : (range layer.1).map (fun i => UnitId.bit (offset + i)) = (range' offset layer.1).map .bit := by
      rw [range'_eq_map_range, map_map]
      rfl
    have hwraps := (ih hinner).trans (conditioned_wraps (ih hinner).wellFormed.toFramed (hbits ▸ hrun))
    rw [length_map, length_range', ← map_append, range'_append_1] at hwraps
    exact hwraps

lemma phase_underLayers (hop : op.isConditional) (hrun : c.underLayers offset op.layers = .ok c') : c'.phase = .zero := by
  cases op with
  | conditional =>
    obtain ⟨_, _, hrun⟩ := bind_ok_iff.mp hrun
    exact phase_conditioned hrun
  | _ => cases hop

/-! ## Units behind the condition bits -/

lemma IsRenamed.effects_eq (hren : IsRenamed ρ c c') (h : c.WellFormed) :
    c'.effects = c.effects.map fun e => (e.1, e.2.map ρ.apply) := by
  have hphase : c'.phase = c.phase := by rw [hren.others]
  rw [effects, effects, hren.commands_eq h, hphase, map_append, map_map, map_map]
  cases c.phase.isZero <;> rfl

lemma apply_shiftBits (hsimple : c.isSimple) (hu : u ∈ c.units) (n : Nat) : ∃ i, u = .ofIndex u.kind i ∧
    (shiftBits c.bits n).apply u = .ofIndex u.kind ((if u.kind = .bit then n else 0) + i) := by
  obtain ⟨κ, register, index⟩ := u
  obtain ⟨rfl, hindex⟩ : register = κ.defaultRegister ∧ index.length = 1 := by
    simpa [UnitId.inDefaultRegister] using all_eq_true.mp hsimple _ hu
  obtain ⟨i, rfl⟩ := length_eq_one_iff.mp hindex
  refine ⟨i, rfl, ?_⟩
  by_cases hbit : κ = .bit
  · subst hbit
    obtain ⟨x, hx, hget⟩ := SortedMap.exists_get?_ofList (k := UnitId.bit i)
      (l := c.bits.map fun u => (u, UnitId.bit (u.index.headD 0 + n))) (by
        rw [map_map]
        exact mem_map.mpr ⟨_, mem_filter.mpr ⟨hu, rfl⟩, rfl⟩)
    obtain ⟨w, _, heq⟩ := mem_map.mp hx
    cases heq
    show ((shiftBits c.bits n).get? (.bit i)).getD _ = _
    rw [shiftBits, hget, if_pos rfl, Nat.add_comm]
    rfl
  · have hget : (shiftBits c.bits n).get? ⟨κ, κ.defaultRegister, [i]⟩ = none := by
      refine Option.eq_none_iff_forall_ne_some.mpr fun x hx => hbit ?_
      obtain ⟨w, hw, heq⟩ := mem_map.mp (SortedMap.mem_of_mem_ofList (SortedMap.get?_iff_mem.mp hx))
      cases heq
      exact of_decide_eq_true (mem_filter.mp hw).2
    rw [Renaming.apply, hget, if_neg hbit, Nat.zero_add]
    rfl

lemma Wraps.filter_units (h : Wraps ((range' 0 n).map .bit) layers d e) (hsimple : r.isSimple)
    (hren : IsRenamed (shiftBits r.bits n) r d) (κ : UnitKind) : e.units.filter (·.kind = κ) =
      ((range' 0 n).map .bit).filter (·.kind = κ) ++ (r.units.filter (·.kind = κ)).map (shiftBits r.bits n).apply := by
  have hshift : ∀ {u}, u ∈ r.units.filter (·.kind = κ) → ∃ i, u = .ofIndex κ i ∧
      (shiftBits r.bits n).apply u = .ofIndex κ ((if κ = .bit then n else 0) + i) := fun {u} hu => by
    obtain ⟨hmem, hκ⟩ := mem_filter.mp hu
    obtain rfl := of_decide_eq_true hκ
    exact apply_shiftBits hsimple hmem n
  refine ((pairwise_units e).filter _).eq_of_mem_iff (pairwise_append.mpr ⟨?_, ?_, ?_⟩) fun u => ?_
  · refine (pairwise_map.mpr ((pairwise_lt_range' ..).imp fun hlt => ?_)).filter _
    exact (UnitId.compare_ofIndex ..).trans (Nat.compare_eq_lt.mpr hlt)
  · refine pairwise_map.mpr (((pairwise_units r).filter _).imp_of_mem fun {u w} hu hw hlt => ?_)
    obtain ⟨i, heq, happly⟩ := hshift hu
    obtain ⟨j, heq', happly'⟩ := hshift hw
    rw [heq, heq', UnitId.compare_ofIndex] at hlt
    rw [happly, happly', UnitId.compare_ofIndex]
    exact Nat.compare_eq_lt.mpr (Nat.add_lt_add_left (Nat.compare_eq_lt.mp hlt) _)
  · intro u hu w hw
    obtain ⟨hu, hκ⟩ := mem_filter.mp hu
    obtain ⟨i, hi, rfl⟩ := mem_map.mp hu
    obtain rfl := of_decide_eq_true hκ
    obtain ⟨w, hmem, rfl⟩ := mem_map.mp hw
    obtain ⟨j, _, happly⟩ := hshift hmem
    rw [happly]
    have hlt : i < n := by simpa using hi
    exact (UnitId.compare_ofIndex ..).trans (Nat.compare_eq_lt.mpr (Nat.lt_add_right j hlt))
  · simp only [mem_filter, mem_append, h.units, hren.mem_units, mem_map]
    grind [hren.kind]

/-! ## The place of an operation -/

lemma Wired.kinds_args (h : c.Wired unit) (hcmd : cmd ∈ c.commands) :
    cmd.args.map UnitId.kind = cmd.op.signature.map WireKind.unitKind := by
  obtain ⟨i, hi⟩ := getElem?_of_mem hcmd
  obtain ⟨harity, hfit, _⟩ := checkArgs_eq_ok (h.checkArgs_command hi fun _ => rfl)
  calc cmd.args.map UnitId.kind
    _ = (cmd.args.zip cmd.op.signature).map (UnitId.kind ∘ Prod.fst) := by rw [← map_map, map_fst_zip harity.le]
    _ = (cmd.args.zip cmd.op.signature).map (WireKind.unitKind ∘ Prod.snd) := map_congr_left fun p hp => (hfit p hp).2
    _ = cmd.op.signature.map WireKind.unitKind := by rw [← map_map, map_snd_zip harity.ge]

lemma Wired.kinds_conditionBits (h : c.Wired unit) (hcmd : cmd ∈ c.commands) :
    cmd.conditionBits.map UnitId.kind = replicate (totalWidth cmd.op.layers) .bit := by
  rw [Command.conditionBits, map_take, h.kinds_args hcmd, signature_eq, map_append, map_replicate, take_left' length_replicate]
  rfl

lemma filter_bits {l : List UnitId} (h : l.map UnitId.kind = replicate n .bit) : l.filter (·.kind = .bit) = l :=
  filter_eq_self.mpr fun _ hu => decide_eq_true (eq_of_mem_replicate (h ▸ mem_map_of_mem hu))

lemma IsRenamed.exists_created (hren : IsRenamed ρ c c') (hu : c'.endAt? .first u = some .create) :
    ∃ w ∈ c.createdUnits, ρ.apply w = u := by
  obtain ⟨ends, hends, hk⟩ := Option.bind_eq_some_iff.mp hu
  obtain ⟨w, hw, rfl⟩ := hren.ends.mp hends
  rw [hren.graph_eq] at hk
  obtain ⟨n, (hn : c.graph.vertices.get? ends.input = some n), hcreate⟩ := Option.map_eq_some_iff.mp hk
  refine ⟨w, mem_map.mpr ⟨(w, ends), mem_filter.mpr ⟨SortedMap.get?_iff_mem.mp hw, ?_⟩, rfl⟩, rfl⟩
  rw [hn, Option.any_some, hcreate]
  rfl

end Circuit

end Wireloom
