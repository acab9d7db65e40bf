import Wireloom.Proofs.Following
import Wireloom.Proofs.Symbols
import Wireloom.Proofs.Tracking

/-!
# `measuresLast`, `Circuit.Reduces` — fewer commands on renamed units

A circuit reduces to another if every command of the other is one of its own on renamed units, and whatever order fits
the links and hazards of the first fits those of the second (`Reduces`).
-/

namespace Wireloom

open List Relation

variable {op : Op} {args : List UnitId} {u : UnitId} {seen : SortedSet UnitId} {cmds : List Command}

/-! ## The check, pair by pair -/

/-- The units that an operation measures, under conditions or not. -/
def Op.measured : Op → List UnitId → List UnitId
  | conditional op width _, args => op.measured (args.drop width)
  | measure, args => args
  | _, _ => []

def Command.measured (cmd : Command) : List UnitId := cmd.op.measured cmd.args

/-- The pin is that of the qubit or the bit that an operation measures; the pins of conditions come before. -/
def Op.MeasuresAt (op : Op) (i : Nat) : Prop :=
  op.innermost = .measure ∧ (i = Circuit.totalWidth op.layers ∨ i = Circuit.totalWidth op.layers + 1)

lemma Op.measured_map (f : UnitId → UnitId) : op.measured (args.map f) = (op.measured args).map f := by
  induction op generalizing args with
  | conditional op width _ ih => rw [measured, ← map_drop, ih, measured]
  | _ => rfl

section

variable (hlength : args.length = op.signature.length)
include hlength

lemma Op.mem_measured : u ∈ op.measured args ↔
    ∃ i k, op.MeasuresAt i ∧ (args.zip op.signature)[i]? = some (u, k) ∧ k.isLinear := by
  induction op generalizing args with
  | measure =>
    obtain ⟨q, b, rfl⟩ := length_eq_two.mp hlength
    constructor
    · intro hu
      rcases mem_pair.mp hu with rfl | rfl
      · exact ⟨0, .quantum, ⟨rfl, .inl rfl⟩, rfl, rfl⟩
      · exact ⟨1, .classical, ⟨rfl, .inr rfl⟩, rfl, rfl⟩
    · rintro ⟨_, _, ⟨_, rfl | rfl⟩, hget, _⟩ <;> cases hget
      · exact mem_cons_self
      · exact mem_cons_of_mem _ mem_cons_self
  | conditional op width _ ih =>
    rw [signature, length_append, length_replicate] at hlength
    have hzip : ∀ i, (args.zip (replicate width .boolean ++ op.signature))[width + i]? =
        ((args.drop width).zip op.signature)[i]? := by
      intro i
      rw [← getElem?_drop, zip, drop_zipWith, drop_left' length_replicate]
    rw [measured, ih (by rw [length_drop]; omega)]
    constructor
    · rintro ⟨i, k, ⟨hop, hi⟩, hget, hlin⟩
      exact ⟨width + i, k, ⟨hop, hi.imp (congrArg (width + ·)) (congrArg (width + ·))⟩, (hzip i).trans hget, hlin⟩
    · rintro ⟨_, k, ⟨hop, rfl | rfl⟩, hget, hlin⟩
      · exact ⟨_, k, ⟨hop, .inl rfl⟩, (hzip _).symm.trans hget, hlin⟩
      · exact ⟨_, k, ⟨hop, .inr rfl⟩, (hzip _).symm.trans hget, hlin⟩
  | _ => simp [measured, MeasuresAt, innermost]

lemma Op.mem_of_mem_measured (hu : u ∈ op.measured args) : u ∈ args := by
  obtain ⟨_, _, _, hget, _⟩ := (mem_measured hlength).mp hu
  exact (of_mem_zip (mem_of_getElem? hget)).1

lemma Op.nodup_measured (hapart : (args.zip op.signature).Pairwise Circuit.Apart) : (op.measured args).Nodup := by
  induction op generalizing args with
  | measure =>
    obtain ⟨q, b, rfl⟩ := length_eq_two.mp hlength
    have hne : q ≠ b := (pairwise_cons.mp hapart).1 _ mem_cons_self (.inl rfl)
    exact pairwise_pair.mpr hne
  | conditional op width _ ih =>
    rw [signature, length_append, length_replicate] at hlength
    refine ih (by rw [length_drop]; omega) ?_
    have hdrop := hapart.drop (i := width)
    rwa [zip, drop_zipWith, signature, drop_left' length_replicate] at hdrop
  | _ => exact nodup_nil

lemma measureOnce_fst : (measureOnce op args seen).1 ↔ (∀ u ∈ args, ¬ seen.contains u) ∧ (op.measured args).Nodup := by
  induction op generalizing args with
  | measure =>
    obtain ⟨q, b, rfl⟩ := length_eq_two.mp hlength
    have hboth : ¬ (seen.add q).contains b ↔ ¬ q = b ∧ ¬ seen.contains b := by
      rw [SortedSet.contains_add, not_or, eq_comm]
    have hnodup : [q, b].Nodup ↔ ¬ q = b := by simp
    rw [measureOnce, Op.measured, hnodup]
    simp only [Bool.and_eq_true, Bool.not_eq_true', ← Bool.not_eq_true, hboth, forall_mem_cons]
    tauto
  | conditional op width _ ih =>
    rw [Op.signature, length_append, length_replicate] at hlength
    have hrest := @ih (args.drop width) (by rw [length_drop]; omega)
    have hsplit : (∀ u ∈ args, ¬ seen.contains u) ↔
        (∀ u ∈ args.take width, ¬ seen.contains u) ∧ ∀ u ∈ args.drop width, ¬ seen.contains u := by
      rw [← forall_mem_append, take_append_drop]
    rw [measureOnce, hsplit, Op.measured]
    split
    · next hany =>
      obtain ⟨u, hu, hseen⟩ := any_eq_true.mp hany
      exact iff_of_false Bool.false_ne_true fun hall => hall.1.1 u hu hseen
    · next hany =>
      rw [hrest, and_assoc]
      refine (and_iff_right fun u hu hseen => ?_).symm
      exact hany (any_eq_true.mpr ⟨u, hu, hseen⟩)
  | _ => simp [measureOnce, Op.measured]

lemma measureOnce_snd (hfresh : (measureOnce op args seen).1) :
    (measureOnce op args seen).2.contains u ↔ seen.contains u ∨ u ∈ op.measured args := by
  induction op generalizing args with
  | measure =>
    obtain ⟨q, b, rfl⟩ := length_eq_two.mp hlength
    rw [measureOnce, SortedSet.contains_add, SortedSet.contains_add, Op.measured, mem_pair]
    tauto
  | conditional op width _ ih =>
    rw [Op.signature, length_append, length_replicate] at hlength
    rw [measureOnce] at hfresh ⊢
    split at hfresh
    · cases hfresh
    · next hany =>
      rw [if_neg hany, Op.measured]
      exact ih (by rw [length_drop]; omega) hfresh
  | _ => simp [measureOnce, Op.measured]

end

lemma measuresLast_iff (harity : ∀ cmd ∈ cmds, cmd.args.length = cmd.op.signature.length) :
    measuresLast cmds seen ↔ (∀ cmd ∈ cmds, (∀ u ∈ cmd.args, ¬ seen.contains u) ∧ cmd.measured.Nodup) ∧
      cmds.Pairwise fun a b => ∀ u ∈ a.measured, u ∉ b.args := by
  induction cmds generalizing seen with
  | nil => simp [measuresLast]
  | cons cmd rest ih =>
    obtain ⟨hlength, harity⟩ := forall_mem_cons.mp harity
    rw [measuresLast, Bool.and_eq_true, ih harity, forall_mem_cons, pairwise_cons, and_assoc]
    by_cases hfresh : (measureOnce cmd.op cmd.args seen).1
    · have hself := (measureOnce_fst hlength).mp hfresh
      simp only [hfresh, true_and, measureOnce_snd hlength hfresh, not_or, Command.measured]
      constructor
      · rintro ⟨hrest, hpairs⟩
        exact ⟨hself, fun b hb => ⟨fun u hu => ((hrest b hb).1 u hu).1, (hrest b hb).2⟩,
          fun b hb u hu hub => ((hrest b hb).1 u hub).2 hu, hpairs⟩
      · rintro ⟨_, hrest, hfirst, hpairs⟩
        exact ⟨fun b hb => ⟨fun u hu => ⟨(hrest b hb).1 u hu, fun hm => hfirst b hb u hm hu⟩, (hrest b hb).2⟩, hpairs⟩
    · exact iff_of_false (fun h => hfresh h.1) fun h => hfresh ((measureOnce_fst hlength).mpr h.1)

/-! ## The order does not matter -/

namespace Circuit

open Wireloom.Graph

variable {c : Circuit} {unit : Pin → UnitId} {p : Pin} {l : Link} {k : WireKind} {a b : Command} {v w : Vertex}
  {order : List Vertex}

lemma signature_eq (op : Op) : op.signature = replicate (totalWidth op.layers) .boolean ++ op.innermost.signature := by
  induction op with
  | conditional op width value ih =>
    show replicate width _ ++ op.signature = replicate (width + totalWidth op.layers) _ ++ op.innermost.signature
    rw [ih, ← append_assoc, replicate_append_replicate]
  | _ => rfl

/-- **All vertices in an order that fits the links and hazards.** -/
structure Linearises (c : Circuit) (order : List Vertex) : Prop where
  nodup : order.Nodup
  mem : ∀ {v}, v ∈ order ↔ c.graph.Live v
  after : ∀ {v w}, c.graph.Precedes v w → order.idxOf v < order.idxOf w

/-- **Nothing comes after a measurement**: what leaves the pins of the qubit and of the bit is no read and leads to the
    end of a unit. -/
def MeasuresAtEnd (c : Circuit) : Prop :=
  ∀ {l op}, c.graph.HasLink l → c.graph.kind? l.source.vertex = some (.op op) → op.MeasuresAt l.source.index →
    l.kind.isLinear = true ∧ c.IsOutput l.target.vertex

namespace Wired

section

variable (h : c.Wired unit)
include h

/-- **A pin on a wire and an end of a link from the same wire come one after the other.** A read is followed by the pin
    to which the wire leads on from where it reads. -/
theorem leads_or_before (hp : c.graph.net.wireAt p = some k) (hk : k.isLinear) (hl : c.graph.HasLink l)
    (hunit : unit p = unit l.source) (hne : p.vertex ≠ l.target.vertex) :
    ReflTransGen c.graph.net.Joined p l.source ∨ TransGen c.graph.net.Before l.target.vertex p.vertex := by
  rcases h.path_of_unit hp hk (h.threaded.source_wire hl) (WireKind.isLinear_carrier _) hunit with hpath | hpath
  · exact .inl hpath
  · rcases ReflTransGen.cases_head hpath with rfl | ⟨q, ⟨k1, hk1, hnext⟩, hrest⟩
    · exact .inl .refl
    · right
      have hrest := Net.before_of_joined hrest
      by_cases hlin : l.kind.isLinear
      · -- the link is the one along which the wire goes on
        have hq : l.target = q := congrArg Link.target (h.threaded.out_unique hl hnext hlin hk1 rfl)
        rw [hq] at hne ⊢
        exact (reflTransGen_iff_eq_or_transGen.mp hrest).resolve_left hne
      · exact .head' (.hazard hl hnext (WireKind.eq_boolean hlin) hk1 rfl) hrest

lemma exists_link_of_mem (ha : a ∈ c.commands) {u : UnitId} (hu : u ∈ a.args) :
    ∃ l, c.graph.HasLink l ∧ l.target.vertex = a.vertex ∧ unit l.source = u := by
  obtain ⟨i, hi⟩ := getElem?_of_mem ha
  obtain ⟨j, hj⟩ := getElem?_of_mem hu
  have hlt := h.lists_commands.arity a ha ▸ (List.getElem?_eq_some_iff.mp hj).1
  obtain ⟨l, hl, ht, heq⟩ := h.exists_link hi
    (getElem?_zip_eq_some.mpr ⟨hj, getElem?_eq_getElem hlt⟩ : _ = some (u, a.op.signature[j]))
  exact ⟨l, hl, by rw [ht], (Prod.mk.inj heq).1.symm⟩

lemma leads_or_before_of_unit (ha : a ∈ c.commands) (hb : b ∈ c.commands) (hne : a.vertex ≠ b.vertex) {u : UnitId}
    (hu : u ∈ a.measured) (hub : u ∈ b.args) : ∃ i l, a.op.MeasuresAt i ∧ c.graph.HasLink l ∧ l.target.vertex = b.vertex ∧
      (ReflTransGen c.graph.net.Joined ⟨a.vertex, i⟩ l.source ∨ TransGen c.graph.net.Before b.vertex a.vertex) := by
  obtain ⟨i, k, hmeasures, hget, hlin⟩ := (Op.mem_measured (h.lists_commands.arity a ha)).mp hu
  obtain ⟨j, hj⟩ := getElem?_of_mem ha
  obtain ⟨x, hx, hxt, hxu⟩ := h.exists_link hj hget
  obtain ⟨l, hl, ht, hunit⟩ := h.exists_link_of_mem hb hub
  obtain ⟨rfl, rfl⟩ := Prod.mk.inj hxu
  rw [h.threaded.same_unit hx hlin, hxt] at hunit
  have hwire := h.threaded.target_wire hx
  rw [hxt] at hwire
  refine ⟨i, l, hmeasures, hl, ht, ?_⟩
  rw [← ht] at hne ⊢
  exact h.leads_or_before hwire hlin hl hunit.symm hne

lemma before_or_after_of_unit (ha : a ∈ c.commands) (hb : b ∈ c.commands) (hne : a.vertex ≠ b.vertex) {u : UnitId}
    (hu : u ∈ a.measured) (hub : u ∈ b.args) :
    TransGen c.graph.net.Before a.vertex b.vertex ∨ TransGen c.graph.net.Before b.vertex a.vertex := by
  obtain ⟨i, l, _, hl, ht, hpath⟩ := h.leads_or_before_of_unit ha hb hne hu hub
  exact hpath.imp_left fun hpath => ht ▸ .tail' (Net.before_of_joined hpath) (.link hl)

/-! ## Nothing comes after a measurement -/

lemma nodup_measured (ha : a ∈ c.commands) : a.measured.Nodup := by
  obtain ⟨i, hi⟩ := getElem?_of_mem ha
  obtain ⟨harity, _, hapart⟩ := checkArgs_eq_ok (h.checkArgs_command hi fun _ => rfl)
  exact Op.nodup_measured harity hapart

lemma linearises_walk : c.Linearises c.graph.walk where
  nodup := nodup_walk h.valid
  mem := h.mem_walk
  after hvw := idxOf_lt_idxOf (nodup_walk h.valid) (h.mem_walk.mpr (live_of_precedes h.valid hvw).2) fun _ _ hwalk =>
    walk_after_of_precedes h.valid hwalk hvw

section

variable (ho : c.Linearises order)
include ho

lemma ranked_order : c.graph.net.Ranked order.idxOf :=
  fun _ _ hvw => ho.after ((mem_pairs_iff h.valid h.threaded).mpr hvw)

lemma commandsAlong_order : c.commandsAlong order c.startWires = order.filterMap (c.commandAt unit) := by
  refine h.commandsAlong_eq h.knows_start fun xs v ys hxs w hw => ?_
  have hlt : order.idxOf w < order.idxOf v := h.ranked_order ho _ _ hw
  have hnodup := ho.nodup
  rw [hxs] at hlt hnodup
  have hv : v ∉ xs := fun hv => (nodup_append.mp hnodup).2.2 v hv v mem_cons_self rfl
  rw [idxOf_append_of_notMem hv, idxOf_cons_self] at hlt
  by_contra hnot
  rw [nil_append] at hnot
  rw [idxOf_append_of_notMem hnot] at hlt
  omega

/-- In every order the check compares the same pairs, those of which the first comes earlier. -/
lemma measuresLast_order : measuresLast (c.commandsAlong order c.startWires) .empty ↔ ∀ a ∈ c.commands,
    ∀ b ∈ c.commands, order.idxOf a.vertex < order.idxOf b.vertex → ∀ u ∈ a.measured, u ∉ b.args := by
  have hmem : ∀ {cmd}, cmd ∈ order.filterMap (c.commandAt unit) ↔ cmd ∈ c.commands := by
    intro cmd
    rw [h.commands_eq, mem_filterMap, mem_filterMap]
    exact exists_congr fun v => and_congr_left' (ho.mem.trans h.mem_walk.symm)
  rw [h.commandsAlong_order ho, measuresLast_iff fun cmd hcmd => h.lists_commands.arity cmd (hmem.mp hcmd),
    and_iff_right fun cmd hcmd => ⟨fun _ _ => Bool.false_ne_true, h.nodup_measured (hmem.mp hcmd)⟩,
    pairwise_filterMap, pairwise_iff_idxOf ho.nodup]
  constructor
  · intro hpairs a ha b hb hlt
    have hplace : ∀ {cmd}, cmd ∈ c.commands → cmd.vertex ∈ order ∧ c.commandAt unit cmd.vertex = some cmd := by
      intro cmd hcmd
      obtain ⟨v, hv, hat⟩ := mem_filterMap.mp (hmem.mpr hcmd)
      obtain ⟨rfl, _⟩ := of_commandAt hat
      exact ⟨hv, hat⟩
    exact hpairs _ (hplace ha).1 _ (hplace hb).1 hlt _ (hplace ha).2 _ (hplace hb).2
  · intro hpairs v hv w hw hlt a ha b hb
    obtain ⟨rfl, _⟩ := of_commandAt ha
    obtain ⟨rfl, _⟩ := of_commandAt hb
    exact hpairs a (h.mem_commands.mpr ha) b (h.mem_commands.mpr hb) hlt

lemma measuresAtEnd_iff : measuresLast (c.commandsAlong order c.startWires) .empty ↔ c.MeasuresAtEnd := by
  rw [h.measuresLast_order ho]
  have hrank := h.ranked_order ho
  constructor
  · intro hpairs l op hl hk hmeasures
    rcases h.cases_live (h.valid.target_live hl) with hin | hout | ⟨j, b, hj, hb⟩
    · exact absurd hin (h.not_isInput_of_before (.link hl))
    · exact ⟨h.complete.not_boolean_of_last h.threaded.toFitted hl hout, hout⟩
    · -- the operation at its end acts on what was measured
      obtain ⟨n, a, ha, hv⟩ := h.exists_command hk
      have hmem := mem_of_getElem? ha
      have hkind := h.kind_command ha
      rw [hv, hk] at hkind
      cases hkind
      have hwire := h.threaded.source_wire hl
      have hport := wireAt_of_kind? hk
      have hmeasured : unit l.source ∈ a.measured :=
        (Op.mem_measured (h.lists_commands.arity a hmem)).mpr ⟨_, _, hmeasures, getElem?_zip_eq_some.mpr
          ⟨h.args_of_linear ha hwire (WireKind.isLinear_carrier _) hv.symm, hport.symm.trans hwire⟩,
          WireKind.isLinear_carrier _⟩
      exact absurd (mem_of_getElem? (h.args_getElem? hj hl hb.symm))
        (hpairs a hmem b (mem_of_getElem? hj) (hv ▸ hb ▸ hrank _ _ (.link hl)) _ hmeasured)
  · intro hend a ha b hb hlt u hu hub
    have hne : a.vertex ≠ b.vertex := fun heq => by rw [heq] at hlt; exact lt_irrefl _ hlt
    obtain ⟨i, l, hmeasures, hl, ht, hpath | hbefore⟩ := h.leads_or_before_of_unit ha hb hne hu hub
    · obtain ⟨n, hn⟩ := getElem?_of_mem ha
      obtain ⟨m, hm⟩ := getElem?_of_mem hb
      have hkind := h.kind_command hn
      rcases ReflTransGen.cases_head hpath with heq | ⟨q, ⟨k, _, hq⟩, hrest⟩
      · have hat : c.graph.kind? l.source.vertex = some (.op a.op) := by rwa [← heq]
        exact h.not_isOutput_of_op (h.kind_command hm) (ht ▸ (hend hl hat (by rwa [← heq])).2)
      · have hout := (hend hq hkind hmeasures).2
        rcases ReflTransGen.cases_head hrest with rfl | ⟨r, ⟨_, _, hr⟩, _⟩
        · exact h.complete.source_open hl hout
        · exact h.complete.source_open hr hout
    · exact Nat.lt_asymm hlt (hrank.trans hbefore)

end

lemma innermost_ne_measure (hbits : c.bits.isEmpty) (hk : c.graph.kind? v = some (.op op)) : op.innermost ≠ .measure := by
  intro hop
  have hport : c.graph.net.wireAt ⟨v, totalWidth op.layers + 1⟩ = some (WireKind.carrier .classical) := by
    rw [wireAt_of_kind? hk]
    show op.signature[totalWidth op.layers + 1]? = _
    rw [signature_eq, hop, getElem?_append_right (by rw [length_replicate]; omega), length_replicate, Nat.add_sub_cancel_left]
    rfl
  obtain ⟨hunit, hkind⟩ := h.unit_fits hport
  exact filter_eq_nil_iff.mp (List.isEmpty_iff.mp hbits) _ (mem_units_iff.mpr (SortedMap.contains_iff.mp hunit)) (beq_iff_eq.mpr hkind)

lemma checksMeasures_iff (ho : c.Linearises order) :
    (c.bits.isEmpty || measuresLast (c.commandsAlong order c.startWires) .empty) = true ↔ c.MeasuresAtEnd := by
  rw [Bool.or_eq_true, h.measuresAtEnd_iff ho]
  exact or_iff_right_of_imp fun hbits _ _ _ hk hmeasures => absurd hmeasures.1 (h.innermost_ne_measure hbits hk)

end

end Wired

/-- **Whether nothing is touched after it was measured** is a matter of the graph: the check finds it in whichever order
    the commands are listed. -/
theorem noMidMeasure_iff_measuresAtEnd (h : c.WellFormed) :
    (Predicate.verify c (.property .noMidMeasure) = true ↔ c.MeasuresAtEnd) ∧ c.Linearises c.graph.walk ∧
      ∀ order, c.Linearises order → (c.bits.isEmpty || measuresLast (c.commandsAlong order c.startWires) .empty) =
          Predicate.verify c (.property .noMidMeasure) := by
  have h := h.wired
  have hwalk := h.checksMeasures_iff h.linearises_walk
  exact ⟨hwalk, h.linearises_walk, fun order ho => Bool.eq_iff_iff.mpr ((h.checksMeasures_iff ho).trans hwalk.symm)⟩

/-- A measurement under a condition on another bit comes last; a reset under a condition on the bit that was written does
    not let it. -/
theorem noMidMeasure_iff_measuresAtEnd_read : ∃ c c',
    (ofUnits 2 2).edited (addOp (.conditional .measure 1 1) [.bit 0, .qubit 0, .bit 1] none) = .ok c ∧
    c.edited (addOp (.conditional .reset 1 1) [.bit 1, .qubit 1] none) = .ok c' ∧ c.WellFormed ∧ c'.WellFormed ∧
    c.MeasuresAtEnd ∧ ¬ c'.MeasuresAtEnd := by
  simp only [exists_and_left]
  refine exists_run fun c hc => exists_and_of (of_run hc (by decide +kernel)) fun c' hc' => ?_
  have hwell := wellFormed_edited hc
  have hwell' := (addOp_keeps _ _ _).edited hwell hc'
  refine ⟨hwell, hwell', (noMidMeasure_iff_measuresAtEnd hwell).1.mp (of_run hc (by decide +kernel)), ?_⟩
  rw [← (noMidMeasure_iff_measuresAtEnd hwell').1, Bool.not_eq_true]
  exact of_run hc' (of_run hc (by decide +kernel))

end Circuit

/-! # `Circuit.Reduces` -/

open Option SortedMap

lemma Circuit.not_isSymbolic_iff {c : Circuit} : c.isSymbolic = false ↔
    ∀ name, ¬ c.phase.symbols.contains name ∧ ∀ cmd ∈ c.commands, ¬ cmd.op.symbols.contains name := by
  unfold isSymbolic
  rw [Bool.not_eq_false', SortedSet.isEmpty_iff]
  simp only [contains_symbols, not_or, not_exists, not_and]

/-! ## Renamed commands -/

namespace Command

variable {ρ : Renaming} {cmd : Command}

lemma rename_empty (cmd : Command) : cmd.rename .empty = cmd := by
  show { cmd with args := cmd.args.map id } = cmd
  rw [List.map_id]

lemma qubits_rename (hkind : ∀ u, (ρ.apply u).kind = u.kind) : (cmd.rename ρ).qubits = cmd.qubits.map ρ.apply := by
  show (cmd.args.map ρ.apply).filter _ = _
  rw [List.filter_map]
  refine congrArg (map _) (filter_congr fun u _ => ?_)
  simp only [Function.comp_apply, UnitId.isQubit, hkind]

lemma measured_rename (cmd : Command) : (cmd.rename ρ).measured = cmd.measured.map ρ.apply :=
  Op.measured_map ρ.apply

end Command

/-- Whether a predicate looks at the names of units. -/
def Predicate.readsNames : Predicate → Bool
  | connectivity _ => true
  | property .defaultRegister => true
  | _ => false

namespace Circuit

open List SortedMap

variable {c c' : Circuit} {unit : Pin → UnitId} {ρ : Renaming} {p : Predicate} {v : Vertex} {cmd : Command}

/-- **`c` reduces to `c'`**: all that is in `c'` comes from `c`, on units that `ρ` renames and does not mix up. -/
structure Reduces (ρ : Renaming) (c c' : Circuit) : Prop where
  wellFormed : c'.WellFormed
  kind : ∀ u, (ρ.apply u).kind = u.kind
  injective : ∀ {u w}, u ∈ c.units → w ∈ c.units → ρ.apply u = ρ.apply w → u = w
  unit : ∀ {u'}, u' ∈ c'.units → ∃ u ∈ c.units, ρ.apply u = u'
  command : ∀ {cmd'}, cmd' ∈ c'.commands → ∃ cmd ∈ c.commands, cmd' = cmd.rename ρ
  ranked : ∀ {rank : Vertex → ℕ}, c.graph.net.Ranked rank → c'.graph.net.Ranked rank
  phase : c'.phase = c.phase

namespace Reduces

section Kept

variable (hr : Reduces ρ c c')
include hr

lemma all_commands {check : Command → Bool} (hcheck : ∀ cmd, check (cmd.rename ρ) = check cmd)
    (h : c.commands.all check) : c'.commands.all check := by
  refine all_eq_true.mpr fun cmd' hcmd' => ?_
  obtain ⟨cmd, hcmd, rfl⟩ := hr.command hcmd'
  rw [hcheck]
  exact all_eq_true.mp h cmd hcmd

lemma length_qubits_le : c'.qubits.length ≤ c.qubits.length := by
  have hsubset : c'.qubits ⊆ c.qubits.map ρ.apply := by
    intro u' hu'
    obtain ⟨hmem, hqubit⟩ := mem_filter.mp hu'
    obtain ⟨u, hu, rfl⟩ := hr.unit hmem
    refine mem_map_of_mem (mem_filter.mpr ⟨hu, ?_⟩)
    rwa [UnitId.isQubit, hr.kind] at hqubit
  have hnodup : c'.qubits.Nodup := (nodup_keys c'.boundary).filter _
  calc c'.qubits.length ≤ (c.qubits.map ρ.apply).length := (hnodup.subperm hsubset).length_le
    _ = c.qubits.length := length_map ..

lemma isEmpty_bits (h : c.bits.isEmpty) : c'.bits.isEmpty := by
  rw [List.isEmpty_iff] at h ⊢
  refine filter_eq_nil_iff.mpr fun u' hu' hbit => ?_
  obtain ⟨u, hu, rfl⟩ := hr.unit hu'
  refine filter_eq_nil_iff.mp h u hu ?_
  rwa [UnitId.isBit, hr.kind] at hbit

lemma noSymbols (h : c.isSymbolic = false) : c'.isSymbolic = false := by
  rw [not_isSymbolic_iff] at h ⊢
  intro name
  refine ⟨hr.phase ▸ (h name).1, fun cmd' hcmd' => ?_⟩
  obtain ⟨cmd, hcmd, rfl⟩ := hr.command hcmd'
  exact (h name).2 cmd hcmd

lemma noMidMeasure (h : c.WellFormed) (hlast : measuresLast c.commands .empty) : measuresLast c'.commands .empty := by
  have h' := hr.wellFormed.wired
  have hpairs := (h.wired.measuresLast_order h.wired.linearises_walk).mp hlast
  refine (h'.measuresLast_order h'.linearises_walk).mpr fun a' ha' b' hb' hlt u' hu' hub' => ?_
  have hne : a'.vertex ≠ b'.vertex := fun heq => by rw [heq] at hlt; exact lt_irrefl _ hlt
  have hbefore := (h'.before_or_after_of_unit ha' hb' hne hu' hub').resolve_right fun hafter =>
    Nat.lt_asymm hlt ((h'.ranked_order h'.linearises_walk).trans hafter)
  -- the two commands stood in the same order in `c`, which the check has passed
  have hfirst := (hr.ranked (h.wired.ranked_order h.wired.linearises_walk)).trans hbefore
  obtain ⟨a, ha, rfl⟩ := hr.command ha'
  obtain ⟨b, hb, rfl⟩ := hr.command hb'
  rw [Command.measured_rename] at hu'
  obtain ⟨u, hu, rfl⟩ := mem_map.mp hu'
  obtain ⟨w, hw, heq⟩ := mem_map.mp hub'
  have hua := Op.mem_of_mem_measured (h.wired.lists_commands.arity a ha) hu
  obtain rfl := hr.injective (mem_units_of_mem_args hb hw) (mem_units_of_mem_args ha hua) heq
  exact hpairs a ha b hb hfirst w hu hw

lemma property (h : c.WellFormed) {t : Property} (ht : t ≠ .defaultRegister) (hverify : t.verify c) : t.verify c' := by
  cases t with
  | maxTwoQubitGates =>
    refine hr.all_commands (fun cmd => ?_) hverify
    rw [Command.qubits_rename hr.kind, length_map]
    rfl
  | noClassicalBits => exact hr.isEmpty_bits hverify
  | noClassicalControl => exact hr.all_commands (fun _ => rfl) hverify
  | noBarriers => exact hr.all_commands (fun _ => rfl) hverify
  | noMidMeasure =>
    rcases Bool.or_eq_true_iff.mp hverify with hempty | hlast
    · exact Bool.or_eq_true_iff.mpr (.inl (hr.isEmpty_bits hempty))
    · exact Bool.or_eq_true_iff.mpr (.inr (hr.noMidMeasure h hlast))
  | noSymbols =>
    rw [Property.verify, Bool.not_eq_true'] at hverify ⊢
    exact hr.noSymbols hverify
  | defaultRegister => exact absurd rfl ht

end Kept

lemma verify (hr : Reduces ρ c c') (h : c.WellFormed) (hp : p.kind ≠ .userDefined)
    (hnames : p.readsNames → ρ = .empty) (hverify : p.verify c) : p.verify c' := by
  -- with the same names, the units of `c'` are units of `c`
  have hall : ∀ {check : UnitId → Bool}, ρ = .empty → c.units.all check → c'.units.all check := by
    rintro check rfl hcheck
    refine all_eq_true.mpr fun u' hu' => ?_
    obtain ⟨u, hu, rfl⟩ := hr.unit hu'
    exact all_eq_true.mp hcheck u hu
  cases p with
  | gateSet allowed => exact hr.all_commands (fun _ => rfl) hverify
  | maxQubits n =>
    have hle : c.qubits.length ≤ n := of_decide_eq_true hverify
    exact decide_eq_true (hr.length_qubits_le.trans hle)
  | connectivity device =>
    obtain rfl := hnames rfl
    obtain ⟨hnodes, hcoupled⟩ := Bool.and_eq_true_iff.mp hverify
    refine Bool.and_eq_true_iff.mpr ⟨?_, hr.all_commands (fun cmd => by rw [cmd.rename_empty]) hcoupled⟩
    unfold qubits at hnodes ⊢
    rw [List.all_filter] at hnodes ⊢
    exact hall rfl hnodes
  | userDefined test => exact absurd rfl hp
  | property t =>
    by_cases ht : t = .defaultRegister
    · subst ht
      exact hall (hnames rfl) hverify
    · exact hr.property h ht hverify

end Reduces

/-! ## Renaming -/

lemma IsRenamed.reduces (hren : IsRenamed ρ c c') (h : c.WellFormed) : Reduces ρ c c' where
  wellFormed := (hren.wired h.wired).wellFormed
  kind := hren.kind
  injective hu hw := by
    obtain ⟨_, hu⟩ := mem_keys_iff.mp hu
    obtain ⟨_, hw⟩ := mem_keys_iff.mp hw
    exact hren.injective hu hw
  unit := hren.mem_units.mp
  command {cmd'} hcmd' := by
    rw [hren.commands_eq h] at hcmd'
    obtain ⟨cmd, hcmd, rfl⟩ := mem_map.mp hcmd'
    exact ⟨cmd, hcmd, rfl⟩
  ranked hrank := by
    rw [hren.graph_eq]
    exact hrank
  phase := by rw [hren.others]

/-! ## Fewer vertices -/

lemma reduces_of_part (h' : c'.Wired unit)
    (hunits : ∀ {u}, u ∈ c'.units → u ∈ c.units) (hcommands : ∀ {cmd}, cmd ∈ c'.commands → cmd ∈ c.commands)
    (hranked : ∀ {rank : Vertex → ℕ}, c.graph.net.Ranked rank → c'.graph.net.Ranked rank) (hphase : c'.phase = c.phase) :
    Reduces .empty c c' where
  wellFormed := h'.wellFormed
  kind _ := rfl
  injective _ _ heq := heq
  unit hu := ⟨_, hunits hu, rfl⟩
  command {cmd} hcmd := ⟨cmd, hcommands hcmd, cmd.rename_empty.symm⟩
  ranked := hranked
  phase := hphase

lemma IsTrimmed.reduces {blank : List (UnitId × Ends)} (htrim : IsTrimmed blank c c') (h : c.Wired unit)
    (h' : c'.Wired unit) : Reduces .empty c c' := by
  refine reduces_of_part h' (fun {u} hu => ?_) (fun {cmd} hcmd => ?_) (fun hrank => ?_) ?_
  · obtain ⟨ends, hends⟩ := mem_keys_iff.mp hu
    rw [htrim.ends] at hends
    exact mem_keys_iff.mpr ⟨ends, (ite_none_left_eq_some.mp hends).2⟩
  · have hcmd := h'.mem_commands.mp hcmd
    obtain ⟨_, _, _, hn⟩ := of_commandAt hcmd
    rw [h.mem_commands, ← hcmd]
    refine (commandAt_eq_of_links h h' (hn.trans (htrim.node.mp hn).1.symm) fun m hm _ => ?_).symm
    exact ⟨m, ((htrim.link m).mp hm).1, rfl, rfl⟩
  · exact hrank.mono fun l hl => ((htrim.link l).mp hl).1
  · rw [htrim.others]

/-- **`c'` is `c` without the operations at some vertices**, and with the wires over them joined. -/
structure IsPruned (gone : List Vertex) (c c' : Circuit) : Prop where
  node : ∀ {v n}, c'.graph.vertices.get? v = some n ↔ c.graph.vertices.get? v = some n ∧ v ∉ gone
  ranked : ∀ {rank : Vertex → ℕ}, c.graph.net.Ranked rank → c'.graph.net.Ranked rank
  command : ∀ {cmd}, cmd ∈ c'.commands ↔ cmd ∈ c.commands ∧ cmd.vertex ∉ gone
  others : c' = { c with graph := c'.graph }

namespace IsPruned

variable {gone : List Vertex}

lemma refl (c : Circuit) : IsPruned [] c c := ⟨by simp, id, by simp, rfl⟩

lemma cons {c1 : Circuit} (hfirst : IsPruned [v] c c1) (hrest : IsPruned gone c1 c') : IsPruned (v :: gone) c c' where
  node := by
    intro w n
    rw [hrest.node, hfirst.node, mem_singleton, mem_cons, not_or, and_assoc]
  ranked hrank := hrest.ranked (hfirst.ranked hrank)
  command := by
    intro cmd
    rw [hrest.command, hfirst.command, mem_singleton, mem_cons, not_or, and_assoc]
  others := by
    have hothers := hrest.others
    rw [hfirst.others] at hothers
    exact hothers

lemma reduces (hprune : IsPruned gone c c') (h' : c'.Wired unit) : Reduces .empty c c' := by
  refine reduces_of_part h' (fun hu => ?_) (fun hcmd => (hprune.command.mp hcmd).1) hprune.ranked ?_
  · rw [hprune.others] at hu
    exact hu
  · rw [hprune.others]

end IsPruned

/-- **Taking out one operation.** What is left keeps its commands, since a bridge comes from the unit that it bridges. -/
theorem removeOp_prunes {op : Op} (h : c.Wired unit) (hop : c.graph.kind? v = some (.op op)) :
    ∃ c', removeOp v c = .ok ⟨⟩ c' ∧ c'.Wired unit ∧ IsPruned [v] c c' := by
  obtain ⟨g, hrun, hw, hvert, hsplice⟩ := removeOp_run h hop
  have hnode : ∀ {w n}, g.vertices.get? w = some n ↔ c.graph.vertices.get? w = some n ∧ w ∉ [v] := by
    intro w n
    rw [hvert, SlotStore.get?_release_eq_some_iff, mem_singleton]
    tauto
  have hsame : ∀ {w n}, g.vertices.get? w = some n → Circuit.commandAt { c with graph := g } unit w = c.commandAt unit w := by
    intro w n hn
    refine commandAt_eq_of_links h hw (hn.trans (hnode.mp hn).1.symm) fun m hm _ => ?_
    obtain ⟨l, hl, htarget, _, hsource, _⟩ := hsplice.origin h.threaded.toFitted h.acyclic.no_return hm
    refine ⟨l, hl, htarget, ?_⟩
    rcases hsource with hsource | hjoined
    · rw [hsource]
    · exact (h.threaded.unit_of_joined (.single hjoined)).symm
  refine ⟨_, hrun, hw, hnode, fun hrank => hrank.splice hsplice h.threaded.toFitted, fun {cmd} => ?_, rfl⟩
  rw [hw.mem_commands, h.mem_commands]
  constructor
  · intro hcmd
    obtain ⟨_, _, _, hn⟩ := of_commandAt hcmd
    exact ⟨(hsame hn).symm.trans hcmd, (hnode.mp hn).2⟩
  · rintro ⟨hcmd, hv⟩
    obtain ⟨_, _, _, hn⟩ := of_commandAt hcmd
    exact (hsame (hnode.mpr ⟨hn, hv⟩)).trans hcmd

lemma removeOps_run {vs : List Vertex} (h : c.Wired unit) (hnodup : vs.Nodup)
    (hops : ∀ v ∈ vs, ∃ op, c.graph.kind? v = some (.op op)) :
    ∃ c', vs.forM removeOp c = .ok ⟨⟩ c' ∧ c'.Wired unit ∧ IsPruned vs c c' := by
  induction vs generalizing c with
  | nil => exact ⟨c, rfl, h, .refl c⟩
  | cons v rest ih =>
    obtain ⟨hnot, hnodup⟩ := nodup_cons.mp hnodup
    obtain ⟨⟨op, hop⟩, hrest⟩ := forall_mem_cons.mp hops
    obtain ⟨_, hrun, hw, hprune⟩ := removeOp_prunes h hop
    obtain ⟨c', hloop, hw', hprune'⟩ := ih hw hnodup fun w hmem => by
      obtain ⟨op', hop'⟩ := hrest w hmem
      obtain ⟨n, hn, hkind⟩ := map_eq_some_iff.mp hop'
      have hne : w ∉ [v] := fun hwv => hnot (mem_singleton.mp hwv ▸ hmem)
      exact ⟨op', by rw [Graph.kind?, hprune.node.mpr ⟨hn, hne⟩, map_some, hkind]⟩
    exact ⟨c', (bind_ok hrun).trans hloop, hw', hprune.cons hprune'⟩

end Circuit

/-! # `Pass.Structural` — what the passes of the library promise -/

variable {σ : Type} {c c' : Circuit}

lemma Postconditions.preserves_treating_clear {post : Postconditions} {k k' : PredicateKind} :
    (post.treating k .clear).guarantee k' = .preserve ↔ k' ≠ k ∧ post.guarantee k' = .preserve := by
  unfold guarantee treating
  rw [get?_insert]
  by_cases hk : k' = k
  · simp [hk]
  · simp [hk]

lemma Predicate.kind_of_readsNames {p : Predicate} (h : p.readsNames) :
    p.kind = .connectivity ∨ p = .property .defaultRegister := by
  cases p with
  | connectivity device => exact .inl rfl
  | property t =>
    cases t with
    | defaultRegister => exact .inr rfl
    | _ => cases h
  | _ => cases h

/-! ## Runs of the transformations -/

/-- The vertices of the barriers that are not under a condition. -/
def Circuit.barriers (c : Circuit) : List Vertex := (c.commands.filter fun cmd => cmd.op.isBarrier).map Command.vertex

lemma Drafting.forM_edit {α : Type} {f : α → Circuit.Edit PUnit} {l : List α} {d : Draft σ}
    (h : l.forM f d.circuit = .ok ⟨⟩ c') : l.forM (fun x => edit (f x)) d = .ok ⟨⟩ { d with circuit := c' } := by
  induction l generalizing d with
  | nil =>
    cases h
    rfl
  | cons x rest ih =>
    obtain ⟨_, c₁, hx, hrest⟩ := bind_eq_ok.mp h
    exact (bind_ok (edit_of_ok hx)).trans (ih hrest)

namespace Transform

variable {d d' : Draft σ} {x : Bool} {ρ : Renaming}

lemma removeBarriers_run (h : d.circuit.WellFormed) : ∃ c', removeBarriers d =
      .ok (!d.circuit.barriers.isEmpty) { d with circuit := c' } ∧ c'.WellFormed ∧
    Circuit.IsPruned d.circuit.barriers d.circuit c' := by
  have hlists := h.wired.lists_commands
  have hnodup : d.circuit.barriers.Nodup := hlists.nodup.sublist (filter_sublist.map _)
  have hops : ∀ v ∈ d.circuit.barriers, ∃ op, d.circuit.graph.kind? v = some (.op op) := by
    intro v hv
    obtain ⟨cmd, hcmd, rfl⟩ := mem_map.mp hv
    obtain ⟨k, hn⟩ := hlists.content cmd (mem_filter.mp hcmd).1
    exact ⟨cmd.op, by rw [Graph.kind?, hn]; rfl⟩
  obtain ⟨c', hrun, hw, hprune⟩ := Circuit.removeOps_run h.wired hnodup hops
  exact ⟨c', bind_ok (Drafting.forM_edit hrun), hw.wellFormed, hprune⟩

lemma removeBlankWires_reduces (h : d.circuit.WellFormed) (hrun : removeBlankWires d = .ok x d') :
    Circuit.Reduces .empty d.circuit d'.circuit := by
  obtain ⟨_, htrims, hw, htrim⟩ := Circuit.removeBlankWires_run h.wired
  unfold removeBlankWires at hrun
  rw [bind_ok (Drafting.edit_of_ok htrims), bind_ok (removeUnits_run _ _)] at hrun
  cases hrun
  exact htrim.reduces h.wired hw

lemma renameUnits_reduces (h : d.circuit.WellFormed) (hrun : renameUnits ρ d = .ok x d') :
    Circuit.Reduces ρ d.circuit d'.circuit := by
  obtain ⟨_, _, hedit, hrest⟩ := bind_eq_ok.mp hrun
  cases hrest
  exact (Circuit.rename_eq_ok (Circuit.revise_eq_ok.mp (Drafting.edit_eq_ok hedit))).reduces h

lemma flattenRegisters_reduces (h : d.circuit.WellFormed) (hrun : flattenRegisters d = .ok x d') :
    d' = d ∨ ∃ ρ, Circuit.Reduces ρ d.circuit d'.circuit := by
  rcases flattenRegisters_cases d with ⟨_, hok⟩ | ⟨_, _, hok, _, hren⟩ | ⟨_, herror⟩
  · cases hok.symm.trans hrun
    exact .inl rfl
  · cases hok.symm.trans hrun
    exact .inr ⟨_, hren.reduces h⟩
  · cases herror.symm.trans hrun

end Transform

/-! ## What is left and what is recorded -/

lemma Command.isBarrier_of_not_isConditional {cmd : Command} (h : ¬ cmd.op.isConditional) :
    cmd.isBarrier = cmd.op.isBarrier := by
  unfold isBarrier
  cases hop : cmd.op with
  | conditional op width value =>
    rw [hop] at h
    exact absurd rfl h
  | _ => rfl

lemma Circuit.noBarriers_iff_of_left (hleft : ∀ cmd, cmd ∈ c'.commands ↔ cmd ∈ c.commands ∧ cmd.op.isBarrier = false) :
    Property.noBarriers.verify c' ↔ ∀ cmd ∈ c.commands, cmd.op.isConditional → cmd.isBarrier = false := by
  unfold Property.verify
  rw [List.all_eq_true]
  simp only [Bool.not_eq_true', hleft]
  constructor
  · intro hnone cmd hcmd hcond
    refine hnone cmd ⟨hcmd, ?_⟩
    cases hop : cmd.op with
    | barrier signature =>
      rw [hop] at hcond
      cases hcond
    | _ => rfl
  · rintro hguarded cmd ⟨hcmd, hplain⟩
    by_cases hcond : cmd.op.isConditional
    · exact hguarded cmd hcmd hcond
    · rw [Command.isBarrier_of_not_isConditional hcond, hplain]

lemma Circuit.IsPruned.mem_commands_iff (hprune : IsPruned c.barriers c c') (h : c.WellFormed)
    (cmd : Command) : cmd ∈ c'.commands ↔ cmd ∈ c.commands ∧ cmd.op.isBarrier = false := by
  rw [hprune.command]
  refine and_congr_right fun hcmd => ?_
  rw [← Bool.not_eq_true, not_iff_not]
  constructor
  · intro hmem
    obtain ⟨_, hother, hvertex⟩ := mem_map.mp hmem
    obtain ⟨hin, hbarrier⟩ := mem_filter.mp hother
    rwa [inj_on_of_nodup_map h.wired.lists_commands.nodup hin hcmd hvertex] at hbarrier
  · intro hbarrier
    exact mem_map_of_mem (mem_filter.mpr ⟨hcmd, hbarrier⟩)

lemma Run.between_run (hooks : Hooks σ) (p : Pass σ) (run : Run σ Bool) (s : Session σ) : ∃ ambient, ∀ x s₂,
    run ⟨s.piece, ambient⟩ = .ok x s₂ → ∃ s', between hooks p run s = .ok x s' ∧ s'.piece = s₂.piece := by
  obtain ⟨ambient, hbefore⟩ := call_run hooks.before p s
  refine ⟨ambient, fun x s₂ hrun => ?_⟩
  obtain ⟨ambient', hafter⟩ := call_run hooks.after p s₂
  refine ⟨⟨s₂.piece, ambient'⟩, ?_, rfl⟩
  unfold between
  rw [bind_ok hbefore, bind_ok hrun, bind_ok hafter]
  rfl

namespace Pass

/-- **The passes of the library.** -/
inductive Structural : Pass σ → Prop
  | flattenRegisters : Structural flattenRegisters
  | removeBarriers : Structural removeBarriers
  | removeBlankWires : Structural removeBlankWires
  | renameQubits (ρ : Renaming) : Structural (renameQubits ρ)

/-- **The passes of the library preserve what they say they preserve**: a predicate that held of a well-formed circuit
    holds of what the transformation makes of it, if the contract preserves its kind. -/
theorem Structural.keeps_preserved {name : String} {a : Contract} {t : Transform σ} {params : SortedMap String Json}
    (hpass : (standard name a t params).Structural) {d d' : Draft σ} {x : Bool} (h : d.circuit.WellFormed)
    (hrun : t d = .ok x d') {p : Predicate} (hp : p.kind ≠ .userDefined) (hkeep : a.post.guarantee p.kind = .preserve)
    (hverify : p.verify d.circuit = true) : p.verify d'.circuit = true := by
  generalize hstandard : standard name a t params = pass at hpass
  cases hpass with
  | flattenRegisters =>
    cases hstandard
    have hcoupling := (Postconditions.preserves_treating_clear.mp hkeep).1
    rcases Transform.flattenRegisters_reduces h hrun with rfl | ⟨ρ, hreduces⟩
    · exact hverify
    · by_cases hnames : p.readsNames = true
      · obtain rfl := (Predicate.kind_of_readsNames hnames).resolve_left hcoupling
        exact isSimple_flattenRegisters hrun
      · exact hreduces.verify h hp (fun hreads => absurd hreads hnames) hverify
  | removeBarriers =>
    cases hstandard
    obtain ⟨c', hdone, hwell, hprune⟩ := Transform.removeBarriers_run h
    rw [hdone] at hrun
    cases hrun
    exact (hprune.reduces hwell.wired).verify h hp (fun _ => rfl) hverify
  | removeBlankWires =>
    cases hstandard
    exact (Transform.removeBlankWires_reduces h hrun).verify h hp (fun _ => rfl) hverify
  | renameQubits ρ =>
    cases hstandard
    obtain ⟨hcoupling, hkeep⟩ := Postconditions.preserves_treating_clear.mp hkeep
    obtain ⟨hregister, _⟩ := Postconditions.preserves_treating_clear.mp hkeep
    refine (Transform.renameUnits_reduces h hrun).verify h hp (fun hreads => ?_) hverify
    rcases Predicate.kind_of_readsNames hreads with hkind | rfl
    · exact absurd hkind hcoupling
    · exact absurd rfl hregister

/-- Where a reset was replaced, the barrier after it holds back a measurement that was put in earlier. Without the barrier
    the measurement comes first. -/
theorem Structural.keeps_preserved_reordered : ∃ r c d',
    (Circuit.ofUnits 1 0).edited (Circuit.addOp .reset [.qubit 0] none) = .ok r ∧
    (Circuit.ofUnits 2 1).edited (do
      let v ← Circuit.addOp .reset [.qubit 0] none
      let _ ← Circuit.addOp (.barrierOn 2) [.qubit 0, .qubit 1] none
      let _ ← Circuit.addOp .measure [.qubit 1, .bit 0] none
      Circuit.substituteVertex r v .delete .merge) = .ok c ∧
    c.commands.map (fun cmd => cmd.op.name) = ["reset", "barrier", "measure"] ∧
    Transform.removeBarriers ⟨c, .identity c, ()⟩ = .ok true d' ∧
    d'.circuit.commands.map (fun cmd => cmd.op.name) = ["measure", "reset"] ∧
    Predicate.verify d'.circuit (.property .noMidMeasure) = true := by
  simp only [exists_and_left]
  refine exists_run fun r hr => exists_and_of (of_run hr (by decide +kernel)) fun c hc => ?_
  obtain ⟨d', hrun, hafter⟩ : ∃ d', Transform.removeBarriers ⟨c, .identity c, ()⟩ = .ok true d' ∧
      d'.circuit.commands.map (fun cmd => cmd.op.name) = ["measure", "reset"] :=
    of_run hc (of_run hr (by decide +kernel))
  obtain ⟨_, hreset⟩ := Circuit.edited_eq_ok.mp hr
  obtain ⟨_, hedit⟩ := Circuit.edited_eq_ok.mp hc
  obtain ⟨v, c₁, hfirst, hedit⟩ := bind_eq_ok.mp hedit
  obtain ⟨_, c₂, hsecond, hedit⟩ := bind_eq_ok.mp hedit
  obtain ⟨_, c₃, hthird, hlast⟩ := bind_eq_ok.mp hedit
  have hreach : c.Reachable :=
    .substituteVertex (.addOp (.addOp (.addOp (.ofUnits 2 1) hfirst) hsecond) hthird) (.addOp (.ofUnits 1 0) hreset) hlast
  exact ⟨of_run hc (of_run hr (by decide +kernel)), d', hrun, hafter, keeps_preserved .removeBarriers
    hreach.coherent.wellFormed hrun (by decide) rfl (of_run hc (of_run hr (by decide +kernel)))⟩

/-! ## Barriers under conditions -/

lemma standard_removeBarriers {s : Session σ} (h : s.piece.circuit.WellFormed) {mode : SafetyMode}
    (hmode : mode ≠ .audit) : ∃ changed s',
      Run.standard (removeBarriers : Pass σ).contract mode Transform.removeBarriers s = .ok changed s' ∧
      Circuit.IsPruned s.piece.circuit.barriers s.piece.circuit s'.piece.circuit ∧
      s'.piece.cache.get? (.property .noBarriers) = some (.property .noBarriers, true) := by
  obtain ⟨s1, hsame, hstandard⟩ := Run.standard_of_holds (a := (removeBarriers : Pass σ).contract) mode (forall_mem_nil _)
  obtain ⟨c', hrun, _, hprune⟩ :=
    Transform.removeBarriers_run (d := ⟨s1.piece.circuit, s1.piece.maps, s1.ambient⟩) (hsame ▸ h)
  have htransform : Run.transform Transform.removeBarriers s1 = .ok (!s1.piece.circuit.barriers.isEmpty)
      ⟨{ s1.piece with circuit := c' }, s1.ambient⟩ := by
    unfold Run.transform
    rw [hrun]
  have hrecord : Workpiece.recordPostconditions { s1.piece with circuit := c' } (removeBarriers : Pass σ).contract.post
      mode = _ := Workpiece.recordEach_eq fun haudit => absurd haudit hmode
  exact ⟨_, ⟨_, s1.ambient⟩, hstandard.trans ((bind_ok htransform).trans (bind_ok (Run.check_of_none hrecord))),
    hsame ▸ hprune, get?_insert_same _ _ _⟩

/-- **What removing barriers leaves**: every command that is not itself a barrier. The pass always succeeds outside of
    audits, and records that there are no barriers; this is so just if none was under a condition. -/
theorem removeBarriers_records_iff {s : Session σ} (h : s.piece.circuit.WellFormed) (fuel : Nat) {mode : SafetyMode}
    (hmode : mode ≠ .audit) (hooks : Hooks σ) :
    ∃ changed s', removeBarriers.apply fuel mode hooks s = .ok changed s' ∧
      (∀ cmd, cmd ∈ s'.piece.circuit.commands ↔ cmd ∈ s.piece.circuit.commands ∧ cmd.op.isBarrier = false) ∧
      s'.piece.cache.get? (.property .noBarriers) = some (.property .noBarriers, true) ∧
      (s'.piece.satisfies (.property .noBarriers) = true ↔
        ∀ cmd ∈ s.piece.circuit.commands, cmd.op.isConditional = true → cmd.isBarrier = false) := by
  obtain ⟨ambient, hbetween⟩ := Run.between_run hooks removeBarriers
    (Run.standard (removeBarriers : Pass σ).contract mode Transform.removeBarriers) s
  obtain ⟨changed, s₂, hrun, hprune, hcached⟩ := standard_removeBarriers (s := ⟨s.piece, ambient⟩) h hmode
  obtain ⟨s', hdone, hpiece⟩ := hbetween changed s₂ hrun
  rw [← hpiece] at hprune hcached
  have hleft := hprune.mem_commands_iff h
  refine ⟨changed, s', ?_, hleft, hcached, Circuit.noBarriers_iff_of_left hleft⟩
  unfold removeBarriers
  exact hdone

/-- A barrier is removed, and an operation under a condition stays. -/
theorem removeBarriers_records_iff_reset : ∃ c s', (Circuit.ofUnits 1 1).edited (do
      let _ ← Circuit.addOp (.barrierOn 1) [.qubit 0] none
      discard (Circuit.addOp (.conditional .reset 1 1) [.bit 0, .qubit 0] none)) = .ok c ∧
    removeBarriers.apply 1 .standard {} ⟨.ofCircuit c, ()⟩ = .ok true s' ∧
    s'.piece.satisfies (.property .noBarriers) = true := by
  simp only [exists_and_left]
  refine exists_run fun c hc =>
    exists_and_of (of_run hc (by decide +kernel)) fun s' hrun => ?_
  have hwell := Circuit.wellFormed_edited hc
  obtain ⟨_, _, hrun', _, _, hiff⟩ := removeBarriers_records_iff (s := ⟨.ofCircuit c, ()⟩) hwell 1
    (show SafetyMode.standard ≠ .audit by decide) {}
  obtain ⟨_, rfl⟩ := EStateM.Result.ok.inj (hrun'.symm.trans hrun)
  exact hiff.mpr (of_run hc (by decide +kernel))

/-- **A barrier under a condition is left where it is**, while the cache says that there is none. -/
theorem removeBarriers_leaves_guarded : ∃ c s', (Circuit.ofUnits 1 1).edited
      (Circuit.addOp (.conditional (.barrierOn 1) 1 1) [.bit 0, .qubit 0] none) = .ok c ∧
    removeBarriers.apply 1 .standard {} ⟨.ofCircuit c, ()⟩ = .ok false s' ∧
    (s'.piece.cache.get? (.property .noBarriers)).map Prod.snd = some true ∧
    s'.piece.satisfies (.property .noBarriers) = false := by
  simp only [exists_and_left]
  decide +kernel

end Pass

end Wireloom
