import Wireloom.Pass.Registry
import Wireloom.Proofs.Contracts

/-!
# `Pass.config` — passes are built again from their configurations

A configuration holds what a pass was built from: names, parameters, and the configurations of its parts. Contracts and
transformations are not stored.
-/

namespace Wireloom

open List Option SortedMap

open Std

/-! ## Maps and sets -/

namespace SortedMap

variable {κ α : Type} [Ord κ] [TransOrd κ] [LawfulEqOrd κ] {l : List (κ × α)}

lemma ofList_entries (m : SortedMap κ α) : ofList m.entries = m :=
  ext (entries_foldl_insert m.ordered)

lemma get?_ofList [DecidableEq κ] {k : κ} {x : α} (hnodup : (l.map Prod.fst).Nodup := by simp)
    (hx : (k, x) ∈ l := by simp) : (ofList l).get? k = some x := by
  obtain ⟨y, hy, hget⟩ := exists_get?_ofList (mem_map_of_mem hx)
  rw [← (Prod.mk.inj (inj_on_of_nodup_map hnodup hy hx rfl)).2]
  exact hget

lemma mem_of_mem_ofList {p : κ × α} (h : p ∈ (ofList l).entries) : p ∈ l := by
  unfold ofList at h
  induction l using reverseRecOn with
  | nil => cases h
  | append_singleton rest q ih =>
    rw [foldl_append] at h
    rcases mem_insertEntry h with rfl | hp
    · exact mem_append_right _ (mem_singleton_self _)
    · exact mem_append_left _ (ih hp)

end SortedMap

lemma SortedSet.ofList_toList {κ : Type} [Ord κ] [TransOrd κ] [LawfulEqOrd κ] (s : SortedSet κ) :
    SortedSet.ofList s.toList = s := by
  refine Eq.trans ?_ (ofList_entries s)
  show (s.entries.map Prod.fst).foldl SortedSet.add empty = _
  rw [foldl_map]
  rfl

/-! ## Values -/

namespace Json

variable {α : Type} {j : Json} {l : List α} {n : Nat} {read : Json → Option α}

lemma get?_ofFields {fields : List (String × Json)} {key : String} {v : Json}
    (hnodup : (fields.map Prod.fst).Nodup := by simp) (hv : (key, v) ∈ fields := by simp) :
    (ofFields fields).get? key = some v :=
  get?_ofList hnodup hv

lemma record?_ofFields (fields : List (String × Json)) (names : List String) :
    (ofFields fields).record? names = names.mapM fun name => (ofList fields).get? name := rfl

lemma exists_of_mem_listOf? {a : α} (h : j.listOf? read = some l) (ha : a ∈ l) : ∃ i, read i = some a := by
  obtain ⟨items, -, hitems⟩ := bind_eq_some_iff.mp h
  clear h
  induction items generalizing l with
  | nil =>
    cases hitems
    cases ha
  | cons i rest ih =>
    rw [mapM_cons] at hitems
    obtain ⟨b, hb, hrest⟩ := bind_eq_some_iff.mp hitems
    obtain ⟨_, hbs, hrest⟩ := bind_eq_some_iff.mp hrest
    cases hrest
    rcases mem_cons.mp ha with rfl | ha
    · exact ⟨i, hb⟩
    · exact ih ha hbs

lemma listOf?_map {write : α → Json}
    (h : ∀ a ∈ l, read (write a) = some a) : (array (l.map write)).listOf? read = some l := by
  show (l.map write).mapM read = some l
  induction l with
  | nil => rfl
  | cons a rest ih =>
    obtain ⟨ha, hrest⟩ := forall_mem_cons.mp h
    rw [map_cons, mapM_cons, ha, ih hrest]
    rfl

/-- The largest index that a value can hold, and one more. -/
def indexBound : Nat := 4294967296

lemma index?_ofNat (h : n < indexBound) : (ofNat n).index? = some n := by
  show (some n).filter (fun i => decide (i < indexBound)) = some n
  exact filter_eq_some_iff.mpr ⟨rfl, decide_eq_true h⟩

lemma lt_of_index? (h : j.index? = some n) : n < indexBound :=
  of_decide_eq_true (filter_eq_some_iff.mp h).2

end Json

/-! ## Units and renamings -/

lemma UnitKind.ofJson?_toJson (k : UnitKind) : ofJson? k.toJson = some k := by
  cases k <;> rfl

namespace UnitId

variable {u : UnitId}

def Storable (u : UnitId) : Prop := ∀ i ∈ u.index, i < Json.indexBound

instance (u : UnitId) : Decidable u.Storable := inferInstanceAs (Decidable (∀ i ∈ _, _))

lemma ofJson?_toJson (h : u.Storable) : ofJson? u.toJson = some u := by
  have hindex := Json.listOf?_map fun i hi => Json.index?_ofNat (h i hi)
  have hfields : u.toJson.record? ["kind", "register", "index"] =
      some [u.kind.toJson, .string u.register, .array (u.index.map Json.ofNat)] := by
    rw [toJson, Json.record?_ofFields]
    simp [ofList, get?_insert]
  unfold ofJson?
  rw [hfields]
  dsimp only
  rw [UnitKind.ofJson?_toJson, hindex]
  rfl

lemma storable_of_ofJson? {j : Json} (h : ofJson? j = some u) : u.Storable := by
  unfold ofJson? at h
  split at h
  · obtain ⟨_, _, h⟩ := bind_eq_some_iff.mp h
    obtain ⟨_, _, h⟩ := bind_eq_some_iff.mp h
    obtain ⟨_, hindex, h⟩ := bind_eq_some_iff.mp h
    cases h
    intro i hi
    obtain ⟨j, hj⟩ := Json.exists_of_mem_listOf? hindex hi
    exact Json.lt_of_index? hj
  · cases h

end UnitId

def Renaming.Storable (ρ : Renaming) : Prop := ∀ p ∈ ρ.entries, p.1.Storable ∧ p.2.Storable

instance (ρ : Renaming) : Decidable ρ.Storable := inferInstanceAs (Decidable (∀ p ∈ _, _))

namespace Pass

variable {ρ : Renaming}

lemma renamingOfConfig?_renamingConfig (h : ρ.Storable) : renamingOfConfig? (renamingConfig ρ) = some ρ := by
  unfold renamingOfConfig? renamingConfig
  rw [Json.listOf?_map]
  · exact congrArg some (ofList_entries ρ)
  · rintro ⟨old, new⟩ hp
    obtain ⟨hold, hnew⟩ := h _ hp
    show (do return (← UnitId.ofJson? old.toJson, ← UnitId.ofJson? new.toJson)) = some (old, new)
    rw [UnitId.ofJson?_toJson hold, UnitId.ofJson?_toJson hnew]
    rfl

lemma storable_of_renamingOfConfig? {j : Json} (h : renamingOfConfig? j = some ρ) : ρ.Storable := by
  obtain ⟨_, hpairs, h⟩ := bind_eq_some_iff.mp h
  cases h
  intro p hp
  obtain ⟨i, hi⟩ := Json.exists_of_mem_listOf? hpairs (mem_of_mem_ofList hp)
  obtain ⟨_, _, hi⟩ := bind_eq_some_iff.mp hi
  obtain ⟨_, hold, hi⟩ := bind_eq_some_iff.mp hi
  obtain ⟨_, hnew, hi⟩ := bind_eq_some_iff.mp hi
  cases hi
  exact ⟨UnitId.storable_of_ofJson? hold, UnitId.storable_of_ofJson? hnew⟩

end Pass

/-! ## Couplings -/

namespace Coupling

variable {m : Coupling}

/-- A coupling that a value can hold, with the neighbours that its pairs give it. -/
structure Storable (m : Coupling) : Prop where
  edges : ∀ p ∈ m.edges, p.1 < Json.indexBound ∧ p.2 < Json.indexBound
  size : m.size < Json.indexBound
  neighbours : m.rebuild = m

lemma Regular.storable (h : m.Regular) (hsize : m.size < Json.indexBound) : m.Storable where
  edges p hp := ⟨Nat.lt_trans (h.fits p hp).1 hsize, Nat.lt_trans (h.fits p hp).2 hsize⟩
  size := hsize
  neighbours := h.rebuild_eq

def edgeToJson (p : Nat × Nat) : Json := .array [.ofNat p.1, .ofNat p.2]

lemma edgeOfJson?_edgeToJson {p : Nat × Nat} (ha : p.1 < Json.indexBound) (hb : p.2 < Json.indexBound) :
    edgeOfJson? (edgeToJson p) = some p := by
  show (do return (← (Json.ofNat p.1).index?, ← (Json.ofNat p.2).index?)) = some (p.1, p.2)
  rw [Json.index?_ofNat ha, Json.index?_ofNat hb]
  rfl

lemma ofJson?_toJson (h : m.Storable) : ∃ d, ofJson? m.toJson = some d ∧ d.rebuild = m := by
  have hedges := Json.listOf?_map fun p hp => edgeOfJson?_edgeToJson (h.edges p hp).1 (h.edges p hp).2
  have hfields : m.toJson.record? ["edges", "num_qubits"] = some [.array (m.edges.map edgeToJson), .ofNat m.size] := by
    rw [toJson, Json.record?_ofFields]
    simp [ofList, get?_insert, edgeToJson]
  refine ⟨{ m with neighbours := [] }, ?_, h.neighbours⟩
  unfold ofJson?
  rw [hfields]
  dsimp only
  rw [hedges, Json.index?_ofNat h.size]
  rfl

lemma storable_of_ofJson? {j : Json} (h : ofJson? j = some m) : m.rebuild.Storable := by
  unfold ofJson? at h
  split at h
  · obtain ⟨_, hedges, h⟩ := bind_eq_some_iff.mp h
    obtain ⟨_, hsize, h⟩ := bind_eq_some_iff.mp h
    cases h
    refine ⟨fun p hp => ?_, Json.lt_of_index? hsize, rfl⟩
    obtain ⟨i, hi⟩ := Json.exists_of_mem_listOf? hedges hp
    obtain ⟨_, _, hi⟩ := bind_eq_some_iff.mp hi
    obtain ⟨a, ha, hi⟩ := bind_eq_some_iff.mp hi
    obtain ⟨b, hb, hi⟩ := bind_eq_some_iff.mp hi
    cases hi
    exact ⟨Json.lt_of_index? ha, Json.lt_of_index? hb⟩
  · cases h

end Coupling

/-! ## Fields of configurations -/

namespace Json

variable {j v : Json} {key : String}

lemma field_of_get? (h : j.get? key = some v) : j.field key = .ok v := by
  unfold field
  rw [h]

lemma part_of_get? (h : j.get? key = some v) : j.part key = .ok ⟨v, sizeOf_get?_lt h⟩ := by
  unfold part
  split
  · next w hw =>
    cases h.symm.trans hw
    rfl
  · next hnone =>
    rw [h] at hnone
    cases hnone

lemma stringField_of_get? {s : String} (h : j.get? key = some (.string s)) : j.stringField key = .ok s := by
  unfold stringField
  rw [field_of_get? h]
  rfl

lemma described_eq_ok {α : Type} {x : Option α} {a : α} (h : described x = .ok a) : x = some a := by
  cases x with
  | none => cases h
  | some b => exact congrArg some (Except.ok.inj h)

end Json

/-! ## Predicates -/

/-- A predicate that a value can hold. -/
def Predicate.Storable : Predicate → Prop
  | connectivity device => device.Storable
  | userDefined _ => False
  | _ => True

namespace PredicateRegistry

open SortedMap

variable {name : String} {make : PredicateConstructor} {j : Json} {p : Predicate}

lemma get?_registerAll {ts : List Property} {r : PredicateRegistry}
    (h : (ts.foldl (fun r t => r.register t.name fun _ => .ok (.property t)) r).constructors.get? name = some make) :
    r.constructors.get? name = some make ∨ ∃ t, make = fun _ => .ok (.property t) := by
  induction ts generalizing r with
  | nil => exact .inl h
  | cons t rest ih =>
    refine (ih h).elim (fun hstep => ?_) .inr
    replace hstep : (r.constructors.insert t.name fun _ => .ok (.property t)).get? name = some make := hstep
    rw [get?_insert] at hstep
    split at hstep
    · exact .inr ⟨t, (some.inj hstep).symm⟩
    · exact .inl hstep

lemma library_cases (h : library.constructors.get? name = some make) :
    make = makeGateSet ∨ make = makeMaxQubits ∨ make = makeConnectivity ∨ ∃ t, make = fun _ => .ok (.property t) := by
  rcases get?_registerAll h with hbase | hproperty
  · have hmem := mem_of_mem_ofList (get?_iff_mem.mp hbase)
    simp only [mem_cons, Prod.mk.injEq, not_mem_nil, or_false] at hmem
    rcases hmem with ⟨_, rfl⟩ | ⟨_, rfl⟩ | ⟨_, rfl⟩
    · exact .inl rfl
    · exact .inr (.inl rfl)
    · exact .inr (.inr (.inl rfl))
  · exact .inr (.inr (.inr hproperty))

lemma storable_of_read (h : library.read j = .ok p) : p.Storable := by
  obtain ⟨_, _, h⟩ := bind_ok_iff.mp h
  split at h
  · next _ hmake =>
    rcases library_cases hmake with rfl | rfl | rfl | ⟨t, rfl⟩
    · obtain ⟨_, _, h⟩ := bind_ok_iff.mp h
      obtain ⟨_, _, h⟩ := bind_ok_iff.mp h
      cases h
      trivial
    · obtain ⟨_, _, h⟩ := bind_ok_iff.mp h
      split at h
      · cases h
        trivial
      · cases h
    · obtain ⟨_, _, h⟩ := bind_ok_iff.mp h
      obtain ⟨_, hdevice, h⟩ := bind_ok_iff.mp h
      cases h
      exact Coupling.storable_of_ofJson? (Json.described_eq_ok hdevice)
    · cases h
      trivial
  · cases h

lemma read_of_make (htype : j.get? "type" = some (.string name)) (hname : library.constructors.get? name = some make)
    (hmake : make j = .ok p) : library.read j = .ok p := by
  refine except_bind_ok (Json.stringField_of_get? htype) ?_
  rw [hname]
  exact hmake

lemma get?_library_parameter : library.constructors.get? PredicateKind.gateSet.name = some makeGateSet ∧
    library.constructors.get? PredicateKind.maxQubits.name = some makeMaxQubits ∧
    library.constructors.get? PredicateKind.connectivity.name = some makeConnectivity := by
  simp [library, Property.all, register, ofList, get?_insert, Property.name, PredicateKind.gateSet,
    PredicateKind.maxQubits, PredicateKind.connectivity]

lemma get?_library_property (t : Property) : library.constructors.get? t.name = some fun _ => .ok (.property t) := by
  cases t <;> simp [library, Property.all, register, get?_insert, Property.name]

lemma read_toJson (h : p.Storable) : ∃ j, p.toJson = .ok j ∧ library.read j = .ok p := by
  cases p with
  | gateSet allowed =>
    have hnames : (Json.array (allowed.toList.map .string)).listOf? Json.string? = some allowed.toList :=
      Json.listOf?_map fun _ _ => rfl
    refine ⟨_, rfl, read_of_make Json.get?_ofFields get?_library_parameter.1 ?_⟩
    refine bind_ok_iff.mpr ⟨.array (allowed.toList.map .string), Json.field_of_get? ?_, ?_⟩
    · exact Json.get?_ofFields
    · rw [hnames]
      exact congrArg (fun s => Except.ok (Predicate.gateSet s)) (SortedSet.ofList_toList allowed)
  | maxQubits n =>
    refine ⟨_, rfl, read_of_make Json.get?_ofFields get?_library_parameter.2.1 ?_⟩
    exact bind_ok_iff.mpr ⟨.ofNat n, Json.field_of_get? Json.get?_ofFields, rfl⟩
  | connectivity device =>
    obtain ⟨d, hd, hrebuild⟩ := Coupling.ofJson?_toJson h
    refine ⟨_, rfl, read_of_make Json.get?_ofFields get?_library_parameter.2.2 ?_⟩
    refine bind_ok_iff.mpr ⟨device.toJson, Json.field_of_get? Json.get?_ofFields, ?_⟩
    rw [hd]
    exact congrArg (fun d => Except.ok (Predicate.connectivity d)) hrebuild
  | userDefined test => exact h.elim
  | property t =>
    exact ⟨_, rfl, read_of_make Json.get?_ofFields (get?_library_property t) rfl⟩

end PredicateRegistry

/-! # `Pass.config` -/

namespace Pass

variable {σ : Type}

/-- **The passes that a configuration can describe**: trees of the passes of the library, with predicates and renamings that
    can be stored and costs that have a name. -/
inductive Storable : Pass σ → Prop
  | flattenRegisters : Storable flattenRegisters
  | removeBarriers : Storable removeBarriers
  | removeBlankWires : Storable removeBlankWires
  | renameQubits {ρ : Renaming} : ρ.Storable → Storable (renameQubits ρ)
  | sequence {ps : List (Pass σ)} {strict : Bool} {p : Pass σ} : (∀ q ∈ ps, Storable q) → ofList ps strict = .ok p →
      Storable p
  | repeated {body p : Pass σ} : Storable body → body.repeating = .ok p → Storable p
  | untilSatisfied {body p : Pass σ} {goal : Predicate} : Storable body → goal.Storable →
      body.repeatingUntil goal = .ok p → Storable p
  | whileImproving {body p : Pass σ} {name : String} {metric : Metric} : Storable body →
      PassRegistry.library (σ := σ).metrics.get? name = some metric →
      body.repeatingWhileImproving name metric = .ok p → Storable p

end Pass

namespace PassRegistry

open SortedMap List

variable {σ : Type} {r : PassRegistry σ} {j body inner : Json} {p q : Pass σ} {className : String}
  {goal : Predicate} {metric : Metric} {name : String} {ps : List (Pass σ)} {strict : Bool}

/-! ## What is read can be stored -/

lemma storable_of_readStandard (h : library.readStandard body = .ok p) : p.Storable := by
  obtain ⟨_, -, h⟩ := bind_ok_iff.mp h
  split at h
  · next _ hmake =>
    have hmem := mem_of_mem_ofList (get?_iff_mem.mp hmake)
    simp only [mem_cons, Prod.mk.injEq, not_mem_nil, or_false] at hmem
    rcases hmem with ⟨_, rfl⟩ | ⟨_, rfl⟩ | ⟨_, rfl⟩ | ⟨_, rfl⟩
    · cases h
      exact .flattenRegisters
    · cases h
      exact .removeBarriers
    · cases h
      exact .removeBlankWires
    · obtain ⟨_, -, h⟩ := bind_ok_iff.mp h
      obtain ⟨_, hρ, h⟩ := bind_ok_iff.mp h
      cases h
      exact .renameQubits (Pass.storable_of_renamingOfConfig? (Json.described_eq_ok hρ))
  · cases h

lemma storable_of_readGoal (h : library (σ := σ).readGoal body = .ok goal) : goal.Storable := by
  obtain ⟨_, -, h⟩ := bind_ok_iff.mp h
  split at h
  · cases h
  · exact PredicateRegistry.storable_of_read h

lemma readMetric_eq_ok {m : String × Metric} (h : r.readMetric body = .ok m) : r.metrics.get? m.1 = some m.2 := by
  obtain ⟨_, -, h⟩ := bind_ok_iff.mp h
  split at h
  · next _ hmetric =>
    cases h
    exact hmetric
  · cases h

lemma storable_of_read {j : Json} {p : Pass σ} (h : library.read j = .ok p) : p.Storable := by
  rw [read] at h
  obtain ⟨_, -, h⟩ := bind_ok_iff.mp h
  obtain ⟨⟨_, _⟩, -, h⟩ := bind_ok_iff.mp h
  dsimp only at h
  split at h
  · exact storable_of_readStandard h
  · obtain ⟨⟨_, _⟩, -, h⟩ := bind_ok_iff.mp h
    dsimp only at h
    split at h
    · cases h
    · next _ _ =>
      obtain ⟨_, hps, h⟩ := bind_ok_iff.mp h
      refine .sequence (fun q hq => ?_) h
      obtain ⟨⟨_, _⟩, -, hread⟩ := except_exists_of_mem_mapM hps hq
      exact storable_of_read hread
  · obtain ⟨⟨inner, hinner⟩, -, h⟩ := bind_ok_iff.mp h
    obtain ⟨q, hq, h⟩ := bind_ok_iff.mp h
    exact .repeated (storable_of_read hq) h
  · obtain ⟨⟨inner, hinner⟩, -, h⟩ := bind_ok_iff.mp h
    obtain ⟨q, hq, h⟩ := bind_ok_iff.mp h
    obtain ⟨_, hgoal, h⟩ := bind_ok_iff.mp h
    exact .untilSatisfied (storable_of_read hq) (storable_of_readGoal hgoal) h
  · obtain ⟨⟨inner, hinner⟩, -, h⟩ := bind_ok_iff.mp h
    obtain ⟨q, hq, h⟩ := bind_ok_iff.mp h
    obtain ⟨m, hm, h⟩ := bind_ok_iff.mp h
    exact .whileImproving (storable_of_read hq) (readMetric_eq_ok hm) h
  · cases h
termination_by sizeOf j
decreasing_by all_goals omega

/-! ## What can be stored is read back -/

lemma parts_configOf (className : String) (hclass : className ≠ "pass_class") (body : Json) :
    (Pass.configOf className body).stringField "pass_class" = .ok className ∧
      ∃ hlt, (Pass.configOf className body).part className = .ok ⟨body, hlt⟩ :=
  ⟨Json.stringField_of_get? (Json.get?_ofFields (by simp [hclass.symm])), _,
    Json.part_of_get? (Json.get?_ofFields (by simp [hclass.symm]))⟩

lemma read_standard (h : r.readStandard body = .ok p) : r.read (Pass.configOf "StandardPass" body) = .ok p := by
  obtain ⟨hclass, _, hpart⟩ := parts_configOf "StandardPass" (by decide) body
  rw [read]
  exact except_bind_ok hclass (except_bind_ok hpart h)

lemma parts?_array (items : List Json) : ∃ parts, (Json.array items).parts? = some parts ∧ parts.map Subtype.val = items :=
  ⟨_, rfl, by simp⟩

lemma read_sequence {items : List Json} (hitems : body.get? "sequence" = some (.array items))
    (hstrict : ((body.get? "strict").bind Json.bool?).getD true = strict) (hps : items.mapM r.read = .ok ps)
    (h : Pass.ofList ps strict = .ok p) : r.read (Pass.configOf "SequencePass" body) = .ok p := by
  obtain ⟨hclass, _, hpart⟩ := parts_configOf "SequencePass" (by decide) body
  obtain ⟨parts, hparts, hval⟩ := parts?_array items
  have hmapM : parts.mapM (fun x => r.read x.1) = .ok ps := by
    calc parts.mapM (r.read ∘ Subtype.val) = (parts.map Subtype.val).mapM r.read := mapM_map.symm
      _ = .ok ps := by rw [hval, hps]
  rw [read]
  refine except_bind_ok hclass (except_bind_ok hpart ?_)
  refine except_bind_ok (Json.part_of_get? hitems) ?_
  dsimp only
  rw [hparts, hstrict]
  exact except_bind_ok hmapM h

variable (hbody : body.get? "body" = some inner) (hinner : r.read inner = .ok q)

include hbody hinner in
lemma read_repeat (h : q.repeating = .ok p) : r.read (Pass.configOf "RepeatPass" body) = .ok p := by
  obtain ⟨hclass, _, hpart⟩ := parts_configOf "RepeatPass" (by decide) body
  rw [read]
  refine except_bind_ok hclass (except_bind_ok hpart ?_)
  exact except_bind_ok (Json.part_of_get? hbody) (except_bind_ok hinner h)

include hbody hinner in
lemma read_untilSatisfied (hgoal : r.readGoal body = .ok goal) (h : q.repeatingUntil goal = .ok p) :
    r.read (Pass.configOf "RepeatUntilSatisfiedPass" body) = .ok p := by
  obtain ⟨hclass, _, hpart⟩ := parts_configOf "RepeatUntilSatisfiedPass" (by decide) body
  rw [read]
  refine except_bind_ok hclass (except_bind_ok hpart ?_)
  refine except_bind_ok (Json.part_of_get? hbody) (except_bind_ok hinner ?_)
  exact except_bind_ok hgoal h

include hbody hinner in
lemma read_whileImproving (hmetric : r.readMetric body = .ok (name, metric))
    (h : q.repeatingWhileImproving name metric = .ok p) :
    r.read (Pass.configOf "RepeatWithMetricPass" body) = .ok p := by
  obtain ⟨hclass, _, hpart⟩ := parts_configOf "RepeatWithMetricPass" (by decide) body
  rw [read]
  refine except_bind_ok hclass (except_bind_ok hpart ?_)
  refine except_bind_ok (Json.part_of_get? hbody) (except_bind_ok hinner ?_)
  exact except_bind_ok hmetric h

lemma read_single {c : Contract} {t : Transform σ} {params : SortedMap String Json}
    {make : PassConstructor σ} (hget : r.passes.get? name = some make) (hfree : params.get? "name" = none)
    (hmake : ∀ body : Json, (∀ key v, params.get? key = some v → body.get? key = some v) →
      make body = .ok (.standard name c t params)) :
    r.read (Pass.standard name c t params).config = .ok (.standard name c t params) := by
  have hnodup : ((("name", Json.string name) :: params.entries).map Prod.fst).Nodup := by
    refine nodup_cons.mpr ⟨fun hmem => ?_, nodup_keys params⟩
    obtain ⟨v, hv⟩ := mem_keys_iff.mp hmem
    rw [hfree] at hv
    cases hv
  refine read_standard (bind_ok_iff.mpr ⟨name, ?_, ?_⟩)
  · exact Json.stringField_of_get? (Json.get?_ofFields hnodup mem_cons_self)
  · rw [hget]
    refine hmake _ fun key v hv => Json.get?_ofFields hnodup (mem_cons_of_mem _ ?_)
    exact get?_iff_mem.mp hv

lemma readGoal_of_storable (h : goal.Storable)
    (hget : body.get? "predicate" = some (Pass.goalConfig goal)) : library (σ := σ).readGoal body = .ok goal := by
  obtain ⟨j, hj, hread⟩ := PredicateRegistry.read_toJson h
  refine except_bind_ok (Json.field_of_get? hget) ?_
  unfold Pass.goalConfig
  rw [hj]
  cases j with
  | null => cases hread
  | _ => exact hread

lemma readMetric_of_get? (hname : body.get? "metric" = some (.string name))
    (hget : r.metrics.get? name = some metric) : r.readMetric body = .ok (name, metric) := by
  refine except_bind_ok (Json.stringField_of_get? hname) ?_
  rw [hget]

lemma mapM_configs (h : ∀ q ∈ ps, r.read q.config = .ok q) : (Pass.configs ps).mapM r.read = .ok ps := by
  induction ps with
  | nil => rfl
  | cons q rest ih =>
    obtain ⟨hq, hrest⟩ := forall_mem_cons.mp h
    rw [Pass.configs, mapM_cons, hq, ih hrest]
    rfl

lemma sequence_of_ofList (h : Pass.ofList ps strict = .ok p) : ∃ c, p = .sequence ps strict c := by
  cases ps with
  | nil => cases h
  | cons first rest =>
    obtain ⟨c, -, h⟩ := bind_ok_iff.mp h
    exact ⟨c, (Except.ok.inj h).symm⟩

lemma read_config (h : p.Storable) : library.read p.config = .ok p := by
  induction h with
  | flattenRegisters =>
    have hget : library (σ := σ).passes.get? "FlattenRegisters" = some fun _ => .ok .flattenRegisters := get?_ofList
    exact read_single hget rfl fun _ _ => rfl
  | removeBarriers =>
    have hget : library (σ := σ).passes.get? "RemoveBarriers" = some fun _ => .ok .removeBarriers := get?_ofList
    exact read_single hget rfl fun _ _ => rfl
  | removeBlankWires =>
    have hget : library (σ := σ).passes.get? "RemoveBlankWires" = some fun _ => .ok .removeBlankWires := get?_ofList
    exact read_single hget rfl fun _ _ => rfl
  | @renameQubits ρ hρ =>
    have hget : library (σ := σ).passes.get? "RenameQubitsPass" = some makeRenameQubits := get?_ofList
    refine read_single hget rfl fun body hbody => ?_
    have hparam : body.get? "qubit_map" = some (Pass.renamingConfig ρ) :=
      hbody _ _ get?_ofList
    refine except_bind_ok (Json.field_of_get? hparam) ?_
    rw [Pass.renamingOfConfig?_renamingConfig hρ]
    rfl
  | @sequence ps strict p _ hp ih =>
    obtain ⟨c, rfl⟩ := sequence_of_ofList hp
    cases strict with
    | true =>
      exact read_sequence Json.get?_ofFields rfl (mapM_configs ih) hp
    | false =>
      refine read_sequence Json.get?_ofFields ?_ (mapM_configs ih) hp
      rw [Json.get?_ofFields (v := .bool false)]
      rfl
  | repeated _ hp ih =>
    obtain ⟨c, _, hp'⟩ := bind_ok_iff.mp hp
    cases hp'
    exact read_repeat Json.get?_ofFields ih hp
  | untilSatisfied _ hgoal hp ih =>
    obtain ⟨c, _, hp'⟩ := bind_ok_iff.mp hp
    cases hp'
    refine read_untilSatisfied Json.get?_ofFields ih (readGoal_of_storable hgoal ?_) hp
    exact Json.get?_ofFields
  | whileImproving _ hmetric hp ih =>
    obtain ⟨c, _, hp'⟩ := bind_ok_iff.mp hp
    cases hp'
    refine read_whileImproving Json.get?_ofFields ih (readMetric_of_get? ?_ hmetric) hp
    exact Json.get?_ofFields

/-- **Configurations are read back.** What a configuration describes is described by its own configuration too, and all
    trees of library passes that can be stored are. What is read is the pass itself, with its contract and its effect on
    every workpiece. -/
theorem config_read_back : (∀ (j : Json) (p : Pass σ), library.read j = .ok p → library.read p.config = .ok p) ∧
    ∀ p : Pass σ, p.Storable ↔ library.read p.config = .ok p :=
  ⟨fun _ _ h => read_config (storable_of_read h), fun _ => ⟨read_config, storable_of_read⟩⟩

/-- A strict sequence with all four kinds of tree in it: a lenient sequence that is repeated until qubits that are next to
    each other fit the device, and a repetition of a repetition that lowers the depth. -/
theorem config_read_back_routed : ∃ renamed routed shorter again p : Pass Unit,
    Pass.ofList [.renameQubits (.ofList [(.qubit 0, .node 1), (.qubit 1, .node 0)]), .removeBarriers] false = .ok renamed ∧
    renamed.repeatingUntil (.connectivity (.linear 3)) = .ok routed ∧
    Pass.removeBlankWires.repeatingWhileImproving "depth" Circuit.depth = .ok shorter ∧
    shorter.repeating = .ok again ∧ Pass.ofList [.flattenRegisters, routed, again] true = .ok p ∧
    p.Storable ∧ library.read p.config = .ok p := by
  simp only [exists_and_left]
  refine exists_run fun renamed hrenamed =>
    exists_and_of (of_run hrenamed (by decide +kernel)) fun routed hrouted =>
    exists_run fun shorter hshorter =>
    exists_and_of (of_run hshorter (by decide +kernel)) fun again hagain =>
    exists_and_of (of_run hagain (of_run hshorter (of_run hrouted (of_run hrenamed
      (by decide +kernel))))) fun p hp => ?_
  have hlinear : (Predicate.connectivity (.linear 3)).Storable :=
    (Coupling.Built.linear 3).regular.storable (by decide +kernel)
  have hdepth : library (σ := Unit).metrics.get? "depth" = some Circuit.depth := get?_ofList
  have hfirst : renamed.Storable := by
    refine .sequence (fun q hq => ?_) hrenamed
    rcases List.mem_pair.mp hq with rfl | rfl
    · exact .renameQubits (by decide +kernel)
    · exact .removeBarriers
  have hstorable : p.Storable := by
    refine .sequence (fun q hq => ?_) hp
    simp only [List.mem_cons, List.not_mem_nil, or_false] at hq
    rcases hq with rfl | rfl | rfl
    · exact .flattenRegisters
    · exact .untilSatisfied hfirst hlinear hrouted
    · exact .repeated (.whileImproving .removeBlankWires hdepth hshorter) hagain
  exact ⟨hstorable, (config_read_back.2 p).mp hstorable⟩

end PassRegistry

end Wireloom
