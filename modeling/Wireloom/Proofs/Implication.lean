import Wireloom.Proofs.Contracts

/-!
# `Predicate.Reliable` — implications and meets that can be relied on

`Predicate.implies` and `Predicate.meet` look at no circuit. Predicates are reliable if what they say holds of every
circuit: an implied predicate holds wherever the first one does, and both sides hold wherever their meet does.
-/

namespace Wireloom

open List SortedSet

/-! ## Units of commands -/

namespace Circuit

variable {c : Circuit} {v : Vertex} {u : UnitId} {P : UnitId → Prop} {cmd : Command} {wires : Wires}

lemma carry_subset (links : List (Edge × Link)) (h : ∀ w ∈ wires, P w.2) :
    (∀ u ∈ (carry v links wires).1, P u) ∧ ∀ w ∈ (carry v links wires).2, P w.2 := by
  induction links generalizing wires with
  | nil => exact ⟨forall_mem_nil _, h⟩
  | cons link rest ih =>
    obtain ⟨_, l⟩ := link
    rw [carry]
    cases hu : wires.lookup l.source with
    | none => exact ⟨forall_mem_nil _, h⟩
    | some u =>
      have hPu : P u := by
        obtain ⟨_, _, heq, _⟩ := lookup_eq_some_iff.mp hu
        exact h (l.source, u) (heq ▸ mem_append_right _ mem_cons_self)
      have hnext : ∀ w ∈ (if l.kind.isLinear then (⟨v, l.target.index⟩, u) :: wires else wires : Wires), P w.2 := by
        split
        · exact forall_mem_cons.mpr ⟨hPu, h⟩
        · exact h
      obtain ⟨hargs, hwires⟩ := ih hnext
      exact ⟨forall_mem_cons.mpr ⟨hPu, hargs⟩, hwires⟩

lemma commandsAlong_subset {todo : List Vertex} (h : ∀ w ∈ wires, P w.2) :
    ∀ cmd ∈ c.commandsAlong todo wires, ∀ u ∈ cmd.args, P u := by
  induction todo generalizing wires with
  | nil => exact forall_mem_nil _
  | cons v rest ih =>
    rw [commandsAlong]
    split
    · dsimp only
      split
      · obtain ⟨hargs, hwires⟩ := carry_subset (c.graph.inLinks v) h
        split
        · exact forall_mem_cons.mpr ⟨hargs, ih hwires⟩
        · exact ih hwires
      · exact ih h
    · exact ih h

lemma mem_units_of_mem_args (hcmd : cmd ∈ c.commands) (hu : u ∈ cmd.args) : u ∈ c.units := by
  refine commandsAlong_subset (fun w hw => ?_) cmd hcmd u hu
  obtain ⟨p, hp, rfl⟩ := mem_map.mp (mem_reverse.mp hw)
  exact mem_map_of_mem hp

lemma mem_qubits_of_mem_qubits (hcmd : cmd ∈ c.commands) (hu : u ∈ cmd.qubits) : u ∈ c.qubits := by
  obtain ⟨hargs, hqubit⟩ := mem_filter.mp hu
  exact mem_filter.mpr ⟨mem_units_of_mem_args hcmd hargs, hqubit⟩

end Circuit

/-! ## Couplings -/

namespace Coupling

variable {d e : Coupling} {c : Circuit} {a b : Nat} {u : UnitId}

lemma Regular.isSubgraphOf_self (h : d.Regular) : d.isSubgraphOf d := by
  unfold isSubgraphOf
  rw [Bool.and_eq_true, all_eq_true]
  exact ⟨decide_eq_true (Nat.le_refl _), fun p hp => h.isConnected_iff.mpr (.inl hp)⟩

lemma isConnected_of_isSubgraphOf (hd : d.Regular) (he : e.Regular) (h : d.isSubgraphOf e)
    (hab : d.isConnected a b) : e.isConnected a b := by
  unfold isSubgraphOf at h
  rw [Bool.and_eq_true, all_eq_true] at h
  rcases hd.isConnected_iff.mp hab with hmem | hmem
  · exact h.2 _ hmem
  · rw [he.isConnected_comm]
    exact h.2 _ hmem

lemma nodeOf?_of_isSubgraphOf (h : d.isSubgraphOf e) (hu : (d.nodeOf? u).isSome) : e.nodeOf? u = d.nodeOf? u := by
  unfold isSubgraphOf at h
  rw [Bool.and_eq_true, decide_eq_true_eq] at h
  unfold nodeOf? at hu ⊢
  split at hu
  · next i _ =>
    simp only [hasNode, Bool.and_eq_true, decide_eq_true_eq] at hu ⊢
    split at hu
    · next hnode => rw [if_pos hnode, if_pos ⟨hnode.1, by omega⟩]
    · cases hu
  · cases hu

lemma allows_of_isSubgraphOf (hd : d.Regular) (he : e.Regular) (h : d.isSubgraphOf e) {cmd : Command}
    (hnodes : ∀ q ∈ cmd.qubits, (d.nodeOf? q).isSome) (hcmd : d.allows cmd) : e.allows cmd := by
  have hsame : cmd.qubits.filterMap e.nodeOf? = cmd.qubits.filterMap d.nodeOf? :=
    filterMap_congr fun q hq => nodeOf?_of_isSubgraphOf h (hnodes q hq)
  unfold allows at hcmd ⊢
  rw [hsame]
  rcases Bool.or_eq_true_iff.mp hcmd with hbarrier | hcoupled
  · rw [hbarrier]
    rfl
  · refine Bool.or_eq_true_iff.mpr (.inr ?_)
    split at hcoupled
    · next a b _ => exact isConnected_of_isSubgraphOf hd he h hcoupled
    · exact hcoupled

end Coupling

/-! ## Predicates -/

namespace Predicate

variable {p q m : Predicate} {c : Circuit}

/-- **Implications and meets of these predicates hold of every circuit.** -/
structure Reliable (S : Predicate → Prop) : Prop where
  closed : MeetClosed S
  implies {p q : Predicate} : S p → S q → p.kind = q.kind → p.implies q = .ok true → ∀ c, p.verify c = true → q.verify c = true
  meet {p q m : Predicate} : S p → S q → p.kind = q.kind → p.meet q = .ok m →
    ∀ c, m.verify c = true → p.verify c = true ∧ q.verify c = true

lemma verify_of_implies (hp : p.Standard) (hq : q.Standard) (h : p.kind = q.kind) (himplies : p.implies q = .ok true)
    (hverify : p.verify c) : q.verify c := by
  rcases cases_of_kind_eq h with
    ⟨a, b, rfl, rfl⟩ | ⟨i, j, rfl, rfl⟩ | ⟨d, e, rfl, rfl⟩ | ⟨f, g, rfl, rfl⟩ | ⟨t, rfl, rfl⟩
  · have hsub := subset_iff.mp (Except.ok.inj himplies)
    simp only [verify, all_eq_true, Bool.or_eq_true] at hverify ⊢
    exact fun cmd hcmd => (hverify cmd hcmd).imp_right (hsub _)
  · have hle : i ≤ j := of_decide_eq_true (Except.ok.inj himplies)
    exact decide_eq_true (Nat.le_trans (of_decide_eq_true hverify) hle)
  · have hsub : d.isSubgraphOf e := Except.ok.inj himplies
    simp only [verify, Bool.and_eq_true, all_eq_true] at hverify ⊢
    obtain ⟨hnodes, hallows⟩ := hverify
    refine ⟨fun u hu => ?_, fun cmd hcmd => ?_⟩
    · rw [Coupling.nodeOf?_of_isSubgraphOf hsub (hnodes u hu)]
      exact hnodes u hu
    · exact Coupling.allows_of_isSubgraphOf (hp d rfl).regular (hq e rfl).regular hsub
        (fun u hu => hnodes u (Circuit.mem_qubits_of_mem_qubits hcmd hu)) (hallows cmd hcmd)
  · cases himplies
  · exact hverify

lemma implies_self_of_meet (hp : p.Standard) (hq : q.Standard) (h : p.kind = q.kind) (hm : p.meet q = .ok m) :
    m.implies m = .ok true := by
  have hstandard := hp.meet hq h hm
  rcases cases_of_kind_eq h with
    ⟨a, b, rfl, rfl⟩ | ⟨i, j, rfl, rfl⟩ | ⟨d, e, rfl, rfl⟩ | ⟨f, g, rfl, rfl⟩ | ⟨t, rfl, rfl⟩
  · cases hm
    exact congrArg Except.ok (subset_iff.mpr fun _ => id)
  · cases hm
    exact congrArg Except.ok (decide_eq_true (Nat.le_refl _))
  · cases hm
    exact congrArg Except.ok (hstandard _ rfl).regular.isSubgraphOf_self
  · cases hm
  · simp only [Predicate.meet, if_true] at hm
    cases hm
    simp [Predicate.implies]

lemma reliable_standard : Reliable Standard where
  closed := meetClosed_standard
  implies hp hq h himplies _ hverify := verify_of_implies hp hq h himplies hverify
  meet {p q m} hp hq h hm c hverify := by
    have hself := implies_self_of_meet hp hq h hm
    have hkind := kind_meet h hm
    have hm' := hp.meet hq h hm
    obtain ⟨himp, himq⟩ := (implies_meet_iff hp hq hkind h).mp ⟨m, hm, hself⟩
    exact ⟨verify_of_implies hm' hp hkind himp hverify, verify_of_implies hm' hq (hkind.trans h) himq hverify⟩

end Predicate

/-! # `Predicate.Comparable` — predicates of one kind can be compared and met -/

/-! ## Couplings -/

namespace Coupling

variable {d e f : Coupling} {u : UnitId} {cmd : Command}

lemma isSubgraphOf_iff (hd : d.Regular) (he : e.Regular) :
    d.isSubgraphOf e ↔ d.size ≤ e.size ∧ ∀ a b, d.isConnected a b → e.isConnected a b := by
  constructor
  · intro h
    refine ⟨?_, fun a b hab => isConnected_of_isSubgraphOf hd he h hab⟩
    simp only [isSubgraphOf, Bool.and_eq_true, decide_eq_true_eq] at h
    exact h.1
  · rintro ⟨hsize, hconnected⟩
    simp only [isSubgraphOf, Bool.and_eq_true, decide_eq_true_eq, all_eq_true]
    refine ⟨hsize, ?_⟩
    intro p hp
    exact hconnected _ _ (hd.isConnected_iff.mpr (.inl hp))

lemma isSubgraphOf_trans (hd : d.Regular) (he : e.Regular) (hf : f.Regular) (hde : d.isSubgraphOf e)
    (hef : e.isSubgraphOf f) : d.isSubgraphOf f := by
  rw [isSubgraphOf_iff hd he] at hde
  rw [isSubgraphOf_iff he hf] at hef
  rw [isSubgraphOf_iff hd hf]
  refine ⟨by omega, ?_⟩
  intro a b hab
  exact hef.2 a b (hde.2 a b hab)

lemma isSome_nodeOf?_inter (hd : d.Regular) (he : e.Regular) :
    ((d.inter e).nodeOf? u).isSome ↔ (d.nodeOf? u).isSome ∧ (e.nodeOf? u).isSome := by
  unfold nodeOf? hasNode
  rw [(inter_eq hd he).2]
  split
  · simp only [Option.isSome_ite, Bool.and_eq_true, decide_eq_true_eq, Nat.lt_min]
    tauto
  · simp

lemma allows_inter (hd : d.Regular) (he : e.Regular) (hnodes : ∀ q ∈ cmd.qubits, (d.nodeOf? q).isSome)
    (hnodes' : ∀ q ∈ cmd.qubits, (e.nodeOf? q).isSome) (h : d.allows cmd) (h' : e.allows cmd) :
    (d.inter e).allows cmd := by
  have hself := (isSubgraphOf_inter hd he).mp (Regular.isSubgraphOf_self regular_inter)
  have hcommon : ∀ q ∈ cmd.qubits, ((d.inter e).nodeOf? q).isSome := by
    intro q hq
    exact (isSome_nodeOf?_inter hd he).mpr ⟨hnodes q hq, hnodes' q hq⟩
  -- the three devices see the same nodes under the command
  have hleft := filterMap_congr fun q hq => nodeOf?_of_isSubgraphOf hself.1 (hcommon q hq)
  have hright := filterMap_congr fun q hq => nodeOf?_of_isSubgraphOf hself.2 (hcommon q hq)
  unfold allows at h h' ⊢
  rw [hleft] at h
  rw [hright] at h'
  cases hbarrier : cmd.isBarrier with
  | true => simp
  | false =>
    simp only [hbarrier, Bool.false_or] at h h' ⊢
    split at h
    · next a b heq =>
      simp only [heq] at h' ⊢
      rw [isConnected_inter hd he, h, h']
      rfl
    · exact h

end Coupling

/-! ## Predicates -/

namespace Predicate

variable {p q r m : Predicate} {c : Circuit}

/-- **Two predicates can be compared**: they are of one kind, and no tests of one's own. -/
def Comparable (p q : Predicate) : Prop := p.kind = q.kind ∧ p.kind ≠ .userDefined

lemma Comparable.refl_left (h : p.Comparable q) : p.Comparable p := ⟨rfl, h.2⟩

lemma Comparable.cases (h : p.Comparable q) :
    (∃ a b, p = gateSet a ∧ q = gateSet b) ∨ (∃ i j, p = maxQubits i ∧ q = maxQubits j) ∨
      (∃ d e, p = connectivity d ∧ q = connectivity e) ∨ ∃ t, p = property t ∧ q = property t := by
  rcases cases_of_kind_eq h.1 with hgate | hmax | hconn | ⟨f, g, rfl, rfl⟩ | hprop
  · exact .inl hgate
  · exact .inr (.inl hmax)
  · exact .inr (.inr (.inl hconn))
  · exact absurd rfl h.2
  · exact .inr (.inr (.inr hprop))

lemma Comparable.exists_implies (h : p.Comparable q) : ∃ b, p.implies q = .ok b := by
  rcases h.cases with ⟨a, b, rfl, rfl⟩ | ⟨i, j, rfl, rfl⟩ | ⟨d, e, rfl, rfl⟩ | ⟨t, rfl, rfl⟩ <;> simp [implies]

lemma Comparable.exists_meet (h : p.Comparable q) : ∃ m, p.meet q = .ok m := by
  rcases h.cases with ⟨a, b, rfl, rfl⟩ | ⟨i, j, rfl, rfl⟩ | ⟨d, e, rfl, rfl⟩ | ⟨t, rfl, rfl⟩ <;> simp [meet]

/-! ## Implication is a preorder -/

lemma implies_refl (hp : p.Standard) (h : p.Comparable p) : p.implies p = .ok true := by
  rcases h.cases with ⟨a, b, rfl, heq⟩ | ⟨i, j, rfl, heq⟩ | ⟨d, e, rfl, heq⟩ | ⟨t, rfl, heq⟩
  · simp [implies, subset_iff]
  · simp [implies]
  · simp [implies, (hp d rfl).regular.isSubgraphOf_self]
  · simp [implies]

variable (hp : p.Standard) (hq : q.Standard) (h : p.Comparable q) (hm : p.meet q = .ok m)

include hp hq in
lemma implies_trans (hr : r.Standard) (hpq : p.Comparable q) (hqr : q.Comparable r)
    (himplies : p.implies q = .ok true) (himplies' : q.implies r = .ok true) :
    p.implies r = .ok true := by
  rcases hpq.cases with ⟨a, b, rfl, rfl⟩ | ⟨i, j, rfl, rfl⟩ | ⟨d, e, rfl, rfl⟩ | ⟨t, rfl, rfl⟩
  all_goals rcases hqr.cases with ⟨_, _, heq, rfl⟩ | ⟨_, _, heq, rfl⟩ | ⟨_, _, heq, rfl⟩ | ⟨_, heq, rfl⟩ <;> cases heq
  · simp only [implies, Except.ok.injEq, subset_iff] at himplies himplies' ⊢
    intro name hname
    exact himplies' name (himplies name hname)
  · simp only [implies, Except.ok.injEq, decide_eq_true_eq] at himplies himplies' ⊢
    omega
  · simp only [implies, Except.ok.injEq] at himplies himplies' ⊢
    exact Coupling.isSubgraphOf_trans (hp _ rfl).regular (hq _ rfl).regular (hr _ rfl).regular himplies himplies'
  · simp [implies]

/-! ## Meets say what both sides say -/

include hp hq h hm in
lemma verify_meet (hverify : p.verify c) (hverify' : q.verify c) : m.verify c := by
  rcases h.cases with ⟨a, b, rfl, rfl⟩ | ⟨i, j, rfl, rfl⟩ | ⟨d, e, rfl, rfl⟩ | ⟨t, rfl, rfl⟩
  · cases hm
    simp only [verify, all_eq_true, Bool.or_eq_true, contains_inter] at hverify hverify' ⊢
    intro cmd hcmd
    have hleft := hverify cmd hcmd
    have hright := hverify' cmd hcmd
    tauto
  · cases hm
    simp only [verify, decide_eq_true_eq] at hverify hverify' ⊢
    omega
  · cases hm
    simp only [verify, Bool.and_eq_true, all_eq_true] at hverify hverify' ⊢
    obtain ⟨hnodes, hallows⟩ := hverify
    obtain ⟨hnodes', hallows'⟩ := hverify'
    have hd := (hp d rfl).regular
    have he := (hq e rfl).regular
    refine ⟨?_, ?_⟩
    · intro u hu
      exact (Coupling.isSome_nodeOf?_inter hd he).mpr ⟨hnodes u hu, hnodes' u hu⟩
    · intro cmd hcmd
      -- commands act on qubits of the circuit, which are nodes of both devices
      have hmem : ∀ u ∈ cmd.qubits, u ∈ c.qubits := fun u hu => Circuit.mem_qubits_of_mem_qubits hcmd hu
      exact Coupling.allows_inter hd he (fun u hu => hnodes u (hmem u hu)) (fun u hu => hnodes' u (hmem u hu))
        (hallows cmd hcmd) (hallows' cmd hcmd)
  · simp only [meet, if_true] at hm
    cases hm
    exact hverify

include hp hq h hm in
lemma verify_meet_iff : m.verify c ↔ p.verify c ∧ q.verify c := by
  constructor
  · exact reliable_standard.meet hp hq h.1 hm c
  · rintro ⟨hverify, hverify'⟩
    exact verify_meet hp hq h hm hverify hverify'

/-! ## Between kinds -/

lemma incomparable_of_kind_ne (h : p.kind ≠ q.kind) :
    (∃ cause, p.implies q = .error (.incomparable cause)) ∧ ∃ cause, p.meet q = .error (.incomparable cause) := by
  cases p with
  | gateSet a =>
    cases q with
    | gateSet b => exact absurd rfl h
    | _ => simp [implies, meet]
  | maxQubits i =>
    cases q with
    | maxQubits j => exact absurd rfl h
    | _ => simp [implies, meet]
  | connectivity d =>
    cases q with
    | connectivity e => exact absurd rfl h
    | _ => simp [implies, meet]
  | userDefined f => simp [implies, meet]
  | property s =>
    cases q with
    | property t =>
      have hne : s ≠ t := by
        rintro rfl
        exact h rfl
      simp [implies, meet, hne]
    | _ => simp [implies, meet]

/-! ## The laws together -/

/-- **These predicates form a sound meet semilattice**, kind by kind. -/
structure SoundSemilattice (S : Predicate → Prop) : Prop where
  implies_refl : ∀ {p}, S p → p.Comparable p → p.implies p = .ok true
  implies_trans : ∀ {p q r}, S p → S q → S r → p.Comparable q → q.Comparable r → p.implies q = .ok true →
    q.implies r = .ok true → p.implies r = .ok true
  implies_ok : ∀ {p q}, S p → S q → p.Comparable q → ∃ b, p.implies q = .ok b
  implies_sound : ∀ {p q}, S p → S q → p.Comparable q → p.implies q = .ok true → ∀ c, p.verify c = true → q.verify c = true
  /-- The meet is a predicate of the same sort that holds just where both do, and the weakest that implies both. -/
  meet : ∀ {p q}, S p → S q → p.Comparable q → ∃ m, p.meet q = .ok m ∧ S m ∧ m.Comparable p ∧
    (∀ c, m.verify c = true ↔ p.verify c = true ∧ q.verify c = true) ∧
    m.implies p = .ok true ∧ m.implies q = .ok true ∧
    ∀ r, S r → r.Comparable p → r.implies p = .ok true → r.implies q = .ok true → r.implies m = .ok true
  /-- Nothing is defined between kinds, also not where one of the two is a test of one's own. -/
  between_kinds : ∀ {p q}, S p → S q → p.kind ≠ q.kind →
    (∃ cause, p.implies q = .error (.incomparable cause)) ∧ ∃ cause, p.meet q = .error (.incomparable cause)

/-- **The predicates of the library form a sound meet semilattice.** -/
theorem sound_semilattice : SoundSemilattice Standard where
  implies_refl := implies_refl
  implies_trans := implies_trans
  implies_ok _ _ h := h.exists_implies
  implies_sound hp hq h himplies _ hverify := verify_of_implies hp hq h.1 himplies hverify
  meet {p q} hp hq h := by
    obtain ⟨m, hm⟩ := h.exists_meet
    have hstandard := hp.meet hq h.1 hm
    have hkind := kind_meet h.1 hm
    have hmp : m.Comparable p := ⟨hkind, hkind ▸ h.2⟩
    have hboth := (implies_meet_iff hp hq hkind h.1).mp ⟨m, hm, implies_refl hstandard hmp.refl_left⟩
    refine ⟨m, hm, hstandard, hmp, fun c => verify_meet_iff hp hq h hm, hboth.1, hboth.2, ?_⟩
    intro r hr hrp hrleft hrright
    obtain ⟨m', hm', himplies⟩ := (implies_meet_iff hp hq hrp.1 h.1).mpr ⟨hrleft, hrright⟩
    rw [hm] at hm'
    cases hm'
    exact himplies
  between_kinds _ _ h := incomparable_of_kind_ne h

end Predicate

/-! # `Pass.selfComposed` — passes that can follow themselves -/

lemma Coupling.Regular.inter_self {d : Coupling} (h : d.Regular) : d.inter d = d := by
  obtain ⟨hedges, hsize⟩ := inter_eq h h
  refine regular_inter.eq_of_edges h ?_ (hsize.trans (Nat.min_self _))
  rw [hedges, List.filter_eq_self]
  exact fun p hp => h.isConnected_iff.mpr (.inl hp)

/-- A predicate of the library other than a test of one's own. -/
def Predicate.Library (p : Predicate) : Prop := p.Standard ∧ p.kind ≠ .userDefined

lemma Predicate.Library.meet_self {p : Predicate} (h : p.Library) : p.meet p = .ok p := by
  cases p with
  | gateSet a =>
    have hself : a.inter a = a := SortedSet.ext_contains fun _ => by rw [SortedSet.contains_inter, and_self]
    rw [meet, hself]
  | maxQubits n => rw [meet, Nat.min_self]
  | connectivity d => rw [meet, (h.1 d rfl).regular.inter_self]
  | userDefined test => exact absurd rfl h.2
  | property t => exact if_pos rfl

lemma Postconditions.andThen_self (a : Postconditions) : a.andThen a = a := by
  have hgeneric : (a.andThen a).generic = a.generic := by
    refine SortedMap.ext_get? fun k => ?_
    rw [generic_andThen, guarantee]
    cases a.generic.get? k with
    | none => rfl
    | some g => cases g <;> rfl
  have hfallback : (a.andThen a).fallback = a.fallback := by
    show a.fallback.and a.fallback = _
    cases a.fallback <;> rfl
  exact eq_of_parts a.specific_andThen_self hgeneric hfallback

namespace Contract

variable {c d : Contract}

/-- **What the pass requires of a kind holds after it**: it ensures enough, or it ensures nothing and preserves the
    kind. -/
def MeetsOwn (c : Contract) (k : PredicateKind) : Prop :=
  ∀ p, c.pre.get? k = some p → (∃ s, c.post.specific.get? k = some s ∧ s.implies p = .ok true) ∨
    (c.post.specific.get? k = none ∧ c.post.guarantee k = .preserve)

lemma meetsAt_self (h : c.Within Predicate.Library) (k : PredicateKind) {r : Option Predicate} :
    c.post.MeetsAt k (c.pre.get? k) (c.pre.get? k) r ↔ c.MeetsOwn k ∧ r = c.pre.get? k := by
  unfold Postconditions.MeetsAt MeetsOwn
  cases hp : c.pre.get? k with
  | none => simp [Meets.none_iff]
  | some p =>
    have hmeet := (h.pre k p hp).2.meet_self
    cases c.post.specific.get? k with
    | some s => simp [Meets.ensured_iff]
    | none => cases c.post.guarantee k <;> simp [Meets.not_clear, Meets.both_iff, hmeet]

lemma andThen_self_iff (h : c.Within Predicate.Library) : c.andThen c true = .ok d ↔ (∀ k, c.MeetsOwn k) ∧ d = c := by
  rw [andThen_eq_ok_iff h h, Postconditions.andThen_self]
  simp only [meetsAt_self h, forall_and]
  refine and_left_comm.trans (and_congr_right fun _ => ⟨?_, ?_⟩)
  · rintro ⟨hpost, hpre⟩
    cases d
    cases hpost
    exact congrArg (Contract.mk · _) (SortedMap.ext_get? hpre)
  · rintro rfl
    exact ⟨rfl, fun _ => rfl⟩

end Contract

namespace Pass

/-- The three ways to repeat a pass. -/
inductive Repeats {σ : Type} (body : Pass σ) : Except CompileError (Pass σ) → Prop
  | repeating : Repeats body body.repeating
  | until (goal : Predicate) : Repeats body (body.repeatingUntil goal)
  | whileImproving (name : String) (metric : Metric) : Repeats body (body.repeatingWhileImproving name metric)

lemma Repeats.eq_map {σ : Type} {body : Pass σ} {built : Except CompileError (Pass σ)} (h : body.Repeats built) :
    built.map contract = body.selfComposed := by
  cases h
  all_goals
    show (body.selfComposed >>= fun _ => _).map contract = body.selfComposed
    cases body.selfComposed <;> rfl

/-- **Running a pass twice in a row asks for and promises what running it once does.** The two runs fit together just
    if the pass meets its own requirements; then their contract is that of the pass, and each repetition of the pass can
    be built and declares this contract. -/
theorem selfComposed_idempotent {c : Contract} (h : c.Within Predicate.Library) :
    ((∃ d, c.andThen c true = .ok d) ↔ ∀ k, c.MeetsOwn k) ∧ (∀ d, c.andThen c true = .ok d → d = c) ∧
      ∀ (σ : Type) (body : Pass σ) built, body.contract = c → body.Repeats built →
        ((∃ p, built = .ok p) ↔ ∀ k, c.MeetsOwn k) ∧ ∀ p, built = .ok p → p.contract = body.contract := by
  have hself : (∃ d, c.andThen c true = .ok d) ↔ ∀ k, c.MeetsOwn k := by
    simp [Contract.andThen_self_iff h]
  refine ⟨hself, fun d hd => ((Contract.andThen_self_iff h).mp hd).2, fun σ body built hc hbuilt => ?_⟩
  have hmap := hbuilt.eq_map
  rw [selfComposed, hc] at hmap
  refine ⟨?_, fun p hp => ?_⟩
  · rw [← hself, ← hmap]
    cases built <;> simp [Except.map]
  · rw [hp] at hmap
    exact ((Contract.andThen_self_iff h).mp hmap.symm).2.trans hc.symm

/-- A pass that keeps its device and narrows its gates. -/
theorem selfComposed_idempotent_routed :
    let c : Contract := ⟨Predicate.mapOf [.connectivity (.linear 3), .gateSet (.ofList ["cx", "h"])],
      Predicate.mapOf [.gateSet (.ofList ["cx"])], SortedMap.empty.insert .connectivity .preserve, .clear⟩
    let body : Pass Unit := .standard "" c (fun d => .ok false d) .empty
    c.Within Predicate.Library ∧ (∃ d, c.andThen c true = .ok d ∧ d = c) ∧ (∀ k, c.MeetsOwn k) ∧
      ∃ p, body.repeating = .ok p ∧ p.contract = c := by
  intro c body
  have hc : c.Within Predicate.Library := Contract.within_of_mapOf
    (by simp [Predicate.Library, Predicate.Standard, Coupling.Built.linear, Predicate.kind]; decide)
    (by simp [Predicate.Library, Predicate.Standard, Predicate.kind]; decide)
  obtain ⟨hself, heq, hrepeat⟩ := selfComposed_idempotent hc
  obtain ⟨d, hd, _⟩ : ∃ d, c.andThen c true = .ok d ∧ True := by decide +kernel
  obtain ⟨hbuilt, hcontract⟩ := hrepeat Unit body _ rfl .repeating
  obtain ⟨p, hp⟩ := hbuilt.mpr (hself.mp ⟨d, hd⟩)
  exact ⟨hc, ⟨d, hd, heq d hd⟩, hself.mp ⟨d, hd⟩, p, hp, hcontract p hp⟩

end Pass

end Wireloom
