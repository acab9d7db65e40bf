import Mathlib.Data.List.Nodup
import Wireloom.Pass.Basic
import Wireloom.Proofs.Run

/-!
# `Contract.andThen` — what passes require together

Kinds of predicates do not meet in a contract, so what two passes require together is decided kind by kind (`Meets`,
`Contract.andThen_eq_ok_iff`).
-/

namespace Wireloom

open List SortedSet

namespace Coupling

variable {m n d e f : Coupling} {a b : Nat} {l : List (Nat × Nat)}

/-! ## Couplings that were built -/

/-- The couplings that can be made without reading them from a file. -/
inductive Built : Coupling → Prop
  | ofSize (n : Nat) : Built (ofSize n)
  | linear (n : Nat) : Built (linear n)
  | full (n : Nat) : Built (full n)
  | star (n : Nat) : Built (star n)
  | addEdge {m : Coupling} (a b : Nat) : Built m → Built (m.addEdge a b)
  | inter {m n : Coupling} : Built m → Built n → Built (m.inter n)

def bothWays (l : List (Nat × Nat)) : List (Nat × Nat) := l.flatMap fun (a, b) => [(a, b), (b, a)]

/-- **A coupling in order.** -/
structure Regular (m : Coupling) : Prop where
  neighbours : m.neighbours = bothWays m.edges
  fits : ∀ p ∈ m.edges, p.1 < m.size ∧ p.2 < m.size
  fresh : m.edges.Pairwise fun p q => q ≠ p ∧ q.swap ≠ p

lemma mem_bothWays {p : Nat × Nat} : p ∈ bothWays l ↔ p ∈ l ∨ p.swap ∈ l := by
  unfold bothWays
  rw [mem_flatMap]
  constructor
  · rintro ⟨q, hq, hp⟩
    rcases mem_pair.mp hp with rfl | rfl
    · exact .inl hq
    · exact .inr hq
  · rintro (hp | hp)
    · exact ⟨p, hp, mem_cons_self⟩
    · exact ⟨p.swap, hp, mem_cons_of_mem _ mem_cons_self⟩

lemma bothWays_append (l l' : List (Nat × Nat)) : bothWays (l ++ l') = bothWays l ++ bothWays l' :=
  flatMap_append

namespace Regular

lemma isConnected_iff (h : m.Regular) : m.isConnected a b ↔ (a, b) ∈ m.edges ∨ (b, a) ∈ m.edges := by
  unfold isConnected
  rw [contains_iff_mem, h.neighbours, mem_bothWays]
  rfl

lemma isConnected_comm (h : m.Regular) : m.isConnected a b = m.isConnected b a := by
  rw [Bool.eq_iff_iff, h.isConnected_iff, h.isConnected_iff, or_comm]

lemma rebuild_eq (h : m.Regular) : m.rebuild = m := congrArg (Coupling.mk _ _) h.neighbours.symm

lemma lt_of_isConnected (h : m.Regular) (hab : m.isConnected a b) : a < m.size ∧ b < m.size := by
  rcases h.isConnected_iff.mp hab with hmem | hmem
  · exact h.fits _ hmem
  · exact (h.fits _ hmem).symm

lemma eq_of_edges (hm : m.Regular) (hn : n.Regular) (hedges : m.edges = n.edges) (hsize : m.size = n.size) : m = n := by
  have hneighbours : m.neighbours = n.neighbours := by rw [hm.neighbours, hn.neighbours, hedges]
  cases n
  cases hedges
  cases hsize
  cases hneighbours
  rfl

lemma addEdge (h : m.Regular) (a b : Nat) : (m.addEdge a b).Regular := by
  unfold Coupling.addEdge
  split
  · exact h
  · next hnew =>
    have hfresh : (a, b) ∉ m.edges ∧ (b, a) ∉ m.edges := by
      rw [h.isConnected_iff] at hnew
      exact not_or.mp hnew
    constructor
    · show m.neighbours ++ _ = bothWays (m.edges ++ [(a, b)])
      rw [bothWays_append, h.neighbours]
      rfl
    · intro p hp
      show p.1 < max m.size (max a b + 1) ∧ p.2 < max m.size (max a b + 1)
      rcases mem_append.mp hp with hp | hp
      · have hfits := h.fits p hp
        omega
      · rw [mem_singleton.mp hp]
        omega
    · refine pairwise_append.mpr ⟨h.fresh, pairwise_singleton _ _, fun p hp q hq => ?_⟩
      rw [mem_singleton.mp hq]
      refine ⟨?_, ?_⟩
      · rintro rfl
        exact hfresh.1 hp
      · rintro rfl
        exact hfresh.2 hp

lemma addEdges (h : m.Regular) (l : List (Nat × Nat)) : (m.addEdges l).Regular := by
  induction l generalizing m with
  | nil => exact h
  | cons p rest ih => exact ih (h.addEdge p.1 p.2)

lemma ofSize (n : Nat) : (ofSize n).Regular := ⟨rfl, by simp [Coupling.ofSize], .nil⟩

end Regular

lemma Built.regular (h : m.Built) : m.Regular := by
  induction h with
  | ofSize n => exact .ofSize n
  | linear n => exact (Regular.ofSize n).addEdges _
  | full n => exact (Regular.ofSize n).addEdges _
  | star n => exact (Regular.ofSize n).addEdges _
  | addEdge a b _ ih => exact ih.addEdge a b
  | inter _ _ _ _ => exact (Regular.ofSize _).addEdges _

/-! ## Intersections -/

lemma addEdges_eq (h : m.Regular) (hfits : ∀ p ∈ l, p.1 < m.size ∧ p.2 < m.size)
    (hfresh : (m.edges ++ l).Pairwise fun p q => q ≠ p ∧ q.swap ≠ p) :
    (m.addEdges l).edges = m.edges ++ l ∧ (m.addEdges l).size = m.size := by
  induction l generalizing m with
  | nil => exact ⟨(append_nil _).symm, rfl⟩
  | cons p rest ih =>
    obtain ⟨a, b⟩ := p
    obtain ⟨⟨_, _⟩, hrest⟩ := forall_mem_cons.mp hfits
    have hnew : ¬ m.isConnected a b := by
      rw [h.isConnected_iff]
      rintro (hmem | hmem)
      · exact ((pairwise_append.mp hfresh).2.2 _ hmem _ mem_cons_self).1 rfl
      · exact ((pairwise_append.mp hfresh).2.2 _ hmem _ mem_cons_self).2 rfl
    have hadd : m.addEdge a b = ⟨m.edges ++ [(a, b)], m.size, m.neighbours ++ [(a, b), (b, a)]⟩ := by
      unfold Coupling.addEdge
      rw [if_neg hnew]
      congr 1
      omega
    have hsplit : m.edges ++ (a, b) :: rest = (m.edges ++ [(a, b)]) ++ rest := by simp
    obtain ⟨hedges, hsize⟩ := ih (h.addEdge a b) (by rw [hadd]; exact hrest) (by rw [hadd]; exact hsplit ▸ hfresh)
    rw [hadd] at hedges hsize
    refine ⟨?_, ?_⟩
    · rw [hsplit, ← hedges, ← hadd]
      rfl
    · rw [← hsize, ← hadd]
      rfl

lemma inter_eq (hm : m.Regular) (hn : n.Regular) :
    (m.inter n).edges = m.edges.filter (fun p => n.isConnected p.1 p.2) ∧ (m.inter n).size = min m.size n.size := by
  have hadd := addEdges_eq (Regular.ofSize (min m.size n.size)) (l := m.edges.filter fun p => n.isConnected p.1 p.2)
    (fun p hp => by
      obtain ⟨hmem, hconn⟩ := mem_filter.mp hp
      have hfits := hm.fits p hmem
      have hfits' := hn.lt_of_isConnected hconn
      show p.1 < min m.size n.size ∧ p.2 < min m.size n.size
      omega)
    (hm.fresh.filter _)
  exact hadd

lemma regular_inter : (m.inter n).Regular := (Regular.ofSize _).addEdges _

lemma isConnected_inter (hm : m.Regular) (hn : n.Regular) :
    (m.inter n).isConnected a b = (m.isConnected a b && n.isConnected a b) := by
  rw [Bool.eq_iff_iff, Bool.and_eq_true, regular_inter.isConnected_iff, hm.isConnected_iff, (inter_eq hm hn).1,
    mem_filter, mem_filter, hn.isConnected_comm, or_and_right]

lemma inter_assoc (hd : d.Regular) (he : e.Regular) (hf : f.Regular) : (d.inter e).inter f = d.inter (e.inter f) := by
  obtain ⟨hde, hdeSize⟩ := inter_eq hd he
  obtain ⟨hedges, hsize⟩ := inter_eq regular_inter hf
  obtain ⟨hedges', hsize'⟩ := inter_eq hd regular_inter
  refine regular_inter.eq_of_edges regular_inter ?_ ?_
  · rw [hedges, hedges', hde, filter_filter]
    refine filter_congr fun p _ => ?_
    rw [isConnected_inter he hf, Bool.and_comm]
  · rw [hsize, hsize', hdeSize, (inter_eq he hf).2, Nat.min_assoc]

lemma isSubgraphOf_inter (he : e.Regular) (hf : f.Regular) :
    d.isSubgraphOf (e.inter f) ↔ d.isSubgraphOf e ∧ d.isSubgraphOf f := by
  unfold isSubgraphOf
  simp only [Bool.and_eq_true, decide_eq_true_eq, all_eq_true, isConnected_inter he hf, (inter_eq he hf).2]
  constructor
  · rintro ⟨hsize, hall⟩
    exact ⟨⟨by omega, fun p hp => (hall p hp).1⟩, by omega, fun p hp => (hall p hp).2⟩
  · rintro ⟨⟨hsize, hall⟩, _, hall'⟩
    exact ⟨by omega, fun p hp => ⟨hall p hp, hall' p hp⟩⟩

/-- **The neighbours of a coupling are its pairs.** Each pair is listed once, in one direction and over qubits of the
    device, and lookups find it in both. Rebuilding the neighbours changes nothing, and an intersection couples what
    both devices couple. -/
theorem built_consistent (hm : m.Built) (hn : n.Built) :
    (∀ a b, (m.isConnected a b ↔ (a, b) ∈ m.edges ∨ (b, a) ∈ m.edges) ∧ m.isConnected a b = m.isConnected b a) ∧
    m.edges.Pairwise (fun p q => q ≠ p ∧ q.swap ≠ p) ∧ (∀ p ∈ m.edges, p.1 < m.size ∧ p.2 < m.size) ∧ m.rebuild = m ∧
    (m.inter n).size = min m.size n.size ∧
    ∀ a b, (m.inter n).isConnected a b = (m.isConnected a b && n.isConnected a b) := by
  have h := hm.regular
  exact ⟨fun a b => ⟨h.isConnected_iff, h.isConnected_comm⟩, h.fresh, h.fits, h.rebuild_eq, (inter_eq h hn.regular).2,
    fun a b => isConnected_inter h hn.regular⟩

/-- A qubit coupled to itself beyond the last one, and a pair that is there in the other direction. -/
theorem built_consistent_loop : ∃ m n : Coupling, m = ((linear 3).addEdge 4 4).addEdge 2 1 ∧ n = (full 3).addEdge 4 4 ∧
    m.Built ∧ n.Built ∧ m.edges = [(0, 1), (1, 2), (4, 4)] ∧ m.isConnected 2 1 ∧ m.rebuild = m ∧
    (m.inter n).size = 5 ∧ (m.inter n).isConnected 4 4 ∧ ¬ (m.inter n).isConnected 0 2 := by
  have hm : (((linear 3).addEdge 4 4).addEdge 2 1).Built := .addEdge 2 1 (.addEdge 4 4 (.linear 3))
  have hn : ((full 3).addEdge 4 4).Built := .addEdge 4 4 (.full 3)
  obtain ⟨hpairs, _, _, hrebuild, hsize, hinter⟩ := built_consistent hm hn
  refine ⟨_, _, rfl, rfl, hm, hn, rfl, ?_, hrebuild, hsize, ?_, ?_⟩
  · exact (hpairs 2 1).1.mpr (.inr (by decide))
  · rw [hinter]; rfl
  · rw [hinter]; decide

end Coupling

namespace Predicate

variable {p q r m : Predicate}

/-! ## Predicates of one kind -/

/-- **A predicate of the library**, with any parameters; a coupling has to be built. -/
def Standard (p : Predicate) : Prop := ∀ device, p = connectivity device → device.Built

/-- How a predicate is made, its parameters left out. -/
inductive Form where
  | gateSet
  | maxQubits
  | connectivity
  | userDefined
  | property (t : Property)
  deriving DecidableEq

def Form.all : List Form := [gateSet, maxQubits, connectivity, userDefined] ++ Property.all.map property

def Form.kind : Form → PredicateKind
  | gateSet => .gateSet
  | maxQubits => .maxQubits
  | connectivity => .connectivity
  | userDefined => .userDefined
  | property t => .property t

def form : Predicate → Form
  | gateSet _ => .gateSet
  | maxQubits _ => .maxQubits
  | connectivity _ => .connectivity
  | userDefined _ => .userDefined
  | property t => .property t

lemma Form.mem_all (f : Form) : f ∈ all := by
  cases f with
  | property t => cases t <;> decide
  | _ => decide

lemma Form.kind_injective : Function.Injective Form.kind := by
  intro f g h
  have hnodup : (all.map Form.kind).Nodup := by decide
  exact inj_on_of_nodup_map hnodup f.mem_all g.mem_all h

lemma form_eq_of_kind_eq (h : p.kind = q.kind) : p.form = q.form := by
  have hkind : ∀ p : Predicate, p.kind = p.form.kind := fun p => by cases p <;> rfl
  rw [hkind, hkind] at h
  exact Form.kind_injective h

lemma cases_of_kind_eq (h : p.kind = q.kind) :
    (∃ a b, p = gateSet a ∧ q = gateSet b) ∨ (∃ i j, p = maxQubits i ∧ q = maxQubits j) ∨
      (∃ d e, p = connectivity d ∧ q = connectivity e) ∨ (∃ f g, p = userDefined f ∧ q = userDefined g) ∨
      ∃ t, p = property t ∧ q = property t := by
  have hform := form_eq_of_kind_eq h
  cases p <;> cases q <;> simp_all [form]

/-! ## The laws -/

lemma kind_meet (h : p.kind = q.kind) (hm : p.meet q = .ok m) : m.kind = p.kind := by
  rcases cases_of_kind_eq h with
    ⟨a, b, rfl, rfl⟩ | ⟨i, j, rfl, rfl⟩ | ⟨d, e, rfl, rfl⟩ | ⟨f, g, rfl, rfl⟩ | ⟨t, rfl, rfl⟩
  · cases hm; rfl
  · cases hm; rfl
  · cases hm; rfl
  · cases hm
  · simp only [meet, if_true] at hm
    cases hm
    rfl

lemma Standard.meet (hp : p.Standard) (hq : q.Standard) (h : p.kind = q.kind) (hm : p.meet q = .ok m) : m.Standard := by
  intro device hdevice
  subst hdevice
  rcases cases_of_kind_eq h with
    ⟨a, b, rfl, rfl⟩ | ⟨i, j, rfl, rfl⟩ | ⟨d, e, rfl, rfl⟩ | ⟨f, g, rfl, rfl⟩ | ⟨t, rfl, rfl⟩
  · cases hm
  · cases hm
  · cases hm
    exact (hp d rfl).inter (hq e rfl)
  · cases hm
  · simp [Predicate.meet] at hm

lemma implies_meet_iff (hq : q.Standard) (hr : r.Standard) (hpq : p.kind = q.kind) (hqr : q.kind = r.kind) :
    (∃ m, q.meet r = .ok m ∧ p.implies m = .ok true) ↔ p.implies q = .ok true ∧ p.implies r = .ok true := by
  rcases cases_of_kind_eq hqr with
    ⟨b, c, rfl, rfl⟩ | ⟨i, j, rfl, rfl⟩ | ⟨d, e, rfl, rfl⟩ | ⟨f, g, rfl, rfl⟩ | ⟨t, rfl, rfl⟩
  all_goals rcases cases_of_kind_eq hpq with
      ⟨_, _, rfl, heq⟩ | ⟨_, _, rfl, heq⟩ | ⟨_, _, rfl, heq⟩ | ⟨_, _, rfl, heq⟩ | ⟨_, rfl, heq⟩ <;> cases heq
  · simp [Predicate.meet, implies, subset_iff, contains_inter, forall_and]
  · simp [Predicate.meet, implies, Nat.le_min]
  · simp [Predicate.meet, implies, Coupling.isSubgraphOf_inter (hq d rfl).regular (hr e rfl).regular]
  · simp [Predicate.meet, implies]
  · simp [Predicate.meet, implies]

lemma meet_assoc (hp : p.Standard) (hq : q.Standard) (hr : r.Standard) (hpq : p.kind = q.kind) (hqr : q.kind = r.kind) :
    (∃ x, p.meet q = .ok x ∧ x.meet r = .ok m) ↔ ∃ y, q.meet r = .ok y ∧ p.meet y = .ok m := by
  rcases cases_of_kind_eq hqr with
    ⟨b, c, rfl, rfl⟩ | ⟨i, j, rfl, rfl⟩ | ⟨d, e, rfl, rfl⟩ | ⟨f, g, rfl, rfl⟩ | ⟨t, rfl, rfl⟩
  all_goals rcases cases_of_kind_eq hpq with
      ⟨a, _, rfl, heq⟩ | ⟨k, _, rfl, heq⟩ | ⟨device, _, rfl, heq⟩ | ⟨_, _, rfl, heq⟩ | ⟨_, rfl, heq⟩ <;> cases heq
  · have hassoc : (a.inter b).inter c = a.inter (b.inter c) :=
      ext_contains fun k => by simp only [contains_inter, and_assoc]
    simp [Predicate.meet, hassoc]
  · simp [Predicate.meet, Nat.min_assoc]
  · simp [Predicate.meet, Coupling.inter_assoc (hp device rfl).regular (hq d rfl).regular (hr e rfl).regular]
  · simp [Predicate.meet]
  · simp [Predicate.meet]

end Predicate

end Wireloom

/-! # `Contract.andThen` -/

namespace Wireloom

variable {S : Predicate → Prop}

/-! ## Guarantees -/

namespace Guarantee

lemma and_comm (g h : Guarantee) : g.and h = h.and g := by cases g <;> cases h <;> rfl

lemma and_assoc (f g h : Guarantee) : (f.and g).and h = f.and (g.and h) := by
  cases f <;> cases g <;> cases h <;> rfl

@[simp] lemma and_preserve (g : Guarantee) : g.and preserve = g := by cases g <;> rfl

@[simp] lemma preserve_and (g : Guarantee) : preserve.and g = g := rfl

lemma and_eq_preserve {g h : Guarantee} : g.and h = preserve ↔ g = preserve ∧ h = preserve := by
  cases g <;> cases h <;> simp [Guarantee.and]

end Guarantee

/-! ## Postconditions -/

namespace Postconditions

open SortedMap List Option

variable {a b c : Postconditions} {k : PredicateKind}

lemma eq_of_parts (hspecific : a.specific = b.specific) (hgeneric : a.generic = b.generic)
    (hfallback : a.fallback = b.fallback) : a = b := by
  cases b
  cases hspecific
  cases hgeneric
  cases hfallback
  rfl

lemma specific_andThen (a b : Postconditions) (k : PredicateKind) : (a.andThen b).specific.get? k =
    (b.specific.get? k).or (if b.guarantee k = .preserve then a.specific.get? k else none) := by
  unfold andThen
  rw [get?_unionLeft, get?_filter]
  cases a.specific.get? k <;> cases b.guarantee k <;> rfl

lemma generic_andThen (a b : Postconditions) (k : PredicateKind) : (a.andThen b).generic.get? k =
    ((b.generic.get? k).map fun g => g.and (a.guarantee k)).or ((a.generic.get? k).map fun g => g.and (b.guarantee k)) := by
  unfold andThen
  rw [get?_unionLeft, get?_mapValues, get?_mapValues]

lemma guarantee_andThen (a b : Postconditions) (k : PredicateKind) :
    (a.andThen b).guarantee k = (b.guarantee k).and (a.guarantee k) := by
  have hfallback : (a.andThen b).fallback = b.fallback.and a.fallback := rfl
  rw [guarantee, generic_andThen, hfallback]
  unfold guarantee
  cases b.generic.get? k with
  | some g => rfl
  | none =>
    cases a.generic.get? k with
    | some g => exact Guarantee.and_comm _ _
    | none => rfl

lemma andThen_assoc (a b c : Postconditions) : (a.andThen b).andThen c = a.andThen (b.andThen c) := by
  have hspecific : ((a.andThen b).andThen c).specific = (a.andThen (b.andThen c)).specific := by
    refine ext_get? fun k => ?_
    simp only [specific_andThen, guarantee_andThen, Guarantee.and_eq_preserve]
    cases c.specific.get? k with
    | some p => rfl
    | none => cases b.specific.get? k <;> cases b.guarantee k <;> cases c.guarantee k <;> simp
  have hgeneric : ((a.andThen b).andThen c).generic = (a.andThen (b.andThen c)).generic := by
    refine ext_get? fun k => ?_
    simp only [generic_andThen, guarantee_andThen]
    cases c.generic.get? k with
    | some g => simp [Guarantee.and_assoc]
    | none =>
      cases b.generic.get? k with
      | some g => simp [Guarantee.and_assoc, Guarantee.and_comm (a.guarantee k)]
      | none => cases a.generic.get? k <;> simp [Guarantee.and_assoc, Guarantee.and_comm (b.guarantee k)]
  have hfallback : ((a.andThen b).andThen c).fallback = (a.andThen (b.andThen c)).fallback :=
    (Guarantee.and_assoc _ _ _).symm
  exact eq_of_parts hspecific hgeneric hfallback

lemma specific_andThen_self (a : Postconditions) : (a.andThen a).specific = a.specific := by
  refine ext_get? fun k => ?_
  rw [specific_andThen]
  cases a.specific.get? k <;> simp

lemma guarantee_preserveAll : preserveAll.guarantee k = .preserve := rfl

lemma preserveAll_andThen (a : Postconditions) : preserveAll.andThen a = a := by
  have hspecific : (preserveAll.andThen a).specific = a.specific := by
    refine ext_get? fun k => ?_
    rw [specific_andThen]
    cases a.specific.get? k <;> simp [preserveAll]
  have hgeneric : (preserveAll.andThen a).generic = a.generic := by
    refine ext_get? fun k => ?_
    rw [generic_andThen, guarantee_preserveAll]
    cases a.generic.get? k <;> simp [preserveAll]
  have hfallback : (preserveAll.andThen a).fallback = a.fallback := Guarantee.and_preserve _
  exact eq_of_parts hspecific hgeneric hfallback

lemma andThen_preserveAll (a : Postconditions) : a.andThen preserveAll = a := by
  have hspecific : (a.andThen preserveAll).specific = a.specific := by
    refine ext_get? fun k => ?_
    rw [specific_andThen, guarantee_preserveAll]
    rfl
  have hgeneric : (a.andThen preserveAll).generic = a.generic := by
    refine ext_get? fun k => ?_
    rw [generic_andThen, guarantee_preserveAll]
    cases a.generic.get? k <;> simp [preserveAll]
  exact eq_of_parts hspecific hgeneric rfl

end Postconditions

/-! ## One kind -/

/-- **What two passes require of one kind.** The first ensures `s` and treats the kind as `g` says; `p` is what it
    requires and `q` what the second requires. Together they require `r`. -/
def Meets (s : Option Predicate) (g : Guarantee) (p q r : Option Predicate) : Prop :=
  match q with
  | none => r = p
  | some q =>
    match s with
    | some s => s.implies q = .ok true ∧ r = p
    | none => g = .preserve ∧
      match p with
      | none => r = some q
      | some p => ∃ m, p.meet q = .ok m ∧ r = some m

/-- The predicate, if there is one, is of this kind and satisfies `S`. -/
def At (S : Predicate → Prop) (k : PredicateKind) (p : Option Predicate) : Prop := ∀ x ∈ p, x.kind = k ∧ S x

lemma at_insert {m : PredicateMap} {p : Predicate} (hm : ∀ k, At S k (m.get? k)) (hp : S p)
    (k : PredicateKind) : At S k ((m.insert p.kind p).get? k) := by
  intro x hx
  rw [SortedMap.get?_insert] at hx
  split at hx
  · next hk =>
    cases hx
    exact ⟨hk.symm, hp⟩
  · exact hm k x hx

lemma at_mapOf {ps : List Predicate} (h : ∀ p ∈ ps, S p) (k : PredicateKind) : At S k ((Predicate.mapOf ps).get? k) := by
  have hfold : ∀ m : PredicateMap, (∀ k, At S k (m.get? k)) → At S k ((ps.foldl (fun m p => m.insert p.kind p) m).get? k) := by
    induction ps with
    | nil => exact fun m hm => hm k
    | cons p rest ih =>
      obtain ⟨hp, hrest⟩ := List.forall_mem_cons.mp h
      exact fun m hm => ih hrest _ (at_insert hm hp)
  unfold Predicate.mapOf SortedMap.ofList
  rw [List.foldl_map]
  exact hfold _ fun k x hx => by cases hx

/-- Meets of predicates of one kind stay in `S`. -/
def MeetClosed (S : Predicate → Prop) : Prop :=
  ∀ {p q m : Predicate}, S p → S q → p.kind = q.kind → p.meet q = .ok m → S m

lemma meetClosed_standard : MeetClosed Predicate.Standard := fun hp hq h hm => hp.meet hq h hm

namespace Meets

variable {S : Predicate → Prop} {k : PredicateKind} {s sa sb p q r r' pa pb pc y : Option Predicate} {g ga gb : Guarantee}

lemma none_iff : Meets s g p none r ↔ r = p := Iff.rfl

lemma ensured_iff {x y : Predicate} : Meets (some x) g p (some y) r ↔ x.implies y = .ok true ∧ r = p := Iff.rfl

lemma not_clear {y : Predicate} : ¬ Meets none .clear p (some y) r := fun h => nomatch h.1

lemma new_iff {y : Predicate} : Meets none .preserve none (some y) r ↔ r = some y := and_iff_right rfl

lemma both_iff {x y : Predicate} : Meets none .preserve (some x) (some y) r ↔ ∃ m, x.meet y = .ok m ∧ r = some m :=
  and_iff_right rfl

lemma unique (h : Meets s g p q r) (h' : Meets s g p q r') : r = r' := by
  cases q with
  | none => exact h.trans h'.symm
  | some q =>
    cases s with
    | some s => exact h.2.trans h'.2.symm
    | none =>
      cases p with
      | none => exact h.2.trans h'.2.symm
      | some p =>
        obtain ⟨_, m, hm, rfl⟩ := h
        obtain ⟨_, _, hm', rfl⟩ := h'
        rw [hm] at hm'
        cases hm'
        rfl

lemma at_result (h : Meets s g p q r) (hS : MeetClosed S) (hp : At S k p) (hq : At S k q) : At S k r := by
  cases q with
  | none => exact h ▸ hp
  | some q =>
    cases s with
    | some s => exact h.2 ▸ hp
    | none =>
      cases p with
      | none => exact h.2 ▸ hq
      | some p =>
        obtain ⟨_, m, hm, rfl⟩ := h
        obtain ⟨hpk, hpS⟩ := hp p rfl
        obtain ⟨hqk, hqS⟩ := hq q rfl
        have hkind := hpk.trans hqk.symm
        rintro _ ⟨⟩
        exact ⟨(Predicate.kind_meet hkind hm).trans hpk, hS hpS hqS hkind hm⟩

/-- **Three passes at one kind.** What the first two ensure together and do to the kind decides about the third as the
    two steps apart do. -/
theorem assoc (hsa : At Predicate.Standard k sa) (hpa : At Predicate.Standard k pa) (hpb : At Predicate.Standard k pb)
    (hpc : At Predicate.Standard k pc) :
    (∃ x, Meets sa ga pa pb x ∧ Meets (sb.or (if gb = .preserve then sa else none)) (gb.and ga) x pc y) ↔
      ∃ z, Meets sb gb pb pc z ∧ Meets sa ga pa z y := by
  cases pc with
  | none => simp only [none_iff, exists_eq_right', exists_eq_left]
  | some q =>
    cases sb with
    | some t =>
      exact ⟨fun ⟨_, hx, himplies, heq⟩ => ⟨pb, ⟨himplies, rfl⟩, heq ▸ hx⟩,
        fun ⟨_, ⟨himplies, heq⟩, hy⟩ => ⟨y, heq ▸ hy, himplies, rfl⟩⟩
    | none =>
      cases gb with
      | clear =>
        exact ⟨fun ⟨_, _, hclear⟩ => absurd hclear not_clear, fun ⟨_, hclear, _⟩ => absurd hclear not_clear⟩
      | preserve =>
        simp only [Option.none_or, if_true, Guarantee.preserve_and]
        obtain ⟨hqk, hq⟩ := hpc q rfl
        cases sa with
        | some s =>
          obtain ⟨hsk, _⟩ := hsa s rfl
          cases pb with
          | none => simp only [none_iff, new_iff, ensured_iff, exists_eq_left]
          | some p' =>
            -- what the first ensures has to imply both requirements, or their meet
            obtain ⟨hpk, hp⟩ := hpb p' rfl
            have himplies := Predicate.implies_meet_iff hp hq (hsk.trans hpk.symm) (hpk.trans hqk.symm)
            simp only [both_iff, ensured_iff]
            constructor
            · rintro ⟨x, ⟨hsp, rfl⟩, hsq, rfl⟩
              obtain ⟨m, hm, hsm⟩ := himplies.mpr ⟨hsp, hsq⟩
              exact ⟨some m, ⟨m, hm, rfl⟩, hsm, rfl⟩
            · rintro ⟨_, ⟨m, hm, rfl⟩, hsm, rfl⟩
              obtain ⟨hsp, hsq⟩ := himplies.mp ⟨m, hm, hsm⟩
              exact ⟨_, ⟨hsp, rfl⟩, hsq, rfl⟩
        | none =>
          cases ga with
          | clear =>
            refine ⟨fun ⟨_, _, hclear⟩ => absurd hclear not_clear, fun ⟨z, hz, hclear⟩ => ?_⟩
            cases z with
            | some z => exact absurd hclear not_clear
            | none =>
              cases pb with
              | none => cases new_iff.mp hz
              | some p' =>
                obtain ⟨_, _, heq⟩ := both_iff.mp hz
                cases heq
          | preserve =>
            cases pb with
            | none => simp only [none_iff, new_iff, exists_eq_left]
            | some p' =>
              obtain ⟨hpk', hp'⟩ := hpb p' rfl
              cases pa with
              | none =>
                simp only [new_iff, both_iff, exists_eq_left]
                exact ⟨fun ⟨m, hm, heq⟩ => ⟨some m, ⟨m, hm, rfl⟩, new_iff.mpr heq⟩,
                  fun ⟨_, ⟨m, hm, heq⟩, hy⟩ => ⟨m, hm, new_iff.mp (heq ▸ hy)⟩⟩
              | some p =>
                obtain ⟨hpk, hp⟩ := hpa p rfl
                have hmeet := fun m =>
                  Predicate.meet_assoc (m := m) hp hp' hq (hpk.trans hpk'.symm) (hpk'.trans hqk.symm)
                simp only [both_iff]
                constructor
                · rintro ⟨_, ⟨x, hx, rfl⟩, hy⟩
                  obtain ⟨m, hm, rfl⟩ := both_iff.mp hy
                  obtain ⟨z, hz, hzm⟩ := (hmeet m).mp ⟨x, hx, hm⟩
                  exact ⟨some z, ⟨z, hz, rfl⟩, both_iff.mpr ⟨m, hzm, rfl⟩⟩
                · rintro ⟨_, ⟨z, hz, rfl⟩, hy⟩
                  obtain ⟨m, hm, rfl⟩ := both_iff.mp hy
                  obtain ⟨x, hx, hxm⟩ := (hmeet m).mpr ⟨z, hz, hm⟩
                  exact ⟨some x, ⟨x, hx, rfl⟩, both_iff.mpr ⟨m, hxm, rfl⟩⟩

end Meets

/-- After a pass that leaves `post` and requires `p` of a kind, one that requires `q` of it: together they require
    `r`. -/
def Postconditions.MeetsAt (post : Postconditions) (k : PredicateKind) (p q r : Option Predicate) : Prop :=
  Meets (post.specific.get? k) (post.guarantee k) p q r

/-! ## Whole contracts -/

namespace Contract

open SortedMap

variable {S : Predicate → Prop} {a b c d first : Contract} {k : PredicateKind} {q : Predicate} {pre pre' : PredicateMap}
  {l : List (PredicateKind × Predicate)}

/-- **The predicates of a contract stand under their own kinds** and satisfy `S`. -/
structure Within (S : Predicate → Prop) (c : Contract) : Prop where
  pre : ∀ k, At S k (c.pre.get? k)
  specific : ∀ k, At S k (c.post.specific.get? k)

lemma require_eq_ok (hq : q.kind = k) (hpre : At S k (pre.get? k)) (h : first.require true pre (k, q) = .ok pre') :
    first.post.MeetsAt k (pre.get? k) (some q) (pre'.get? k) ∧ ∀ k' ≠ k, pre'.get? k' = pre.get? k' := by
  unfold require at h
  unfold Postconditions.MeetsAt
  cases hs : first.post.specific.get? k with
  | some s =>
    simp only [hs] at h
    obtain ⟨ok, himplies, h⟩ := bind_ok_iff.mp h
    cases ok with
    | false => cases h
    | true =>
      cases h
      exact ⟨⟨himplies, rfl⟩, fun _ _ => rfl⟩
  | none =>
    cases hg : first.post.guarantee k with
    | clear => simp [hs, hg] at h
    | preserve =>
      simp only [hs, hg] at h
      cases hp : pre.get? k with
      | none =>
        simp only [hp] at h
        cases h
        rw [hq, get?_insert_same]
        exact ⟨Meets.new_iff.mpr rfl, fun k' hk' => get?_insert_other _ hk' _⟩
      | some p =>
        simp only [hp] at h
        obtain ⟨m, hm, h⟩ := bind_ok_iff.mp h
        cases h
        obtain ⟨hpk, _⟩ := hpre p hp
        rw [(Predicate.kind_meet (hpk.trans hq.symm) hm).trans hpk, get?_insert_same]
        exact ⟨Meets.both_iff.mpr ⟨m, hm, rfl⟩, fun k' hk' => get?_insert_other _ hk' _⟩

lemma require_isOk {r : Option Predicate} (h : first.post.MeetsAt k (pre.get? k) (some q) r) :
    ∃ pre', first.require true pre (k, q) = .ok pre' := by
  unfold Postconditions.MeetsAt at h
  unfold require
  cases hs : first.post.specific.get? k with
  | some s =>
    rw [hs] at h
    exact ⟨pre, by simp only [hs, h.1]; rfl⟩
  | none =>
    rw [hs] at h
    obtain ⟨hkeep, h⟩ := h
    simp only [hs, hkeep]
    cases hp : pre.get? k with
    | none => exact ⟨_, rfl⟩
    | some p =>
      rw [hp] at h
      obtain ⟨m, hm, _⟩ := h
      exact ⟨pre.insert m.kind m, by simp only [hm]; rfl⟩

variable (hn : (l.map Prod.fst).Nodup) (hl : ∀ e ∈ l, e.2.kind = e.1) (hpre : ∀ e ∈ l, At S e.1 (pre.get? e.1))

include hn hl hpre in
lemma foldlM_require_eq_ok (h : l.foldlM (first.require true) pre = .ok pre') (k : PredicateKind) :
    first.post.MeetsAt k (pre.get? k) (lookup k l) (pre'.get? k) := by
  induction l generalizing pre with
  | nil =>
    cases h
    exact Meets.none_iff.mpr rfl
  | cons e rest ih =>
    obtain ⟨k0, q⟩ := e
    obtain ⟨hnot, hn⟩ := List.nodup_cons.mp hn
    obtain ⟨hq, hl⟩ := List.forall_mem_cons.mp hl
    obtain ⟨hp, hpre⟩ := List.forall_mem_cons.mp hpre
    obtain ⟨_, hfirst, h⟩ := bind_ok_iff.mp h
    obtain ⟨hmeets, hother⟩ := require_eq_ok hq hp hfirst
    have hne : ∀ e ∈ rest, e.1 ≠ k0 := fun e he heq => hnot (List.mem_map.mpr ⟨e, he, heq⟩)
    have hrest := ih hn hl (fun e he => (hother e.1 (hne e he)).symm ▸ hpre e he) h
    by_cases hk : k = k0
    · rw [lookup_eq_none_of_notMem (hk ▸ hnot)] at hrest
      rw [Meets.none_iff.mp hrest, lookup, if_pos hk, hk]
      exact hmeets
    · rw [lookup, if_neg hk, ← hother k hk]
      exact hrest

include hn hl hpre in
lemma foldlM_require_isOk (h : ∀ k, ∃ r, first.post.MeetsAt k (pre.get? k) (lookup k l) r) :
    ∃ pre', l.foldlM (first.require true) pre = .ok pre' := by
  induction l generalizing pre with
  | nil => exact ⟨pre, rfl⟩
  | cons e rest ih =>
    obtain ⟨k0, q⟩ := e
    obtain ⟨hnot, hn⟩ := List.nodup_cons.mp hn
    obtain ⟨hq, hl⟩ := List.forall_mem_cons.mp hl
    obtain ⟨hp, hpre⟩ := List.forall_mem_cons.mp hpre
    obtain ⟨r, hr⟩ := h k0
    rw [lookup, if_pos rfl] at hr
    obtain ⟨pre1, hfirst⟩ := require_isOk hr
    obtain ⟨_, hother⟩ := require_eq_ok hq hp hfirst
    have hne : ∀ e ∈ rest, e.1 ≠ k0 := fun e he heq => hnot (List.mem_map.mpr ⟨e, he, heq⟩)
    have hrest : ∀ k, ∃ r, first.post.MeetsAt k (pre1.get? k) (lookup k rest) r := by
      intro k
      by_cases hk : k = k0
      · rw [lookup_eq_none_of_notMem (hk ▸ hnot)]
        exact ⟨_, Meets.none_iff.mpr rfl⟩
      · obtain ⟨r, hr⟩ := h k
        rw [lookup, if_neg hk, ← hother k hk] at hr
        exact ⟨r, hr⟩
    obtain ⟨pre', hpre'⟩ := ih hn hl (fun e he => (hother e.1 (hne e he)).symm ▸ hpre e he) hrest
    exact ⟨pre', except_bind_ok hfirst hpre'⟩

lemma Within.kind_entries (h : c.Within S) : ∀ e ∈ c.pre.entries, e.2.kind = e.1 := fun e he =>
  (h.pre e.1 e.2 (get?_iff_mem.mpr he)).1

lemma Within.of_mem_pre (h : c.Within S) : ∀ p ∈ c.pre.values, S p := by
  intro p hp
  obtain ⟨e, he, rfl⟩ := List.mem_map.mp hp
  exact (h.pre e.1 e.2 (get?_iff_mem.mpr he)).2

lemma andThen_eq_ok_iff (ha : a.Within S) (hb : b.Within S) : a.andThen b true = .ok c ↔
    c.post = a.post.andThen b.post ∧ ∀ k, a.post.MeetsAt k (a.pre.get? k) (b.pre.get? k) (c.pre.get? k) := by
  have hn := nodup_keys b.pre
  have hpre : ∀ e ∈ b.pre.entries, At S e.1 (a.pre.get? e.1) := fun e _ => ha.pre e.1
  constructor
  · intro h
    obtain ⟨pre, hfold, h⟩ := bind_ok_iff.mp h
    cases h
    exact ⟨rfl, foldlM_require_eq_ok hn hb.kind_entries hpre hfold⟩
  · rintro ⟨hpost, hmeets⟩
    obtain ⟨pre, hfold⟩ := foldlM_require_isOk hn hb.kind_entries hpre fun k => ⟨_, hmeets k⟩
    have heq : pre = c.pre := ext_get? fun k =>
      (foldlM_require_eq_ok hn hb.kind_entries hpre hfold k).unique (hmeets k)
    refine except_bind_ok hfold ?_
    rw [heq, ← hpost]
    rfl

lemma andThen_isOk (ha : a.Within S) (hb : b.Within S)
    (h : ∀ k, ∃ r, a.post.MeetsAt k (a.pre.get? k) (b.pre.get? k) r) : ∃ c, a.andThen b true = .ok c := by
  obtain ⟨pre, hfold⟩ := foldlM_require_isOk (nodup_keys b.pre) hb.kind_entries (fun e _ => ha.pre e.1) h
  exact ⟨_, except_bind_ok hfold rfl⟩

lemma Within.andThen (hS : MeetClosed S) (ha : a.Within S) (hb : b.Within S) (h : a.andThen b true = .ok c) : c.Within S := by
  obtain ⟨hpost, hmeets⟩ := (andThen_eq_ok_iff ha hb).mp h
  refine ⟨fun k => (hmeets k).at_result hS (ha.pre k) (hb.pre k), fun k x hx => ?_⟩
  rw [hpost, Postconditions.specific_andThen] at hx
  rcases Option.or_eq_some_iff.mp hx with hx | ⟨_, hx⟩
  · exact hb.specific k x hx
  · exact ha.specific k x (Option.ite_none_right_eq_some.mp hx).2

variable (ha : a.Within Predicate.Standard) (hb : b.Within Predicate.Standard) (hc : c.Within Predicate.Standard)

include ha hb hc in
lemma meetsAt_assoc (k : PredicateKind) (y : Option Predicate) : (∃ x, a.post.MeetsAt k (a.pre.get? k) (b.pre.get? k) x ∧
      (a.post.andThen b.post).MeetsAt k x (c.pre.get? k) y) ↔
      ∃ z, b.post.MeetsAt k (b.pre.get? k) (c.pre.get? k) z ∧ a.post.MeetsAt k (a.pre.get? k) z y := by
  unfold Postconditions.MeetsAt
  rw [Postconditions.specific_andThen, Postconditions.guarantee_andThen]
  exact Meets.assoc (ha.specific k) (ha.pre k) (hb.pre k) (hc.pre k)

include ha hb hc in
lemma andThen_assoc_iff : (∃ ab, a.andThen b true = .ok ab ∧ ab.andThen c true = .ok d) ↔
      ∃ bc, b.andThen c true = .ok bc ∧ a.andThen bc true = .ok d := by
  constructor
  · rintro ⟨ab, hab, hd⟩
    obtain ⟨hpost, hmeets⟩ := (andThen_eq_ok_iff ha hb).mp hab
    obtain ⟨hpost', hmeets'⟩ := (andThen_eq_ok_iff (ha.andThen meetClosed_standard hb hab) hc).mp hd
    have hboth := fun k => (meetsAt_assoc ha hb hc k _).mp ⟨_, hmeets k, hpost ▸ hmeets' k⟩
    obtain ⟨bc, hbc⟩ := andThen_isOk hb hc fun k => (hboth k).imp fun _ hz => hz.1
    obtain ⟨hpost'', hmeets''⟩ := (andThen_eq_ok_iff hb hc).mp hbc
    refine ⟨bc, hbc, (andThen_eq_ok_iff ha (hb.andThen meetClosed_standard hc hbc)).mpr ⟨?_, fun k => ?_⟩⟩
    · rw [hpost', hpost, hpost'', Postconditions.andThen_assoc]
    · obtain ⟨z, hz, hd⟩ := hboth k
      exact (hmeets'' k).unique hz ▸ hd
  · rintro ⟨bc, hbc, hd⟩
    obtain ⟨hpost, hmeets⟩ := (andThen_eq_ok_iff hb hc).mp hbc
    obtain ⟨hpost', hmeets'⟩ := (andThen_eq_ok_iff ha (hb.andThen meetClosed_standard hc hbc)).mp hd
    have hboth := fun k => (meetsAt_assoc ha hb hc k _).mpr ⟨_, hmeets k, hmeets' k⟩
    obtain ⟨ab, hab⟩ := andThen_isOk ha hb fun k => (hboth k).imp fun _ hx => hx.1
    obtain ⟨hpost'', hmeets''⟩ := (andThen_eq_ok_iff ha hb).mp hab
    refine ⟨ab, hab, (andThen_eq_ok_iff (ha.andThen meetClosed_standard hb hab) hc).mpr ⟨?_, fun k => ?_⟩⟩
    · rw [hpost', hpost, hpost'', Postconditions.andThen_assoc]
    · obtain ⟨x, hx, hd⟩ := hboth k
      rw [hpost'', (hmeets'' k).unique hx]
      exact hd

/-- The contract that asks for nothing and leaves everything as it was. -/
def unit : Contract := { post := .preserveAll }

lemma within_unit : unit.Within S := ⟨fun _ _ hx => (by cases hx), fun _ _ hx => (by cases hx)⟩

lemma unit_andThen (hc : c.Within S) : unit.andThen c true = .ok c := by
  refine (andThen_eq_ok_iff within_unit hc).mpr ⟨(Postconditions.preserveAll_andThen _).symm, fun k => ?_⟩
  cases c.pre.get? k with
  | none => exact Meets.none_iff.mpr rfl
  | some q => exact Meets.new_iff.mpr rfl

lemma andThen_unit (hc : c.Within S) : c.andThen unit true = .ok c :=
  (andThen_eq_ok_iff hc within_unit).mpr ⟨(Postconditions.andThen_preserveAll _).symm, fun _ => Meets.none_iff.mpr rfl⟩

/-! ## Chains -/

variable {x y z : Contract} {ys zs : List Contract}

lemma chain_cons : chain true x (y :: ys) = .ok d ↔ ∃ xy, x.andThen y true = .ok xy ∧ chain true xy ys = .ok d :=
  bind_ok_iff

lemma chain_append : chain true x (ys ++ zs) = .ok d ↔ ∃ u, chain true x ys = .ok u ∧ chain true u zs = .ok d := by
  unfold chain
  rw [List.foldlM_append]
  exact bind_ok_iff

lemma Within.chain (hS : MeetClosed S) (hx : x.Within S) (hys : ∀ y ∈ ys, y.Within S)
    (h : chain true x ys = .ok d) : d.Within S := by
  induction ys generalizing x with
  | nil =>
    cases h
    exact hx
  | cons y ys ih =>
    obtain ⟨hy, hys⟩ := List.forall_mem_cons.mp hys
    obtain ⟨_, hxy, h⟩ := chain_cons.mp h
    exact ih (hx.andThen hS hy hxy) hys h

lemma chain_cons_iff (hx : x.Within Predicate.Standard) (hy : y.Within Predicate.Standard)
    (hys : ∀ y ∈ ys, y.Within Predicate.Standard) :
    chain true x (y :: ys) = .ok d ↔ ∃ u, chain true y ys = .ok u ∧ x.andThen u true = .ok d := by
  induction ys generalizing x y d with
  | nil =>
    rw [chain_cons]
    exact ⟨fun ⟨xy, hxy, h⟩ => ⟨y, rfl, h ▸ hxy⟩, fun ⟨u, hu, h⟩ => ⟨d, by cases hu; exact h, rfl⟩⟩
  | cons z ys ih =>
    obtain ⟨hz, hys⟩ := List.forall_mem_cons.mp hys
    -- both sides are closed from `z` on; what is left is `x`, `y` and the rest
    have hrest : ∀ {u}, chain true z ys = .ok u → u.Within Predicate.Standard := hz.chain meetClosed_standard hys
    constructor
    · intro h
      obtain ⟨xy, hxy, h⟩ := chain_cons.mp h
      obtain ⟨u, hu, h⟩ := (ih (hx.andThen meetClosed_standard hy hxy) hz hys).mp h
      obtain ⟨yu, hyu, h⟩ := (andThen_assoc_iff hx hy (hrest hu)).mp ⟨xy, hxy, h⟩
      exact ⟨yu, (ih hy hz hys).mpr ⟨u, hu, hyu⟩, h⟩
    · rintro ⟨yu, hyu, h⟩
      obtain ⟨u, hu, hyu⟩ := (ih hy hz hys).mp hyu
      obtain ⟨xy, hxy, h⟩ := (andThen_assoc_iff hx hy (hrest hu)).mpr ⟨yu, hyu, h⟩
      exact chain_cons.mpr ⟨xy, hxy, (ih (hx.andThen meetClosed_standard hy hxy) hz hys).mpr ⟨u, hu, h⟩⟩

lemma within_of_mapOf {pre specific : List Predicate} {generic : GuaranteeMap} {fallback : Guarantee}
    (hpre : ∀ p ∈ pre, S p) (hspecific : ∀ p ∈ specific, S p) :
    Within S ⟨Predicate.mapOf pre, Predicate.mapOf specific, generic, fallback⟩ :=
  ⟨at_mapOf hpre, at_mapOf hspecific⟩

end Contract

/-! # `Nest` — strict sequences within strict sequences -/

open List

/-! ## Nested sequences -/

/-- **Passes in brackets.** -/
inductive Nest (σ : Type) where
  | pass (p : Pass σ)
  | group (first : Nest σ) (rest : List (Nest σ))

namespace Nest

variable {σ : Type} {d : Contract} {rest : List (Nest σ)}

mutual

/-- The passes of a nest, from left to right. -/
def passes : Nest σ → List (Pass σ)
  | pass p => [p]
  | group first rest => first.passes ++ passesAll rest

/-- The passes of nests, from left to right. -/
def passesAll : List (Nest σ) → List (Pass σ)
  | [] => []
  | t :: rest => t.passes ++ passesAll rest

end

mutual

/-- The pass that a nest describes: every bracket is a strict sequence. -/
def build : Nest σ → Except CompileError (Pass σ)
  | pass p => .ok p
  | group first rest => do Pass.ofList ((← first.build) :: (← buildAll rest)) true

/-- The passes that nests describe. -/
def buildAll : List (Nest σ) → Except CompileError (List (Pass σ))
  | [] => .ok []
  | t :: rest => return (← t.build) :: (← buildAll rest)

end

lemma exists_passes_eq_cons (t : Nest σ) : ∃ p ps, t.passes = p :: ps := by
  match t with
  | pass p => exact ⟨p, [], rfl⟩
  | group first rest =>
    obtain ⟨p, ps, h⟩ := exists_passes_eq_cons first
    exact ⟨p, ps ++ passesAll rest, by rw [passes, h, cons_append]⟩

lemma ofList_cons_iff {p : Pass σ} {ps : List (Pass σ)} : (∃ q, Pass.ofList (p :: ps) true = .ok q ∧ q.contract = d) ↔
      Contract.chain true p.contract (ps.map Pass.contract) = .ok d := by
  constructor
  · rintro ⟨q, h, rfl⟩
    obtain ⟨c, hc, h⟩ := bind_ok_iff.mp h
    cases h
    exact hc
  · intro h
    exact ⟨.sequence (p :: ps) true d, except_bind_ok h rfl, rfl⟩

lemma build_group_iff {first : Nest σ} :
    (∃ q, (group first rest).build = .ok q ∧ q.contract = d) ↔ ∃ q0, first.build = .ok q0 ∧
      ∃ qs, buildAll rest = .ok qs ∧ Contract.chain true q0.contract (qs.map Pass.contract) = .ok d := by
  constructor
  · rintro ⟨q, h, hq⟩
    obtain ⟨q0, hfirst, h⟩ := bind_ok_iff.mp h
    obtain ⟨qs, hrest, h⟩ := bind_ok_iff.mp h
    exact ⟨q0, hfirst, qs, hrest, ofList_cons_iff.mp ⟨q, h, hq⟩⟩
  · rintro ⟨q0, hfirst, qs, hrest, hchain⟩
    obtain ⟨q, h, hq⟩ := ofList_cons_iff.mpr hchain
    exact ⟨q, except_bind_ok hfirst (except_bind_ok hrest h), hq⟩

lemma buildAll_cons_iff {t : Nest σ} {r : List (Pass σ)} :
    buildAll (t :: rest) = .ok r ↔ ∃ q, t.build = .ok q ∧ ∃ qs, buildAll rest = .ok qs ∧ q :: qs = r := by
  constructor
  · intro h
    obtain ⟨q, hq, h⟩ := bind_ok_iff.mp h
    obtain ⟨qs, hqs, h⟩ := bind_ok_iff.mp h
    cases h
    exact ⟨q, hq, qs, hqs, rfl⟩
  · rintro ⟨q, hq, qs, hqs, rfl⟩
    exact except_bind_ok hq (except_bind_ok hqs rfl)

mutual

lemma build_iff (t : Nest σ) (hw : ∀ p ∈ t.passes, p.contract.Within Predicate.Standard) (d : Contract) :
    (∃ q, t.build = .ok q ∧ q.contract = d) ↔ ∃ q, Pass.ofList t.passes true = .ok q ∧ q.contract = d := by
  match t with
  | pass p =>
    rw [passes, build, ofList_cons_iff]
    exact ⟨fun ⟨q, hq, h⟩ => (by cases hq; cases h; rfl), fun h => ⟨p, rfl, Except.ok.inj h⟩⟩
  | group first rest =>
    rw [passes] at hw ⊢
    obtain ⟨hfirst, hrest⟩ := forall_mem_append.mp hw
    obtain ⟨p, ps, hp⟩ := first.exists_passes_eq_cons
    rw [hp, cons_append, ofList_cons_iff, map_append, Contract.chain_append, build_group_iff]
    have hiff := fun u => (build_iff first hfirst u).trans (hp ▸ ofList_cons_iff)
    obtain ⟨hpw, hpsw⟩ := forall_mem_cons.mp (hp ▸ hfirst)
    have hwithin : ∀ {u}, Contract.chain true p.contract (ps.map Pass.contract) = .ok u →
        u.Within Predicate.Standard := hpw.chain meetClosed_standard (forall_mem_map.mpr hpsw)
    constructor
    · rintro ⟨q0, hq0, h⟩
      have hu := (hiff q0.contract).mp ⟨q0, hq0, rfl⟩
      exact ⟨q0.contract, hu, (buildAll_iff rest hrest d (hwithin hu)).mp h⟩
    · rintro ⟨u, hu, h⟩
      obtain ⟨q0, hq0, rfl⟩ := (hiff u).mpr hu
      exact ⟨q0, hq0, (buildAll_iff rest hrest d (hwithin hu)).mpr h⟩

lemma buildAll_iff (l : List (Nest σ)) (hw : ∀ p ∈ passesAll l, p.contract.Within Predicate.Standard) (d : Contract)
    {u : Contract} (hu : u.Within Predicate.Standard) :
    (∃ qs, buildAll l = .ok qs ∧ Contract.chain true u (qs.map Pass.contract) = .ok d) ↔
      Contract.chain true u ((passesAll l).map Pass.contract) = .ok d := by
  match l with
  | [] =>
    rw [passesAll, buildAll]
    exact ⟨fun ⟨qs, hqs, h⟩ => (by cases hqs; exact h), fun h => ⟨[], rfl, h⟩⟩
  | t :: rest =>
    rw [passesAll] at hw ⊢
    obtain ⟨ht, hrest⟩ := forall_mem_append.mp hw
    obtain ⟨p, ps, hp⟩ := t.exists_passes_eq_cons
    obtain ⟨hpw, hpsw⟩ := forall_mem_cons.mp (hp ▸ ht)
    have hpsw := forall_mem_map.mpr hpsw
    have hiff := fun v => (build_iff t ht v).trans (hp ▸ ofList_cons_iff)
    rw [map_append, Contract.chain_append, hp, map_cons]
    constructor
    · rintro ⟨r, hr, h⟩
      obtain ⟨q, hq, qs, hqs, rfl⟩ := buildAll_cons_iff.mp hr
      obtain ⟨uq, huq, h⟩ := Contract.chain_cons.mp h
      have hv := (hiff q.contract).mp ⟨q, hq, rfl⟩
      have hwithin := hu.andThen meetClosed_standard (hpw.chain meetClosed_standard hpsw hv) huq
      exact ⟨uq, (Contract.chain_cons_iff hu hpw hpsw).mpr ⟨_, hv, huq⟩, (buildAll_iff rest hrest d hwithin).mp ⟨qs, hqs, h⟩⟩
    · rintro ⟨uq, huq, h⟩
      obtain ⟨v, hv, huq⟩ := (Contract.chain_cons_iff hu hpw hpsw).mp huq
      obtain ⟨q, hq, rfl⟩ := (hiff v).mpr hv
      have hwithin := hu.andThen meetClosed_standard (hpw.chain meetClosed_standard hpsw hv) huq
      obtain ⟨qs, hqs, h⟩ := (buildAll_iff rest hrest d hwithin).mpr h
      exact ⟨q :: qs, buildAll_cons_iff.mpr ⟨q, hq, qs, hqs, rfl⟩, Contract.chain_cons.mpr ⟨uq, huq, h⟩⟩

end

end Nest

/-! ## The monoid of contracts -/

/-- **Strict composition is a monoid**: the two ways to bracket three contracts both fail or give the same contract, the
    contract that asks for nothing and leaves everything as it was changes nothing on either side, and nested strict
    sequences of the same passes have the same contract or are all refused. -/
theorem Contract.andThen_monoid {σ : Type} {a b c : Contract} (ha : a.Within Predicate.Standard)
    (hb : b.Within Predicate.Standard) (hc : c.Within Predicate.Standard) :
    (a.andThen b true >>= fun ab => ab.andThen c true).toOption = (b.andThen c true >>= fun bc => a.andThen bc true).toOption ∧
      unit.andThen a true = .ok a ∧ a.andThen unit true = .ok a ∧
      ∀ t t' : Nest σ, t.passes = t'.passes → (∀ p ∈ t.passes, p.contract.Within Predicate.Standard) →
        (t.build.map Pass.contract).toOption = (t'.build.map Pass.contract).toOption := by
  refine ⟨except_toOption_congr fun d => ?_, unit_andThen ha, andThen_unit ha, fun t t' heq hw => ?_⟩
  · rw [bind_ok_iff, bind_ok_iff]
    exact andThen_assoc_iff ha hb hc
  · refine except_toOption_congr fun d => ?_
    rw [except_map_eq_ok, except_map_eq_ok, t.build_iff hw, t'.build_iff (heq ▸ hw), heq]

/-- Three contracts in which the first one's promise is used, two gate sets are met and one requirement reaches back to
    the start. -/
theorem Contract.andThen_monoid_gateSets :
    let a : Contract := ⟨Predicate.mapOf [.maxQubits 5], Predicate.mapOf [.property .noBarriers], .empty, .preserve⟩
    let b : Contract := ⟨Predicate.mapOf [.gateSet (.ofList ["cx", "h"]), .property .noBarriers], Predicate.mapOf [],
      .empty, .preserve⟩
    let c : Contract := ⟨Predicate.mapOf [.gateSet (.ofList ["cx", "x"]), .maxQubits 3], Predicate.mapOf [], .empty, .clear⟩
    let leaf (c : Contract) : Nest Unit := .pass (.standard "" c (fun d => .ok false d) .empty)
    (a.Within Predicate.Standard ∧ b.Within Predicate.Standard ∧ c.Within Predicate.Standard) ∧
      (∃ d, (a.andThen b true >>= fun ab => ab.andThen c true).toOption = some d ∧
        (b.andThen c true >>= fun bc => a.andThen bc true).toOption = some d) ∧
      unit.andThen a true = .ok a ∧ a.andThen unit true = .ok a ∧
      ∃ d, ((Nest.group (leaf a) [.group (leaf b) [leaf c]]).build.map Pass.contract).toOption = some d ∧
        ((Nest.group (.group (leaf a) [leaf b]) [leaf c]).build.map Pass.contract).toOption = some d := by
  intro a b c leaf
  have ha : a.Within Predicate.Standard := within_of_mapOf (by simp [Predicate.Standard]) (by simp [Predicate.Standard])
  have hb : b.Within Predicate.Standard := within_of_mapOf (by simp [Predicate.Standard]) (List.forall_mem_nil _)
  have hc : c.Within Predicate.Standard := within_of_mapOf (by simp [Predicate.Standard]) (List.forall_mem_nil _)
  obtain ⟨hassoc, hleft, hright, hnest⟩ := andThen_monoid (σ := Unit) ha hb hc
  obtain ⟨d, hd, _⟩ : ∃ d, (a.andThen b true >>= fun ab => ab.andThen c true) = .ok d ∧ True := by decide +kernel
  obtain ⟨e, he, _⟩ : ∃ e, (Nest.group (leaf a) [.group (leaf b) [leaf c]]).build.map Pass.contract = .ok e ∧ True := by
    decide +kernel
  refine ⟨⟨ha, hb, hc⟩, ⟨d, ?_, ?_⟩, hleft, hright, e, ?_, ?_⟩
  · rw [hd]
    rfl
  · rw [← hassoc, hd]
    rfl
  · rw [he]
    rfl
  · have heq := hnest (.group (leaf a) [.group (leaf b) [leaf c]]) (.group (.group (leaf a) [leaf b]) [leaf c]) rfl
      (by simpa [Nest.passes, Nest.passesAll, leaf, Pass.contract] using ⟨ha, hb, hc⟩)
    rw [← heq, he]
    rfl

end Wireloom
