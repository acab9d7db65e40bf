import Wireloom.Pass.Apply
import Wireloom.Pass.Library
import Wireloom.Proofs.Implication
import Wireloom.Proofs.Rename

/-!
# `Pass.apply` — contracts are kept

A pass keeps its contract if a run that starts where the requirements hold leaves what the contract promises
(`Contract.Leads`) and fails only by itself, not by a check (`Run.Honours`).
-/

namespace Wireloom

open List SortedMap

/-- **Every predicate of the map holds of the circuit.** -/
def PredicateMap.Holds (ps : PredicateMap) (x : Circuit) : Prop := ∀ p ∈ ps.values, p.verify x = true

instance {ps : PredicateMap} {x : Circuit} : Decidable (ps.Holds x) :=
  inferInstanceAs (Decidable (∀ p ∈ ps.values, p.verify x = true))

lemma PredicateMap.holds_iff {ps : PredicateMap} {x : Circuit} : ps.Holds x ↔ ∀ k p, ps.get? k = some p → p.verify x := by
  unfold Holds values
  rw [forall_mem_map, Prod.forall]
  exact forall₂_congr fun k p => by rw [get?_iff_mem]

/-! ## What contracts say about circuits -/

namespace Contract

variable {S K : Predicate → Prop} {a b c : Contract} {x y z : Circuit}

/-- **What a contract promises**: from `x` to `y`, with all that is preserved of the predicates in `K`. -/
structure Leads (K : Predicate → Prop) (a : Contract) (x y : Circuit) : Prop where
  ensures : a.post.specific.Holds y
  keeps : ∀ p, K p → a.post.guarantee p.kind = .preserve → p.verify x = true → p.verify y = true

variable (hS : Predicate.Reliable S) (ha : a.Within S) (hb : b.Within S) (h : a.andThen b true = .ok c) (hpre : c.pre.Holds x)

include hS ha hb h hpre in
lemma holds_first : a.pre.Holds x := by
  obtain ⟨_, hmeets⟩ := (andThen_eq_ok_iff ha hb).mp h
  rw [PredicateMap.holds_iff] at hpre ⊢
  intro k p hp
  have hk := hmeets k
  rw [Postconditions.MeetsAt, hp] at hk
  cases hq : b.pre.get? k with
  | none =>
    rw [hq] at hk
    exact hpre k p hk
  | some q =>
    rw [hq] at hk
    cases hs : a.post.specific.get? k with
    | some s =>
      rw [hs] at hk
      exact hpre k p hk.2
    | none =>
      rw [hs] at hk
      obtain ⟨_, m, hm, heq⟩ := hk
      obtain ⟨hpk, hpS⟩ := ha.pre k p hp
      obtain ⟨hqk, hqS⟩ := hb.pre k q hq
      exact (hS.meet hpS hqS (hpk.trans hqk.symm) hm x (hpre k m heq)).1

include hS ha hb h hpre in
lemma verify_of_carried {k : PredicateKind} {q : Predicate} (hq : b.pre.get? k = some q)
    (hs : a.post.specific.get? k = none) : q.verify x := by
  have hk := ((andThen_eq_ok_iff ha hb).mp h).2 k
  rw [PredicateMap.holds_iff] at hpre
  rw [Postconditions.MeetsAt, hq, hs] at hk
  obtain ⟨_, hk⟩ := hk
  cases hp : a.pre.get? k with
  | none =>
    rw [hp] at hk
    exact hpre k q hk
  | some p =>
    rw [hp] at hk
    obtain ⟨m, hm, heq⟩ := hk
    obtain ⟨hpk, hpS⟩ := ha.pre k p hp
    obtain ⟨hqk, hqS⟩ := hb.pre k q hq
    exact (hS.meet hpS hqS (hpk.trans hqk.symm) hm x (hpre k m heq)).2

include hS in
/-- **The second pass finds what it requires**: it was ensured, or it held from the start and was preserved. -/
theorem holds_second (hK : ∀ p ∈ b.pre.values, K p) (ha : a.Within S) (hb : b.Within S)
    (h : a.andThen b true = .ok c) (hlead : a.Leads K x y)
    (hstart : ∀ k q, b.pre.get? k = some q → a.post.specific.get? k = none → q.verify x) :
    b.pre.Holds y := by
  rw [PredicateMap.holds_iff]
  intro k q hq
  have hk := ((andThen_eq_ok_iff ha hb).mp h).2 k
  obtain ⟨hqk, hqS⟩ := hb.pre k q hq
  rw [Postconditions.MeetsAt, hq] at hk
  cases hs : a.post.specific.get? k with
  | some s =>
    rw [hs] at hk
    obtain ⟨hsk, hsS⟩ := ha.specific k s hs
    exact hS.implies hsS hqS (hsk.trans hqk.symm) hk.1 y (PredicateMap.holds_iff.mp hlead.ensures k s hs)
  | none =>
    rw [hs] at hk
    have hmem : q ∈ b.pre.values := mem_map.mpr ⟨(k, q), get?_iff_mem.mp hq, rfl⟩
    exact hlead.keeps q (hK q hmem) (hqk.symm ▸ hk.1) (hstart k q hq hs)

lemma Leads.andThen (ha : a.Within S) (hpost : c.post = a.post.andThen b.post) (hlead : a.Leads S x y)
    (hlead' : b.Leads S y z) : c.Leads S x z where
  ensures := by
    rw [PredicateMap.holds_iff, hpost]
    intro k p hp
    rw [Postconditions.specific_andThen] at hp
    rcases Option.or_eq_some_iff.mp hp with hp | ⟨_, hp⟩
    · exact PredicateMap.holds_iff.mp hlead'.ensures k p hp
    · obtain ⟨hkeep, hp⟩ := Option.ite_none_right_eq_some.mp hp
      obtain ⟨hk, hpS⟩ := ha.specific k p hp
      exact hlead'.keeps p hpS (hk.symm ▸ hkeep) (PredicateMap.holds_iff.mp hlead.ensures k p hp)
  keeps p hp hkeep hverify := by
    rw [hpost, Postconditions.guarantee_andThen, Guarantee.and_eq_preserve] at hkeep
    exact hlead'.keeps p hp hkeep.1 (hlead.keeps p hp hkeep.2 hverify)

/-! ### A contract that follows itself -/

include hS in
lemma holds_again (hK : ∀ p ∈ a.pre.values, K p) (ha : a.Within S)
    (h : a.andThen a true = .ok c) (hpre : a.pre.Holds x) (hlead : a.Leads K x y) : a.pre.Holds y :=
  holds_second hS hK ha ha h hlead fun k q hq _ => PredicateMap.holds_iff.mp hpre k q hq

lemma Leads.trans (hlead : a.Leads K x y) (hlead' : a.Leads K y z) : a.Leads K x z :=
  ⟨hlead'.ensures, fun p hp hkeep hverify => hlead'.keeps p hp hkeep (hlead.keeps p hp hkeep hverify)⟩

lemma Leads.andThen_self (hpost : c.post = a.post.andThen a.post) (hlead : a.Leads K x y) : c.Leads K x y where
  ensures := by
    rw [hpost, Postconditions.specific_andThen_self]
    exact hlead.ensures
  keeps p hp hkeep hverify := by
    rw [hpost, Postconditions.guarantee_andThen, Guarantee.and_eq_preserve] at hkeep
    exact hlead.keeps p hp hkeep.1 hverify

end Contract

/-! ## Checks -/

namespace Workpiece

variable {w w' w'' : Workpiece} {l : List (PredicateKind × Predicate)} {pre : PredicateMap} {post : Postconditions}
  {mode : SafetyMode}

/-- **All but the cache is the same.** -/
structure SameButCache (w w' : Workpiece) : Prop where
  circuit : w.circuit = w'.circuit
  targets : w.targets = w'.targets
  maps : w.maps = w'.maps

lemma SameButCache.refl (w : Workpiece) : SameButCache w w := ⟨rfl, rfl, rfl⟩

lemma SameButCache.symm (h : SameButCache w w') : SameButCache w' w :=
  ⟨h.circuit.symm, h.targets.symm, h.maps.symm⟩

lemma SameButCache.trans (h : SameButCache w w') (h' : SameButCache w' w'') : SameButCache w w'' :=
  ⟨h.circuit.trans h'.circuit, h.targets.trans h'.targets, h.maps.trans h'.maps⟩

lemma SameButCache.satisfies_eq (h : SameButCache w w') (p : Predicate) : w.satisfies p = w'.satisfies p :=
  congrArg (p.verify ·) h.circuit

lemma noted_same (w : Workpiece) (k : PredicateKind) (p : Predicate) : SameButCache (w.noted k p) w := by
  unfold noted
  split <;> exact ⟨rfl, rfl, rfl⟩

lemma checkEach_same (w : Workpiece) (l : List (PredicateKind × Predicate)) : SameButCache (w.checkEach l).2 w := by
  induction l generalizing w with
  | nil => exact .refl w
  | cons e rest ih =>
    rw [checkEach]
    split
    · exact ih w
    · split
      · exact (ih _).trans (noted_same w _ _)
      · exact .refl w

lemma snd_meetRequirements (w : Workpiece) (pre : PredicateMap) (mode : SafetyMode) :
    (w.meetRequirements pre mode).2 = (w.checkEach pre.entries).2 := by
  unfold meetRequirements
  split
  · next h => rw [h]
  · next h =>
    rw [h]
    split <;> rfl

lemma meetRequirements_same (w : Workpiece) (pre : PredicateMap) (mode : SafetyMode) :
    SameButCache (w.meetRequirements pre mode).2 w := by
  rw [snd_meetRequirements]
  exact checkEach_same w _

lemma recordEach_same (mode : SafetyMode) (w : Workpiece) (l : List (PredicateKind × Predicate)) :
    SameButCache (recordEach mode w l).2 w := by
  induction l generalizing w with
  | nil => exact .refl w
  | cons e rest ih =>
    rw [recordEach]
    split
    · exact .refl w
    · exact (ih _).trans ⟨rfl, rfl, rfl⟩

lemma recordPostconditions_same (w : Workpiece) (post : Postconditions) (mode : SafetyMode) :
    SameButCache (w.recordPostconditions post mode).2 w :=
  (recordEach_same mode (w.clearUnkept post) _).trans ⟨rfl, rfl, rfl⟩

lemma checkEach_of_satisfies (h : ∀ e ∈ l, w.satisfies e.2) : (w.checkEach l).1 = none := by
  induction l generalizing w with
  | nil => rfl
  | cons e rest ih =>
    obtain ⟨hp, hrest⟩ := forall_mem_cons.mp h
    rw [checkEach, if_pos hp]
    split
    · exact ih hrest
    · exact ih fun e he => (noted_same w _ _).satisfies_eq e.2 ▸ hrest e he

lemma fst_meetRequirements (mode : SafetyMode) (hpass : (w.checkEach pre.entries).1 = none → pre.Holds w.circuit) :
    (w.meetRequirements pre mode).1 = (w.checkEach pre.entries).1 := by
  have hsame := checkEach_same w pre.entries
  unfold meetRequirements
  cases hcheck : w.checkEach pre.entries with
  | mk found w' =>
    rw [hcheck] at hpass hsame
    cases found with
    | some p => rfl
    | none =>
      dsimp only
      split
      · refine find?_eq_none.mpr fun p hp => ?_
        rw [hsame.satisfies_eq, satisfies, hpass rfl p hp]
        decide
      · rfl

lemma meetRequirements_of_holds (mode : SafetyMode) (h : pre.Holds w.circuit) : (w.meetRequirements pre mode).1 = none :=
  (fst_meetRequirements mode fun _ => h).trans (checkEach_of_satisfies fun e he => h e.2 (mem_map_of_mem he))

/-- What is recorded, if an audit finds nothing to complain about. -/
lemma recordEach_eq (h : mode = .audit → ∀ e ∈ l, w.satisfies e.2) : recordEach mode w l =
    (none, { w with cache := l.foldl (fun cache e => cache.insert e.1 (e.2, true)) w.cache }) := by
  induction l generalizing w with
  | nil => rfl
  | cons e rest ih =>
    have hfine : ¬ (mode = .audit && !w.satisfies e.2) := by
      by_cases hmode : mode = .audit
      · simp [h hmode e mem_cons_self]
      · simp [hmode]
    rw [recordEach, if_neg hfine]
    exact ih fun hmode e he => h hmode e (mem_cons_of_mem _ he)

lemma recordPostconditions_of_holds (mode : SafetyMode) (h : post.specific.Holds w.circuit) :
    w.recordPostconditions post mode = (none, (w.recordPostconditions post .standard).2) := by
  have heq : ∀ mode, w.recordPostconditions post mode = _ := fun mode =>
    recordEach_eq fun _ e he => h e.2 (mem_map_of_mem he)
  exact (heq mode).trans (congrArg (none, ·.2) (heq .standard).symm)

end Workpiece

/-! ## Runs -/

namespace Run

variable {σ α β : Type} {S K : Predicate → Prop} {E E' : CompileError → Prop} {a b c : Contract} {s s' : Session σ}
  {hooks : Hooks σ} {run : Run σ Bool} {t : Transform σ} {p : Pass σ} {x : Bool}

/-- **A run that keeps a contract**: from where the requirements hold, it leads where the contract promises, and if it
    fails then for a cause in `E`. -/
structure Honours (K : Predicate → Prop) (a : Contract) (E : CompileError → Prop) (run : Run σ α) : Prop where
  leads {s : Session σ} {x : α} {s' : Session σ} : a.pre.Holds s.piece.circuit → run s = .ok x s' →
    a.Leads K s.piece.circuit s'.piece.circuit
  fails {s : Session σ} {cause : CompileError} {s' : Session σ} : a.pre.Holds s.piece.circuit →
    run s = .error (.failed cause) s' → E cause

lemma call_run (hook : Option (Hook σ)) (p : Pass σ) (s : Session σ) :
    ∃ ambient, call hook p s = .ok () ⟨s.piece, ambient⟩ := by
  cases hook with
  | none => exact ⟨s.ambient, rfl⟩
  | some hook => exact ⟨hook s.piece p.config s.ambient, rfl⟩

lemma between_eq_ok (h : between hooks p run s = .ok x s') :
    ∃ s1 s2, s1.piece = s.piece ∧ run s1 = .ok x s2 ∧ s'.piece = s2.piece := by
  obtain ⟨ambient, hbefore⟩ := call_run hooks.before p s
  unfold between at h
  rw [bind_ok hbefore] at h
  obtain ⟨_, s2, hrun, h⟩ := bind_eq_ok.mp h
  obtain ⟨_, hafter⟩ := call_run hooks.after p s2
  rw [bind_ok hafter] at h
  cases h
  exact ⟨⟨s.piece, ambient⟩, s2, rfl, hrun, rfl⟩

lemma between_eq_error {e : Halt} (h : between hooks p run s = .error e s')
    : ∃ s1, s1.piece = s.piece ∧ run s1 = .error e s' := by
  obtain ⟨ambient, hbefore⟩ := call_run hooks.before p s
  unfold between at h
  rw [bind_ok hbefore] at h
  rcases bind_eq_error.mp h with hrun | ⟨x, s2, _, h⟩
  · exact ⟨⟨s.piece, ambient⟩, rfl, hrun⟩
  · obtain ⟨_, hafter⟩ := call_run hooks.after p s2
    rw [bind_ok hafter] at h
    cases h

lemma Honours.between (h : Honours K a E run) : Honours K a E (between hooks p run) where
  leads hpre hrun := by
    obtain ⟨s1, _, hstart, hrun, hend⟩ := between_eq_ok hrun
    rw [← hstart] at hpre ⊢
    rw [hend]
    exact h.leads hpre hrun
  fails hpre hrun := by
    obtain ⟨s1, hstart, hrun⟩ := between_eq_error hrun
    exact h.fails (hstart ▸ hpre) hrun

lemma Honours.mono {run : Run σ α} (h : Honours K a E run) (hE : ∀ e, E e → E' e) : Honours K a E' run :=
  ⟨h.leads, fun hpre hrun => hE _ (h.fails hpre hrun)⟩

lemma Honours.map {run : Run σ α} (h : Honours K a E run) (f : α → β) : Honours K a E (do return f (← run)) where
  leads hpre hrun := by
    obtain ⟨x, s', hrun, heq⟩ := bind_eq_ok.mp hrun
    cases heq
    exact h.leads hpre hrun
  fails hpre hrun := by
    rcases bind_eq_error.mp hrun with hrun | ⟨x, s', _, heq⟩
    · exact h.fails hpre hrun
    · cases heq

lemma Honours.bind (hS : Predicate.Reliable S) (ha : a.Within S) (hb : b.Within S) (hc : a.andThen b true = .ok c)
    {run : Run σ α} {next : α → Run σ β} (h : Honours S a E run) (h' : ∀ x, Honours S b E (next x)) :
    Honours S c E (run >>= next) := by
  have hfirst : ∀ {x}, c.pre.Holds x → a.pre.Holds x := Contract.holds_first hS ha hb hc
  have hsecond : ∀ {x y}, c.pre.Holds x → a.Leads S x y → b.pre.Holds y := fun hpre hlead =>
    Contract.holds_second hS hb.of_mem_pre ha hb hc hlead fun k q hq hs => Contract.verify_of_carried hS ha hb hc hpre hq hs
  constructor
  · intro s x s'' hpre hrun
    obtain ⟨x1, s1, hrun, hnext⟩ := bind_eq_ok.mp hrun
    have hlead := h.leads (hfirst hpre) hrun
    exact hlead.andThen ha ((Contract.andThen_eq_ok_iff ha hb).mp hc).1 ((h' x1).leads (hsecond hpre hlead) hnext)
  · intro s cause s'' hpre hrun
    rcases bind_eq_error.mp hrun with hrun | ⟨x1, s1, hrun, hnext⟩
    · exact h.fails (hfirst hpre) hrun
    · exact (h' x1).fails (hsecond hpre (h.leads (hfirst hpre) hrun)) hnext

/-! ### Single transformations -/

lemma check_of_none {step : Workpiece → Option Predicate × Workpiece} {w : Workpiece} (h : step s.piece = (none, w)) :
    check step s = .ok () ⟨w, s.ambient⟩ := by
  unfold check
  rw [h]

lemma transform_eq_ok (h : transform t s = .ok x s') :
    ∃ d, t ⟨s.piece.circuit, s.piece.maps, s.ambient⟩ = .ok x d ∧ s'.piece.circuit = d.circuit := by
  unfold transform at h
  split at h
  · next d hd =>
    cases h
    exact ⟨d, hd, rfl⟩
  · cases h

lemma transform_eq_error {e : CompileError} (h : transform t s = .error (.failed e) s') :
    ∃ d, t ⟨s.piece.circuit, s.piece.maps, s.ambient⟩ = .error e d := by
  unfold transform at h
  split at h
  · cases h
  · next d hd =>
    cases h
    exact ⟨d, hd⟩

lemma standard_of_holds (mode : SafetyMode) (hpre : a.pre.Holds s.piece.circuit) :
    ∃ s1 : Session σ, s1.piece.circuit = s.piece.circuit ∧ standard a mode t s = (do
      let changed ← transform t
      check fun w => w.recordPostconditions a.post mode
      return changed) s1 := by
  unfold standard
  by_cases hmode : mode = .off
  · exact ⟨s, rfl, by simp [hmode]⟩
  · rw [if_pos hmode]
    exact ⟨⟨_, s.ambient⟩, (Workpiece.meetRequirements_same ..).circuit,
      bind_ok (check_of_none (Prod.ext (Workpiece.meetRequirements_of_holds mode hpre) rfl))⟩

lemma honours_standard (mode : SafetyMode)
    (ht : ∀ d x d', a.pre.Holds d.circuit → t d = .ok x d' → a.Leads K d.circuit d'.circuit) :
    Honours K a (fun e => ∃ d d', a.pre.Holds d.circuit ∧ t d = .error e d') (standard a mode t) := by
  -- what the transformation leaves passes the check after it
  have hrecord : ∀ {s s' : Session σ} {x}, a.pre.Holds s.piece.circuit → transform t s = .ok x s' →
      a.Leads K s.piece.circuit s'.piece.circuit ∧ ∃ s'', s''.piece.circuit = s'.piece.circuit ∧
        check (fun w => w.recordPostconditions a.post mode) s' = .ok () s'' := by
    intro s s' x hpre hrun
    obtain ⟨d, hd, hsame⟩ := transform_eq_ok hrun
    have hlead := ht _ x d hpre hd
    rw [← hsame] at hlead
    exact ⟨hlead, ⟨_, s'.ambient⟩, (Workpiece.recordPostconditions_same ..).circuit,
      check_of_none (Workpiece.recordPostconditions_of_holds mode hlead.ensures)⟩
  constructor
  · intro s x s' hpre hrun
    obtain ⟨s1, hsame, heq⟩ := standard_of_holds mode hpre
    rw [heq] at hrun
    obtain ⟨changed, s2, htransform, hrun⟩ := bind_eq_ok.mp hrun
    obtain ⟨hlead, s3, hsame', hcheck⟩ := hrecord (hsame ▸ hpre) htransform
    rw [bind_ok hcheck] at hrun
    cases hrun
    rw [hsame', ← hsame]
    exact hlead
  · intro s cause s' hpre hrun
    obtain ⟨s1, hsame, heq⟩ := standard_of_holds mode hpre
    rw [heq] at hrun
    rcases bind_eq_error.mp hrun with hrun | ⟨changed, s2, htransform, hrun⟩
    · obtain ⟨d, hd⟩ := transform_eq_error hrun
      exact ⟨_, d, hsame ▸ hpre, hd⟩
    · obtain ⟨_, s3, _, hcheck⟩ := hrecord (hsame ▸ hpre) htransform
      rw [bind_ok hcheck] at hrun
      cases hrun

/-! ### Sequences -/

lemma Honours.applyAll (hS : Predicate.Reliable S) {fuel : Nat} {mode : SafetyMode} {ps : List (Pass σ)}
    (hps : ∀ p ∈ ps, p.contract.Within S ∧ Honours S p.contract E (p.apply fuel mode hooks)) (ha : a.Within S)
    (h : Honours S a E run) (hc : Contract.chain true a (ps.map Pass.contract) = .ok c) :
    Honours S c E (do return (← run) || (← Pass.applyAll fuel mode hooks ps)) := by
  induction ps generalizing run a with
  | nil =>
    cases hc
    simpa [Pass.applyAll] using h.map id
  | cons p ps ih =>
    obtain ⟨⟨hpw, hp⟩, hps⟩ := forall_mem_cons.mp hps
    obtain ⟨ap, hap, hc⟩ := Contract.chain_cons.mp hc
    have hfirst := h.bind hS ha hpw hap fun x => hp.map (x || ·)
    have heq : (do return (← run) || (← Pass.applyAll fuel mode hooks (p :: ps)) : Run σ Bool) =
        (do return (← (do return (← run) || (← p.apply fuel mode hooks))) || (← Pass.applyAll fuel mode hooks ps)) := by
      simp only [Pass.applyAll, bind_assoc, pure_bind, Bool.or_assoc]
    rw [heq]
    exact ih hps (ha.andThen hS.closed hpw hap) hfirst hc

/-! ### Repetitions -/

section Rounds

variable (hS : Predicate.Reliable S) (hK : ∀ p ∈ a.pre.values, K p) (ha : a.Within S) (hc : a.andThen a true = .ok c)
include hS ha hc

lemma Honours.selfComposed {run : Run σ α} (h : Honours K a E run) : Honours K c E run where
  leads hpre hrun := (h.leads (Contract.holds_first hS ha ha hc hpre) hrun).andThen_self
    ((Contract.andThen_eq_ok_iff ha ha).mp hc).1
  fails hpre hrun := h.fails (Contract.holds_first hS ha ha hc hpre) hrun

include hK

lemma Honours.whileChanging {body : Run σ Bool} (h : Honours K a E body) (fuel : Nat) :
    Honours K a E (whileChanging body fuel) := by
  induction fuel with
  | zero => exact ⟨fun _ hrun => (by cases hrun), fun _ hrun => (by cases hrun)⟩
  | succ fuel ih =>
    constructor
    · intro s n s' hpre hrun
      obtain ⟨changed, s1, hbody, hrun⟩ := bind_eq_ok.mp hrun
      have hlead := h.leads hpre hbody
      cases changed with
      | false =>
        cases hrun
        exact hlead
      | true =>
        obtain ⟨m, s2, hrun, heq⟩ := bind_eq_ok.mp hrun
        cases heq
        exact hlead.trans (ih.leads (Contract.holds_again hS hK ha hc hpre hlead) hrun)
    · intro s cause s' hpre hrun
      rcases bind_eq_error.mp hrun with hbody | ⟨changed, s1, hbody, hrun⟩
      · exact h.fails hpre hbody
      · have hagain := Contract.holds_again hS hK ha hc hpre (h.leads hpre hbody)
        cases changed with
        | false => cases hrun
        | true =>
          rcases bind_eq_error.mp hrun with hrun | ⟨m, s2, _, heq⟩
          · exact ih.fails hagain hrun
          · cases heq

end Rounds

end Run

/-! ## Transformations of the library -/

namespace Drafting

variable {σ α : Type} {e : Circuit.Edit α} {d d' : Draft σ} {x : α} {c : Circuit}

lemma edit_of_ok (h : e d.circuit = .ok x c) : edit e d = .ok x { d with circuit := c } := by
  unfold edit
  rw [h]

lemma edit_of_error {cause : CircuitError} (h : e d.circuit = .error cause c) :
    edit e d = .error (.circuit cause) { d with circuit := c } := by
  unfold edit
  rw [h]

lemma edit_eq_ok (h : edit e d = .ok x d') : e d.circuit = .ok x d'.circuit := by
  unfold edit at h
  split at h
  · next hrun =>
    cases h
    exact hrun
  · cases h

end Drafting

lemma Transform.boundary_removeFirst {σ : Type} {d d' : Draft σ} {x : Bool} (h : Transform.removeFirst d = .ok x d') :
    d'.circuit.boundary = d.circuit.boundary := by
  obtain ⟨_, _, hget, h⟩ := bind_eq_ok.mp h
  cases hget
  cases hcmds : d.circuit.commands with
  | nil =>
    simp only [hcmds] at h
    cases h
    rfl
  | cons cmd rest =>
    simp only [hcmds] at h
    obtain ⟨_, _, hedit, h⟩ := bind_eq_ok.mp h
    cases h
    exact Circuit.boundary_removeOp (Drafting.edit_eq_ok hedit)

/-! ## Trees of passes -/

namespace Pass

variable {σ : Type} {S : Predicate → Prop} {p : Pass σ}

/-- **Strict sequences and repetitions of transformations that keep their contracts.** -/
inductive Sound (S : Predicate → Prop) : Pass σ → Prop
  | standard {name : String} {a : Contract} {t : Transform σ} {params : SortedMap String Json} : a.Within S →
      (∀ d x d', a.pre.Holds d.circuit → t d = .ok x d' → a.Leads S d.circuit d'.circuit) →
      Sound S (.standard name a t params)
  | sequence {ps : List (Pass σ)} {p : Pass σ} : (∀ q ∈ ps, Sound S q) → ofList ps true = .ok p → Sound S p
  | repeated {body p : Pass σ} : Sound S body → body.repeating = .ok p → Sound S p

/-- **A transformation of the pass fails with this cause**, on a circuit on which its requirements hold. -/
inductive Raises (cause : CompileError) : Pass σ → Prop
  | standard {name : String} {a : Contract} {t : Transform σ} {params : SortedMap String Json} {d d' : Draft σ} :
      a.pre.Holds d.circuit → t d = .error cause d' → Raises cause (.standard name a t params)
  | sequence {ps : List (Pass σ)} {strict : Bool} {c : Contract} {p : Pass σ} : p ∈ ps → Raises cause p →
      Raises cause (.sequence ps strict c)
  | repeated {body : Pass σ} {c : Contract} : Raises cause body → Raises cause (.repeated body c)

lemma Sound.honours (hS : Predicate.Reliable S) (h : p.Sound S) : p.contract.Within S ∧
    ∀ fuel mode hooks, Run.Honours S p.contract (fun e => p.Raises e) (p.apply fuel mode hooks) := by
  induction h with
  | standard hwithin ht =>
    refine ⟨hwithin, fun fuel mode hooks => ?_⟩
    exact ((Run.honours_standard mode ht).mono fun _ ⟨_, _, hpre, he⟩ => .standard hpre he).between
  | @sequence ps p _ hp ih =>
    cases ps with
    | nil => cases hp
    | cons first rest =>
      obtain ⟨c, hc, heq⟩ := bind_ok_iff.mp hp
      cases heq
      obtain ⟨⟨hfirst, hrun⟩, hrest⟩ := forall_mem_cons.mp ih
      have hwithin : c.Within S := hfirst.chain hS.closed (forall_mem_map.mpr fun q hq => (hrest q hq).1) hc
      refine ⟨hwithin, fun fuel mode hooks => ?_⟩
      refine Run.Honours.between (Run.Honours.applyAll hS (fun q hq => ⟨(hrest q hq).1, ?_⟩) hfirst ?_ hc)
      · exact ((hrest q hq).2 fuel mode hooks).mono fun _ => .sequence (mem_cons_of_mem _ hq)
      · exact (hrun fuel mode hooks).mono fun _ => .sequence mem_cons_self
  | @repeated body p _ hp ih =>
    obtain ⟨c, hc, heq⟩ := bind_ok_iff.mp hp
    cases heq
    obtain ⟨hbody, hrun⟩ := ih
    refine ⟨hbody.andThen hS.closed hbody hc, fun fuel mode hooks => ?_⟩
    have hround := (hrun fuel mode hooks).mono fun _ hraises => Raises.repeated (c := c) hraises
    have hrounds := hround.whileChanging hS hbody.of_mem_pre hbody hc fuel
    exact ((hrounds.selfComposed hS hbody hc).map fun n => decide (n > 0)).between

/-- **Strict composition is sound.** In every mode, a sound tree that starts where the requirements of its contract hold
    fails only because one of its transformations does, and never because of a check; if it succeeds, then everything
    that its contract ensures holds, and everything of a kind that it preserves holds as before. -/
theorem apply_sound (hS : Predicate.Reliable S) (h : p.Sound S) (fuel : Nat) (mode : SafetyMode) (hooks : Hooks σ)
    (s : Session σ) (hpre : p.contract.pre.Holds s.piece.circuit) :
    (∀ cause s', p.apply fuel mode hooks s = .error (.failed cause) s' → p.Raises cause) ∧
      ∀ changed s', p.apply fuel mode hooks s = .ok changed s' → p.contract.post.specific.Holds s'.piece.circuit ∧
        ∀ q, S q → p.contract.post.guarantee q.kind = .preserve → q.verify s.piece.circuit = true →
          q.verify s'.piece.circuit = true := by
  have hhonours := (h.honours hS).2 fuel mode hooks
  refine ⟨fun cause s' hrun => hhonours.fails hpre hrun, fun changed s' hrun => ?_⟩
  have hlead := hhonours.leads hpre hrun
  exact ⟨hlead.ensures, hlead.keeps⟩

/-- Operations are removed one by one until none is left, then a pass asks for a bound that was ensured all along. -/
theorem apply_sound_trim :
    let trim : Pass Unit := .standard "Trim"
      ⟨Predicate.mapOf [.maxQubits 3], Predicate.mapOf [.maxQubits 3], .empty, .clear⟩ Transform.removeFirst .empty
    let rest : Pass Unit := .standard "Rest" ⟨Predicate.mapOf [.maxQubits 5], Predicate.mapOf [], .empty, .preserve⟩
      (fun d => .ok false d) .empty
    ∃ trimAll p c, trim.repeating = .ok trimAll ∧ ofList [trimAll, rest] true = .ok p ∧ p.Sound Predicate.Standard ∧
      (Circuit.ofUnits 2 1).edited (do
        Circuit.measure 0 0
        Circuit.measure 1 0) = .ok c ∧ p.contract.pre.Holds c ∧
      ∃ changed s', p.apply 4 .audit {} ⟨.ofCircuit c, ()⟩ = .ok changed s' ∧
        p.contract.post.specific.Holds s'.piece.circuit := by
  intro trim rest
  have htrim : trim.Sound Predicate.Standard := by
    refine .standard (Contract.within_of_mapOf (by simp [Predicate.Standard]) (by simp [Predicate.Standard])) ?_
    intro d x d' hpre hrun
    have hqubits : d'.circuit.qubits = d.circuit.qubits := by
      unfold Circuit.qubits Circuit.units
      rw [Transform.boundary_removeFirst hrun]
    refine ⟨fun p hp => ?_, fun p _ hkeep => (by cases hkeep)⟩
    have hp' := hpre p hp
    obtain rfl := List.mem_singleton.mp hp
    unfold Predicate.verify at hp' ⊢
    rw [hqubits]
    exact hp'
  have hrest : rest.Sound Predicate.Standard := by
    refine .standard (Contract.within_of_mapOf (by simp [Predicate.Standard]) (List.forall_mem_nil _)) ?_
    intro d x d' hpre hrun
    cases hrun
    exact ⟨List.forall_mem_nil _, fun _ _ _ => id⟩
  simp only [exists_and_left]
  refine exists_run fun trimAll hall =>
    exists_and_of (of_run hall (by decide +kernel)) fun p hp => ?_
  have hsound : p.Sound Predicate.Standard := .sequence
    (List.forall_mem_cons.mpr ⟨.repeated htrim hall, List.forall_mem_singleton.mpr hrest⟩) hp
  refine ⟨hsound, exists_run fun c hc => ?_⟩
  have hpre : p.contract.pre.Holds c := of_run hp (of_run hall (of_run hc (by decide +kernel)))
  obtain ⟨s', hrun, _⟩ : ∃ s', p.apply 4 .audit {} ⟨.ofCircuit c, ()⟩ = .ok true s' ∧ True :=
    of_run hp (of_run hall (of_run hc (by decide +kernel)))
  exact ⟨hpre, true, s', hrun,
    ((apply_sound Predicate.reliable_standard hsound 4 .audit {} ⟨.ofCircuit c, ()⟩ hpre).2 true s' hrun).1⟩

end Pass

/-! # `Pass.untilSatisfied`, `Pass.whileImproving` — repetitions that may keep no round -/

namespace Run

variable {σ : Type} {S K : Predicate → Prop} {E : CompileError → Prop} {a c : Contract} {s s' : Session σ} {body : Run σ Bool}

section Rounds

variable (hS : Predicate.Reliable S) (hK : ∀ p ∈ a.pre.values, K p) (ha : a.Within S) (hc : a.andThen a true = .ok c)
include hS hK ha hc

/-- **Rounds until a predicate holds**: either there is none, or they lead where the body leads. -/
theorem Honours.untilSatisfied (h : Honours K a E body) {goal : Predicate} {fuel n : Nat}
    (hpre : a.pre.Holds s.piece.circuit) (hrun : untilSatisfied goal body fuel s = .ok n s') :
    (n = 0 ∧ s' = s) ∨ (0 < n ∧ a.Leads K s.piece.circuit s'.piece.circuit) := by
  induction fuel generalizing s n with
  | zero =>
    obtain ⟨s₁, _, hget, hrun⟩ := bind_eq_ok.mp hrun
    cases hget
    split at hrun
    · cases hrun
      exact .inl ⟨rfl, rfl⟩
    · cases hrun
  | succ fuel ih =>
    obtain ⟨s₁, _, hget, hrun⟩ := bind_eq_ok.mp hrun
    cases hget
    split at hrun
    · cases hrun
      exact .inl ⟨rfl, rfl⟩
    · obtain ⟨_, _, hbody, hrun⟩ := bind_eq_ok.mp hrun
      obtain ⟨m, _, hrun, heq⟩ := bind_eq_ok.mp hrun
      cases heq
      have hlead := h.leads hpre hbody
      refine .inr ⟨Nat.succ_pos m, ?_⟩
      rcases ih (Contract.holds_again hS hK ha hc hpre hlead) hrun with ⟨_, rfl⟩ | ⟨_, hlead'⟩
      · exact hlead
      · exact hlead.trans hlead'

/-- **Rounds while a cost falls**: the last workpiece that is kept is one that the body leads to. -/
theorem Honours.whileImproving (h : Honours K a E body) {metric : Metric} {best : Nat} {better : Option Workpiece}
    (hpre : a.pre.Holds s.piece.circuit) (hrun : whileImproving metric body best s = .ok better s') :
    ∀ piece ∈ better, a.Leads K s.piece.circuit piece.circuit := by
  induction best using Nat.strongRecOn generalizing s better with
  | ind best ih =>
    rw [Run.whileImproving] at hrun
    obtain ⟨_, _, hbody, hrun⟩ := bind_eq_ok.mp hrun
    obtain ⟨_, _, hget, hrun⟩ := bind_eq_ok.mp hrun
    cases hget
    have hlead := h.leads hpre hbody
    split at hrun
    · next hless =>
      obtain ⟨later, _, hrun, heq⟩ := bind_eq_ok.mp hrun
      cases heq
      rintro piece ⟨⟩
      have hlater := ih _ hless (Contract.holds_again hS hK ha hc hpre hlead) hrun
      cases later with
      | none => exact hlead
      | some piece => exact hlead.trans (hlater piece rfl)
    · cases hrun
      rintro piece ⟨⟩

end Rounds

/-! ## The rounds that are kept -/

/-- **So many rounds that each lower the cost** lead from the first session to the second. -/
inductive Falls (metric : Metric) (body : Run σ Bool) : Nat → Session σ → Session σ → Prop
  | none (s : Session σ) : Falls metric body 0 s s
  | round {s s₁ s₂ : Session σ} {changed : Bool} {n : Nat} : body s = .ok changed s₁ →
      metric s₁.piece.circuit < metric s.piece.circuit → Falls metric body n s₁ s₂ → Falls metric body (n + 1) s s₂

variable {metric : Metric} {n : Nat}

lemma Falls.add_le (h : Falls metric body n s s') : metric s'.piece.circuit + n ≤ metric s.piece.circuit := by
  induction h with
  | none => exact le_rfl
  | round _ hless _ ih => omega

lemma Falls.lt_iff (h : Falls metric body n s s') : metric s'.piece.circuit < metric s.piece.circuit ↔ 0 < n := by
  constructor
  · intro hless
    cases h with
    | none => exact absurd hless (lt_irrefl _)
    | round => exact Nat.succ_pos _
  · intro hn
    have := h.add_le
    omega

/-- **The search for the best workpiece** runs rounds while the cost falls, and one more: it does not lower the cost, or
    it fails. -/
theorem whileImproving_cases (metric : Metric) (body : Run σ Bool) (s : Session σ) : ∃ n s₁, Falls metric body n s s₁ ∧
      ((∃ changed s₂, body s₁ = .ok changed s₂ ∧ metric s₁.piece.circuit ≤ metric s₂.piece.circuit ∧
        whileImproving metric body (metric s.piece.circuit) s = .ok (if n = 0 then .none else some s₁.piece) s₂) ∨
      ∃ e s₂, body s₁ = .error e s₂ ∧ whileImproving metric body (metric s.piece.circuit) s = .error e s₂) := by
  induction hcost : metric s.piece.circuit using Nat.strongRecOn generalizing s with
  | ind best ih =>
    subst hcost
    rw [Run.whileImproving]
    cases hbody : body s with
    | error e s₁ => exact ⟨0, s, .none s, .inr ⟨e, s₁, hbody, bind_error hbody⟩⟩
    | ok changed s₁ =>
      rw [bind_ok hbody, bind_get]
      by_cases hless : metric s₁.piece.circuit < metric s.piece.circuit
      · rw [if_pos hless]
        obtain ⟨n, s₂, hfalls, hend⟩ := ih _ hless s₁ rfl
        refine ⟨n + 1, s₂, .round hbody hless hfalls, ?_⟩
        rcases hend with ⟨changed', s3, hlast, hle, hrest⟩ | ⟨e, s3, hlast, hrest⟩
        · refine .inl ⟨changed', s3, hlast, hle, (bind_ok hrest).trans ?_⟩
          cases hfalls <;> rfl
        · exact .inr ⟨e, s3, hlast, bind_error hrest⟩
      · rw [if_neg hless]
        exact ⟨0, s, .none s, .inl ⟨changed, s₁, hbody, not_lt.mp hless, rfl⟩⟩

end Run

/-- **What flattening does**: nothing, if all units are in default registers; else it renames them, or refuses. -/
theorem Transform.flattenRegisters_cases {σ : Type} (d : Draft σ) :
    (d.circuit.isSimple ∧ Transform.flattenRegisters d = .ok false d) ∨
      (∃ ρ c', Transform.flattenRegisters d = .ok true ⟨c', (d.maps.rename ρ ρ).2, d.ambient⟩ ∧ c'.isSimple ∧
        Circuit.IsRenamed ρ d.circuit c') ∨
      ∃ e, Transform.flattenRegisters d = .error e d := by
  by_cases hsimple : d.circuit.isSimple
  · refine .inl ⟨hsimple, ?_⟩
    unfold Transform.flattenRegisters
    rw [bind_get, if_pos hsimple]
    rfl
  · right
    unfold Transform.flattenRegisters
    rw [bind_get, if_neg hsimple]
    rcases Circuit.renameUnits_cases (.flattening d.circuit.units) d.circuit with ⟨_, c', hok, hren⟩ | ⟨e, herror⟩
    · have hflat : Circuit.flattenRegisters d.circuit = .ok _ c' := bind_ok hok
      exact .inl ⟨_, c', bind_ok (Drafting.edit_of_ok hflat), Circuit.isSimple_flattenRegisters hflat, hren⟩
    · have hflat : Circuit.flattenRegisters d.circuit = .error e d.circuit := by
        unfold Circuit.flattenRegisters
        rw [bind_get, bind_error herror]
      exact .inr ⟨_, bind_error (Drafting.edit_of_error hflat)⟩

namespace Pass

variable {σ : Type} {S : Predicate → Prop} {body p : Pass σ} {fuel : Nat} {mode : SafetyMode} {hooks : Hooks σ}
  {s s' : Session σ} {changed : Bool}

lemma repetition_kept (hS : Predicate.Reliable S) (hbody : body.contract.Within S)
    (hsound : Run.Honours (· ∈ body.contract.pre.values) body.contract (fun _ => True) (body.apply fuel mode hooks))
    (hp : (∃ goal, body.repeatingUntil goal = .ok p) ∨ ∃ name metric, body.repeatingWhileImproving name metric = .ok p)
    (hpre : p.contract.pre.Holds s.piece.circuit) (hrun : p.apply fuel mode hooks s = .ok changed s') :
    p.contract.post.specific = body.contract.post.specific ∧ ((changed = false ∧ s'.piece.circuit = s.piece.circuit) ∨
        (changed ∧ body.contract.Leads (· ∈ body.contract.pre.values) s.piece.circuit s'.piece.circuit)) := by
  have hspecific : ∀ {c}, body.contract.andThen body.contract true = .ok c →
      c.post.specific = body.contract.post.specific := fun hc => by
    rw [((Contract.andThen_eq_ok_iff hbody hbody).mp hc).1, Postconditions.specific_andThen_self]
  rcases hp with ⟨goal, hp⟩ | ⟨name, metric, hp⟩
  · obtain ⟨c, hc, heq⟩ := bind_ok_iff.mp hp
    cases heq
    obtain ⟨s₁, s₂, hstart, hrun, hend⟩ := Run.between_eq_ok hrun
    obtain ⟨n, s3, hrounds, heq⟩ := bind_eq_ok.mp hrun
    cases heq
    rw [← hstart] at hpre ⊢
    rw [hend]
    refine ⟨hspecific hc, ?_⟩
    rcases hsound.untilSatisfied hS (fun _ => id) hbody hc (Contract.holds_first hS hbody hbody hc hpre) hrounds with
      ⟨rfl, rfl⟩ | ⟨hn, hlead⟩
    · exact .inl ⟨rfl, rfl⟩
    · exact .inr ⟨decide_eq_true hn, hlead⟩
  · obtain ⟨c, hc, heq⟩ := bind_ok_iff.mp hp
    cases heq
    obtain ⟨s₁, s₂, hstart, hrun, hend⟩ := Run.between_eq_ok hrun
    rw [← hstart] at hpre ⊢
    rw [hend]
    refine ⟨hspecific hc, ?_⟩
    unfold Run.improving at hrun
    split at hrun
    · next better s3 hrounds =>
      cases hrun
      have hlead := hsound.whileImproving hS (fun _ => id) hbody hc (Contract.holds_first hS hbody hbody hc hpre) hrounds
      cases better with
      | none => exact .inl ⟨rfl, rfl⟩
      | some piece => exact .inr ⟨rfl, hlead piece rfl⟩
    · cases hrun

/-- **What a repetition ensures.** Let the body keep its contract: from where its requirements hold, success brings
    about what it ensures and keeps those of its requirements that it claims to preserve. Then what the contract of the
    repetition ensures holds after it just if a round was kept or it held before; if no round was kept, the circuit is
    what it was. -/
theorem repetition_ensures_iff (hS : Predicate.Reliable S) (hbody : body.contract.Within S)
    (hsound : ∀ s x s', body.contract.pre.Holds s.piece.circuit → body.apply fuel mode hooks s = .ok x s' →
      body.contract.Leads (· ∈ body.contract.pre.values) s.piece.circuit s'.piece.circuit)
    (hp : (∃ goal, body.repeatingUntil goal = .ok p) ∨ ∃ name metric, body.repeatingWhileImproving name metric = .ok p)
    (hpre : p.contract.pre.Holds s.piece.circuit) (hrun : p.apply fuel mode hooks s = .ok changed s') :
    (p.contract.post.specific.Holds s'.piece.circuit ↔ changed = true ∨ p.contract.post.specific.Holds s.piece.circuit) ∧
      (changed = false → s'.piece.circuit = s.piece.circuit) := by
  obtain ⟨hspecific, hkept⟩ := repetition_kept hS hbody ⟨hsound _ _ _, fun _ _ => trivial⟩ hp hpre hrun
  rw [hspecific]
  rcases hkept with ⟨rfl, hsame⟩ | ⟨rfl, hlead⟩
  · rw [hsame]
    exact ⟨⟨.inr, fun h => h.resolve_left Bool.false_ne_true⟩, fun _ => rfl⟩
  · exact ⟨iff_of_true hlead.ensures (.inl rfl), fun h => nomatch h⟩

/-- **A repetition while a cost falls stops at the first round that does not lower it**, after at most one round more than
    the cost at the start. With `n` the number of rounds before that one:
    * if that round succeeds, the workpiece is the one after `n` rounds, and whether it costs less and what is told is
      whether there were any; the ambient state has seen all rounds;
    * if it fails, so does the repetition, and the workpiece stays what it was. -/
theorem whileImproving_keeps_best (fuel : Nat) (mode : SafetyMode) (hooks : Hooks σ) (body : Pass σ) (name : String)
    (metric : Metric) (contract : Contract) (s : Session σ) :
    ∃ s₀ n s₁, Run.call hooks.before (whileImproving body name metric contract) s = .ok () s₀ ∧ s₀.piece = s.piece ∧
      Run.Falls metric (body.apply fuel mode hooks) n s₀ s₁ ∧ n + 1 ≤ metric s.piece.circuit + 1 ∧
      (metric s₁.piece.circuit < metric s.piece.circuit ↔ 0 < n) ∧
      ((∃ changed s₂ s', body.apply fuel mode hooks s₁ = .ok changed s₂ ∧ metric s₁.piece.circuit ≤ metric s₂.piece.circuit ∧
          (whileImproving body name metric contract).apply fuel mode hooks s = .ok (decide (0 < n)) s' ∧
          s'.piece = s₁.piece ∧
          Run.call hooks.after (whileImproving body name metric contract) ⟨s₁.piece, s₂.ambient⟩ = .ok () s') ∨
        ∃ e s₂, body.apply fuel mode hooks s₁ = .error e s₂ ∧
          (whileImproving body name metric contract).apply fuel mode hooks s = .error e ⟨s.piece, s₂.ambient⟩) := by
  obtain ⟨ambient, hbefore⟩ := Run.call_run hooks.before (whileImproving body name metric contract) s
  obtain ⟨n, s₁, hfalls, hend⟩ :=
    Run.whileImproving_cases metric (body.apply fuel mode hooks) ⟨s.piece, ambient⟩
  have hbound := (Nat.le_add_left n _).trans hfalls.add_le
  refine ⟨_, n, s₁, hbefore, rfl, hfalls, Nat.succ_le_succ hbound, hfalls.lt_iff, ?_⟩
  rw [apply]
  unfold Run.between
  rw [bind_ok hbefore]
  rcases hend with ⟨changed, s₂, hlast, hle, hsearch⟩ | ⟨e, s₂, hlast, hsearch⟩
  · left
    obtain ⟨_, hafter⟩ :=
      Run.call_run hooks.after (whileImproving body name metric contract) ⟨s₁.piece, s₂.ambient⟩
    have hrun : Run.improving metric (body.apply fuel mode hooks) ⟨s.piece, ambient⟩ =
        .ok (decide (0 < n)) ⟨s₁.piece, s₂.ambient⟩ := by
      unfold Run.improving
      rw [hsearch]
      cases hfalls <;> rfl
    exact ⟨changed, s₂, _, hlast, hle, (bind_ok hrun).trans (bind_ok hafter), rfl, hafter⟩
  · right
    have hrun : Run.improving metric (body.apply fuel mode hooks) ⟨s.piece, ambient⟩ = .error e ⟨s.piece, s₂.ambient⟩ := by
      unfold Run.improving
      rw [hsearch]
    exact ⟨e, s₂, hlast, bind_error hrun⟩

/-! ## A body of the library -/

lemma isSimple_flattenRegisters {d d' : Draft σ} {x : Bool} (hrun : Transform.flattenRegisters d = .ok x d') :
    d'.circuit.isSimple := by
  rcases Transform.flattenRegisters_cases d with ⟨hsimple, hok⟩ | ⟨_, _, hok, hsimple, _⟩ | ⟨_, herror⟩
  · cases hok.symm.trans hrun
    exact hsimple
  · cases hok.symm.trans hrun
    exact hsimple
  · cases herror.symm.trans hrun

lemma flattenRegisters_leads (fuel : Nat) (mode : SafetyMode) (hooks : Hooks σ) (s : Session σ) (x : Bool)
    (s' : Session σ) (hpre : (flattenRegisters : Pass σ).contract.pre.Holds s.piece.circuit)
    (hrun : flattenRegisters.apply fuel mode hooks s = .ok x s') :
    (flattenRegisters : Pass σ).contract.Leads (· ∈ (flattenRegisters : Pass σ).contract.pre.values) s.piece.circuit
      s'.piece.circuit := by
  unfold flattenRegisters at hrun
  refine (Run.honours_standard mode fun d x d' _ hd => ⟨fun p hp => ?_, fun p hp => ?_⟩).between.leads hpre hrun
  · obtain rfl := List.mem_singleton.mp hp
    exact isSimple_flattenRegisters hd
  · cases hp

lemma within_flattenRegisters : (flattenRegisters : Pass σ).contract.Within Predicate.Standard :=
  ⟨fun _ _ hx => (by cases hx), at_insert (fun _ _ hx => (by cases hx)) fun _ h => (by cases h)⟩

/-- A qubit of another register is moved in one round. -/
theorem repetition_ensures_iff_flatten : ∃ (c : Circuit) (p : Pass Unit) (s' : Session Unit),
    ({} : Circuit).edited (Circuit.addUnit ⟨.qubit, "a", [0]⟩) = .ok c ∧
      flattenRegisters.repeatingUntil (.property .defaultRegister) = .ok p ∧ p.contract.pre.Holds c ∧
      p.apply 2 .standard {} ⟨.ofCircuit c, ()⟩ = .ok true s' ∧ p.contract.post.specific.Holds s'.piece.circuit := by
  simp only [exists_and_left]
  refine exists_run fun c hc => exists_run fun p hp => ?_
  have hpre : p.contract.pre.Holds c := of_run hc (of_run hp (by decide +kernel))
  refine ⟨hpre, exists_and_of (of_run hc (of_run hp (by decide +kernel))) fun s' hrun => ?_⟩
  exact (repetition_ensures_iff Predicate.reliable_standard within_flattenRegisters
    (flattenRegisters_leads 2 .standard {}) (.inl ⟨_, hp⟩) hpre hrun).1.mpr (.inl rfl)

/-- **A repetition that keeps no round leaves its contract unmet**, though its body keeps its own: the qubit stays where
    it was if the predicate holds from the start, and also if a round does not lower the cost. -/
theorem repetition_unmet : (∀ fuel mode hooks s x s', (flattenRegisters : Pass Unit).apply fuel mode hooks s = .ok x s' →
      (flattenRegisters : Pass Unit).contract.post.specific.Holds s'.piece.circuit) ∧
    ∃ (c : Circuit) (satisfied costly : Pass Unit), ({} : Circuit).edited (Circuit.addUnit ⟨.qubit, "a", [0]⟩) = .ok c ∧
        flattenRegisters.repeatingUntil (.userDefined fun _ => true) = .ok satisfied ∧
        flattenRegisters.repeatingWhileImproving "n_qubits" (fun c => c.qubits.length) = .ok costly ∧
        ∀ p ∈ [satisfied, costly], p.contract.pre.Holds c ∧ ∃ s', p.apply 1 .standard {} ⟨.ofCircuit c, ()⟩ = .ok false s' ∧
            ¬ p.contract.post.specific.Holds s'.piece.circuit := by
  refine ⟨fun fuel mode hooks s x s' hrun => ?_, ?_⟩
  · exact (flattenRegisters_leads fuel mode hooks s x s' (List.forall_mem_nil _) hrun).ensures
  · simp only [exists_and_left, List.forall_mem_cons, List.not_mem_nil, IsEmpty.forall_iff, implies_true, and_true]
    decide +kernel

end Pass

end Wireloom
