import Mathlib.Data.Option.Basic
import Wireloom.Proofs.Soundness

/-!
# `Run.Matched`, `Workpiece.CacheHolds` — what the cache presumes is true

The cache of a workpiece is right if every predicate that it presumes true holds of the circuit. Checks of requirements
keep it right, for they only add what they find.
-/

namespace Wireloom

/-! ## Ties -/

/-- **What ties two runs together.** Both see the same circuit as long as they go on, so goals and costs come out the
    same in both. -/
structure Tie (σ τ : Type) where
  /-- What holds of the workpieces while both runs go on. -/
  piece : Workpiece → Workpiece → Prop
  /-- What holds of the workpieces after both have halted. -/
  wreck : Workpiece → Workpiece → Prop
  ambient : σ → τ → Prop
  cause : Halt → Halt → Prop
  circuit_eq : ∀ {w w' : Workpiece}, piece w w' → w.circuit = w'.circuit
  wreck_of_piece : ∀ {w w' : Workpiece}, piece w w' → wreck w w'
  exhausted : cause .exhausted .exhausted

namespace Tie

variable {σ τ α β : Type}

structure Sessions (T : Tie σ τ) (s : Session σ) (s' : Session τ) : Prop where
  piece : T.piece s.piece s'.piece
  ambient : T.ambient s.ambient s'.ambient

/-- **Tied outcomes**: both runs succeed with answers in `V`, or both halt. -/
inductive Outcomes (T : Tie σ τ) (V : α → β → Prop) :
    EStateM.Result Halt (Session σ) α → EStateM.Result Halt (Session τ) β → Prop
  | ok {x : α} {y : β} {s : Session σ} {s' : Session τ} : V x y → T.Sessions s s' → Outcomes T V (.ok x s) (.ok y s')
  | error {e e' : Halt} {s : Session σ} {s' : Session τ} : T.cause e e' → T.wreck s.piece s'.piece →
      T.ambient s.ambient s'.ambient → Outcomes T V (.error e s) (.error e' s')

/-- Hooks that keep ambient states tied. -/
def Hooked (T : Tie σ τ) : Option (Hook σ) → Option (Hook τ) → Prop
  | none, none => True
  | some hook, some hook' => ∀ w w' config a a', T.piece w w' → T.ambient a a' →
      T.ambient (hook w config a) (hook' w' config a')
  | _, _ => False

end Tie

/-! ## Matched runs -/

namespace Run

variable {σ τ α β γ δ : Type} {T : Tie σ τ} {V : α → β → Prop} {W : γ → δ → Prop} {run : Run σ α} {run' : Run τ β}
  {p : Pass σ} {p' : Pass τ}

/-- **Two runs side by side**: from tied states they come to tied outcomes. -/
def Matched (T : Tie σ τ) (V : α → β → Prop) (run : Run σ α) (run' : Run τ β) : Prop :=
  ∀ s s', T.Sessions s s' → T.Outcomes V (run s) (run' s')

lemma Matched.pure {x : α} {y : β} (h : V x y) : Matched T V (pure x) (pure y) :=
  fun _ _ hs => .ok h hs

lemma Matched.bind {next : α → Run σ _} {next' : β → Run τ _}
    (h : Matched T V run run') (hnext : ∀ x y, V x y → Matched T W (next x) (next' y)) :
    Matched T W (run >>= next) (run' >>= next') := by
  intro s s' hs
  have hfirst := h s s' hs
  generalize hr : run s = r at hfirst
  generalize hr' : run' s' = r' at hfirst
  cases hfirst with
  | ok hxy hs1 =>
    rw [bind_ok hr, bind_ok hr']
    exact hnext _ _ hxy _ _ hs1
  | error hcause hwreck hambient =>
    rw [bind_error hr, bind_error hr']
    exact .error hcause hwreck hambient

lemma Matched.map (h : Matched T V run run') {f : α → γ} {f' : β → δ}
    (hf : ∀ x y, V x y → W (f x) (f' y)) : Matched T W (do return f (← run)) (do return f' (← run')) :=
  h.bind fun x y hxy => .pure (hf x y hxy)

lemma matched_get : Matched T T.Sessions get get := fun _ _ hs => .ok hs hs

lemma matched_exhausted : Matched T V (throw .exhausted) (throw .exhausted) := fun _ _ hs =>
  .error T.exhausted (T.wreck_of_piece hs.piece) hs.ambient

/-! ### Hooks -/

lemma matched_call {hook : Option (Hook σ)} {hook' : Option (Hook τ)} (h : T.Hooked hook hook')
    (hconfig : p.config = p'.config) : Matched T Eq (call hook p) (call hook' p') := by
  intro s s' hs
  cases hook with
  | none =>
    cases hook' with
    | none => exact .ok rfl hs
    | some hook' => exact h.elim
  | some hook =>
    cases hook' with
    | none => exact h.elim
    | some hook' =>
      refine .ok rfl ⟨hs.piece, ?_⟩
      rw [hconfig]
      exact h _ _ _ _ _ hs.piece hs.ambient

lemma Matched.between {hooks : Hooks σ} {hooks' : Hooks τ} (hbefore : T.Hooked hooks.before hooks'.before)
    (hafter : T.Hooked hooks.after hooks'.after) (hconfig : p.config = p'.config)
    {run : Run σ Bool} {run' : Run τ Bool} (h : Matched T Eq run run') :
    Matched T Eq (between hooks p run) (between hooks' p' run') := by
  apply (matched_call hbefore hconfig).bind
  intro _ _ _
  apply h.bind
  intro x y hxy
  apply (matched_call hafter hconfig).bind
  intro _ _ _
  exact .pure hxy

/-! ### Loops -/

variable {body : Run σ Bool} {body' : Run τ Bool}

section

variable (h : Matched T Eq body body')
include h

lemma Matched.whileChanging (fuel : Nat) : Matched T Eq (whileChanging body fuel) (whileChanging body' fuel) := by
  induction fuel with
  | zero => exact matched_exhausted
  | succ fuel ih =>
    apply h.bind
    intro x y hxy
    subst hxy
    cases x with
    | false => exact .pure rfl
    | true => exact ih.map fun m n hmn => by rw [hmn]

lemma Matched.untilSatisfied (goal : Predicate) (fuel : Nat) :
    Matched T Eq (untilSatisfied goal body fuel) (untilSatisfied goal body' fuel) := by
  induction fuel with
  | zero =>
    apply matched_get.bind
    intro s s' hs
    unfold Workpiece.satisfies
    rw [T.circuit_eq hs.piece]
    split
    · exact .pure rfl
    · exact matched_exhausted
  | succ fuel ih =>
    apply matched_get.bind
    intro s s' hs
    unfold Workpiece.satisfies
    rw [T.circuit_eq hs.piece]
    split
    · exact .pure rfl
    · apply h.bind
      intro _ _ _
      exact ih.map fun m n hmn => by rw [hmn]

/-- The best workpieces of two matched searches are tied, for their costs are those of the same circuits. -/
lemma Matched.whileImproving (metric : Metric) (best : Nat) :
    Matched T (Option.Rel T.piece) (whileImproving metric body best) (whileImproving metric body' best) := by
  induction best using Nat.strongRecOn with
  | _ best ih =>
    rw [Run.whileImproving, Run.whileImproving]
    apply h.bind
    intro _ _ _
    apply matched_get.bind
    intro s s' hs
    dsimp only
    rw [T.circuit_eq hs.piece]
    split
    · next hlt =>
      refine (ih _ hlt).map fun better better' hbetter => .some ?_
      cases hbetter with
      | none => exact hs.piece
      | some hpiece => exact hpiece
    · exact .pure .none

lemma Matched.improving (metric : Metric) : Matched T Eq (improving metric body) (improving metric body') := by
  intro s s' hs
  have hsearch := h.whileImproving metric (metric s.piece.circuit) s s' hs
  unfold Run.improving
  rw [← T.circuit_eq hs.piece]
  generalize Run.whileImproving metric body (metric s.piece.circuit) s = r at hsearch
  generalize Run.whileImproving metric body' (metric s.piece.circuit) s' = r' at hsearch
  cases hsearch with
  | ok hbetter hend =>
    cases hbetter with
    | none => exact .ok rfl ⟨hs.piece, hend.ambient⟩
    | some hpiece => exact .ok rfl ⟨hpiece, hend.ambient⟩
  | error hcause _ hambient => exact .error hcause (T.wreck_of_piece hs.piece) hambient

end

end Run

/-! ## Trees of one shape -/

namespace Pass

variable {σ τ : Type} {T : Tie σ τ} {L : Contract → Transform σ → Transform τ → Prop} {p : Pass σ} {p' : Pass τ}

/-- **Trees of one shape**: they differ in their transformations only, and those are related by `L`. -/
inductive Alike (L : Contract → Transform σ → Transform τ → Prop) : Pass σ → Pass τ → Prop
  | standard {name : String} {a : Contract} {t : Transform σ} {t' : Transform τ} {params : SortedMap String Json} :
      L a t t' → Alike L (.standard name a t params) (.standard name a t' params)
  | sequence {ps : List (Pass σ × Pass τ)} {strict : Bool} {a : Contract} : (∀ q ∈ ps, Alike L q.1 q.2) →
      Alike L (.sequence (ps.map Prod.fst) strict a) (.sequence (ps.map Prod.snd) strict a)
  | repeated {body : Pass σ} {body' : Pass τ} {a : Contract} : Alike L body body' →
      Alike L (.repeated body a) (.repeated body' a)
  | untilSatisfied {body : Pass σ} {body' : Pass τ} {goal : Predicate} {a : Contract} : Alike L body body' →
      Alike L (.untilSatisfied body goal a) (.untilSatisfied body' goal a)
  | whileImproving {body : Pass σ} {body' : Pass τ} {metricName : String} {metric : Metric} {a : Contract} :
      Alike L body body' →
      Alike L (.whileImproving body metricName metric a) (.whileImproving body' metricName metric a)

lemma configs_eq_map (ps : List (Pass σ)) : configs ps = ps.map config := by
  induction ps with
  | nil => simp [configs]
  | cons p rest ih => simp [configs, ih]

lemma Alike.config_eq (h : Alike L p p') : p.config = p'.config := by
  induction h with
  | standard _ => simp only [config]
  | @sequence ps strict a _ ih =>
    have hmap : (ps.map Prod.fst).map config = (ps.map Prod.snd).map config := by
      simpa using ih
    simp only [config, configs_eq_map, hmap]
  | repeated _ ih => simp only [config, ih]
  | untilSatisfied _ ih => simp only [config, ih]
  | whileImproving _ ih => simp only [config, ih]

section Matched

variable {fuel : Nat} {mode mode' : SafetyMode} {hooks : Hooks σ} {hooks' : Hooks τ}

lemma matched_applyAll {ps : List (Pass σ × Pass τ)}
    (h : ∀ q ∈ ps, Run.Matched T Eq (q.1.apply fuel mode hooks) (q.2.apply fuel mode' hooks')) :
    Run.Matched T Eq (applyAll fuel mode hooks (ps.map Prod.fst)) (applyAll fuel mode' hooks' (ps.map Prod.snd)) := by
  induction ps with
  | nil =>
    exact .pure rfl
  | cons q rest ih =>
    obtain ⟨hq, hrest⟩ := List.forall_mem_cons.mp h
    apply hq.bind
    intro first first' hfirst
    exact (ih hrest).map fun others others' hothers => by rw [hfirst, hothers]

lemma Alike.matched (hbefore : T.Hooked hooks.before hooks'.before) (hafter : T.Hooked hooks.after hooks'.after)
    (hL : ∀ a t t', L a t t' → Run.Matched T Eq (Run.standard a mode t) (Run.standard a mode' t')) (h : Alike L p p') :
    Run.Matched T Eq (p.apply fuel mode hooks) (p'.apply fuel mode' hooks') := by
  induction h with
  | standard ht =>
    exact (hL _ _ _ ht).between hbefore hafter (Alike.standard ht).config_eq
  | sequence hps ih =>
    exact (matched_applyAll ih).between hbefore hafter (Alike.sequence hps).config_eq
  | repeated hbody ih =>
    refine ((ih.whileChanging fuel).map ?_).between hbefore hafter (Alike.repeated hbody).config_eq
    intro m n hmn
    rw [hmn]
  | untilSatisfied hbody ih =>
    refine ((ih.untilSatisfied _ fuel).map ?_).between hbefore hafter (Alike.untilSatisfied hbody).config_eq
    intro m n hmn
    rw [hmn]
  | whileImproving hbody ih =>
    exact (ih.improving _).between hbefore hafter (Alike.whileImproving hbody).config_eq

end Matched

/-! ## Trees over a set of transformations -/

/-- **All transformations of the tree are in `Q`**, with the contracts they stand under. -/
inductive Over (Q : Contract → Transform σ → Prop) : Pass σ → Prop
  | standard {name : String} {a : Contract} {t : Transform σ} {params : SortedMap String Json} : Q a t →
      Over Q (.standard name a t params)
  | sequence {ps : List (Pass σ)} {strict : Bool} {a : Contract} : (∀ q ∈ ps, Over Q q) →
      Over Q (.sequence ps strict a)
  | repeated {body : Pass σ} {a : Contract} : Over Q body → Over Q (.repeated body a)
  | untilSatisfied {body : Pass σ} {goal : Predicate} {a : Contract} : Over Q body →
      Over Q (.untilSatisfied body goal a)
  | whileImproving {body : Pass σ} {metricName : String} {metric : Metric} {a : Contract} : Over Q body →
      Over Q (.whileImproving body metricName metric a)

variable {Q : Contract → Transform σ → Prop}

lemma over_of_forall (hQ : ∀ a t, Q a t) : ∀ p : Pass σ, p.Over Q
  | .standard _ a t _ => .standard (hQ a t)
  | .sequence ps _ _ => .sequence fun q _ => over_of_forall hQ q
  | .repeated body _ => .repeated (over_of_forall hQ body)
  | .untilSatisfied body _ _ => .untilSatisfied (over_of_forall hQ body)
  | .whileImproving body _ _ _ => .whileImproving (over_of_forall hQ body)

lemma Over.alike (h : p.Over Q) : Alike (fun a t t' => Q a t ∧ t' = t) p p := by
  induction h with
  | standard ht => exact .standard ⟨ht, rfl⟩
  | @sequence ps strict a _ ih =>
    have hpairs : Alike (fun a t t' => Q a t ∧ t' = t) (.sequence ((ps.map fun q => (q, q)).map Prod.fst) strict a)
        (.sequence ((ps.map fun q => (q, q)).map Prod.snd) strict a) := by
      refine .sequence ?_
      simpa using ih
    simpa [Function.comp_def] using hpairs
  | repeated _ ih => exact .repeated ih
  | untilSatisfied _ ih => exact .untilSatisfied ih
  | whileImproving _ ih => exact .whileImproving ih

end Pass

/-! # `Workpiece.CacheHolds` — what the cache presumes -/

open List SortedMap

/-- **Implications can be relied on**: what is implied holds wherever the predicate that implies it does. -/
def Predicate.SoundImplications (S : Predicate → Prop) : Prop :=
  ∀ {p q : Predicate}, S p → S q → p.kind = q.kind → p.implies q = .ok true →
    ∀ c : Circuit, p.verify c = true → q.verify c = true

namespace Contract.Within

variable {S : Predicate → Prop} {a : Contract}

lemma pre_entries (h : a.Within S) : ∀ e ∈ a.pre.entries, e.2.kind = e.1 ∧ S e.2 :=
  fun e he => h.pre e.1 e.2 (get?_iff_mem.mpr he)

end Contract.Within

/-! ## Caches that are right -/

namespace Workpiece

variable {S : Predicate → Prop} {w w' w'' : Workpiece} {k : PredicateKind} {p : Predicate}
  {l : List (PredicateKind × Predicate)} {pre : PredicateMap} {post : Postconditions} {mode : SafetyMode}
  {a : Contract} {c : Circuit} {maps : UnitMaps}

/-- **What the cache presumes true is true**, and stands under its own kind. -/
def CacheHolds (S : Predicate → Prop) (w : Workpiece) : Prop :=
  ∀ k p, w.cache.get? k = some (p, true) → p.kind = k ∧ S p ∧ p.verify w.circuit = true

lemma CacheHolds.circuit_eq {S : Predicate → Prop} {w w' : Workpiece} (h : w = w' ∧ w'.CacheHolds S) : w.circuit = w'.circuit := congrArg _ h.1

variable (hS : Predicate.SoundImplications S) (h : w.CacheHolds S) (hlead : a.Leads S w.circuit c)
  (hk : p.kind = k) (hp : S p) (hverify : w.satisfies p) (hl : ∀ e ∈ l, e.2.kind = e.1 ∧ S e.2)

include hS h hk hp in
lemma CacheHolds.satisfies_of_trusts (htrusts : w.trusts k p) : w.satisfies p := by
  unfold trusts at htrusts
  split at htrusts
  · next cached hcached =>
    obtain ⟨hkind, hcachedS, hverify⟩ := h k cached hcached
    split at htrusts
    · next b himplies =>
      subst htrusts
      exact hS hcachedS hp (hkind.trans hk.symm) himplies w.circuit hverify
    · cases htrusts
  · cases htrusts

include h hk hp hverify in
lemma CacheHolds.insert : CacheHolds S { w with cache := w.cache.insert k (p, true) } := by
  intro k' q hq
  rw [get?_insert] at hq
  split at hq
  · next hk' =>
    cases hq
    exact ⟨hk.trans hk'.symm, hp, hverify⟩
  · exact h k' q hq

include h hk hp hverify in
lemma CacheHolds.noted : (w.noted k p).CacheHolds S := by
  unfold Workpiece.noted
  split
  · exact h
  · exact h.insert hk hp hverify

include hS h hl in
lemma CacheHolds.checkEach : (w.checkEach l).2.CacheHolds S ∧ ((w.checkEach l).1 = none → ∀ e ∈ l, w.satisfies e.2) := by
  induction l generalizing w with
  | nil => exact ⟨h, fun _ => forall_mem_nil _⟩
  | cons e rest ih =>
    obtain ⟨kind, p⟩ := e
    obtain ⟨⟨hk, hp⟩, hrest⟩ := forall_mem_cons.mp hl
    rw [Workpiece.checkEach]
    split
    · next htrusts =>
      obtain ⟨hholds, hall⟩ := ih h hrest
      refine ⟨hholds, fun hnone => forall_mem_cons.mpr ⟨?_, hall hnone⟩⟩
      exact h.satisfies_of_trusts hS hk hp htrusts
    · split
      · next hverify =>
        obtain ⟨hholds, hall⟩ := ih (h.noted hk hp hverify) hrest
        refine ⟨hholds, fun hnone => forall_mem_cons.mpr ⟨hverify, fun e he => ?_⟩⟩
        exact (noted_same w kind p).satisfies_eq e.2 ▸ hall hnone e he
      · exact ⟨h, fun hnone => by cases hnone⟩

include h hlead in
/-- After a transformation that kept its contract, what is still presumed true is true of the new circuit. -/
lemma CacheHolds.clearUnkept : (Workpiece.clearUnkept { w with circuit := c, maps := maps } a.post).CacheHolds S := by
  intro k p hp
  unfold Workpiece.clearUnkept at hp
  rw [get?_mapValues] at hp
  obtain ⟨⟨q, _⟩, hq, heq⟩ := Option.map_eq_some_iff.mp hp
  simp only [Prod.mk.injEq, Bool.and_eq_true, decide_eq_true_eq] at heq
  obtain ⟨rfl, rfl, hkeep⟩ := heq
  obtain ⟨hk, hqS, hverify⟩ := h k q hq
  refine ⟨hk, hqS, hlead.keeps q hqS ?_ hverify⟩
  rw [hk]
  exact hkeep

include h hl in
lemma CacheHolds.recordEach (hverify : ∀ e ∈ l, w.satisfies e.2) : (recordEach mode w l).2.CacheHolds S := by
  induction l generalizing w with
  | nil => exact h
  | cons e rest ih =>
    obtain ⟨⟨hk, hp⟩, hrest⟩ := forall_mem_cons.mp hl
    obtain ⟨hfirst, hothers⟩ := forall_mem_cons.mp hverify
    rw [Workpiece.recordEach, if_neg (by simp [hfirst])]
    exact ih (h.insert hk hp hfirst) hrest hothers

lemma CacheHolds.recordPostconditions (h : w.CacheHolds S) (ha : a.Within S) (hlead : a.Leads S w.circuit c) :
    (Workpiece.recordPostconditions { w with circuit := c, maps := maps } a.post mode).2.CacheHolds S :=
  (h.clearUnkept hlead).recordEach (fun e he => ha.specific e.1 e.2 (get?_iff_mem.mpr he)) fun e he =>
    hlead.ensures e.2 (mem_map_of_mem he)

/-! ### New workpieces -/

lemma CacheHolds.seeded (h : w.CacheHolds S) (htargets : ∀ k, At S k (w.targets.get? k)) : w.seeded.CacheHolds S := by
  have hfold : ∀ (l : List (PredicateKind × Predicate)) (cache : PredicateCache),
      (∀ e ∈ l, e.2.kind = e.1 ∧ S e.2) → CacheHolds S { w with cache } →
      CacheHolds S { w with cache := l.foldl (fun cache e => cache.insert e.1 (e.2, w.satisfies e.2)) cache } := by
    intro l
    induction l with
    | nil => exact fun _ _ hcache => hcache
    | cons e rest ih =>
      intro cache hl hcache
      obtain ⟨⟨hk, hp⟩, hrest⟩ := forall_mem_cons.mp hl
      refine ih _ hrest fun k q hq => ?_
      rw [get?_insert] at hq
      split at hq
      · next heq =>
        obtain ⟨rfl, hverify⟩ := Prod.mk.inj (Option.some.inj hq)
        exact ⟨hk.trans heq.symm, hp, hverify⟩
      · exact hcache k q hq
  refine hfold _ _ (fun e he => ?_) h
  exact htargets e.1 e.2 (get?_iff_mem.mpr he)

/-- **A workpiece that no pass has touched**: a circuit without targets, or with targets in `S`. -/
inductive Fresh (S : Predicate → Prop) : Workpiece → Prop
  | ofCircuit (c : Circuit) : Fresh S (ofCircuit c)
  | withTargets (c : Circuit) {targets : List Predicate} : (∀ p ∈ targets, S p) → Fresh S (withTargets c targets)

lemma cacheHolds_ofCircuit (c : Circuit) (targets : PredicateMap) :
    CacheHolds S { ofCircuit c with targets } := by
  intro k p hp
  cases hp

lemma Fresh.cacheHolds (h : w.Fresh S) : w.CacheHolds S := by
  cases h with
  | ofCircuit c => exact cacheHolds_ofCircuit c .empty
  | withTargets c htargets => exact (cacheHolds_ofCircuit c _).seeded (at_mapOf htargets)

end Workpiece

/-! ## Single transformations -/

variable {σ : Type} {S : Predicate → Prop} {a : Contract} {t : Transform σ} {mode : SafetyMode} {s : Session σ}
  {d d' : Draft σ} {pre : List Predicate} {w : Workpiece} {α : Type}

/-- **A transformation that keeps its contract.** -/
structure Transform.Keeps (S : Predicate → Prop) (a : Contract) (t : Transform σ) : Prop where
  within : a.Within S
  leads : ∀ d x d', a.pre.Holds d.circuit → t d = .ok x d' → a.Leads S d.circuit d'.circuit

/-- **… and leaves the circuit as it was if it fails.** -/
structure Transform.KeepsOrFails (S : Predicate → Prop) (a : Contract) (t : Transform σ) : Prop
    extends Transform.Keeps S a t where
  fails : ∀ d e d', a.pre.Holds d.circuit → t d = .error e d' → d'.circuit = d.circuit

lemma Run.check_of_some {step : Workpiece → Option Predicate × Workpiece} {p : Predicate}
    (h : step s.piece = (some p, w)) : Run.check step s = .error (.failed (.unsatisfied p.text)) ⟨w, s.ambient⟩ := by
  unfold Run.check
  rw [h]

/-- **How requirements are checked on a right cache**, whatever the mode: the cache stays right, and if nothing is found
    then all of them hold. -/
theorem Workpiece.CacheHolds.meets (hS : Predicate.SoundImplications S) (hw : w.CacheHolds S) (ha : a.Within S) :
    ∃ found w', (∀ mode, w.meetRequirements a.pre mode = (found, w')) ∧ w'.CacheHolds S ∧ w'.SameButCache w ∧
      (found = none → a.pre.Holds w.circuit) := by
  obtain ⟨hright, hall⟩ := hw.checkEach hS ha.pre_entries
  have hpass : (w.checkEach a.pre.entries).1 = none → a.pre.Holds w.circuit := fun hnone =>
    forall_mem_map.mpr (hall hnone)
  exact ⟨_, _, fun mode => Prod.ext (fst_meetRequirements mode hpass) (snd_meetRequirements ..), hright,
    checkEach_same .., hpass⟩

/-- **How a transformation that keeps its contract runs**: it fails at its requirements, or it runs where all of them
    hold, fails by itself, or its promises are recorded. The mode does not matter. -/
theorem Run.standard_of_meets (ht : Transform.Keeps S a t) (hmode : mode ≠ .off)
    (hpass : (s.piece.meetRequirements a.pre mode).1 = none → a.pre.Holds s.piece.circuit) : Run.standard a mode t s =
      match s.piece.meetRequirements a.pre mode with
      | (some p, w) => .error (.failed (.unsatisfied p.text)) ⟨w, s.ambient⟩
      | (none, w) => match t ⟨s.piece.circuit, s.piece.maps, s.ambient⟩ with
        | .error e d => .error (.failed e) ⟨{ w with circuit := d.circuit, maps := d.maps }, d.ambient⟩
        | .ok x d => .ok x ⟨(Workpiece.recordPostconditions { w with circuit := d.circuit, maps := d.maps } a.post
            .standard).2, d.ambient⟩ := by
  have hsame := Workpiece.meetRequirements_same s.piece a.pre mode
  unfold Run.standard
  rw [if_pos hmode]
  cases hmeet : s.piece.meetRequirements a.pre mode with
  | mk found w =>
    rw [hmeet] at hpass hsame
    cases found with
    | some p => exact bind_error (Run.check_of_some hmeet)
    | none =>
      rw [bind_ok (Run.check_of_none hmeet)]
      cases hdraft : t ⟨s.piece.circuit, s.piece.maps, s.ambient⟩ with
      | error e d =>
        have htransform : Run.transform t ⟨w, s.ambient⟩ =
            .error (.failed e) ⟨{ w with circuit := d.circuit, maps := d.maps }, d.ambient⟩ := by
          unfold Run.transform
          rw [hsame.circuit, hsame.maps, hdraft]
        exact bind_error htransform
      | ok x d =>
        have htransform : Run.transform t ⟨w, s.ambient⟩ =
            .ok x ⟨{ w with circuit := d.circuit, maps := d.maps }, d.ambient⟩ := by
          unfold Run.transform
          rw [hsame.circuit, hsame.maps, hdraft]
        have hensures := (ht.leads _ x d (hpass rfl) hdraft).ensures
        exact (bind_ok htransform).trans
          (bind_ok (Run.check_of_none (Workpiece.recordPostconditions_of_holds mode hensures)))

/-! ## Transformations of the library -/

lemma Transform.keepsOrFails_flattenRegisters (hpre : ∀ p ∈ pre, p.Standard) : Transform.KeepsOrFails Predicate.Standard
      ⟨Predicate.mapOf pre, Predicate.mapOf [.property .defaultRegister], .empty, .clear⟩
      (Transform.flattenRegisters : Transform σ) where
  within := Contract.within_of_mapOf hpre (by simp [Predicate.Standard])
  leads d x d' _ hrun := by
    refine ⟨fun p hp => ?_, fun p _ hkeep => (by cases hkeep)⟩
    obtain rfl := mem_singleton.mp hp
    exact Pass.isSimple_flattenRegisters hrun
  fails d e d' _ hrun := by
    rcases Transform.flattenRegisters_cases d with ⟨_, hok⟩ | ⟨_, _, hok, _⟩ | ⟨_, herror⟩
    · cases hok.symm.trans hrun
    · cases hok.symm.trans hrun
    · cases herror.symm.trans hrun
      rfl

lemma Transform.keepsOrFails_idle (hpre : ∀ p ∈ pre, p.Standard) :
    Transform.KeepsOrFails Predicate.Standard ⟨Predicate.mapOf pre, .empty, .empty, .preserve⟩
      (fun d => .ok false d : Transform σ) where
  within := Contract.within_of_mapOf hpre (forall_mem_nil _)
  leads d x d' _ hrun := by
    cases hrun
    exact ⟨forall_mem_nil _, fun _ _ _ => id⟩
  fails d e d' _ hrun := by cases hrun

/-! # `SafetyMode.audit` — what audits find -/

/-! ## Audits and standard runs -/

/-- **An audit beside a standard run**: the same workpiece, with a right cache as long as the runs go on. -/
def Tie.audited (S : Predicate → Prop) : Tie σ σ where
  piece w w' := w = w' ∧ w'.CacheHolds S
  wreck w w' := w = w'
  ambient x x' := x = x'
  cause e e' := e = e'
  circuit_eq := Workpiece.CacheHolds.circuit_eq
  wreck_of_piece h := h.1
  exhausted := rfl

lemma Tie.hooked_audited (hook : Option (Hook σ)) : (Tie.audited S).Hooked hook hook := by
  cases hook with
  | none => exact True.intro
  | some hook =>
    rintro w _ _ x _ ⟨rfl, _⟩ rfl
    rfl

/-- **A transformation that keeps its contract comes through an audit as it does through a standard run.** -/
theorem Run.matched_audited (hS : Predicate.SoundImplications S) (ht : Transform.Keeps S a t) :
    Run.Matched (Tie.audited S) Eq (Run.standard a .audit t) (Run.standard a .standard t) := by
  rintro ⟨w, x⟩ ⟨_, _⟩ ⟨⟨rfl, hw⟩, rfl⟩
  obtain ⟨found, w1, hmeet, hright, hsame, hpass⟩ := hw.meets hS ht.within
  rw [Run.standard_of_meets ht (by decide) (by rwa [hmeet]), Run.standard_of_meets ht (by decide) (by rwa [hmeet]),
    hmeet, hmeet]
  cases found with
  | some p => exact .error rfl rfl rfl
  | none =>
    cases hdraft : t ⟨w.circuit, w.maps, x⟩ with
    | error e d => exact .error rfl rfl rfl
    | ok y d =>
      have hlead := ht.leads _ y d (hpass rfl) hdraft
      exact .ok rfl ⟨⟨rfl, hright.recordPostconditions ht.within (by rwa [hsame.circuit])⟩, rfl⟩

/-! ## Audits and caches -/

namespace Workpiece

variable {w : Workpiece} {pre : PredicateMap} {post : Postconditions} {l : List (PredicateKind × Predicate)}

lemma meetRequirements_audit : (w.meetRequirements pre .audit).1 = none ↔ pre.Holds w.circuit := by
  refine ⟨fun hnone => ?_, meetRequirements_of_holds .audit⟩
  have hsame := checkEach_same w pre.entries
  unfold meetRequirements at hnone
  cases hcheck : w.checkEach pre.entries with
  | mk found w' =>
    rw [hcheck] at hnone hsame
    cases found with
    | some p => cases hnone
    | none =>
      intro p hp
      have hverify := find?_eq_none.mp hnone p hp
      rw [hsame.satisfies_eq] at hverify
      simpa [satisfies] using hverify

lemma recordEach_audit : (recordEach .audit w l).1 = none ↔ ∀ e ∈ l, w.satisfies e.2 := by
  induction l generalizing w with
  | nil => exact ⟨fun _ => forall_mem_nil _, fun _ => rfl⟩
  | cons e rest ih =>
    rw [recordEach, forall_mem_cons]
    by_cases hfirst : w.satisfies e.2
    · rw [if_neg (by simp [hfirst]), ih]
      exact ⟨fun hrest => ⟨hfirst, hrest⟩, fun h => h.2⟩
    · rw [if_pos (by simp [hfirst])]
      exact ⟨fun h => (by cases h), fun h => absurd h.1 hfirst⟩

lemma recordPostconditions_audit : (w.recordPostconditions post .audit).1 = none ↔ post.specific.Holds w.circuit := by
  unfold recordPostconditions PredicateMap.Holds SortedMap.values
  rw [recordEach_audit, forall_mem_map]
  rfl

end Workpiece

/-- **Two audits that differ in their caches only.** They may complain about different predicates. -/
def Tie.cachesApart : Tie σ σ where
  piece := Workpiece.SameButCache
  wreck := Workpiece.SameButCache
  ambient x x' := x = x'
  cause e e' := e = .exhausted ↔ e' = .exhausted
  circuit_eq h := h.circuit
  wreck_of_piece h := h
  exhausted := Iff.rfl

namespace Run

lemma matched_check {step : Workpiece → Option Predicate × Workpiece} {P : Circuit → Prop}
    (hsame : ∀ w, (step w).2.SameButCache w) (hstep : ∀ w, (step w).1 = none ↔ P w.circuit) :
    Matched (Tie.cachesApart (σ := σ)) Eq (check step) (check step) := by
  rintro ⟨w, x⟩ ⟨w', _⟩ ⟨hw, rfl⟩
  have hend := (hsame w).trans (hw.trans (hsame w').symm)
  have hboth : (step w).1 = none ↔ (step w').1 = none := by rw [hstep, hstep, hw.circuit]
  unfold check
  generalize step w = r at hend hboth
  generalize step w' = r' at hend hboth
  obtain ⟨_ | p, w1⟩ := r
  · obtain ⟨found, w1'⟩ := r'
    cases hboth.mp rfl
    exact .ok rfl ⟨hend, rfl⟩
  · obtain ⟨_ | p', w1'⟩ := r'
    · cases hboth.mpr rfl
    · exact .error (iff_of_false (by simp) (by simp)) hend rfl

lemma matched_transform (t : Transform σ) : Matched Tie.cachesApart Eq (transform t) (transform t) := by
  rintro ⟨w, x⟩ ⟨w', _⟩ ⟨hw, rfl⟩
  unfold transform
  rw [hw.circuit, hw.maps]
  cases t ⟨w'.circuit, w'.maps, x⟩ with
  | ok y d => exact .ok rfl ⟨⟨rfl, hw.targets, rfl⟩, rfl⟩
  | error e d => exact .error (iff_of_false (by simp) (by simp)) ⟨rfl, hw.targets, rfl⟩ rfl

lemma matched_cachesApart (a : Contract) (t : Transform σ) :
    Matched Tie.cachesApart Eq (standard a .audit t) (standard a .audit t) := by
  unfold standard
  have hrequired : Matched (Tie.cachesApart (σ := σ)) Eq (check fun w => w.meetRequirements a.pre .audit)
      (check fun w => w.meetRequirements a.pre .audit) :=
    matched_check (fun w => Workpiece.meetRequirements_same w _ _) fun w => Workpiece.meetRequirements_audit
  have hpromised : Matched (Tie.cachesApart (σ := σ)) Eq (check fun w => w.recordPostconditions a.post .audit)
      (check fun w => w.recordPostconditions a.post .audit) :=
    matched_check (fun w => Workpiece.recordPostconditions_same w _ _) fun w => Workpiece.recordPostconditions_audit
  apply hrequired.bind
  intro _ _ _
  apply (matched_transform t).bind
  intro x y hxy
  apply hpromised.bind
  intro _ _ _
  exact .pure hxy

end Run

/-- **Hooks that do not look at the cache.** -/
def Hooks.IgnoreCache (hooks : Hooks σ) : Prop :=
  ∀ hook, hook ∈ hooks.before ∨ hook ∈ hooks.after → ∀ w w' : Workpiece, w.SameButCache w' → hook w = hook w'

lemma Tie.hooked_cachesApart {hook : Option (Hook σ)}
    (h : ∀ f ∈ hook, ∀ w w' : Workpiece, w.SameButCache w' → f w = f w') : Tie.cachesApart.Hooked hook hook := by
  cases hook with
  | none => exact True.intro
  | some f =>
    rintro w w' config x _ hw rfl
    show f w config x = f w' config x
    rw [h f rfl w w' hw]

/-! ## Trees -/

namespace Pass

variable {p : Pass σ} {s : Session σ}

/-- **An audit agrees with a standard run.** If the transformations of the tree keep their contracts and what the cache
    presumes is true, then both end in the same outcome with the same answer, and leave the same circuit, the same unit
    maps and the same cache. -/
theorem apply_audit_eq (hS : Predicate.SoundImplications S) (hp : p.Over (Transform.Keeps S)) (fuel : Nat)
    (hooks : Hooks σ) (hs : s.piece.CacheHolds S) : p.apply fuel .audit hooks s = p.apply fuel .standard hooks s := by
  have hmatched : Run.Matched (Tie.audited S) Eq (p.apply fuel .audit hooks) (p.apply fuel .standard hooks) := by
    refine hp.alike.matched (Tie.hooked_audited hooks.before) (Tie.hooked_audited hooks.after) ?_
    rintro a t _ ⟨ht, rfl⟩
    exact Run.matched_audited hS ht
  have houtcomes := hmatched s s ⟨⟨rfl, hs⟩, rfl⟩
  generalize p.apply fuel .audit hooks s = r at houtcomes
  generalize p.apply fuel .standard hooks s = r' at houtcomes
  cases houtcomes with
  | @ok x y s₁ s₁' hxy hend =>
    obtain ⟨⟨hpiece, _⟩, hambient⟩ := hend
    cases s₁'
    cases hxy
    cases hpiece
    cases hambient
    rfl
  | @error e e' s₁ s₁' hcause hpiece hambient =>
    cases s₁'
    cases hcause
    cases hpiece
    cases hambient
    rfl

/-- A qubit of another register is moved in the first of two rounds; what a second pass requires is then presumed. -/
theorem apply_audit_eq_flatten :
    let flatten : Pass Unit := .standard "Flatten"
      ⟨Predicate.mapOf [.maxQubits 3], Predicate.mapOf [.property .defaultRegister], .empty, .clear⟩
      Transform.flattenRegisters .empty
    let rest : Pass Unit := .standard "Rest" ⟨Predicate.mapOf [.property .defaultRegister], .empty, .empty, .preserve⟩
      (fun d => .ok false d) .empty
    let p : Pass Unit := .sequence [.repeated flatten {}, rest] true {}
    ∃ c s', ({} : Circuit).edited (Circuit.addUnit ⟨.qubit, "a", [0]⟩) = .ok c ∧ p.Over (Transform.Keeps Predicate.Standard) ∧
      (Workpiece.withTargets c [.maxQubits 2]).CacheHolds Predicate.Standard ∧
      p.apply 3 .standard {} ⟨.withTargets c [.maxQubits 2], ()⟩ = .ok true s' ∧
      p.apply 3 .audit {} ⟨.withTargets c [.maxQubits 2], ()⟩ = .ok true s' := by
  intro flatten rest p
  have hflatten : flatten.Over (Transform.Keeps Predicate.Standard) :=
    .standard (Transform.keepsOrFails_flattenRegisters (by simp [Predicate.Standard])).toKeeps
  have hrest : rest.Over (Transform.Keeps Predicate.Standard) :=
    .standard (Transform.keepsOrFails_idle (by simp [Predicate.Standard])).toKeeps
  have hp : p.Over (Transform.Keeps Predicate.Standard) :=
    .sequence (List.forall_mem_cons.mpr ⟨.repeated hflatten, List.forall_mem_singleton.mpr hrest⟩)
  simp only [exists_and_left]
  refine exists_run fun c hc => ?_
  have hright : (Workpiece.withTargets c [.maxQubits 2]).CacheHolds Predicate.Standard :=
    (Workpiece.Fresh.withTargets c (by simp [Predicate.Standard])).cacheHolds
  have heq := apply_audit_eq Predicate.reliable_standard.implies hp 3 {} (s := ⟨.withTargets c [.maxQubits 2], ()⟩) hright
  exact ⟨hp, hright, exists_and_of (of_run hc (by decide +kernel)) fun s' hrun => heq.trans hrun⟩

/-- **Audits do not rely on the cache.** Two audits of one tree, with whatever contracts and transformations, from
    workpieces that differ in their caches only: both succeed with the same answer or both fail, and they leave the same
    circuit and the same unit maps. -/
theorem audit_ignores_cache (p : Pass σ) (fuel : Nat) {hooks : Hooks σ} (hhooks : hooks.IgnoreCache) {w w' : Workpiece}
    (hw : w.SameButCache w') (x : σ) :
    match p.apply fuel .audit hooks ⟨w, x⟩, p.apply fuel .audit hooks ⟨w', x⟩ with
    | .ok changed s, .ok changed' s' => changed = changed' ∧ s.piece.SameButCache s'.piece ∧ s.ambient = s'.ambient
    | .error e s, .error e' s' =>
      (e = .exhausted ↔ e' = .exhausted) ∧ s.piece.SameButCache s'.piece ∧ s.ambient = s'.ambient
    | _, _ => False := by
  have hall : p.Over fun _ _ => True := over_of_forall (fun _ _ => True.intro) p
  have hmatched : Run.Matched Tie.cachesApart Eq (p.apply fuel .audit hooks) (p.apply fuel .audit hooks) := by
    refine hall.alike.matched (Tie.hooked_cachesApart fun f hf => hhooks f (.inl hf))
      (Tie.hooked_cachesApart fun f hf => hhooks f (.inr hf)) ?_
    rintro a t _ ⟨_, rfl⟩
    exact Run.matched_cachesApart a _
  have houtcomes := hmatched ⟨w, x⟩ ⟨w', x⟩ ⟨hw, rfl⟩
  generalize p.apply fuel .audit hooks ⟨w, x⟩ = r at houtcomes
  generalize p.apply fuel .audit hooks ⟨w', x⟩ = r' at houtcomes
  cases houtcomes with
  | ok hxy hend => exact ⟨hxy, hend.piece, hend.ambient⟩
  | error hcause hpiece hambient => exact ⟨hcause, hpiece, hambient⟩

/-- A cache presumes that there is no qubit, and a pass that moves one promises the same: its audit fails from this
    cache as it does from an empty one, after the qubit was moved. -/
theorem audit_ignores_cache_lies :
    let flatten : Pass Unit := .standard "Flatten"
      ⟨Predicate.mapOf [.maxQubits 3], Predicate.mapOf [.maxQubits 0], .empty, .preserve⟩
      Transform.flattenRegisters .empty
    let p : Pass Unit := .repeated flatten {}
    ∃ (c : Circuit) (w : Workpiece) (s s' : Session Unit) (e e' : Halt),
      ({} : Circuit).edited (Circuit.addUnit ⟨.qubit, "a", [0]⟩) = .ok c ∧
      w = { Workpiece.ofCircuit c with cache := SortedMap.empty.insert .maxQubits (.maxQubits 0, true) } ∧
      w.satisfies (.maxQubits 0) = false ∧ ({} : Hooks Unit).IgnoreCache ∧ (Workpiece.ofCircuit c).SameButCache w ∧
      p.apply 3 .audit {} ⟨.ofCircuit c, ()⟩ = .error e s ∧ p.apply 3 .audit {} ⟨w, ()⟩ = .error e' s' ∧
      s.piece.circuit.units = [⟨.qubit, "q", [0]⟩] ∧ s.piece.SameButCache s'.piece := by
  intro flatten p
  have hhooks : ({} : Hooks Unit).IgnoreCache := fun hook h => by simp at h
  obtain ⟨c, hc, _⟩ : ∃ c, ({} : Circuit).edited (Circuit.addUnit ⟨.qubit, "a", [0]⟩) = .ok c ∧ True := by decide +kernel
  have hsame : (Workpiece.ofCircuit c).SameButCache
      { Workpiece.ofCircuit c with cache := SortedMap.empty.insert .maxQubits (.maxQubits 0, true) } := ⟨rfl, rfl, rfl⟩
  obtain ⟨e, s, hrun, hunits⟩ : ∃ e s, p.apply 3 .audit {} ⟨.ofCircuit c, ()⟩ = .error e s ∧
      s.piece.circuit.units = [⟨.qubit, "q", [0]⟩] := of_run hc (by decide +kernel)
  have hboth := audit_ignores_cache p 3 hhooks hsame ()
  rw [hrun] at hboth
  split at hboth
  · next heq _ => cases heq
  · next e₁ s₁ e' s' heq hrun' =>
    cases heq
    exact ⟨c, _, s, s', e, e', hc, rfl, of_run hc (by decide +kernel), hhooks, hsame, hrun, hrun', hunits, hboth.2.1⟩
  · exact hboth.elim

end Pass

end Wireloom
