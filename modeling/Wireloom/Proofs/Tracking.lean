import Wireloom.Proofs.Cache

/-!
# `UnitBimap.Represents`, `UnitMaps.Tracks` — unit maps in step with the circuit

A circuit renames its boundary and a bimap renames its right units, each in its own way.
-/

namespace Wireloom

namespace UnitBimap

open SortedMap List

variable {m : UnitBimap} {R R' : UnitId → UnitId → Prop} {u u' w w' l r : UnitId}

/-- **The bimap pairs the units that `R` relates**, in both directions. -/
structure Represents (m : UnitBimap) (R : UnitId → UnitId → Prop) : Prop where
  right : ∀ {u w}, m.right? u = some w ↔ R u w
  left : ∀ {u w}, m.left? w = some u ↔ R u w

/-- The bimap read from right to left. -/
def swap (m : UnitBimap) : UnitBimap := ⟨m.lefts, m.rights⟩

lemma eraseLeft_eq_swap (m : UnitBimap) (l : UnitId) : m.eraseLeft l = (m.swap.eraseRight l).swap := by
  unfold eraseLeft eraseRight
  rw [show m.swap.left? l = m.right? l from rfl]
  cases m.right? l <;> rfl

namespace Represents

lemma swap (h : m.Represents R) : m.swap.Represents fun w u => R u w := ⟨h.left, h.right⟩

lemma congr (h : m.Represents R) (hR : ∀ u w, R u w ↔ R' u w) : m.Represents R' where
  right := h.right.trans (hR _ _)
  left := h.left.trans (hR _ _)

lemma functional (h : m.Represents R) (hw : R u w) (hw' : R u w') : w = w' := by
  rw [← h.right] at hw hw'
  simpa [hw] using hw'

lemma injective (h : m.Represents R) (hu : R u w) (hu' : R u' w) : u = u' := h.swap.functional hu hu'

lemma unique {m' : UnitBimap} (h : m.Represents R) (h' : m'.Represents R) : m' = m := by
  have hrights : m'.rights = m.rights := ext_get? fun _ => Option.ext fun _ => h'.right.trans h.right.symm
  have hlefts : m'.lefts = m.lefts := ext_get? fun _ => Option.ext fun _ => h'.left.trans h.left.symm
  exact congrArg₂ UnitBimap.mk hrights hlefts

lemma empty : UnitBimap.empty.Represents fun _ _ => False := ⟨by simp [UnitBimap.empty, right?],
  by simp [UnitBimap.empty, left?]⟩

/-! ## Single pairs -/

section

variable (h : m.Represents R)
include h

lemma eraseRight (r : UnitId) : (m.eraseRight r).Represents fun u w => R u w ∧ w ≠ r := by
  unfold UnitBimap.eraseRight
  cases hr : m.left? r with
  | none =>
    refine h.congr fun u w => ⟨fun hR => ⟨hR, ?_⟩, And.left⟩
    rintro rfl
    rw [h.left.mpr hR] at hr
    cases hr
  | some l =>
    have hl : R l r := h.left.mp hr
    constructor
    · intro u w
      show (m.rights.erase l).get? u = some w ↔ _
      rw [get?_erase]
      by_cases hu : u = l
      · subst hu
        simpa using fun hR => h.functional hR hl
      · rw [if_neg hu]
        refine h.right.trans ⟨fun hR => ⟨hR, ?_⟩, And.left⟩
        rintro rfl
        exact hu (h.injective hR hl)
    · intro u w
      show (m.lefts.erase r).get? w = some u ↔ _
      rw [get?_erase]
      by_cases hw : w = r
      · simp [hw]
      · rw [if_neg hw]
        exact h.left.trans ⟨fun hR => ⟨hR, hw⟩, And.left⟩

lemma eraseLeft (l : UnitId) : (m.eraseLeft l).Represents fun u w => R u w ∧ u ≠ l := by
  rw [eraseLeft_eq_swap]
  exact (h.swap.eraseRight l).swap

lemma insert (l r : UnitId) : (m.insert l r).Represents fun u w => (u = l ∧ w = r) ∨ (R u w ∧ u ≠ l ∧ w ≠ r) := by
  have hrest := (h.eraseRight r).eraseLeft l
  constructor
  · intro u w
    show (SortedMap.insert _ l r).get? u = some w ↔ _
    rw [get?_insert]
    by_cases hu : u = l
    · simp [hu, eq_comm]
    · rw [if_neg hu]
      refine hrest.right.trans ?_
      simp [hu]
  · intro u w
    show (SortedMap.insert _ r l).get? w = some u ↔ _
    rw [get?_insert]
    by_cases hw : w = r
    · simp [hw, eq_comm]
    · rw [if_neg hw]
      refine hrest.left.trans ?_
      simp [hw]

/-! ## Many pairs -/

lemma eraseAll (us : List UnitId) : (us.foldl UnitBimap.eraseRight m).Represents fun u w => R u w ∧ w ∉ us := by
  induction us generalizing m R with
  | nil => exact h.congr fun u w => by simp
  | cons r rest ih =>
    refine (ih (h.eraseRight r)).congr fun u w => ?_
    simp [and_assoc]

/-- **Pairs put in one after the other**, whatever they put out. What is there afterwards was there before or is put in, and
    stays unless another pair takes one of its units. -/
lemma insertAll (ps : List (UnitId × UnitId)) : ∃ R', (ps.foldl (fun m p => m.insert p.1 p.2) m).Represents R' ∧
    (∀ {u w}, R' u w → R u w ∨ (u, w) ∈ ps) ∧
    ∀ {u w}, R u w ∨ (u, w) ∈ ps → (∀ p ∈ ps, u = p.1 ↔ w = p.2) → R' u w := by
  induction ps generalizing m R with
  | nil => exact ⟨R, h, .inl, fun hR _ => by simpa using hR⟩
  | cons p rest ih =>
    obtain ⟨R', hrest, hold, hstay⟩ := ih (h.insert p.1 p.2)
    refine ⟨R', hrest, fun hR' => ?_, fun {u w} hR hone => ?_⟩
    · rcases hold hR' with (⟨rfl, rfl⟩ | ⟨hR, _⟩) | hmem
      · exact .inr mem_cons_self
      · exact .inl hR
      · exact .inr (mem_cons_of_mem p hmem)
    · obtain ⟨hp, hone⟩ := forall_mem_cons.mp hone
      refine hstay ?_ hone
      rw [mem_cons, Prod.ext_iff] at hR
      tauto

end

lemma identity (units : List UnitId) : (UnitBimap.identity units).Represents fun u w => u ∈ units ∧ w = u := by
  obtain ⟨R', hpairs, hold, hstay⟩ := empty.insertAll (units.map fun u => (u, u))
  rw [foldl_map] at hpairs
  refine hpairs.congr fun u w => ⟨fun hR' => ?_, ?_⟩
  · obtain ⟨_, hmem, heq⟩ := mem_map.mp ((hold hR').resolve_left id)
    cases heq
    exact ⟨hmem, rfl⟩
  · rintro ⟨hmem, rfl⟩
    exact hstay (.inr (mem_map_of_mem hmem)) (by simp)

/-! ## Renaming -/

lemma extract (h : m.Represents R) (names : List (UnitId × UnitId)) (hnodup : (names.map Prod.fst).Nodup) :
    ((m.extract names).1.Represents fun u w => R u w ∧ w ∉ names.map Prod.fst) ∧
      ∀ u w, (u, w) ∈ (m.extract names).2 ↔ ∃ old, R u old ∧ (old, w) ∈ names := by
  induction names generalizing m R with
  | nil => exact ⟨h.congr fun u w => by simp, by simp [UnitBimap.extract]⟩
  | cons p rest ih =>
    obtain ⟨old, new⟩ := p
    obtain ⟨hnot, hnodup⟩ := nodup_cons.mp hnodup
    rw [UnitBimap.extract]
    cases hold : m.left? old with
    | none =>
      have hnone : ∀ u, ¬ R u old := by
        intro u hR
        rw [h.left.mpr hR] at hold
        cases hold
      obtain ⟨hkept, hmoved⟩ := ih h hnodup
      refine ⟨hkept.congr fun u w => ?_, fun u w => (hmoved u w).trans ?_⟩
      · rw [map_cons, mem_cons, not_or]
        refine and_congr_right fun hR => ⟨fun hw => ⟨?_, hw⟩, And.right⟩
        rintro rfl
        exact hnone u hR
      · refine exists_congr fun o => and_congr_right fun hR => ?_
        have hne : o ≠ old := by
          rintro rfl
          exact hnone u hR
        simp [hne]
    | some left =>
      have hleft : R left old := h.left.mp hold
      obtain ⟨hkept, hmoved⟩ := ih (h.eraseRight old) hnodup
      refine ⟨hkept.congr fun u w => ?_, fun u w => ?_⟩
      · simp [and_assoc]
      · show (u, w) ∈ (left, new) :: _ ↔ _
        rw [mem_cons, hmoved]
        constructor
        · rintro (heq | ⟨o, ⟨hR, _⟩, hmem⟩)
          · obtain ⟨rfl, rfl⟩ := Prod.mk.inj heq
            exact ⟨old, hleft, mem_cons_self⟩
          · exact ⟨o, hR, mem_cons_of_mem _ hmem⟩
        · rintro ⟨o, hR, hmem⟩
          rcases mem_cons.mp hmem with heq | hmem
          · obtain ⟨rfl, rfl⟩ := Prod.mk.inj heq
            exact .inl (by rw [h.injective hR hleft])
          · refine .inr ⟨o, ⟨hR, fun heq => hnot ?_⟩, hmem⟩
            exact mem_map.mpr ⟨(o, w), hmem, heq⟩

variable {ρ : Renaming}

/-- What stays and what is put in again are the pairs under their new names. -/
lemma renamed_iff (h : m.Represents R) : ((R u w ∧ w ∉ ρ.entries.map Prod.fst) ∨ (u, w) ∈ (m.extract ρ.entries).2) ↔
    ∃ old, R u old ∧ ρ.apply old = w := by
  rw [(h.extract ρ.entries (nodup_keys ρ)).2, mem_keys_iff]
  simp only [← get?_iff_mem, Renaming.apply]
  constructor
  · rintro (⟨hR, hnone⟩ | ⟨old, hR, hnew⟩)
    · refine ⟨w, hR, ?_⟩
      rw [Option.eq_none_iff_forall_ne_some.mpr (not_exists.mp hnone)]
      rfl
    · refine ⟨old, hR, ?_⟩
      rw [hnew]
      rfl
  · rintro ⟨old, hR, rfl⟩
    cases hget : ρ.get? old with
    | none => exact .inl ⟨hR, by simp [hget]⟩
    | some new => exact .inr ⟨old, hR, hget⟩

lemma renameRight_any (h : m.Represents R) (ρ : Renaming) : ∃ R', (m.renameRight ρ).2.Represents R' ∧
    ∀ {u w}, R' u w → ∃ old, R u old ∧ ρ.apply old = w := by
  obtain ⟨R', hall, hold, _⟩ := (h.extract ρ.entries (nodup_keys ρ)).1.insertAll (m.extract ρ.entries).2
  exact ⟨R', hall, fun hR' => h.renamed_iff.mp (hold hR')⟩

lemma renameRight (h : m.Represents R) (hinj : ∀ {u w u' w'}, R u w → R u' w' → ρ.apply w = ρ.apply w' → w = w') :
    (m.renameRight ρ).2.Represents fun u w => ∃ old, R u old ∧ ρ.apply old = w := by
  obtain ⟨R', hall, hold, hstay⟩ := (h.extract ρ.entries (nodup_keys ρ)).1.insertAll (m.extract ρ.entries).2
  refine hall.congr fun u w => ⟨fun hR' => h.renamed_iff.mp (hold hR'), ?_⟩
  rintro ⟨old, hR, rfl⟩
  refine hstay (h.renamed_iff.mpr ⟨old, hR, rfl⟩) ?_
  rintro ⟨u', _⟩ hmem
  obtain ⟨_, hR', rfl⟩ := h.renamed_iff.mp (.inr hmem)
  constructor
  · rintro rfl
    rw [h.functional hR hR']
  · intro heq
    obtain rfl := hinj hR hR' heq
    exact h.injective hR hR'

/-- **The answer of a renaming**: whether the bimap is another one. A right unit that is renamed leaves its pair for good,
    even if the pair that takes its place is put out by a later one. -/
theorem changed_iff (h : m.Represents R) (ρ : Renaming) : (m.renameRight ρ).1 = true ↔ (m.renameRight ρ).2 ≠ m := by
  have hchanged : (m.renameRight ρ).1 = true ↔ ∃ l old, R l old ∧ ρ.apply old ≠ old := by
    show ρ.entries.any (fun p => (m.left? p.1).isSome && p.1 ≠ p.2) = true ↔ _
    simp only [any_eq_true, Bool.and_eq_true, decide_eq_true_eq, Option.isSome_iff_exists, h.left]
    constructor
    · rintro ⟨⟨old, new⟩, hmem, ⟨l, hR⟩, hne⟩
      refine ⟨l, old, hR, ?_⟩
      rw [Renaming.apply, get?_iff_mem.mpr hmem]
      exact hne.symm
    · rintro ⟨l, old, hR, hne⟩
      rw [Renaming.apply] at hne
      cases hget : ρ.get? old with
      | none => exact absurd (by rw [hget]; rfl) hne
      | some new =>
        rw [hget] at hne
        exact ⟨(old, new), get?_iff_mem.mp hget, ⟨l, hR⟩, hne.symm⟩
  rw [hchanged]
  constructor
  · rintro ⟨l, old, hR, hne⟩ hsame
    obtain ⟨R', hafter, hold⟩ := h.renameRight_any ρ
    rw [hsame] at hafter
    obtain ⟨_, hw, hnew⟩ := hold (hafter.right.mp (h.right.mpr hR))
    obtain rfl := h.functional hw hR
    exact hne hnew
  · intro hne
    by_contra hnone
    have hsame : ∀ {u w}, R u w → ρ.apply w = w := fun hR => not_not.mp fun hnew => hnone ⟨_, _, hR, hnew⟩
    refine hne (h.unique ((h.renameRight fun hR hR' heq => ?_).congr fun u w => ?_))
    · rwa [hsame hR, hsame hR'] at heq
    · constructor
      · rintro ⟨old, hR, rfl⟩
        rwa [hsame hR]
      · exact fun hR => ⟨w, hR, hsame hR⟩

end Represents

/-! ## Calls -/

/-- A call that changes a bimap. -/
inductive Step (m : UnitBimap) : UnitBimap → Prop
  | insert (left right : UnitId) : Step m (m.insert left right)
  | eraseRight (right : UnitId) : Step m (m.eraseRight right)
  | renameRight (ρ : Renaming) : Step m (m.renameRight ρ).2

/-- **The two directions of the bimap are inverse to each other.** -/
def Inverse (m : UnitBimap) : Prop := ∀ u w, m.right? u = some w ↔ m.left? w = some u

lemma Inverse.represents (h : m.Inverse) : m.Represents fun u w => m.right? u = some w := ⟨Iff.rfl, (h _ _).symm⟩

lemma Represents.inverse (h : m.Represents R) : m.Inverse := fun _ _ => h.right.trans h.left.symm

lemma Step.inverse {m' : UnitBimap} (hstep : m.Step m') (h : m.Inverse) : m'.Inverse := by
  cases hstep with
  | insert l r => exact (h.represents.insert l r).inverse
  | eraseRight r => exact (h.represents.eraseRight r).inverse
  | renameRight ρ =>
    obtain ⟨_, hafter, _⟩ := h.represents.renameRight_any ρ
    exact hafter.inverse

end UnitBimap

namespace UnitMaps

variable {maps maps' : UnitMaps} {σ : Type}

/-- A call that changes unit maps, or one of them. -/
inductive Step (maps : UnitMaps) : UnitMaps → Prop
  | initial {m : UnitBimap} : maps.initial.Step m → Step maps { maps with initial := m }
  | final {m : UnitBimap} : maps.final.Step m → Step maps { maps with final := m }
  | rename (initial final : Renaming) : Step maps (maps.rename initial final).2
  | addUnit {u : UnitId} {maps' : UnitMaps} : maps.addUnit u = .ok maps' → Step maps maps'
  | removeUnit (u : UnitId) : Step maps (maps.removeUnit u).2

lemma Step.inverse (hstep : maps.Step maps') (h : maps.initial.Inverse ∧ maps.final.Inverse) :
    maps'.initial.Inverse ∧ maps'.final.Inverse := by
  obtain ⟨hinitial, hfinal⟩ := h
  cases hstep with
  | initial hstep => exact ⟨hstep.inverse hinitial, hfinal⟩
  | final hstep => exact ⟨hinitial, hstep.inverse hfinal⟩
  | rename ρ ρ' => exact ⟨(UnitBimap.Step.renameRight ρ).inverse hinitial, (UnitBimap.Step.renameRight ρ').inverse hfinal⟩
  | @addUnit u _ hrun =>
    unfold UnitMaps.addUnit at hrun
    split at hrun
    · cases hrun
    · split at hrun
      · cases hrun
      · cases hrun
        exact ⟨(UnitBimap.Step.insert u u).inverse hinitial, (UnitBimap.Step.insert u u).inverse hfinal⟩
  | removeUnit u => exact ⟨(UnitBimap.Step.eraseRight u).inverse hinitial, (UnitBimap.Step.eraseRight u).inverse hfinal⟩

lemma maps_of_addUnit_error {u : UnitId} {d d' : Draft σ} {e : CompileError}
    (h : Transform.addUnit u d = .error e d') : d'.maps = d.maps := by
  unfold Transform.addUnit at h
  cases hrun : Circuit.addUnit u d.circuit with
  | error _ _ =>
    rw [bind_error (Drafting.edit_of_error hrun)] at h
    cases h
    rfl
  | ok _ _ =>
    rw [bind_ok (Drafting.edit_of_ok hrun), bind_get] at h
    cases hmaps : d.maps.addUnit u <;> rw [hmaps] at h <;> cases h
    rfl

/-- **Unit maps are one-to-one at every moment.** Whatever calls made them, both directions of each map are inverse to each
    other. A renaming that does not mix up right units renames the right unit of every pair; whatever the renaming is, it
    tells whether the map is another one. A unit that cannot be added leaves both maps as they are. -/
theorem bimaps_stay_inverse (hcalls : Relation.ReflTransGen Step {} maps) : (∀ m ∈ [maps.initial, maps.final], m.Inverse ∧
      (∀ ρ : Renaming, (∀ w w', (m.left? w).isSome = true → (m.left? w').isSome = true → ρ.apply w = ρ.apply w' → w = w') →
        ∀ u w, (m.renameRight ρ).2.right? u = some w ↔ ∃ old, m.right? u = some old ∧ ρ.apply old = w) ∧
      ∀ ρ : Renaming, (m.renameRight ρ).1 = true ↔ (m.renameRight ρ).2 ≠ m) ∧
    ∀ (u : UnitId) (d d' : Draft σ) (e : CompileError), d.maps = maps → Transform.addUnit u d = .error e d' →
      d'.maps = maps := by
  have hboth : maps.initial.Inverse ∧ maps.final.Inverse := by
    induction hcalls with
    | refl => exact ⟨UnitBimap.Represents.empty.inverse, UnitBimap.Represents.empty.inverse⟩
    | tail _ hstep ih => exact hstep.inverse ih
  have hinverse : ∀ m ∈ [maps.initial, maps.final], m.Inverse := by simpa using hboth
  refine ⟨fun m hm => ?_, fun u d d' e hd hrun => ?_⟩
  · have hrep := (hinverse m hm).represents
    refine ⟨hinverse m hm, fun ρ hinj u w => ?_, hrep.changed_iff⟩
    refine (hrep.renameRight fun hw hw' => hinj _ _ ?_ ?_).right
    · rw [hrep.left.mpr hw]; rfl
    · rw [hrep.left.mpr hw']; rfl
  · exact (maps_of_addUnit_error hrun).trans hd

/-- Two units are added and one takes the name of the other, which puts a pair out of both maps. -/
theorem bimaps_stay_inverse_collision : ∃ maps, Relation.ReflTransGen Step {} maps ∧
    maps.initial.pairs = [(.qubit 0, .qubit 1)] ∧ maps.initial.Inverse ∧
    ((maps.initial.renameRight (.ofList [(.qubit 1, .qubit 0)])).2 ≠ maps.initial ∧
      (maps.initial.renameRight (.ofList [(.qubit 1, .qubit 0)])).2.right? (.qubit 0) = some (.qubit 0)) := by
  let both : UnitBimap := .identity [.qubit 0, .qubit 1]
  let ρ : Renaming := .ofList [(.qubit 0, .qubit 1)]
  have hcalls : Relation.ReflTransGen Step {} (UnitMaps.rename ⟨both, both⟩ ρ ρ).2 :=
    .tail (.tail (.tail .refl (.addUnit (u := .qubit 0) rfl)) (.addUnit (u := .qubit 1) (by decide))) (.rename ρ ρ)
  obtain ⟨hinverse, hrename, hchanged⟩ := (bimaps_stay_inverse (σ := Unit) hcalls).1 _ List.mem_cons_self
  have hone : ∀ w, ((UnitMaps.rename ⟨both, both⟩ ρ ρ).2.initial.left? w).isSome → w ∈ [UnitId.qubit 1] := fun w hw =>
    SortedMap.mem_keys_iff.mpr (SortedMap.contains_iff.mp hw)
  refine ⟨_, hcalls, by decide, hinverse, (hchanged _).mp (by decide),
    (hrename _ (fun w w' hw hw' _ => ?_) _ _).mpr ⟨.qubit 1, by decide, by decide⟩⟩
  rw [List.mem_singleton.mp (hone w hw), List.mem_singleton.mp (hone w' hw')]

end UnitMaps

/-! # `Application.performAll` — applying trees one after the other -/

variable {σ : Type} {S : Predicate → Prop} {a : Contract} {t : Transform σ} {mode : SafetyMode}

/-! ## Noting what is run -/

/-- **A transformation that was run**: under which contract and on which circuit. -/
structure Call where
  contract : Contract
  circuit : Circuit

/-- The transformation was allowed to run. -/
def Call.Allowed (call : Call) : Prop := call.contract.pre.Holds call.circuit

/-- The transformation, which also notes that it was run. -/
def Transform.noting (a : Contract) (t : Transform σ) : Transform (σ × List Call) := fun d =>
  let calls := ⟨a, d.circuit⟩ :: d.ambient.2
  match t ⟨d.circuit, d.maps, d.ambient.1⟩ with
  | .ok x d' => .ok x ⟨d'.circuit, d'.maps, (d'.ambient, calls)⟩
  | .error e d' => .error e ⟨d'.circuit, d'.maps, (d'.ambient, calls)⟩

namespace Pass

mutual

/-- **The tree in which every transformation notes that it was run.** -/
def noting : Pass σ → Pass (σ × List Call)
  | standard name a t params => standard name a (t.noting a) params
  | sequence passes strict a => sequence (notingAll passes) strict a
  | repeated body a => repeated body.noting a
  | untilSatisfied body goal a => untilSatisfied body.noting goal a
  | whileImproving body metricName metric a => whileImproving body.noting metricName metric a

/-- The trees in which every transformation notes that it was run. -/
def notingAll : List (Pass σ) → List (Pass (σ × List Call))
  | [] => []
  | p :: rest => p.noting :: notingAll rest

end

lemma notingAll_eq_map (ps : List (Pass σ)) : notingAll ps = ps.map noting := by
  induction ps with
  | nil => simp [notingAll]
  | cons p rest ih => simp [notingAll, ih]

lemma Over.alike_noting {Q : Contract → Transform σ → Prop} {p : Pass σ} (h : p.Over Q) :
    Alike (fun a t' t => Q a t ∧ t' = t.noting a) p.noting p := by
  induction h with
  | standard ht => exact .standard ⟨ht, rfl⟩
  | @sequence ps strict a _ ih =>
    have hpairs : Alike (fun a t' t => Q a t ∧ t' = Transform.noting a t)
        (.sequence ((ps.map fun q => (q.noting, q)).map Prod.fst) strict a)
        (.sequence ((ps.map fun q => (q.noting, q)).map Prod.snd) strict a) := by
      refine .sequence ?_
      simpa using ih
    simpa [noting, notingAll_eq_map, Function.comp_def] using hpairs
  | repeated _ ih => exact .repeated ih
  | untilSatisfied _ ih => exact .untilSatisfied ih
  | whileImproving _ ih => exact .whileImproving ih

end Pass

/-- A hook that does not see the notes. -/
def Hooks.noting (hooks : Hooks σ) : Hooks (σ × List Call) where
  before := hooks.before.map fun hook w config x => (hook w config x.1, x.2)
  after := hooks.after.map fun hook w config x => (hook w config x.1, x.2)

/-- **A run that notes, beside the run itself**: the same workpiece with a right cache, and every call allowed. -/
def Tie.noting (S : Predicate → Prop) : Tie (σ × List Call) σ where
  piece w w' := w = w' ∧ w'.CacheHolds S
  wreck w w' := w = w' ∧ w'.CacheHolds S
  ambient x x' := x.1 = x' ∧ ∀ call ∈ x.2, call.Allowed
  cause e e' := e = e'
  circuit_eq := Workpiece.CacheHolds.circuit_eq
  wreck_of_piece h := h
  exhausted := rfl

lemma Tie.hooked_noting (hook : Option (Hook σ)) :
    (Tie.noting S).Hooked (hook.map fun hook w config x => (hook w config x.1, x.2)) hook := by
  cases hook with
  | none => exact True.intro
  | some hook =>
    rintro w _ config ⟨x, _⟩ _ ⟨rfl, _⟩ ⟨rfl, hcalls⟩
    exact ⟨rfl, hcalls⟩

lemma Transform.Keeps.noting (ht : Transform.Keeps S a t) : Transform.Keeps S a (t.noting a) where
  within := ht.within
  leads d x d' hpre hrun := by
    unfold Transform.noting at hrun
    split at hrun
    · next d1 hd1 =>
      cases hrun
      exact ht.leads _ _ d1 hpre hd1
    · cases hrun

/-- **One transformation keeps the cache right, and is only run where its requirements hold.** -/
theorem Run.matched_noting (hS : Predicate.SoundImplications S) (ht : Transform.KeepsOrFails S a t) (hmode : mode ≠ .off) :
    Run.Matched (Tie.noting S) Eq (Run.standard a mode (t.noting a)) (Run.standard a mode t) := by
  rintro ⟨w, x, calls⟩ ⟨_, _⟩ ⟨⟨rfl, hw⟩, ⟨rfl, hcalls⟩⟩
  obtain ⟨found, w1, hmeet, hright, hsame, hpass⟩ := hw.meets hS ht.within
  rw [Run.standard_of_meets ht.toKeeps.noting hmode (by rwa [hmeet]),
    Run.standard_of_meets ht.toKeeps hmode (by rwa [hmeet]), hmeet]
  cases found with
  | some p => exact .error rfl ⟨rfl, hright⟩ ⟨rfl, hcalls⟩
  | none =>
    have hpre : a.pre.Holds w.circuit := hpass rfl
    have hallowed : ∀ call ∈ (⟨a, w.circuit⟩ :: calls : List Call), call.Allowed :=
      List.forall_mem_cons.mpr ⟨hpre, hcalls⟩
    unfold Transform.noting
    cases hdraft : t ⟨w.circuit, w.maps, x⟩ with
    | error e d =>
      refine .error rfl ⟨rfl, ?_⟩ ⟨rfl, hallowed⟩
      -- the transformation failed, so the circuit is the one that the cache is about
      have hunchanged := (ht.fails _ e d hpre hdraft).trans hsame.circuit.symm
      rwa [hunchanged]
    | ok y d =>
      have hlead := ht.leads _ y d hpre hdraft
      exact .ok rfl ⟨⟨rfl, hright.recordPostconditions ht.within (by rwa [hsame.circuit])⟩, ⟨rfl, hallowed⟩⟩

/-! ## Whole runs -/

/-- **One application of a tree.** -/
structure Application (σ : Type) where
  pass : Pass σ
  mode : SafetyMode
  hooks : Hooks σ := {}
  fuel : Nat

namespace Application

/-- The state after the application, whether it succeeded or not. -/
def perform (app : Application σ) (s : Session σ) : Session σ :=
  match app.pass.apply app.fuel app.mode app.hooks s with
  | .ok _ s' => s'
  | .error _ s' => s'

/-- The state after applications one after the other. -/
def performAll (apps : List (Application σ)) (s : Session σ) : Session σ := apps.foldl (fun s app => app.perform s) s

/-- The application in which every transformation notes that it was run. -/
def noting (app : Application σ) : Application (σ × List Call) :=
  ⟨app.pass.noting, app.mode, app.hooks.noting, app.fuel⟩

lemma perform_noting (hS : Predicate.SoundImplications S) {app : Application σ} (hmode : app.mode ≠ .off)
    (happ : app.pass.Over (Transform.KeepsOrFails S)) {s : Session (σ × List Call)} {s' : Session σ}
    (hs : (Tie.noting S).Sessions s s') : (Tie.noting S).Sessions (app.noting.perform s) (app.perform s') := by
  have hmatched : Run.Matched (Tie.noting S) Eq (app.pass.noting.apply app.fuel app.mode app.hooks.noting)
      (app.pass.apply app.fuel app.mode app.hooks) := by
    refine happ.alike_noting.matched (Tie.hooked_noting _) (Tie.hooked_noting _) ?_
    rintro a _ t ⟨ht, rfl⟩
    exact Run.matched_noting hS ht hmode
  have houtcomes := hmatched s s' hs
  unfold perform noting
  generalize app.pass.noting.apply app.fuel app.mode app.hooks.noting s = r at houtcomes
  generalize app.pass.apply app.fuel app.mode app.hooks s' = r' at houtcomes
  cases houtcomes with
  | ok _ hend => exact hend
  | error _ hwreck hambient => exact ⟨hwreck, hambient⟩

lemma performAll_noting (hS : Predicate.SoundImplications S) {apps : List (Application σ)}
    (happs : ∀ app ∈ apps, app.mode ≠ .off ∧ app.pass.Over (Transform.KeepsOrFails S)) {s : Session (σ × List Call)}
    {s' : Session σ} (hs : (Tie.noting S).Sessions s s') :
    (Tie.noting S).Sessions (performAll (apps.map noting) s) (performAll apps s') := by
  induction apps generalizing s s' with
  | nil => exact hs
  | cons app rest ih =>
    obtain ⟨⟨hmode, happ⟩, hrest⟩ := List.forall_mem_cons.mp happs
    exact ih hrest (perform_noting hS hmode happ hs)

/-- **What the cache presumes is true, after every run.** However many trees over transformations that keep their
    contracts were applied to a new workpiece, and whichever of them failed, the predicates that its cache presumes true
    hold of its circuit; and every transformation that was run was run on a circuit that met all its requirements. -/
theorem cache_stays_right (hS : Predicate.SoundImplications S) {w : Workpiece} (hw : w.Fresh S)
    {apps : List (Application σ)} (happs : ∀ app ∈ apps, app.mode ≠ .off ∧ app.pass.Over (Transform.KeepsOrFails S))
    (x : σ) :
    (∀ k p, (performAll apps ⟨w, x⟩).piece.cache.get? k = some (p, true) → (performAll apps ⟨w, x⟩).piece.satisfies p = true) ∧
    ∃ calls, performAll (apps.map noting) ⟨w, (x, [])⟩ =
        ⟨(performAll apps ⟨w, x⟩).piece, ((performAll apps ⟨w, x⟩).ambient, calls)⟩ ∧
      ∀ call ∈ calls, call.contract.pre.Holds call.circuit := by
  have hstart : (Tie.noting S).Sessions (⟨w, (x, [])⟩ : Session (σ × List Call)) ⟨w, x⟩ :=
    ⟨⟨rfl, hw.cacheHolds⟩, ⟨rfl, List.forall_mem_nil _⟩⟩
  obtain ⟨⟨hpiece, hright⟩, ⟨hambient, hcalls⟩⟩ := performAll_noting hS happs hstart
  refine ⟨fun k p hp => (hright k p hp).2.2, (performAll (apps.map noting) ⟨w, (x, [])⟩).ambient.2, ?_, hcalls⟩
  rw [← hpiece, ← hambient]

/-- A qubit is moved to the default register, in the second tree there is nothing left to do, and the third fails: four
    transformations are run. -/
theorem cache_stays_right_flatten :
    let flatten : Pass Unit := .standard "Flatten"
      ⟨Predicate.mapOf [.maxQubits 3], Predicate.mapOf [.property .defaultRegister], .empty, .clear⟩
      Transform.flattenRegisters .empty
    let rest : Pass Unit := .standard "Rest" ⟨Predicate.mapOf [.property .defaultRegister], .empty, .empty, .preserve⟩
      (fun d => .ok false d) .empty
    let refuse : Pass Unit := .standard "Refuse" ⟨Predicate.mapOf [.maxQubits 2], .empty, .empty, .clear⟩
      (fun d => .error .emptySequence d) .empty
    let apps : List (Application Unit) := [⟨.sequence [flatten, rest] true {}, .standard, {}, 2⟩,
      ⟨.repeated flatten {}, .audit, {}, 2⟩, ⟨refuse, .standard, {}, 2⟩]
    ∃ c, ({} : Circuit).edited (Circuit.addUnit ⟨.qubit, "a", [0]⟩) = .ok c ∧
      (∀ app ∈ apps, app.mode ≠ .off ∧ app.pass.Over (Transform.KeepsOrFails Predicate.Standard)) ∧
      (performAll apps ⟨.withTargets c [.maxQubits 3], ()⟩).piece.cache.values.map Prod.snd = [true, false] ∧
      ∃ calls, performAll (apps.map noting) ⟨.withTargets c [.maxQubits 3], ((), [])⟩ =
          ⟨(performAll apps ⟨.withTargets c [.maxQubits 3], ()⟩).piece, ((), calls)⟩ ∧ calls.length = 4 ∧
        ∀ call ∈ calls, call.contract.pre.Holds call.circuit := by
  intro flatten rest refuse apps
  have hflatten : flatten.Over (Transform.KeepsOrFails Predicate.Standard) :=
    .standard (Transform.keepsOrFails_flattenRegisters (by simp [Predicate.Standard]))
  have hrest : rest.Over (Transform.KeepsOrFails Predicate.Standard) :=
    .standard (Transform.keepsOrFails_idle (by simp [Predicate.Standard]))
  have hrefuse : refuse.Over (Transform.KeepsOrFails Predicate.Standard) := by
    refine .standard ⟨⟨Contract.within_of_mapOf (by simp [Predicate.Standard]) (List.forall_mem_nil _), ?_⟩, ?_⟩
    · exact fun d x d' _ hrun => by cases hrun
    · intro d e d' _ hrun
      cases hrun
      rfl
  have happs : ∀ app ∈ apps, app.mode ≠ .off ∧ app.pass.Over (Transform.KeepsOrFails Predicate.Standard) := by
    have hpair : ∀ q ∈ [flatten, rest], q.Over (Transform.KeepsOrFails Predicate.Standard) :=
      List.forall_mem_cons.mpr ⟨hflatten, List.forall_mem_singleton.mpr hrest⟩
    refine List.forall_mem_cons.mpr ⟨⟨by decide, .sequence hpair⟩, ?_⟩
    exact List.forall_mem_cons.mpr ⟨⟨by decide, .repeated hflatten⟩, List.forall_mem_singleton.mpr ⟨by decide, hrefuse⟩⟩
  refine exists_run fun c hc => ?_
  have hfresh : (Workpiece.withTargets c [.maxQubits 3]).Fresh Predicate.Standard :=
    .withTargets c (by simp [Predicate.Standard])
  obtain ⟨_, calls, hcalls, hallowed⟩ := cache_stays_right Predicate.reliable_standard.implies hfresh happs ()
  refine ⟨happs, of_run hc (by decide +kernel), calls, hcalls, ?_, hallowed⟩
  have hlength : (performAll (apps.map noting) ⟨.withTargets c [.maxQubits 3], ((), [])⟩).ambient.2.length = 4 :=
    of_run hc (by decide +kernel)
  rwa [hcalls] at hlength

end Application

/-! # `UnitMaps.Tracks` — unit maps in step -/

variable {σ : Type} {c₀ c c' : Circuit} {m : UnitBimap} {maps : UnitMaps} {ρ : Renaming}

/-! ## In step -/

/-- **The bimap is in step with the circuit**: it pairs units of `c₀` one to one with the units of `c`, and paired units
    have the same ends. -/
structure UnitBimap.InStep (c₀ c : Circuit) (m : UnitBimap) : Prop where
  inverse : ∀ {u w}, m.right? u = some w ↔ m.left? w = some u
  left_mem : ∀ {u w}, m.right? u = some w → u ∈ c₀.units
  right_mem : ∀ {w}, w ∈ c.units ↔ ∃ u, m.right? u = some w
  ends : ∀ {u w}, m.right? u = some w → c.boundary.get? w = c₀.boundary.get? u

namespace UnitBimap.InStep

open SortedMap

lemma represents (h : m.InStep c₀ c) : m.Represents fun u w => m.right? u = some w := ⟨Iff.rfl, h.inverse.symm⟩

lemma of_represents {R : UnitId → UnitId → Prop} (h : m.Represents R) (left_mem : ∀ {u w}, R u w → u ∈ c₀.units)
    (right_mem : ∀ {w}, w ∈ c.units ↔ ∃ u, R u w)
    (ends : ∀ {u w}, R u w → c.boundary.get? w = c₀.boundary.get? u) : m.InStep c₀ c where
  inverse := h.right.trans h.left.symm
  left_mem hw := left_mem (h.right.mp hw)
  right_mem := right_mem.trans (exists_congr fun _ => h.right.symm)
  ends hw := ends (h.right.mp hw)

lemma identity (c : Circuit) : (UnitBimap.identity c.units).InStep c c := by
  refine of_represents (.identity c.units) And.left (fun {w} => ?_) fun {u w} h => ?_
  · simp
  · rw [h.2]

lemma of_boundary (h : m.InStep c₀ c) (hboundary : c'.boundary = c.boundary) : m.InStep c₀ c' where
  inverse := h.inverse
  left_mem := h.left_mem
  right_mem := by
    unfold Circuit.units
    rw [hboundary]
    exact h.right_mem
  ends hw := by
    rw [hboundary]
    exact h.ends hw

lemma exists_ends (h : m.InStep c₀ c) {u w : UnitId} (hw : m.right? u = some w) :
    ∃ ends, c.boundary.get? w = some ends ∧ c₀.boundary.get? u = some ends := by
  obtain ⟨ends, hends⟩ := mem_keys_iff.mp (show w ∈ c.units from h.right_mem.mpr ⟨u, hw⟩)
  exact ⟨ends, hends, (h.ends hw).symm.trans hends⟩

lemma renamed (h : m.InStep c₀ c) (hren : Circuit.IsRenamed ρ c c') : (m.renameRight ρ).2.InStep c₀ c' := by
  have hrep := h.represents.renameRight (by
    intro u w u' w' hw hw' heq
    obtain ⟨ends, hends, _⟩ := h.exists_ends hw
    obtain ⟨_, hends', _⟩ := h.exists_ends hw'
    exact hren.injective hends hends' heq)
  have hends : ∀ {u w old : UnitId}, m.right? u = some old → ρ.apply old = w → c'.boundary.get? w = c₀.boundary.get? u := by
    intro u w old hold hw
    obtain ⟨ends, hends, hfirst⟩ := h.exists_ends hold
    rw [hfirst, hren.ends.mpr ⟨old, hends, hw⟩]
  refine of_represents hrep ?_ ?_ ?_
  · rintro u w ⟨old, hold, _⟩
    exact h.left_mem hold
  · intro w
    constructor
    · intro hw
      obtain ⟨ends, hw⟩ := mem_keys_iff.mp hw
      obtain ⟨old, hold, hname⟩ := hren.ends.mp hw
      obtain ⟨u, hu⟩ := h.right_mem.mp (mem_keys_iff.mpr ⟨ends, hold⟩)
      exact ⟨u, old, hu, hname⟩
    · rintro ⟨u, old, hold, hname⟩
      obtain ⟨ends, hold', _⟩ := h.exists_ends hold
      exact mem_keys_iff.mpr ⟨ends, hren.ends.mpr ⟨old, hold', hname⟩⟩
  · rintro u w ⟨old, hold, hname⟩
    exact hends hold hname

lemma trimmed (h : m.InStep c₀ c) {blank : List (UnitId × Ends)} (htrim : Circuit.IsTrimmed blank c c') :
    ((blank.map Prod.fst).foldl UnitBimap.eraseRight m).InStep c₀ c' := by
  refine of_represents (h.represents.eraseAll (blank.map Prod.fst)) ?_ ?_ ?_
  · rintro u w ⟨hw, _⟩
    exact h.left_mem hw
  · intro w
    have hunits : w ∈ c'.units ↔ w ∉ blank.map Prod.fst ∧ w ∈ c.units := by
      show w ∈ c'.boundary.entries.map Prod.fst ↔ _ ∧ w ∈ c.boundary.entries.map Prod.fst
      rw [mem_keys_iff, mem_keys_iff, htrim.ends]
      by_cases hmem : w ∈ blank.map Prod.fst
      · simp [hmem]
      · simp only [hmem, if_false, not_false_eq_true, true_and]
    rw [hunits, h.right_mem, exists_and_right, and_comm]
  · rintro u w ⟨hw, hnot⟩
    rw [htrim.ends, if_neg hnot, h.ends hw]

end UnitBimap.InStep

/-- **The maps track the circuit**: it is well-formed, both maps are in step with it, and they are equal. -/
structure UnitMaps.Tracks (c₀ c : Circuit) (maps : UnitMaps) : Prop where
  wellFormed : c.WellFormed
  inStep : maps.initial.InStep c₀ c
  final_eq : maps.final = maps.initial

namespace UnitMaps.Tracks

lemma renamed (h : maps.Tracks c₀ c) (hren : Circuit.IsRenamed ρ c c') : (maps.rename ρ ρ).2.Tracks c₀ c' where
  wellFormed := (hren.wired h.wellFormed.wired).wellFormed
  inStep := h.inStep.renamed hren
  final_eq := by
    show (maps.final.renameRight ρ).2 = (maps.initial.renameRight ρ).2
    rw [h.final_eq]

lemma foldl_removeUnit (us : List UnitId) (maps : UnitMaps) : us.foldl (fun maps u => (maps.removeUnit u).2) maps =
      ⟨us.foldl UnitBimap.eraseRight maps.initial, us.foldl UnitBimap.eraseRight maps.final⟩ := by
  induction us generalizing maps with
  | nil => rfl
  | cons u rest ih => exact ih _

lemma trimmed (h : maps.Tracks c₀ c) (hc' : c'.WellFormed) {blank : List (UnitId × Ends)}
    (htrim : Circuit.IsTrimmed blank c c') :
    ((blank.map Prod.fst).foldl (fun maps u => (maps.removeUnit u).2) maps).Tracks c₀ c' := by
  rw [foldl_removeUnit, h.final_eq]
  exact ⟨hc', h.inStep.trimmed htrim, rfl⟩

end UnitMaps.Tracks

/-! ## Structural transformations -/

/-- The circuit of the draft and its maps. -/
def Draft.Tracked (c₀ : Circuit) (d : Draft σ) : Prop := d.maps.Tracks c₀ d.circuit

namespace Transform

lemma renameUnits_always (ρ : Renaming) : Always (Draft.Tracked c₀) (renameUnits ρ : Transform σ) := by
  intro d h
  rcases Circuit.renameUnits_cases ρ d.circuit with ⟨changed, c', hrun, hren⟩ | ⟨e, hrun⟩
  · have hok : renameUnits ρ d = .ok changed ⟨c', (d.maps.rename ρ ρ).2, d.ambient⟩ :=
      bind_ok (Drafting.edit_of_ok hrun)
    rw [afterwards_of_ok hok]
    exact UnitMaps.Tracks.renamed h hren
  · have herror : renameUnits ρ d = .error (.circuit e) d := bind_error (Drafting.edit_of_error hrun)
    rwa [afterwards_of_error herror]

lemma flattenRegisters_always : Always (Draft.Tracked c₀) (flattenRegisters : Transform σ) := by
  intro d h
  rcases flattenRegisters_cases d with ⟨_, hok⟩ | ⟨_, _, hok, _, hren⟩ | ⟨_, herror⟩
  · rwa [afterwards_of_ok hok]
  · rw [afterwards_of_ok hok]
    exact UnitMaps.Tracks.renamed h hren
  · rwa [afterwards_of_error herror]

lemma removeOp_always (v : Vertex) : Always (Draft.Tracked c₀ (σ := σ)) (Drafting.edit (Circuit.removeOp v)) := by
  intro d h
  by_cases hop : ∃ op, d.circuit.graph.kind? v = some (.op op)
  · obtain ⟨op, hop⟩ := hop
    obtain ⟨g, hrun, hw, _⟩ := Circuit.removeOp_run h.wellFormed.wired hop
    rw [afterwards_of_ok (Drafting.edit_of_ok hrun)]
    exact ⟨hw.wellFormed, h.inStep.of_boundary rfl, h.final_eq⟩
  · obtain ⟨e, hrun⟩ := Circuit.removeOp_error (not_exists.mp hop)
    rw [afterwards_of_error (Drafting.edit_of_error hrun)]
    exact h

lemma removeBarriers_always : Always (Draft.Tracked c₀) (removeBarriers : Transform σ) := by
  intro d h
  have hloop : Always (Draft.Tracked c₀ (σ := σ)) (do
      let barriers := (d.circuit.commands.filter fun cmd => cmd.op.isBarrier).map Command.vertex
      barriers.forM fun v => Drafting.edit (Circuit.removeOp v)
      return !barriers.isEmpty) := (Always.forM removeOp_always _).bind fun _ => .pure _
  exact hloop d h

lemma removeUnits_run (us : List UnitId) (d : Draft σ) : (us.forM fun u => discard (Drafting.revise (·.removeUnit u))) d =
      .ok ⟨⟩ { d with maps := us.foldl (fun maps u => (maps.removeUnit u).2) d.maps } := by
  induction us generalizing d with
  | nil => rfl
  | cons u rest ih => exact ih { d with maps := (d.maps.removeUnit u).2 }

lemma removeBlankWires_always : Always (Draft.Tracked c₀) (removeBlankWires : Transform σ) := by
  intro d h
  obtain ⟨_, hrun, hw, htrim⟩ := Circuit.removeBlankWires_run h.wellFormed.wired
  unfold removeBlankWires
  rw [afterwards_of_ok ((bind_ok (Drafting.edit_of_ok hrun)).trans (bind_ok (removeUnits_run _ _)))]
  exact h.trimmed hw.wellFormed htrim

/-- **Transformations that only touch unit names, barriers and blank wires.** -/
inductive Structural : Transform σ → Prop
  | flattenRegisters : Structural flattenRegisters
  | removeBarriers : Structural removeBarriers
  | removeBlankWires : Structural removeBlankWires
  | renameUnits (ρ : Renaming) : Structural (renameUnits ρ)

lemma Structural.always {t : Transform σ} (ht : t.Structural) : Always (Draft.Tracked c₀) t := by
  cases ht with
  | flattenRegisters => exact flattenRegisters_always
  | removeBarriers => exact removeBarriers_always
  | removeBlankWires => exact removeBlankWires_always
  | renameUnits ρ => exact renameUnits_always ρ

end Transform

/-! ## Trees -/

/-- The circuit of the session and its maps. -/
def Session.Tracked (c₀ : Circuit) (s : Session σ) : Prop := s.piece.maps.Tracks c₀ s.piece.circuit

namespace Run

variable {t : Transform σ}

lemma check_always {step : Workpiece → Option Predicate × Workpiece}
    (hstep : ∀ w, Workpiece.SameButCache (step w).2 w) : Always (Session.Tracked c₀ (σ := σ)) (check step) := by
  intro s h
  have hsame := hstep s.piece
  unfold Session.Tracked at h ⊢
  rw [← hsame.circuit, ← hsame.maps] at h
  unfold afterwards check
  cases hrun : step s.piece with
  | mk found piece =>
    rw [hrun] at h
    cases found <;> exact h

lemma transform_always (ht : t.Structural) : Always (Session.Tracked c₀) (transform t) := by
  intro s h
  have hdraft := ht.always ⟨s.piece.circuit, s.piece.maps, s.ambient⟩ h
  unfold afterwards at hdraft ⊢
  unfold transform
  generalize t ⟨s.piece.circuit, s.piece.maps, s.ambient⟩ = r at hdraft
  cases r <;> exact hdraft

lemma standard_always (ht : t.Structural) (a : Contract) (mode : SafetyMode) :
    Always (Session.Tracked c₀) (standard a mode t) := by
  have hlast : Always (Session.Tracked c₀) (do
      let changed ← transform t
      check fun w => w.recordPostconditions a.post mode
      return changed) :=
    (transform_always ht).bind fun _ =>
      (check_always fun w => Workpiece.recordPostconditions_same w a.post mode).bind fun _ => .pure _
  have hfirst : Always (Session.Tracked c₀ (σ := σ)) (check fun w => w.meetRequirements a.pre mode) :=
    check_always fun w => Workpiece.meetRequirements_same w _ _
  exact Always.ite (hfirst.bind fun _ => hlast) hlast

end Run

/-- **A run beside itself**, with maps in step. -/
def Tie.tracking (c₀ : Circuit) : Tie σ σ where
  piece w w' := w = w' ∧ w'.maps.Tracks c₀ w'.circuit
  wreck w w' := w = w' ∧ w'.maps.Tracks c₀ w'.circuit
  ambient x x' := x = x'
  cause e e' := e = e'
  circuit_eq h := by rw [h.1]
  wreck_of_piece h := h
  exhausted := rfl

lemma Tie.hooked_tracking (hook : Option (Hook σ)) : (Tie.tracking c₀).Hooked hook hook := by
  cases hook with
  | none => exact True.intro
  | some hook =>
    rintro w _ _ x _ ⟨rfl, _⟩ rfl
    rfl

lemma Run.matched_tracking {t : Transform σ} (ht : t.Structural) (a : Contract) (mode : SafetyMode) :
    Run.Matched (Tie.tracking c₀) Eq (Run.standard a mode t) (Run.standard a mode t) := by
  rintro ⟨w, x⟩ ⟨_, _⟩ ⟨⟨rfl, hw⟩, rfl⟩
  have hend := Run.standard_always ht a mode ⟨w, x⟩ hw
  unfold afterwards at hend
  cases hrun : Run.standard a mode t ⟨w, x⟩ with
  | ok y s =>
    rw [hrun] at hend
    exact .ok rfl ⟨⟨rfl, hend⟩, rfl⟩
  | error e s =>
    rw [hrun] at hend
    exact .error rfl ⟨rfl, hend⟩ rfl

namespace Application

lemma perform_tracked {app : Application σ} (happ : app.pass.Over fun _ t => t.Structural) {s : Session σ}
    (hs : s.Tracked c₀) : (app.perform s).Tracked c₀ := by
  have hmatched : Run.Matched (Tie.tracking c₀) Eq (app.pass.apply app.fuel app.mode app.hooks)
      (app.pass.apply app.fuel app.mode app.hooks) := by
    refine happ.alike.matched (Tie.hooked_tracking _) (Tie.hooked_tracking _) ?_
    rintro a t _ ⟨ht, rfl⟩
    exact Run.matched_tracking ht a app.mode
  have houtcomes := hmatched s s ⟨⟨rfl, hs⟩, rfl⟩
  unfold perform
  generalize app.pass.apply app.fuel app.mode app.hooks s = r at houtcomes
  cases houtcomes with
  | ok _ hend => exact hend.piece.2
  | error _ hwreck _ => exact hwreck.2

/-- **Unit maps stay in step with the circuit.** Whatever trees over structural transformations are applied to the
    workpiece of a well-formed circuit, in any mode and whichever of them fail, both maps pair units that the circuit had
    at the start one to one with those that it has now, paired units have the same ends, and the two maps are equal. -/
theorem maps_stay_in_step (h : c₀.WellFormed) {apps : List (Application σ)}
    (happs : ∀ app ∈ apps, app.pass.Over fun _ t => t.Structural) (x : σ) :
    let w := (performAll apps ⟨.ofCircuit c₀, x⟩).piece
    w.maps.initial.InStep c₀ w.circuit ∧ w.maps.final.InStep c₀ w.circuit ∧ w.maps.final = w.maps.initial := by
  have hstart : Session.Tracked c₀ (⟨.ofCircuit c₀, x⟩ : Session σ) := ⟨h, .identity c₀, rfl⟩
  have hend : Session.Tracked c₀ (performAll apps ⟨.ofCircuit c₀, x⟩) := by
    generalize (⟨.ofCircuit c₀, x⟩ : Session σ) = s at hstart
    induction apps generalizing s with
    | nil => exact hstart
    | cons app rest ih =>
      obtain ⟨happ, hrest⟩ := List.forall_mem_cons.mp happs
      exact ih hrest _ (perform_tracked happ hstart)
  exact ⟨hend.inStep, hend.final_eq ▸ hend.inStep, hend.final_eq⟩

/-- Two qubits change names and a third name clashes, so the first tree fails half-way. A search takes a barrier out and
    gives its last candidate up. With the blank wires gone, one qubit is left, under its new name. -/
theorem maps_stay_in_step_swap :
    let rename (names : List (UnitId × UnitId)) : Pass Unit := .renameQubits (.ofList names)
    let apps : List (Application Unit) := [
      ⟨.sequence [rename [(.qubit 0, .qubit 1), (.qubit 1, .qubit 0)], rename [(.qubit 0, .qubit 1)]] false {}, .audit, {}, 1⟩,
      ⟨.whileImproving .removeBarriers "commands" (·.commands.length) {}, .standard, {}, 1⟩,
      ⟨.removeBlankWires, .off, {}, 1⟩]
    ∃ c, (Circuit.ofUnits 3 0).edited (do
        let _ ← Circuit.addOp (.barrierOn 2) [.qubit 0, .qubit 1] none
        discard (Circuit.addOp .reset [.qubit 0] none)) = .ok c ∧ c.WellFormed ∧
      (∀ app ∈ apps, app.pass.Over fun _ t => t.Structural) ∧
      (performAll apps ⟨.ofCircuit c, ()⟩).piece.circuit.commands.length = 1 ∧
      (performAll apps ⟨.ofCircuit c, ()⟩).piece.maps.initial.pairs = [(.qubit 0, .qubit 1)] ∧
      (performAll apps ⟨.ofCircuit c, ()⟩).piece.maps.final.InStep c (performAll apps ⟨.ofCircuit c, ()⟩).piece.circuit := by
  intro rename apps
  have hrename : ∀ names, (rename names).Over fun _ t => t.Structural := fun names => .standard (.renameUnits _)
  have happs : ∀ app ∈ apps, app.pass.Over fun _ t => t.Structural := by
    simp only [apps, List.forall_mem_cons]
    refine ⟨.sequence ?_, .whileImproving (.standard .removeBarriers), .standard .removeBlankWires, by simp⟩
    simp [hrename]
  refine exists_run fun c hc => ?_
  have hwell := Circuit.wellFormed_edited hc
  exact ⟨hwell, happs, of_run hc (by decide +kernel), of_run hc (by decide +kernel),
    (maps_stay_in_step hwell happs ()).2.1⟩

end Application

end Wireloom
