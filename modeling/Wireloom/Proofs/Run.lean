import Mathlib.Data.List.Basic
import Mathlib.Data.List.Induction
import Wireloom.Circuit.Basic

/-!
# `Run` — what an edit does, step by step

An edit is a function from a state to a result that carries the state after it, also when it fails.
-/

namespace Wireloom

open List

section Answers

variable {ε α β : Type} {x : Except ε α} {b : β} {l : List α} {r : List β} {a : α} {Q P : α → Prop}
  {f : α → Except ε β}

/-- What holds of the answer can be found by running. -/
instance decidableExistsOk {P : α → Prop} [DecidablePred P] : Decidable (∃ a, x = .ok a ∧ P a) :=
  match x with
  | .ok a => decidable_of_iff (P a) ⟨fun h => ⟨a, rfl, h⟩, fun ⟨_, h, ha⟩ => Except.ok.inj h ▸ ha⟩
  | .error _ => .isFalse fun ⟨_, h, _⟩ => nomatch h

instance decidableNeverOk : Decidable (∀ a, x ≠ .ok a) :=
  match x with
  | .ok a => .isFalse fun h => h a rfl
  | .error _ => .isTrue fun _ h => nomatch h

/-- To see that something holds of an answer, run what gives it. -/
@[elab_as_elim]
lemma of_run {P : α → Prop} (h : x = .ok a) (hP : ∃ a, x = .ok a ∧ P a) : P a := by
  obtain ⟨b, hb, hP⟩ := hP
  cases h.symm.trans hb
  exact hP

lemma exists_and_of (h : ∃ a, Q a ∧ True) (hP : ∀ a, Q a → P a) : ∃ a, Q a ∧ P a :=
  h.imp fun a ha => ⟨ha.1, hP a ha.1⟩

lemma exists_run (hP : ∀ a, Q a → P a) (h : ∃ a, Q a ∧ True := by decide +kernel) : ∃ a, Q a ∧ P a :=
  exists_and_of h hP

lemma bind_ok_iff : (x >>= f) = .ok b ↔ ∃ a, x = .ok a ∧ f a = .ok b := by
  constructor
  · intro h
    cases x with
    | ok a => exact ⟨a, rfl, h⟩
    | error e => cases h
  · rintro ⟨a, rfl, h⟩
    exact h

lemma except_bind_ok (h : x = .ok a) (hf : f a = .ok b) : (x >>= f) = .ok b :=
  bind_ok_iff.mpr ⟨a, h, hf⟩

lemma except_toOption_eq_some : x.toOption = some a ↔ x = .ok a := by
  cases x <;> simp [Except.toOption]

lemma except_toOption_congr {x y : Except ε α} (h : ∀ a, x = .ok a ↔ y = .ok a) : x.toOption = y.toOption :=
  Option.ext fun a => by rw [except_toOption_eq_some, except_toOption_eq_some, h]

lemma except_map_eq_ok {f : α → β} : x.map f = .ok b ↔ ∃ a, x = .ok a ∧ f a = b := by
  cases x with
  | ok a => simp [Except.map]
  | error e => simp [Except.map]

lemma except_forM_eq_ok {f : α → Except ε Unit} {u : Unit} : l.forM f = .ok u ↔ ∀ x ∈ l, f x = .ok () := by
  induction l with
  | nil => exact ⟨fun _ _ hx => (by cases hx), fun _ => rfl⟩
  | cons x rest ih =>
    show (f x >>= fun _ => rest.forM f) = .ok u ↔ _
    rw [bind_ok_iff, forall_mem_cons, ← ih]
    exact ⟨fun ⟨_, hx, hrest⟩ => ⟨hx, hrest⟩, fun ⟨hx, hrest⟩ => ⟨(), hx, hrest⟩⟩

lemma except_filterM_of_ok {f : α → Except ε Bool} {keep : α → Bool}
    (h : ∀ x ∈ l, f x = .ok (keep x)) : l.filterM f = .ok (l.filter keep) := by
  have haux : ∀ acc : List α, l.filterAuxM f acc = .ok ((l.filter keep).reverse ++ acc) := by
    induction l with
    | nil => exact fun acc => rfl
    | cons x rest ih =>
      intro acc
      obtain ⟨hx, hrest⟩ := forall_mem_cons.mp h
      refine bind_ok_iff.mpr ⟨keep x, hx, ?_⟩
      rw [ih hrest]
      cases hkeep : keep x with
      | true => simp [hkeep]
      | false => simp [hkeep]
  refine bind_ok_iff.mpr ⟨_, haux [], ?_⟩
  rw [append_nil, reverse_reverse]
  rfl

lemma except_mapM_eq_ok (h : l.mapM f = .ok r) : Forall₂ (fun x y => f x = .ok y) l r := by
  induction l generalizing r with
  | nil => cases h; exact .nil
  | cons x rest ih =>
    rw [mapM_cons] at h
    obtain ⟨y, hy, h⟩ := bind_ok_iff.mp h
    obtain ⟨_, hys, h⟩ := bind_ok_iff.mp h
    cases h
    exact .cons hy (ih hys)

lemma except_exists_of_mem_mapM {y : β} (h : l.mapM f = .ok r) (hy : y ∈ r) : ∃ x ∈ l, f x = .ok y := by
  have hall := except_mapM_eq_ok h
  clear h
  induction hall with
  | nil => cases hy
  | @cons x z rest zs hx _ ih =>
    rcases mem_cons.mp hy with rfl | hy
    · exact ⟨x, mem_cons_self, hx⟩
    · obtain ⟨w, hw, hread⟩ := ih hy
      exact ⟨w, mem_cons_of_mem _ hw, hread⟩

lemma except_mapM_of_ok (h : ∀ x ∈ l, ∃ y, f x = .ok y) : ∃ r, l.mapM f = .ok r := by
  induction l with
  | nil => exact ⟨[], rfl⟩
  | cons x rest ih =>
    obtain ⟨⟨y, hy⟩, hrest⟩ := forall_mem_cons.mp h
    obtain ⟨ys, hys⟩ := ih hrest
    refine ⟨y :: ys, ?_⟩
    rw [mapM_cons, hy, hys]
    rfl

lemma except_filterMapM_eq_ok {f : α → Except ε (Option β)} (h : l.filterMapM f = .ok r) :
    (∀ x ∈ l, ∃ y, f x = .ok y) ∧ r = l.filterMap fun x => (f x).toOption.join := by
  induction l generalizing r with
  | nil => cases h; exact ⟨by simp, rfl⟩
  | cons x rest ih =>
    rw [filterMapM_cons] at h
    obtain ⟨y, hy, h⟩ := bind_ok_iff.mp h
    have hfirst : (f x).toOption.join = y := by rw [hy]; cases y <;> rfl
    cases y with
    | none =>
      obtain ⟨hall, hr⟩ := ih h
      exact ⟨forall_mem_cons.mpr ⟨⟨_, hy⟩, hall⟩, by rw [filterMap_cons, hfirst, hr]⟩
    | some b =>
      obtain ⟨_, hbs, h⟩ := bind_ok_iff.mp h
      cases h
      obtain ⟨hall, hr⟩ := ih hbs
      exact ⟨forall_mem_cons.mpr ⟨⟨_, hy⟩, hall⟩, by rw [filterMap_cons, hfirst, hr]⟩

lemma except_foldlM_of_step {f : β → α → Except ε β} (I : List α → β → Prop) {l done : List α}
    {b b' : β} (step : ∀ done x b b', x ∈ l → I done b → f b x = .ok b' → I (done ++ [x]) b') (h : I done b)
    (hrun : l.foldlM f b = .ok b') : I (done ++ l) b' := by
  induction l generalizing done b with
  | nil => cases hrun; rwa [append_nil]
  | cons x rest ih =>
    obtain ⟨b1, hx, hrest⟩ := bind_ok_iff.mp hrun
    have hall := ih (fun done x b b' hx => step done x b b' (mem_cons_of_mem _ hx)) (step done x b b1 mem_cons_self h hx) hrest
    rwa [append_assoc] at hall

end Answers

section Steps

variable {ε σ α β : Type} {m : EStateM ε σ α} {f : α → EStateM ε σ β} {s s' s'' : σ} {a : α} {b : β} {e : ε}

/-! ## One step after another -/

lemma bind_ok (h : m s = .ok a s') : (m >>= f) s = f a s' := by
  show EStateM.bind m f s = _
  simp only [EStateM.bind, h]

lemma bind_get {f : σ → EStateM ε σ β} : ((get : EStateM ε σ σ) >>= f) s = f s s := rfl

lemma bind_error (h : m s = .error e s') : (m >>= f) s = .error e s' := by
  show EStateM.bind m f s = _
  simp only [EStateM.bind, h]

lemma ok_unique {a' : α} (h : m s = .ok a s') (h' : m s = .ok a' s'') : a = a' ∧ s' = s'' :=
  EStateM.Result.ok.inj (h.symm.trans h')

lemma bind_eq_ok : (m >>= f) s = .ok b s'' ↔ ∃ a s', m s = .ok a s' ∧ f a s' = .ok b s'' := by
  constructor
  · intro h
    cases hm : m s with
    | ok a s' => rw [bind_ok hm] at h; exact ⟨a, s', rfl, h⟩
    | error e s' => rw [bind_error hm] at h; cases h
  · rintro ⟨a, s', hm, hf⟩; rw [bind_ok hm, hf]

lemma bind_eq_error : (m >>= f) s = .error e s'' ↔ m s = .error e s'' ∨ ∃ a s', m s = .ok a s' ∧ f a s' = .error e s'' := by
  constructor
  · intro h
    cases hm : m s with
    | ok a s' => rw [bind_ok hm] at h; exact .inr ⟨a, s', rfl, h⟩
    | error e' s' => rw [bind_error hm] at h; cases h; exact .inl rfl
  · rintro (hm | ⟨a, s', hm, hf⟩)
    · exact bind_error hm
    · rw [bind_ok hm, hf]

/-- What holds of the state after a run can be found by running. -/
instance decidableExistsRan [DecidableEq α] {P : σ → Prop} [DecidablePred P] : Decidable (∃ s', m s = .ok a s' ∧ P s') :=
  match m s with
  | .ok b s' => decidable_of_iff (b = a ∧ P s') ⟨fun h => ⟨s', h.1 ▸ rfl, h.2⟩, fun ⟨_, h, hs⟩ => by cases h; exact ⟨rfl, hs⟩⟩
  | .error _ _ => .isFalse fun ⟨_, h, _⟩ => nomatch h

instance decidableExistsFailed {P : ε → σ → Prop} [∀ e s, Decidable (P e s)] : Decidable (∃ e s', m s = .error e s' ∧ P e s') :=
  match m s with
  | .ok _ _ => .isFalse fun ⟨_, _, h, _⟩ => nomatch h
  | .error e s' => decidable_of_iff (P e s') ⟨fun h => ⟨e, s', rfl, h⟩, fun ⟨_, _, h, hs⟩ => by cases h; exact hs⟩

lemma bind_when_of_ok {b : Bool} {m : EStateM ε σ PUnit} {f : PUnit → EStateM ε σ β}
    (h : (if b then m else pure ⟨⟩) s = .ok ⟨⟩ s') : (if b then m >>= f else f ⟨⟩) s = f ⟨⟩ s' := by
  cases b with
  | true => exact bind_ok h
  | false => cases h; rfl

lemma discard_of_ok (h : m s = .ok a s') : (discard m : EStateM ε σ PUnit) s = .ok ⟨⟩ s' := by
  show EStateM.map (Function.const α PUnit.unit) m s = _
  simp only [EStateM.map, h, Function.const_apply]

lemma discard_of_error (h : m s = .error e s') : (discard m : EStateM ε σ PUnit) s = .error e s' := by
  show EStateM.map (Function.const α PUnit.unit) m s = _
  simp only [EStateM.map, h]

lemma discard_eq_ok {u : PUnit} : (discard m : EStateM ε σ PUnit) s = .ok u s' ↔ ∃ a, m s = .ok a s' := by
  constructor
  · intro h
    cases hm : m s with
    | ok a s1 => rw [discard_of_ok hm] at h; cases h; exact ⟨a, rfl⟩
    | error e s1 => rw [discard_of_error hm] at h; cases h
  · rintro ⟨a, hm⟩; exact discard_of_ok hm

end Steps

/-! ## Loops -/

section Loops

variable {ε σ α β : Type} {l : List α} {f : α → EStateM ε σ PUnit} {s : σ}

lemma forM_of_step (I : List α → σ → Prop)
    (step : ∀ x rest s, I (x :: rest) s → ∃ s', f x s = .ok ⟨⟩ s' ∧ I rest s') :
    ∀ {l : List α} {s : σ}, I l s → ∃ s', l.forM f s = .ok ⟨⟩ s' ∧ I [] s' := by
  intro l
  induction l with
  | nil => intro s h; exact ⟨s, rfl, h⟩
  | cons x rest ih =>
    intro s h
    obtain ⟨_, hx, h1⟩ := step x rest s h
    obtain ⟨s2, hr, h2⟩ := ih h1
    refine ⟨s2, ?_, h2⟩
    show (f x >>= fun _ => rest.forM f) s = _
    rw [bind_ok hx, hr]

lemma forM_of_prefix (I : List α → σ → Prop)
    (step : ∀ done x rest s, l = done ++ x :: rest → I done s → ∃ s', f x s = .ok ⟨⟩ s' ∧ I (done ++ [x]) s') (h : I [] s) :
    ∃ s', l.forM f s = .ok ⟨⟩ s' ∧ I l s' := by
  obtain ⟨s', hrun, done, hdone, hI⟩ := forM_of_step (f := f) (l := l) (fun rest s => ∃ done, l = done ++ rest ∧ I done s) (by
      rintro x rest s ⟨done, hl, hI⟩
      obtain ⟨s', hx, hI'⟩ := step done x rest s hl hI
      exact ⟨s', hx, done ++ [x], by rw [hl, append_assoc]; rfl, hI'⟩)
    ⟨[], rfl, h⟩
  rw [append_nil] at hdone
  exact ⟨s', hrun, hdone ▸ hI⟩

lemma foldlM_of_prefix {f : β → α → EStateM ε σ β} (I : List α → β → σ → Prop) {b : β}
    (step : ∀ done x rest b s, l = done ++ x :: rest → I done b s →
      ∃ b' s', f b x s = .ok b' s' ∧ I (done ++ [x]) b' s') (h : I [] b s) :
    ∃ b' s', l.foldlM f b s = .ok b' s' ∧ I l b' s' := by
  have hall : ∀ {rest done b s}, l = done ++ rest → I done b s → ∃ b' s', rest.foldlM f b s = .ok b' s' ∧ I l b' s' := by
    intro rest
    induction rest with
    | nil => intro done b s hl h; exact ⟨b, s, rfl, by rwa [hl, append_nil]⟩
    | cons x rest ih =>
      intro done b s hl h
      obtain ⟨_, _, hx, h1⟩ := step done x rest b s hl h
      obtain ⟨b2, s2, hr, h2⟩ := ih (by rw [hl, append_assoc]; rfl) h1
      exact ⟨b2, s2, by rw [foldlM_cons, bind_ok hx, hr], h2⟩
  exact hall rfl h

/-- **A loop with an accumulator that fails**: the steps up to some item succeed, and the step of that item fails. -/
theorem foldlM_of_error {f : β → α → EStateM ε σ β} {before after : List α} {x : α} {b b' : β} {s s' s'' : σ} {e : ε}
    (hbefore : before.foldlM f b s = .ok b' s') (hx : f b' x s' = .error e s'') :
    (before ++ x :: after).foldlM f b s = .error e s'' := by
  rw [foldlM_append, bind_ok hbefore, foldlM_cons, bind_error hx]

lemma exists_first_not {P : α → Prop} (h : ∃ x ∈ l, ¬ P x) :
    ∃ before x after, l = before ++ x :: after ∧ (∀ y ∈ before, P y) ∧ ¬ P x := by
  induction l with
  | nil => obtain ⟨x, hx, _⟩ := h; cases hx
  | cons y rest ih =>
    by_cases hy : P y
    · obtain ⟨x, hx, hnot⟩ := h
      have hrest : x ∈ rest := (mem_cons.mp hx).resolve_left fun heq => hnot (heq ▸ hy)
      obtain ⟨before, z, after, rfl, hbefore, hz⟩ := ih ⟨x, hrest, hnot⟩
      exact ⟨y :: before, z, after, rfl, forall_mem_cons.mpr ⟨hy, hbefore⟩, hz⟩
    · exact ⟨[], y, rest, rfl, by simp, hy⟩

lemma forM_congr {f f' : α → EStateM ε σ PUnit} (h : ∀ x ∈ l, ∀ s, f x s = f' x s) : l.forM f s = l.forM f' s := by
  induction l generalizing s with
  | nil => rfl
  | cons x rest ih =>
    show EStateM.bind (f x) (fun _ => rest.forM f) s = EStateM.bind (f' x) (fun _ => rest.forM f') s
    unfold EStateM.bind
    rw [h x mem_cons_self s]
    cases f' x s with
    | ok a s' => exact ih fun y hy => h y (mem_cons_of_mem _ hy)
    | error e s' => rfl

lemma forM_mem_ok :
    ∀ {l : List α} {s s' : σ} {u : PUnit}, l.forM f s = .ok u s' → ∀ x ∈ l, ∃ s1 s2, f x s1 = .ok ⟨⟩ s2 := by
  intro l
  induction l with
  | nil => intro s s' u _ x hx; cases hx
  | cons y rest ih =>
    intro s s' u hrun x hx
    obtain ⟨_, s1, hy, hrest⟩ := bind_eq_ok.mp hrun
    rcases mem_cons.mp hx with rfl | hx
    · exact ⟨s, s1, hy⟩
    · exact ih hrest x hx

end Loops

/-! ## Properties that success leaves as they were -/

section Keeps

variable {ε σ α β : Type} {P : σ → Prop} {m : EStateM ε σ α} {b : Prop} {f : α → EStateM ε σ PUnit} {l : List α}

/-- **Success of the action keeps `P`.** -/
def Keeps (P : σ → Prop) (m : EStateM ε σ α) : Prop := ∀ s a s', P s → m s = .ok a s' → P s'

lemma Keeps.pure (x : α) : Keeps P (Pure.pure x : EStateM ε σ α) := by
  intro s a s' h hrun; cases hrun; exact h

lemma Keeps.throw (e : ε) : Keeps P (MonadExcept.throw e : EStateM ε σ α) := by
  intro s a s' _ hrun; cases hrun

lemma Keeps.get : Keeps P (MonadState.get : EStateM ε σ σ) := by
  intro s a s' h hrun; cases hrun; exact h

lemma Keeps.modify {f : σ → σ} (hf : ∀ s, P s → P (f s)) : Keeps P (modify f : EStateM ε σ PUnit) := by
  intro s a s' h hrun; cases hrun; exact hf s h

lemma Keeps.bind {f : α → EStateM ε σ β} (hm : Keeps P m) (hf : ∀ a, Keeps P (f a)) : Keeps P (m >>= f) := by
  intro s b s'' h hrun
  obtain ⟨a, s', h1, h2⟩ := bind_eq_ok.mp hrun
  exact hf a s' b s'' (hm s a s' h h1) h2

lemma Keeps.ite [Decidable b] {m' : EStateM ε σ α} (hm : Keeps P m) (hm' : Keeps P m') : Keeps P (if b then m else m') := by
  split
  · exact hm
  · exact hm'

lemma Keeps.when [Decidable b] {first : EStateM ε σ PUnit} (hfirst : Keeps P first)
    (hm : Keeps P m) : Keeps P (if b then first >>= fun _ => m else m) :=
  Keeps.ite (hfirst.bind fun _ => hm) hm

lemma Keeps.discard (hm : Keeps P m) : Keeps P (discard m) := by
  intro s u s' h hrun
  obtain ⟨a, hrun⟩ := discard_eq_ok.mp hrun
  exact hm s a s' h hrun

lemma forM_ok_induction (I : List α → σ → Prop)
    (step : ∀ x rest s u s', I (x :: rest) s → f x s = .ok u s' → I rest s') {s s' : σ} {u : PUnit}
    (h : I l s) (hrun : l.forM f s = .ok u s') : I [] s' := by
  induction l generalizing s with
  | nil => cases hrun; exact h
  | cons x rest ih =>
    obtain ⟨_, s1, hx, hrest⟩ := bind_eq_ok.mp (show (f x >>= fun _ => rest.forM f) s = _ from hrun)
    exact ih (step x rest s _ s1 h hx) hrest

lemma Keeps.forM (hf : ∀ x ∈ l, Keeps P (f x)) : Keeps P (l.forM f) := by
  induction l with
  | nil => exact Keeps.pure _
  | cons x rest ih =>
    refine Keeps.bind (hf x mem_cons_self) fun _ => ih fun y hy => hf y (mem_cons_of_mem _ hy)

lemma Keeps.foldlM {f : β → α → EStateM ε σ β} (hf : ∀ b x, Keeps P (f b x)) (l : List α) (b : β) :
    Keeps P (l.foldlM f b) := by
  induction l generalizing b with
  | nil => exact Keeps.pure _
  | cons x rest ih => exact (hf b x).bind ih

end Keeps

/-! ## Properties that any end leaves as they were -/

section Always

variable {ε σ α β : Type} {P : σ → Prop} {m : EStateM ε σ α} {s s' : σ}

/-- The state that an action leaves, whether it succeeds or not. -/
def afterwards (m : EStateM ε σ α) (s : σ) : σ :=
  match m s with
  | .ok _ s' => s'
  | .error _ s' => s'

lemma afterwards_of_ok {a : α} (h : m s = .ok a s') : afterwards m s = s' := by
  simp [afterwards, h]

lemma afterwards_of_error {e : ε} (h : m s = .error e s') : afterwards m s = s' := by
  simp [afterwards, h]

/-- **The action keeps `P`, however it ends.** -/
def Always (P : σ → Prop) (m : EStateM ε σ α) : Prop := ∀ s, P s → P (afterwards m s)

lemma Always.pure (x : α) : Always P (Pure.pure x : EStateM ε σ α) := fun _ h => h

lemma Always.get : Always P (MonadState.get : EStateM ε σ σ) := fun _ h => h

lemma Always.bind {f : α → EStateM ε σ β} (hm : Always P m) (hf : ∀ a, Always P (f a)) : Always P (m >>= f) := by
  intro s h
  have hfirst := hm s h
  cases hrun : m s with
  | ok a s' =>
    rw [afterwards_of_ok hrun] at hfirst
    have hnext := hf a s' hfirst
    unfold afterwards at hnext ⊢
    rwa [bind_ok hrun]
  | error e s' =>
    rw [afterwards_of_error hrun] at hfirst
    rwa [afterwards_of_error (bind_error hrun)]

lemma Always.ite {b : Prop} [Decidable b] {m' : EStateM ε σ α} (hm : Always P m) (hm' : Always P m') :
    Always P (if b then m else m') := by
  split
  · exact hm
  · exact hm'

lemma Always.discard (hm : Always P m) : Always P (discard m) := by
  intro s h
  have hend := hm s h
  cases hrun : m s with
  | ok a s' => rwa [afterwards_of_ok (discard_of_ok hrun), ← afterwards_of_ok hrun]
  | error e s' => rwa [afterwards_of_error (discard_of_error hrun), ← afterwards_of_error hrun]

lemma Always.forM {f : α → EStateM ε σ PUnit} (hf : ∀ x, Always P (f x)) (l : List α) : Always P (l.forM f) := by
  induction l with
  | nil => exact Always.pure _
  | cons x rest ih => exact (hf x).bind fun _ => ih

end Always

/-! ## Answers inside edits -/

namespace Graph

variable {α : Type} {question : Graph → Except CircuitError α} {g g' : Graph} {a : α} {e : CircuitError}

lemma ask_of_ok (h : question g = .ok a) : ask question g = .ok a g := by
  unfold ask
  rw [bind_get, h]
  rfl

lemma ask_of_error (h : question g = .error e) : ask question g = .error e g := by
  unfold ask
  rw [bind_get, h]
  rfl

lemma ask_eq_ok : ask question g = .ok a g' ↔ question g = .ok a ∧ g' = g := by
  cases h : question g with
  | ok b => rw [ask_of_ok h]; simp [eq_comm]
  | error e => rw [ask_of_error h]; simp

lemma ask_keeps {P : Graph → Prop} : Keeps P (ask question) := by
  intro g a g' h hrun
  obtain ⟨_, rfl⟩ := ask_eq_ok.mp hrun
  exact h

end Graph

namespace Circuit

variable {α β : Type} {question : Circuit → Except CircuitError α} {c c' : Circuit} {a : α} {e : CircuitError}
  {edit : Graph.Edit α} {g : Graph}

lemma ask_of_ok (h : question c = .ok a) : ask question c = .ok a c := by
  unfold ask
  rw [bind_get, h]
  rfl

lemma ask_of_error (h : question c = .error e) : ask question c = .error e c := by
  unfold ask
  rw [bind_get, h]
  rfl

lemma ask_eq_ok : ask question c = .ok a c' ↔ question c = .ok a ∧ c' = c := by
  cases h : question c with
  | ok b => rw [ask_of_ok h]; simp [eq_comm]
  | error e => rw [ask_of_error h]; simp

lemma bind_ask_eq_ok {f : α → Edit β} {b : β} :
    (ask question >>= f) c = .ok b c' ↔ ∃ a, question c = .ok a ∧ f a c = .ok b c' := by
  rw [bind_eq_ok]
  constructor
  · rintro ⟨a, _, hask, hrest⟩
    obtain ⟨hquestion, rfl⟩ := ask_eq_ok.mp hask
    exact ⟨a, hquestion, hrest⟩
  · rintro ⟨a, hquestion, hrest⟩
    exact ⟨a, c, ask_of_ok hquestion, hrest⟩

/-- **Questions asked one after the other** end with the first that has no answer, and change nothing. -/
theorem forM_ask {α : Type} (questions : α → Circuit → Except CircuitError Unit) (l : List α) (c : Circuit) :
    (∀ x ∈ l, questions x c = .ok ()) ∧ (l.forM fun x => ask (questions x)) c = .ok () c ∨
      (∃ x ∈ l, questions x c ≠ .ok ()) ∧ ∃ e, (l.forM fun x => ask (questions x)) c = .error e c := by
  induction l with
  | nil => exact .inl ⟨by simp, rfl⟩
  | cons x rest ih =>
    show _ ∧ (ask (questions x) >>= fun _ => rest.forM fun x => ask (questions x)) c = _ ∨
      _ ∧ ∃ e, (ask (questions x) >>= fun _ => rest.forM fun x => ask (questions x)) c = _
    cases hx : questions x c with
    | error e =>
      rw [bind_error (ask_of_error hx)]
      exact .inr ⟨⟨x, mem_cons_self, by rw [hx]; simp⟩, e, rfl⟩
    | ok a =>
      rw [bind_ok (ask_of_ok hx), forall_mem_cons]
      rcases ih with ⟨hall, hrun⟩ | ⟨⟨y, hy, hne⟩, herror⟩
      · exact .inl ⟨⟨hx, hall⟩, hrun⟩
      · exact .inr ⟨⟨y, mem_cons_of_mem _ hy, hne⟩, herror⟩

lemma ask_keeps {P : Circuit → Prop} : Keeps P (ask question) := by
  intro c a c' h hrun
  obtain ⟨_, rfl⟩ := ask_eq_ok.mp hrun
  exact h

lemma onGraph_of_ok (h : edit c.graph = .ok a g) : onGraph edit c = .ok a { c with graph := g } := by
  unfold onGraph
  rw [h]

lemma onGraph_of_error (h : edit c.graph = .error e g) : onGraph edit c = .error e { c with graph := g } := by
  unfold onGraph
  rw [h]

lemma onGraph_eq_ok : onGraph edit c = .ok a c' ↔ ∃ g, edit c.graph = .ok a g ∧ c' = { c with graph := g } := by
  unfold onGraph
  cases h : edit c.graph with
  | ok b g => simp [eq_comm]
  | error e g => simp

lemma edited_eq_ok {edit : Edit α} : c.edited edit = .ok c' ↔ ∃ a, edit c = .ok a c' := by
  unfold edited
  cases h : edit c with
  | ok b c1 => simp
  | error e c1 => simp

lemma revise_eq_ok {change : Circuit → Except CircuitError (α × Circuit)} :
    revise change c = .ok a c' ↔ change c = .ok (a, c') := by
  unfold revise
  cases h : change c with
  | ok p => obtain ⟨b, _⟩ := p; simp
  | error e => simp

end Circuit

lemma Keeps.edited {α : Type} {P : Circuit → Prop} {edit : Circuit.Edit α} {c c' : Circuit} (h : Keeps P edit) (hc : P c)
    (hrun : c.edited edit = .ok c') : P c' :=
  (Circuit.edited_eq_ok.mp hrun).elim fun a hrun => h c a c' hc hrun

/-! # `SortedMap.entries` — walking a map and looking it up -/

open Option SortedMap

open Std

lemma lookup_of_mem {κ α : Type} [DecidableEq κ] {l : List (κ × α)} {k : κ} {x : α} (hn : (l.map Prod.fst).Nodup)
    (hmem : (k, x) ∈ l) : l.lookup k = some x := by
  induction l with
  | nil => cases hmem
  | cons p rest ih =>
    obtain ⟨k', _⟩ := p
    obtain ⟨hnot, hn⟩ := nodup_cons.mp hn
    rcases mem_cons.mp hmem with heq | hrest
    · cases heq
      simp
    · have hne : k ≠ k' := fun heq => hnot (mem_map.mpr ⟨(k, x), hrest, heq⟩)
      rw [lookup_cons, beq_false_of_ne hne]
      exact ih hn hrest

namespace SortedMap

variable {κ α : Type} [DecidableEq κ] {l : List (κ × α)} {k : κ} {x : α}

lemma lookup_eq_some_iff_mem (hn : (l.map Prod.fst).Nodup) : lookup k l = some x ↔ (k, x) ∈ l := by
  induction l with
  | nil => simp [lookup]
  | cons p rest ih =>
    obtain ⟨k', _⟩ := p
    rw [map_cons, nodup_cons] at hn
    by_cases hk : k = k'
    · subst hk
      rw [lookup, if_pos rfl, mem_cons, Prod.mk.injEq]
      constructor
      · rintro h; exact .inl ⟨rfl, (some.inj h).symm⟩
      · rintro (⟨_, rfl⟩ | h)
        · rfl
        · exact absurd (mem_map_of_mem h) hn.1
    · rw [lookup, if_neg hk, ih hn.2, mem_cons, Prod.mk.injEq]
      simp [hk]

lemma lookup_eq_none_of_notMem (h : k ∉ l.map Prod.fst) : lookup k l = none := by
  induction l with
  | nil => rfl
  | cons p rest ih =>
    rw [map_cons, mem_cons, not_or] at h
    rw [lookup, if_neg h.1, ih h.2]

omit [DecidableEq κ] in
lemma insertEntry_of_lt [Ord κ] [TransOrd κ] (h : ∀ p ∈ l, compare p.1 k = .lt) :
    insertEntry k x l = l ++ [(k, x)] := by
  induction l with
  | nil => rfl
  | cons p rest ih =>
    obtain ⟨hp, hrest⟩ := forall_mem_cons.mp h
    rw [insertEntry, OrientedCmp.gt_of_lt hp, ih hrest]
    rfl

section Lookup

variable [Ord κ] {m n o : SortedMap κ α} {k k' : κ} {x : α}

lemma contains_iff : m.contains k ↔ ∃ x, m.get? k = some x := by
  unfold contains
  rw [isSome_iff_exists]

lemma get?_erase (m : SortedMap κ α) (k k' : κ) : (m.erase k).get? k' = if k' = k then none else m.get? k' := by
  by_cases h : k' = k
  · rw [h, get?_erase_same, if_pos rfl]
  · rw [get?_erase_other m h, if_neg h]

@[simp] lemma get?_empty : (empty : SortedMap κ α).get? k = none := rfl

variable [LawfulEqOrd κ]

omit [DecidableEq κ] in
lemma nodup_keys (m : SortedMap κ α) : (m.entries.map Prod.fst).Nodup := by
  refine pairwise_map.mpr (m.ordered.imp fun {a b} hab heq => ?_)
  rw [heq, ReflOrd.compare_self] at hab
  cases hab

lemma get?_iff_mem : m.get? k = some x ↔ (k, x) ∈ m.entries :=
  lookup_eq_some_iff_mem (nodup_keys m)

lemma mem_keys_iff : k ∈ m.entries.map Prod.fst ↔ ∃ x, m.get? k = some x := by
  constructor
  · intro h
    obtain ⟨⟨_, x⟩, hmem, rfl⟩ := mem_map.mp h
    exact ⟨x, get?_iff_mem.mpr hmem⟩
  · rintro ⟨x, hx⟩
    exact mem_map.mpr ⟨(k, x), get?_iff_mem.mp hx, rfl⟩

lemma get?_insert [TransOrd κ] (m : SortedMap κ α) (k k' : κ) (x : α) :
    (m.insert k x).get? k' = if k' = k then some x else m.get? k' := by
  by_cases h : k' = k
  · rw [h, get?_insert_same, if_pos rfl]
  · rw [get?_insert_other m h, if_neg h]

lemma get?_filter (m : SortedMap κ α) (keep : κ → α → Bool) (k : κ) :
    (m.filter keep).get? k = (m.get? k).filter (keep k) := by
  apply Option.ext
  intro x
  rw [filter_eq_some_iff, get?_iff_mem, get?_iff_mem]
  exact mem_filter

omit [LawfulEqOrd κ] in
lemma get?_mapValues {β : Type} (m : SortedMap κ α) (f : κ → α → β) (k : κ) :
    (m.mapValues f).get? k = (m.get? k).map (f k) := by
  show lookup k (m.entries.map fun p => (p.1, f p.1 p.2)) = (lookup k m.entries).map (f k)
  induction m.entries with
  | nil => rfl
  | cons p rest ih =>
    rw [map_cons, lookup, lookup]
    by_cases hk : k = p.1
    · rw [if_pos hk, if_pos hk, hk]
      rfl
    · rw [if_neg hk, if_neg hk, ih]

lemma get?_unionLeft [TransOrd κ] (m n : SortedMap κ α) (k : κ) : (m.unionLeft n).get? k = (m.get? k).or (n.get? k) := by
  unfold unionLeft
  show _ = (m.get? k).or (lookup k n.entries)
  induction n.entries generalizing m with
  | nil => exact (or_none).symm
  | cons p rest ih =>
    rw [foldl_cons, ih, lookup]
    by_cases hm : m.contains p.1
    · rw [if_pos hm]
      by_cases hk : k = p.1
      · obtain ⟨x, hx⟩ := contains_iff.mp hm
        rw [hk, hx]
        rfl
      · rw [if_neg hk]
    · rw [if_neg hm, get?_insert]
      by_cases hk : k = p.1
      · have hnone : m.get? p.1 = none := by simpa [contains] using hm
        rw [if_pos hk, if_pos hk, hk, hnone]
        rfl
      · rw [if_neg hk, if_neg hk]

/-- **Two maps agree** on the keys that they share. -/
def Agree (m n : SortedMap κ α) : Prop := ∀ ⦃k x y⦄, m.get? k = some x → n.get? k = some y → x = y

omit [LawfulEqOrd κ] in
lemma Agree.symm (h : m.Agree n) : n.Agree m := fun _ _ _ hx hy => (h hy hx).symm

lemma Agree.unionLeft_iff [TransOrd κ] (h : m.Agree n) : (m.unionLeft n).Agree o ↔ m.Agree o ∧ n.Agree o := by
  constructor
  · intro hunion
    refine ⟨fun k x y hx hy => hunion ?_ hy, fun k x y hx hy => ?_⟩
    · rw [get?_unionLeft, hx]
      rfl
    · cases hm : m.get? k with
      | none => exact hunion (by rw [get?_unionLeft, hm, hx]; rfl) hy
      | some z =>
        rw [← h hm hx]
        exact hunion (by rw [get?_unionLeft, hm]; rfl) hy
  · rintro ⟨hm, hn⟩ k x y hx hy
    rw [get?_unionLeft, or_eq_some_iff] at hx
    rcases hx with hx | ⟨_, hx⟩
    · exact hm hx hy
    · exact hn hx hy

lemma Agree.unionLeft_comm [TransOrd κ] (h : m.Agree n) : m.unionLeft n = n.unionLeft m := by
  refine ext_get? fun k => ?_
  rw [get?_unionLeft, get?_unionLeft]
  cases hm : m.get? k with
  | none => simp
  | some x =>
    cases hn : n.get? k with
    | none => rfl
    | some y => rw [h hm hn]

lemma unionLeft_assoc [TransOrd κ] (m n o : SortedMap κ α) : (m.unionLeft n).unionLeft o = m.unionLeft (n.unionLeft o) := by
  refine ext_get? fun k => ?_
  simp only [get?_unionLeft, Option.or_assoc]

lemma exists_get?_ofList [TransOrd κ] {l : List (κ × α)} (h : k ∈ l.map Prod.fst) :
    ∃ x, (k, x) ∈ l ∧ (ofList l).get? k = some x := by
  induction l using reverseRecOn with
  | nil => cases h
  | append_singleton l p ih =>
    have hlast : (ofList (l ++ [p])).get? k = if k = p.1 then some p.2 else (ofList l).get? k := by
      unfold ofList
      rw [foldl_append]
      exact get?_insert _ _ _ _
    rw [hlast]
    by_cases hk : k = p.1
    · exact ⟨p.2, mem_append_right _ (mem_singleton.mpr (Prod.ext hk rfl)), if_pos hk⟩
    · rw [map_append, mem_append] at h
      obtain ⟨x, hx, hget⟩ := ih (h.resolve_right fun hp => hk (mem_singleton.mp hp))
      exact ⟨x, mem_append_left _ hx, by rw [if_neg hk, hget]⟩

omit [DecidableEq κ] in
lemma entries_foldl_insert [TransOrd κ] {l : List (κ × α)} (h : (m.entries ++ l).Pairwise fun a b => compare a.1 b.1 = .lt) :
    (l.foldl (fun m p => m.insert p.1 p.2) m).entries = m.entries ++ l := by
  induction l generalizing m with
  | nil => rw [append_nil]; rfl
  | cons p rest ih =>
    have hinsert : (m.insert p.1 p.2).entries = m.entries ++ [p] :=
      insertEntry_of_lt fun q hq => (pairwise_append.mp h).2.2 q hq p mem_cons_self
    rw [append_cons, ← hinsert] at h ⊢
    exact ih h

end Lookup

end SortedMap

namespace SortedSet

variable {κ : Type} [Ord κ] [DecidableEq κ] [LawfulEqOrd κ] {s : SortedSet κ} {k k' : κ} {t : SortedSet κ}

lemma mem_toList : k ∈ s.toList ↔ contains s k := by
  show k ∈ s.entries.map Prod.fst ↔ _
  rw [mem_keys_iff, SortedMap.contains_iff]

omit [DecidableEq κ] in
lemma nodup_toList (s : SortedSet κ) : s.toList.Nodup := nodup_keys s

lemma contains_inter : contains (s.inter t) k ↔ contains s k ∧ contains t k := by
  rw [← mem_toList, ← mem_toList]
  show k ∈ (s.entries.filter fun p => contains t p.1).map Prod.fst ↔ k ∈ s.entries.map Prod.fst ∧ _
  simp only [List.mem_map, List.mem_filter]
  constructor
  · rintro ⟨p, ⟨hp, ht⟩, rfl⟩
    exact ⟨⟨p, hp, rfl⟩, ht⟩
  · rintro ⟨⟨p, hp, rfl⟩, ht⟩
    exact ⟨p, ⟨hp, ht⟩, rfl⟩

lemma subset_iff : s.subset t ↔ ∀ k, contains s k → contains t k := by
  unfold subset
  rw [List.all_eq_true]
  exact forall_congr' fun k => by rw [mem_toList]

lemma ext_contains [TransOrd κ] {t : SortedSet κ} (h : ∀ k, contains s k ↔ contains t k) : s = t := by
  refine ext_get? fun k => ?_
  have hk := h k
  simp only [SortedMap.contains, isSome_iff_exists] at hk
  cases hs : get? s k <;> cases ht : get? t k <;> simp_all

lemma contains_add [TransOrd κ] : contains (s.add k) k' ↔ k' = k ∨ contains s k' := by
  unfold SortedMap.contains add
  rw [get?_insert]
  by_cases h : k' = k
  · simp [h]
  · simp [h]

end SortedSet

end Wireloom
