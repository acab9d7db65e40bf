import Mathlib
import Wireloom.Proofs.Seams

/-!
# `Angle.Simple`, `Circuit.symbols` — what binding symbols leaves free

Simplifying drops no symbol, since only terms without symbols are folded or count as zero. So a symbol is free after a
binding if it occurs in what the binding has for a symbol that was free before (`contains_symbols_bindSymbols`).
A table of `n` names leaves one of the first `n + 1` candidates for a new one free (`SymbolTable.exists_free`).
-/

namespace Wireloom

open Option

/-! ## Negating a float -/

namespace Float64

open Float.Model (Format)
open Float.Model.UnpackedFloat

variable {f : Format} {s : Sign} {e : BitVec f.exponentBits} {m : BitVec f.mantissaBitsWithoutImplicit} {b : BitVec f.numBits}

lemma neg_neg_sign (s : Sign) : -(-s) = s := by cases s <;> rfl

lemma neg_unpack : (unpack f (packComponents f s e m)).neg = unpack f (packComponents f (-s) e m) := by
  unfold unpack
  simp only [unpackMantissa_packComponents, unpackExponent_packComponents, unpackSign_packComponents, Sign.ofBitVec_toBitVec]
  split
  · split <;> rfl
  · split
    · split <;> rfl
    · rfl

lemma pack_neg_unpack (hf : 2 ≤ f.exponentBits) (h : e = -1#_ → m = 0#_) :
    pack f (unpack f (packComponents f s e m)).neg = packComponents f (-s) e m := by
  have hnumber : ¬ isNaNBits (packComponents f (-s) e m) := by simpa [isNaNBits] using h
  rw [neg_unpack, pack_unpack _ hf, if_neg hnumber]

lemma neg_neg_word (hf : 2 ≤ f.exponentBits) (h : f.Valid b) : pack f (unpack f (pack f (unpack f b).neg)).neg = b := by
  by_cases hnumber : unpackExponent b = -1#_ → unpackMantissa b = 0#_
  · have hword := packComponents_unpackSign_unpackExponent_unpackMantissa b
    rw [← hword, pack_neg_unpack hf hnumber, pack_neg_unpack hf hnumber, neg_neg_sign]
  · obtain ⟨he, hm⟩ := Classical.not_imp.mp hnumber
    have hword := h.eq_packedNaN he hm
    have hnan : unpack f b = notANumber := by rw [hword, unpack_packedNaN]
    have hpack : pack f notANumber = b := hword.symm
    rw [hnan, neg, hpack, hnan, neg, hpack]

lemma neg_neg (x : Float) : -(-x) = x :=
  Float.toBits_inj.mp (congrArg UInt64.ofBitVec (neg_neg_word (by decide) x.toModel.valid))

end Float64

/-! ## Simplified terms -/

namespace Angle

variable {a b : Angle} {x : Float}

/-- **A simplified term**: only constants have a value, a negation is of something else than a negation, and no
    summand counts as zero. -/
inductive Simple : Angle → Prop
  | const (x : Float) : Simple (.const x)
  | symbol (name : String) : Simple (.symbol name)
  | neg {a : Angle} (simple : Simple a) (unvalued : a.value? = none) (other : ∀ b, a ≠ .neg b) : Simple (.neg a)
  | add {a b : Angle} (left : Simple a) (right : Simple b) (unvalued : (Angle.add a b).value? = none)
      (left_zero : a.isZero = false) (right_zero : b.isZero = false) : Simple (.add a b)
  | mul {a b : Angle} (left : Simple a) (right : Simple b) (unvalued : (Angle.mul a b).value? = none) : Simple (.mul a b)

lemma foldOr_of_some (h : a.value? = some x) : a.foldOr b = const x := by rw [foldOr, h]

lemma foldOr_of_none (h : a.value? = none) : a.foldOr b = b := by rw [foldOr, h]

lemma value?_neg_eq_none : (neg a).value? = none ↔ a.value? = none := by
  rw [value?, map_eq_none_iff]

lemma value?_negSimple (h : a.value? = none) : a.negSimple.value? = none := by
  cases a with
  | neg b => exact value?_neg_eq_none.mp h
  | _ => exact value?_neg_eq_none.mpr h

lemma negSimple_of_other (h : ∀ b, a ≠ neg b) : a.negSimple = neg a := by
  cases a with
  | neg b => exact absurd rfl (h b)
  | _ => rfl

lemma value?_addSimple (h : (add a b).value? = none) : (a.addSimple b).value? = none := by
  have hsum : a.value?.bind (fun x => b.value?.map fun y => x + y) = none := h
  unfold addSimple
  split
  · next hzero =>
    obtain ⟨x, hx, _⟩ := (any_eq_true _ _).mp hzero
    rw [hx] at hsum
    exact map_eq_none_iff.mp hsum
  · split
    · next hzero =>
      obtain ⟨y, hy, _⟩ := (any_eq_true _ _).mp hzero
      rw [hy] at hsum
      cases hx : a.value? with
      | none => rfl
      | some x => rw [hx] at hsum; cases hsum
    · exact h

lemma value?_foldOr (h : a.value? = none → b.value? = none) : (a.foldOr b).value? = a.value? := by
  cases ha : a.value? with
  | none => rw [foldOr_of_none ha, h ha]
  | some x => rw [foldOr_of_some ha]; rfl

@[simp] lemma value?_simplify (a : Angle) : a.simplify.value? = a.value? := by
  induction a with
  | const x => rfl
  | symbol name => rfl
  | pi => rfl
  | neg a ih =>
    refine value?_foldOr fun h => value?_negSimple ?_
    rw [ih]
    exact value?_neg_eq_none.mp h
  | add a b iha ihb =>
    refine value?_foldOr fun h => value?_addSimple ?_
    rw [value?, iha, ihb]
    exact h
  | mul a b iha ihb =>
    refine value?_foldOr fun h => ?_
    rw [value?, iha, ihb]
    exact h

lemma simplify_of_some (h : a.value? = some x) : a.simplify = const x := by
  cases a with
  | const y => cases h; rfl
  | symbol name => cases h
  | pi => cases h; rfl
  | neg a => exact foldOr_of_some h
  | add a b => exact foldOr_of_some h
  | mul a b => exact foldOr_of_some h

lemma Simple.foldOr (h : a.value? = none → b.Simple) : (a.foldOr b).Simple := by
  cases ha : a.value? with
  | none => rw [foldOr_of_none ha]; exact h ha
  | some x => rw [foldOr_of_some ha]; exact .const x

lemma Simple.negSimple (h : a.Simple) (hopen : a.value? = none) : a.negSimple.Simple := by
  by_cases hneg : ∃ b, a = .neg b
  · obtain ⟨b, rfl⟩ := hneg
    cases h with
    | neg simple _ _ => exact simple
  · have hother : ∀ b, a ≠ .neg b := fun b heq => hneg ⟨b, heq⟩
    rw [negSimple_of_other hother]
    exact .neg h hopen hother

lemma Simple.addSimple (ha : a.Simple) (hb : b.Simple) (hopen : (Angle.add a b).value? = none) : (a.addSimple b).Simple := by
  unfold Angle.addSimple
  split
  · exact hb
  · next hleft =>
    split
    · exact ha
    · next hright => exact .add ha hb hopen (by simpa using hleft) (by simpa using hright)

lemma simple_simplify (a : Angle) : a.simplify.Simple := by
  induction a with
  | const x => exact .const x
  | symbol name => exact .symbol name
  | pi => exact .const _
  | neg a ih =>
    refine Simple.foldOr fun h => ih.negSimple ?_
    rw [value?_simplify]
    exact value?_neg_eq_none.mp h
  | add a b iha ihb =>
    refine Simple.foldOr fun h => iha.addSimple ihb ?_
    rw [value?, value?_simplify, value?_simplify]
    exact h
  | mul a b iha ihb =>
    refine Simple.foldOr fun h => .mul iha ihb ?_
    rw [value?, value?_simplify, value?_simplify]
    exact h

lemma Simple.simplify_eq (h : a.Simple) : a.simplify = a := by
  induction h with
  | const x => rfl
  | symbol name => rfl
  | neg _ hopen hother ih =>
    rw [simplify, foldOr_of_none (value?_neg_eq_none.mpr hopen), ih, negSimple_of_other hother]
  | add _ _ hopen hleft hright iha ihb =>
    rw [simplify, foldOr_of_none hopen, iha, ihb, Angle.addSimple, hleft, hright]
    rfl
  | mul _ _ hopen iha ihb => rw [simplify, foldOr_of_none hopen, iha, ihb]

/-- The negation of an open simplified term, negated, is the term: a negation in front goes and comes back, or comes
    and goes. -/
lemma Simple.negSimple_negSimple (h : a.Simple) : a.negSimple.negSimple = a := by
  by_cases hneg : ∃ b, a = .neg b
  · obtain ⟨b, rfl⟩ := hneg
    cases h with
    | neg _ _ hother => exact negSimple_of_other hother
  · rw [negSimple_of_other fun b heq => hneg ⟨b, heq⟩]
    rfl

lemma neg_neg (a : Angle) : -(-a) = a.simplify := by
  show (neg (neg a).simplify).simplify = a.simplify
  cases ha : a.value? with
  | some x =>
    have hneg : (neg a).value? = some (-x) := by rw [value?, ha]; rfl
    rw [simplify_of_some hneg, simplify_of_some ha]
    show const (-(-x)) = const x
    rw [Float64.neg_neg]
  | none =>
    have hneg : (neg a).value? = none := value?_neg_eq_none.mpr ha
    have hopen : a.simplify.value? = none := by rw [value?_simplify, ha]
    have hsimple := (simple_simplify a).negSimple hopen
    rw [simplify, simplify, foldOr_of_none hneg, foldOr_of_none (value?_neg_eq_none.mpr (value?_negSimple hopen)),
      hsimple.simplify_eq, (simple_simplify a).negSimple_negSimple]

end Angle

/-! ## Operations inverted twice -/

/-- The gate with its angle simplified if it is a turn about Y: what transposing it twice gives. -/
def Gate.simplifyTurn : Gate → Gate
  | .ry a => .ry a.simplify
  | g => g

lemma Gate.dagger_dagger (g : Gate) : g.dagger.dagger = g.mapAngle Angle.simplify := by
  cases g <;> first | rfl | exact congrArg _ (Angle.neg_neg _)

lemma Gate.transpose_transpose (g : Gate) : g.transpose.transpose = g.simplifyTurn := by
  cases g <;> first | rfl | exact congrArg _ (Angle.neg_neg _)

namespace Op

variable {op op' : Op}

/-- The operation with the angle of a gate or a phase simplified. -/
def simplifyAngle : Op → Op
  | gate g => gate (g.mapAngle Angle.simplify)
  | phase a => phase a.simplify
  | op => op

/-- The operation with the angle simplified if it is a turn about Y. -/
def simplifyTurn : Op → Op
  | gate g => gate g.simplifyTurn
  | op => op

lemma signature_simplifyAngle (op : Op) : op.simplifyAngle.signature = op.signature := by
  cases op with
  | gate g =>
    show List.replicate (g.mapAngle Angle.simplify).arity _ = List.replicate g.arity _
    rw [Gate.arity_mapAngle]
  | _ => rfl

lemma signature_simplifyTurn (op : Op) : op.simplifyTurn.signature = op.signature := by
  cases op with
  | gate g => cases g <;> rfl
  | _ => rfl

lemma dagger_dagger (h : op.dagger = .ok op') : op'.dagger = .ok op.simplifyAngle := by
  cases op with
  | gate g =>
    cases h
    exact congrArg (fun g => Except.ok (gate g)) g.dagger_dagger
  | phase a =>
    cases h
    exact congrArg (fun a => Except.ok (phase a)) a.neg_neg
  | barrier signature => cases h; rfl
  | measure => cases h
  | reset => cases h
  | conditional _ _ _ => cases h
  | custom _ _ _ => cases h

lemma transpose_transpose (h : op.transpose = .ok op') : op'.transpose = .ok op.simplifyTurn := by
  cases op with
  | gate g =>
    cases h
    exact congrArg (fun g => Except.ok (gate g)) g.transpose_transpose
  | phase a => cases h; rfl
  | barrier signature => cases h; rfl
  | measure => cases h
  | reset => cases h
  | conditional _ _ _ => cases h
  | custom _ _ _ => cases h

end Op

end Wireloom

/-! # `Circuit.symbols` -/

namespace Wireloom

open List SortedMap

open Option (map_eq_some_iff bind_eq_some_iff)

open Std (LawfulEqOrd TransOrd)

/-! ## Sets of symbols -/

section

variable {κ : Type} [Ord κ] [DecidableEq κ] [LawfulEqOrd κ] {s t : SortedSet κ} {k : κ}

lemma SortedSet.contains_union [TransOrd κ] : contains (s.union t) k ↔ contains s k ∨ contains t k := by
  unfold union
  rw [← mem_toList (s := t)]
  generalize t.toList = l
  induction l generalizing s with
  | nil => simp
  | cons x rest ih =>
    rw [foldl_cons, ih, contains_add, mem_cons]
    tauto

lemma SortedSet.contains_foldl_union [TransOrd κ] {α : Type} {f : α → SortedSet κ} {l : List α} :
    SortedMap.contains (l.foldl (fun s x => union s (f x)) s) k ↔ contains s k ∨ ∃ x ∈ l, SortedMap.contains (f x) k := by
  induction l generalizing s with
  | nil => simp
  | cons x rest ih => rw [foldl_cons, ih, contains_union, exists_mem_cons_iff, or_assoc]

lemma SortedSet.isEmpty_iff : isEmpty s ↔ ∀ k, ¬ contains s k := by
  unfold SortedMap.isEmpty
  rw [List.isEmpty_iff, ← map_eq_nil_iff, eq_nil_iff_forall_not_mem]
  exact forall_congr' fun k => not_congr mem_toList

end

variable {σ : Binding} {s : String} {x : Float}

/-! ## Terms -/

namespace Angle

variable {a b : Angle}

lemma contains_symbol {name : String} : (symbol name).symbols.contains s ↔ s = name :=
  SortedSet.contains_add.trans (or_iff_left Bool.false_ne_true)

lemma isSome_value? : a.value?.isSome ↔ ∀ s, ¬ a.symbols.contains s := by
  induction a with
  | const _ => exact iff_of_true rfl fun _ => Bool.false_ne_true
  | symbol name => exact iff_of_false Bool.false_ne_true fun h => h name (contains_symbol.mpr rfl)
  | pi => exact iff_of_true rfl fun _ => Bool.false_ne_true
  | neg a ih =>
    rw [value?, Option.isSome_map]
    exact ih
  | add a b iha ihb =>
    simp only [symbols, SortedSet.contains_union, not_or, forall_and, ← iha, ← ihb, value?]
    cases a.value? <;> cases b.value? <;> simp
  | mul a b iha ihb =>
    simp only [symbols, SortedSet.contains_union, not_or, forall_and, ← iha, ← ihb, value?]
    cases a.value? <;> cases b.value? <;> simp

lemma not_contains_of_value? (h : a.value? = some x) : ¬ a.symbols.contains s :=
  isSome_value?.mp (Option.isSome_of_mem h) s

lemma contains_foldOr (h : b.symbols.contains s ↔ a.symbols.contains s) :
    (a.foldOr b).symbols.contains s ↔ a.symbols.contains s := by
  cases ha : a.value? with
  | none => rwa [foldOr_of_none ha]
  | some x =>
    rw [foldOr_of_some ha]
    exact iff_of_false Bool.false_ne_true (not_contains_of_value? ha)

lemma contains_addSimple : (a.addSimple b).symbols.contains s ↔ a.symbols.contains s ∨ b.symbols.contains s := by
  have hzero : ∀ {a : Angle}, a.isZero → ¬ a.symbols.contains s := by
    intro a ha
    obtain ⟨_, hvalue, _⟩ := (Option.any_eq_true _ _).mp ha
    exact not_contains_of_value? hvalue
  unfold addSimple
  split
  · next ha => rw [or_iff_right (hzero ha)]
  · split
    · next hb => rw [or_iff_left (hzero hb)]
    · exact SortedSet.contains_union

lemma symbols_negSimple (a : Angle) : a.negSimple.symbols = a.symbols := by cases a <;> rfl

lemma contains_simplify : a.simplify.symbols.contains s ↔ a.symbols.contains s := by
  induction a with
  | const _ => rfl
  | symbol _ => rfl
  | pi => rfl
  | neg a ih => exact contains_foldOr (by rw [symbols_negSimple, ih, symbols])
  | add a b iha ihb => exact contains_foldOr (by rw [contains_addSimple, iha, ihb, symbols, SortedSet.contains_union])
  | mul a b iha ihb =>
    exact contains_foldOr (by
      rw [symbols, SortedSet.contains_union, iha, ihb, symbols, SortedSet.contains_union])

/-! ## Normal forms -/

/-- The term and all terms that it is built from. -/
def subterms : Angle → List Angle
  | neg a => neg a :: a.subterms
  | add a b => add a b :: (a.subterms ++ b.subterms)
  | mul a b => mul a b :: (a.subterms ++ b.subterms)
  | a => [a]

lemma Simple.subterm (h : a.Simple) : ∀ t ∈ a.subterms, t.Simple := by
  induction h with
  | const x => exact forall_mem_singleton.mpr (.const x)
  | symbol name => exact forall_mem_singleton.mpr (.symbol name)
  | neg simple unvalued other ih => exact forall_mem_cons.mpr ⟨.neg simple unvalued other, ih⟩
  | add left right unvalued left_zero right_zero iha ihb =>
    exact forall_mem_cons.mpr ⟨.add left right unvalued left_zero right_zero, forall_mem_append.mpr ⟨iha, ihb⟩⟩
  | mul left right unvalued iha ihb =>
    exact forall_mem_cons.mpr ⟨.mul left right unvalued, forall_mem_append.mpr ⟨iha, ihb⟩⟩

lemma Simple.eq_const (h : a.Simple) (hvalue : a.value?.isSome) : ∃ x, a = .const x := by
  cases h with
  | const x => exact ⟨x, rfl⟩
  | symbol _ => cases hvalue
  | neg _ unvalued _ =>
    rw [value?_neg_eq_none.mpr unvalued] at hvalue
    cases hvalue
  | add _ _ unvalued _ _ =>
    rw [unvalued] at hvalue
    cases hvalue
  | mul _ _ unvalued =>
    rw [unvalued] at hvalue
    cases hvalue

/-- **Simplifying gives a normal form**, with the value and the free symbols of the term: no term in it without symbols but
    constants, no negation of a negation, and no summand that counts as zero. Simplifying again changes nothing, and
    negating twice simplifies. -/
theorem simplify_normalises (a : Angle) : a.simplify.simplify = a.simplify ∧ a.simplify.symbols = a.symbols ∧
      (a.value?.isSome = true ↔ a.symbols.isEmpty = true) ∧ a.simplify.value? = a.value? ∧
      (∀ t ∈ a.simplify.subterms, (t.symbols.isEmpty = true → ∃ x, t = const x) ∧ (∀ b, t ≠ neg (neg b)) ∧
        ∀ b c, t = add b c → b.isZero = false ∧ c.isZero = false) ∧
      -(-a) = a.simplify := by
  have hvalue : ∀ {b : Angle}, b.value?.isSome = true ↔ b.symbols.isEmpty = true :=
    isSome_value?.trans SortedSet.isEmpty_iff.symm
  refine ⟨(simple_simplify a).simplify_eq, SortedSet.ext_contains fun s => contains_simplify, hvalue, value?_simplify a,
    fun t ht => ?_, neg_neg a⟩
  have hsimple := (simple_simplify a).subterm t ht
  refine ⟨fun hclosed => hsimple.eq_const (hvalue.mpr hclosed), fun b heq => ?_, fun b c heq => ?_⟩
  · subst heq
    cases hsimple with
    | neg _ _ other => exact other b rfl
  · subst heq
    cases hsimple with
    | add _ _ _ left_zero right_zero => exact ⟨left_zero, right_zero⟩

lemma contains_bind : (a.bind σ).symbols.contains s ↔
    ∃ s', a.symbols.contains s' ∧ ((symbol s').bind σ).symbols.contains s := by
  have hnone : ∀ {P : String → Prop}, ¬ ∃ s', (.empty : SortedSet String).contains s' ∧ P s' :=
    fun ⟨_, h, _⟩ => Bool.false_ne_true h
  induction a with
  | const _ => exact iff_of_false Bool.false_ne_true hnone
  | symbol name =>
    simp only [contains_symbol, exists_eq_left]
  | pi => exact iff_of_false Bool.false_ne_true hnone
  | neg a ih => exact ih
  | add a b iha ihb => simp only [bind, symbols, SortedSet.contains_union, iha, ihb, or_and_right, exists_or]
  | mul a b iha ihb => simp only [bind, symbols, SortedSet.contains_union, iha, ihb, or_and_right, exists_or]

lemma isSymbolic_of_contains (h : a.symbols.contains s) : a.isSymbolic := by
  induction a with
  | const _ => cases h
  | symbol _ => rfl
  | pi => cases h
  | neg a ih => exact ih h
  | add a b iha ihb => exact Bool.or_eq_true_iff.mpr ((SortedSet.contains_union.mp h).imp iha ihb)
  | mul a b iha ihb => exact Bool.or_eq_true_iff.mpr ((SortedSet.contains_union.mp h).imp iha ihb)

/-- The term with symbols bound, or as it is if it has none. -/
def bound (σ : Binding) (a : Angle) : Angle := if a.isSymbolic then (a.bind σ).simplify else a

lemma contains_bound : (a.bound σ).symbols.contains s ↔
    ∃ s', a.symbols.contains s' ∧ ((symbol s').bind σ).symbols.contains s := by
  unfold bound
  split
  · rw [contains_simplify, contains_bind]
  · next hsymbolic =>
    refine iff_of_false (mt isSymbolic_of_contains hsymbolic) ?_
    rintro ⟨_, h, _⟩
    exact hsymbolic (isSymbolic_of_contains h)

end Angle

/-! ## Operations -/

namespace Op

variable {op : Op}

/-- Whether the operation under all conditions is one of the library's own. -/
def isBuiltIn : Op → Bool
  | conditional op _ _ => op.isBuiltIn
  | custom _ _ _ => false
  | _ => true

/-- The operation with symbols bound, or as it is if no angle can change. -/
def bound (σ : Binding) (op : Op) : Op := (op.bind? σ).getD op

lemma signature_bound (σ : Binding) (op : Op) : (op.bound σ).signature = op.signature := by
  unfold bound
  cases h : op.bind? σ with
  | none => rfl
  | some op' => exact signature_bind? h

lemma angle?_mapAngle (f : Angle → Angle) (g : Gate) : (g.mapAngle f).angle? = g.angle?.map f := by cases g <;> rfl

lemma params_bound (h : op.isBuiltIn) : (op.bound σ).params = op.params.map (Angle.bound σ) := by
  induction op with
  | gate g =>
    cases hangle : g.angle? with
    | none => simp [bound, bind?, params, hangle]
    | some a =>
      by_cases ha : a.isSymbolic
      · have hbound : bound σ (gate g) = gate (g.mapAngle fun a => (a.bind σ).simplify) := by
          simp [bound, bind?, hangle, ha]
        rw [hbound]
        show (g.mapAngle _).angle?.toList = g.angle?.toList.map _
        rw [angle?_mapAngle, hangle]
        simp [Angle.bound, ha]
      · simp [bound, bind?, params, Angle.bound, hangle, ha]
  | phase a => by_cases ha : a.isSymbolic <;> simp [bound, bind?, params, Angle.bound, ha]
  | conditional op width value ih =>
    have hbound : bound σ (conditional op width value) = conditional (op.bound σ) width value := by
      unfold bound
      rw [bind?]
      cases op.bind? σ <;> rfl
    rw [hbound]
    exact ih h
  | custom _ _ _ => cases h
  | _ => rfl

lemma contains_symbols : op.symbols.contains s ↔ ∃ a ∈ op.params, a.symbols.contains s :=
  (SortedSet.contains_foldl_union (s := .empty) (f := Angle.symbols)).trans (or_iff_right Bool.false_ne_true)

lemma contains_bound (h : op.isBuiltIn) : (op.bound σ).symbols.contains s ↔
    ∃ s', op.symbols.contains s' ∧ ((Angle.symbol s').bind σ).symbols.contains s := by
  rw [contains_symbols, params_bound h]
  simp only [contains_symbols, List.mem_map, exists_exists_and_eq_and, Angle.contains_bound]
  constructor
  · rintro ⟨a, ha, s', hs, hs'⟩
    exact ⟨s', ⟨a, ha, hs⟩, hs'⟩
  · rintro ⟨s', ⟨a, ha, hs⟩, hs'⟩
    exact ⟨a, ha, s', hs, hs'⟩

end Op

/-! ## Circuits -/

namespace Circuit

open Wireloom.Graph

variable {c : Circuit} {unit : Pin → UnitId}

lemma contains_symbols : c.symbols.contains s ↔ c.phase.symbols.contains s ∨ ∃ cmd ∈ c.commands, cmd.op.symbols.contains s :=
  SortedSet.contains_foldl_union (f := fun cmd : Command => cmd.op.symbols)

lemma corresponds_bindSymbols (c : Circuit) (σ : Binding) : Corresponds (Op.bound σ) id c (c.bindSymbols σ) where
  injective _ _ := id
  surjective {w} hw := by
    refine ⟨w, ?_, rfl⟩
    obtain ⟨_, hk⟩ := live_iff_kind?.mp hw
    rw [kind?_bindSymbols] at hk
    obtain ⟨k, hk, _⟩ := map_eq_some_iff.mp hk
    exact live_iff_kind?.mpr ⟨k, hk⟩
  node {v n} hn := by
    refine ⟨{ n with kind := boundKind σ n.kind }, by rw [get?_bindSymbols, id, hn]; rfl, ?_, rfl⟩
    cases n.kind <;> rfl
  link m := ⟨fun hm => ⟨m, hm, rfl⟩, fun ⟨l, hl, heq⟩ => heq ▸ hl⟩
  boundary u := Option.map_id'.symm

lemma commands_bindSymbols (h : c.WellFormed) (σ : Binding) :
    (c.bindSymbols σ).commands = c.commands.map fun cmd => { cmd with op := cmd.op.bound σ } := by
  refine (corresponds_bindSymbols c σ).commands_eq h (bindSymbols_wellFormed h σ) (Op.signature_bound σ) ?_
  unfold bySequence
  rw [entries_bindSymbols, map_id, ← map_sortedBy fun _ _ => rfl, map_map]
  rfl

lemma contains_symbols_bindSymbols (h : c.WellFormed) (hbuiltIn : ∀ cmd ∈ c.commands, cmd.op.isBuiltIn)
    (σ : Binding) : (c.bindSymbols σ).symbols.contains s ↔
      ∃ s', c.symbols.contains s' ∧ ((Angle.symbol s').bind σ).symbols.contains s := by
  have hcommand : (∃ cmd ∈ c.commands, (cmd.op.bound σ).symbols.contains s) ↔
      ∃ s', (∃ cmd ∈ c.commands, cmd.op.symbols.contains s') ∧ ((Angle.symbol s').bind σ).symbols.contains s := by
    constructor
    · rintro ⟨cmd, hcmd, hs⟩
      obtain ⟨s', hs', hs⟩ := (Op.contains_bound (hbuiltIn cmd hcmd)).mp hs
      exact ⟨s', ⟨cmd, hcmd, hs'⟩, hs⟩
    · rintro ⟨s', ⟨cmd, hcmd, hs'⟩, hs⟩
      exact ⟨cmd, hcmd, (Op.contains_bound (hbuiltIn cmd hcmd)).mpr ⟨s', hs', hs⟩⟩
  have hphase : (c.bindSymbols σ).phase.symbols.contains s ↔
      ∃ s', c.phase.symbols.contains s' ∧ ((Angle.symbol s').bind σ).symbols.contains s :=
    Angle.contains_simplify.trans Angle.contains_bind
  rw [contains_symbols, commands_bindSymbols h, hphase]
  simp only [List.mem_map, exists_exists_and_eq_and, hcommand, contains_symbols, or_and_right, exists_or]

lemma contains_registered {table : SymbolTable} : (σ.values.foldl SymbolTable.registerAll table).contains s ↔
    table.contains s ∨ ∃ a ∈ σ.values, a.symbols.contains s := by
  induction σ.values generalizing table with
  | nil => simp
  | cons a rest ih =>
    rw [foldl_cons, ih, exists_mem_cons_iff, ← or_assoc]
    exact or_congr_left SortedSet.contains_union

/-- **Binding symbols is simultaneous and complete.**
    * What stays free are the symbols that are not bound, and the symbols of the terms of those that are.
    * The commands are the same but for their angles, and no signature changes.
    * The table has what it had and all symbols of all terms of the binding. -/
theorem substituteSymbols_complete (h : c.WellFormed) (hbuiltIn : ∀ cmd ∈ c.commands, cmd.op.isBuiltIn)
    (σ : Binding) (table : SymbolTable) :
    (∀ s, (c.substituteSymbols σ table).1.symbols.contains s ↔ (c.symbols.contains s ∧ σ.get? s = none) ∨
      ∃ s' a, c.symbols.contains s' ∧ σ.get? s' = some a ∧ a.symbols.contains s) ∧
    (c.substituteSymbols σ table).1.commands = c.commands.map (fun cmd => { cmd with op := cmd.op.bound σ }) ∧
    (∀ cmd ∈ c.commands, (cmd.op.bound σ).signature = cmd.op.signature) ∧
    ∀ s, (c.substituteSymbols σ table).2.contains s ↔ table.contains s ∨ ∃ a ∈ σ.values, a.symbols.contains s := by
  refine ⟨fun s => ?_, commands_bindSymbols h σ, fun cmd _ => Op.signature_bound σ cmd.op, fun s => contains_registered⟩
  rw [substituteSymbols, contains_symbols_bindSymbols h hbuiltIn]
  constructor
  · rintro ⟨s', hs', hs⟩
    cases hget : σ.get? s' with
    | none =>
      rw [Angle.bind, hget] at hs
      obtain rfl := Angle.contains_symbol.mp hs
      exact .inl ⟨hs', hget⟩
    | some a =>
      rw [Angle.bind, hget] at hs
      exact .inr ⟨s', a, hs', hget, hs⟩
  · rintro (⟨hs, hget⟩ | ⟨s', a, hs', hget, hs⟩)
    · refine ⟨s, hs, ?_⟩
      rw [Angle.bind, hget]
      exact Angle.contains_symbol.mpr rfl
    · refine ⟨s', hs', ?_⟩
      rw [Angle.bind, hget]
      exact hs

/-- Two symbols change places under a condition: bound one after the other they would become one. -/
theorem substituteSymbols_complete_exchanged : ∃ c, (ofUnits 1 1).edited (addOp
      (.conditional (.gate (.rx (.add (.symbol "a") (.symbol "b")))) 1 1) [.bit 0, .qubit 0] none) = .ok c ∧
    c.WellFormed ∧ (∀ cmd ∈ c.commands, cmd.op.isBuiltIn) ∧
    (c.substituteSymbols ((SortedMap.empty.insert "a" (.symbol "b")).insert "b" (.symbol "a")) .empty).1.symbols.contains "a" ∧
    (c.substituteSymbols ((SortedMap.empty.insert "a" (.symbol "b")).insert "b" (.symbol "a")) .empty).1.symbols.contains
      "b" := by
  refine exists_run fun c hc => ?_
  have hwell := wellFormed_edited hc
  have hbuiltIn : ∀ cmd ∈ c.commands, cmd.op.isBuiltIn := of_run hc (by decide +kernel)
  have hsymbols := (substituteSymbols_complete hwell hbuiltIn
    ((SortedMap.empty.insert "a" (.symbol "b")).insert "b" (.symbol "a")) .empty).1
  refine ⟨hwell, hbuiltIn, (hsymbols "a").mpr (.inr ⟨"b", .symbol "a", of_run hc (by decide +kernel), ?_, ?_⟩),
    (hsymbols "b").mpr (.inr ⟨"a", .symbol "b", of_run hc (by decide +kernel), ?_, ?_⟩)⟩
  · rw [get?_insert_same]
  · exact Angle.contains_symbol.mpr rfl
  · rw [get?_insert, if_neg (by decide), get?_insert_same]
  · exact Angle.contains_symbol.mpr rfl

end Circuit

/-! ## Fresh names -/

namespace SymbolTable

variable {t : SymbolTable} {name preferred : String}

/-- The names that a search for a fresh symbol goes through, without a last one. -/
def candidate (preferred : String) : Nat → String
  | 0 => preferred
  | i + 1 => preferred ++ "_" ++ toString i

/-- The search as a loop without a bound. At a name, with the number to try next, it looks at `n` names up to the one
    that it ends with. -/
inductive Search (t : SymbolTable) (preferred : String) : String → Nat → (n : Nat) → String → Prop
  | free {name : String} {i : Nat} : ¬ t.contains name → Search t preferred name i 1 name
  | used {name found : String} {i n : Nat} : t.contains name →
      Search t preferred (preferred ++ "_" ++ toString i) (i + 1) n found → Search t preferred name i (n + 1) found

lemma search_candidate {k : Nat} (hfree : ¬ t.contains (candidate preferred k))
    (hused : ∀ j < k, t.contains (candidate preferred j)) (n i : Nat) (hk : i + n = k) :
    t.Search preferred (candidate preferred i) i (n + 1) (candidate preferred k) := by
  induction n generalizing i with
  | zero =>
    cases hk
    exact .free hfree
  | succ n ih => exact .used (hused i (by omega)) (ih (i + 1) (by omega))

lemma candidate_injective (preferred : String) : Function.Injective (candidate preferred) := by
  have hlonger : ∀ i : Nat, preferred ≠ preferred ++ "_" ++ toString i := fun i heq => by
    have hlength := congrArg String.length heq
    rw [String.length_append, String.length_append, show "_".length = 1 from rfl] at hlength
    omega
  intro i j heq
  cases i with
  | zero =>
    cases j with
    | zero => rfl
    | succ j => exact absurd heq (hlonger j)
  | succ i =>
    cases j with
    | zero => exact absurd heq.symm (hlonger i)
    | succ j => rw [Nat.repr_injective ((String.append_right_inj _).mp heq)]

lemma exists_free (t : SymbolTable) (preferred : String) : ∃ k ≤ t.size, ¬ t.contains (candidate preferred k) := by
  by_contra! hused
  -- else the table would have the first `t.size + 1` candidates, which are all different
  have hsubset : (range (t.size + 1)).map (candidate preferred) ⊆ t.names.toList := by
    intro name hname
    obtain ⟨k, hk, rfl⟩ := mem_map.mp hname
    exact SortedSet.mem_toList.mpr (hused k (Nat.le_of_lt_succ (mem_range.mp hk)))
  have hlength := ((nodup_range.map (candidate_injective preferred)).subperm hsubset).length_le
  rw [length_map, length_range, SortedSet.toList, SortedMap.keys, length_map] at hlength
  exact Nat.not_succ_le_self _ hlength

lemma freshName_first (t : SymbolTable) (preferred : String) : ∃ k ≤ t.size, t.freshName preferred = candidate preferred k ∧
    ¬ t.contains (candidate preferred k) ∧ ∀ j < k, t.contains (candidate preferred j) := by
  obtain ⟨n, hn, hfree⟩ := t.exists_free preferred
  have hex : ∃ k, ¬ t.contains (candidate preferred k) := ⟨n, hfree⟩
  have hle : Nat.find hex ≤ t.size := (Nat.find_min' hex hfree).trans hn
  have hused : ∀ j < Nat.find hex, t.contains (candidate preferred j) := fun j hj => not_not.mp (Nat.find_min hex hj)
  refine ⟨Nat.find hex, hle, ?_, Nat.find_spec hex, hused⟩
  have hcandidates : candidates preferred t.size = (range (t.size + 1)).map (candidate preferred) := by
    rw [range_succ_eq_map, map_cons, map_map]
    rfl
  have hfind : (range (t.size + 1)).find? ((fun name => !t.contains name) ∘ candidate preferred) = some (Nat.find hex) :=
    find?_range_eq_some.mpr ⟨by simpa using Nat.find_spec hex, mem_range.mpr (Nat.lt_succ_of_le hle),
      fun j hj => by simpa using hused j hj⟩
  rw [freshName, hcandidates, find?_map, hfind]
  rfl

lemma contains_register {other : String} : (t.register name).contains other ↔ other = name ∨ t.contains other :=
  SortedSet.contains_add

/-! ## Runs of calls -/

/-- A call that adds names to a table. -/
inductive Call
  | register (name : String)
  | registerAll (a : Angle)
  | fresh (preferred : String)

/-- The fresh symbols of a run of calls. -/
def freshSymbols (t : SymbolTable) : List Call → List Angle
  | [] => []
  | .register name :: rest => (t.register name).freshSymbols rest
  | .registerAll a :: rest => (t.registerAll a).freshSymbols rest
  | .fresh preferred :: rest => (t.fresh preferred).1 :: (t.fresh preferred).2.freshSymbols rest

-- A table only grows, so what is in it now is not fresh later.
lemma not_contains_of_mem {calls : List Call} (h : .symbol name ∈ t.freshSymbols calls) : ¬ t.contains name := by
  induction calls generalizing t with
  | nil => cases h
  | cons call rest ih =>
    cases call with
    | register _ => exact fun hmem => ih h (contains_register.mpr (.inr hmem))
    | registerAll _ => exact fun hmem => ih h (SortedSet.contains_union.mpr (.inl hmem))
    | fresh preferred =>
      rcases mem_cons.mp h with heq | h
      · obtain ⟨_, _, hname, hfree, _⟩ := t.freshName_first preferred
        cases heq
        rwa [hname]
      · exact fun hmem => ih h (contains_register.mpr (.inr hmem))

lemma nodup_freshSymbols (t : SymbolTable) (calls : List Call) : (t.freshSymbols calls).Nodup := by
  induction calls generalizing t with
  | nil => exact nodup_nil
  | cons call rest ih =>
    cases call with
    | register name => exact ih _
    | registerAll a => exact ih _
    | fresh preferred =>
      exact nodup_cons.mpr ⟨fun h => not_contains_of_mem h (contains_register.mpr (.inl rfl)), ih _⟩

/-- **A fresh symbol is new.**
    * The search ends within `t.size + 1` candidates, at the first that is not in use.
    * The table gets its name and no other.
    * So no run of calls gives a fresh symbol twice. -/
theorem fresh_terminates_new (t : SymbolTable) (preferred : String) (calls : List Call) :
    (∃ k ≤ t.size, t.Search preferred preferred 0 (k + 1) (candidate preferred k) ∧
      (t.fresh preferred).1 = .symbol (candidate preferred k) ∧ ¬ t.contains (candidate preferred k) ∧
      (∀ j < k, t.contains (candidate preferred j)) ∧
      ∀ name, (t.fresh preferred).2.contains name ↔ name = candidate preferred k ∨ t.contains name) ∧
    (t.freshSymbols calls).Nodup := by
  obtain ⟨k, hk, heq, hfree, hused⟩ := t.freshName_first preferred
  have hsearch := search_candidate hfree hused k 0 (Nat.zero_add k)
  refine ⟨⟨k, hk, hsearch, congrArg _ heq, hfree, hused, fun name => ?_⟩, t.nodup_freshSymbols calls⟩
  rw [← heq]
  exact contains_register

end SymbolTable

end Wireloom
