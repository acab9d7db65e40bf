import Wireloom.Op.Gate
import Wireloom.Circuit.Error

/-!
# `Op` — operations

What a vertex of a circuit does: a gate, a measurement, a reset, a barrier, a global phase, any of these
under a condition on bits, or an operation known only by its name, signature and parameters.

An operation has a signature, the wire kind at each pin. A condition puts its bits in front as Boolean
reads. `Op.agrees` compares operations by what they show, `Op.unwind` peels conditions off.
-/

namespace Wireloom

/-- The operations that a vertex can hold. -/
inductive Op where
  | gate (g : Gate)
  | measure
  | reset
  | barrier (signature : Signature)
  | phase (angle : Angle)
  | conditional (op : Op) (width value : Nat)
  | custom (name : String) (signature : Signature) (params : List Angle)

namespace Op

/-- A barrier over `n` qubits. -/
def barrierOn (n : Nat) : Op := barrier (List.replicate n .quantum)

/-- `op` under the condition that `width` bits, the first the lowest, read `value`. -/
def conditioned (op : Op) (width value : Nat) : Except CircuitError Op :=
  if value < 1 <<< width then .ok (conditional op width value)
  else .error (.invalid (.conditionTooLarge value width))

def name : Op → String
  | gate g => g.name
  | measure => "measure"
  | reset => "reset"
  | barrier _ => "barrier"
  | phase _ => "phase"
  | conditional _ _ _ => "conditional"
  | custom name _ _ => name

def signature : Op → Signature
  | gate g => List.replicate g.arity .quantum
  | measure => [.quantum, .classical]
  | reset => [.quantum]
  | barrier signature => signature
  | phase _ => []
  | conditional op width _ => List.replicate width .boolean ++ op.signature
  | custom _ signature _ => signature

def params : Op → List Angle
  | gate g => g.angle?.toList
  | measure => []
  | reset => []
  | barrier _ => []
  | phase a => [a]
  | conditional op _ _ => op.params
  | custom _ _ params => params

def symbols (op : Op) : SortedSet String :=
  op.params.foldl (fun s a => SortedSet.union s a.symbols) .empty

/-- Name and parameters. -/
def label (op : Op) : String :=
  match op.params with
  | [] => op.name
  | params => op.name ++ "(" ++ ", ".intercalate (params.map Angle.text) ++ ")"

/-- How an operation is written in a listing: a condition is spelled out in front of what it guards. -/
def text : Op → String
  | conditional op width value => s!"IF (width {width} == {value}) THEN " ++ op.label
  | op => op.label

/-! ## Recognising operations -/

def isBarrier : Op → Bool
  | barrier _ => true
  | _ => false

def isMeasure : Op → Bool
  | measure => true
  | _ => false

def isReset : Op → Bool
  | reset => true
  | _ => false

def isConditional : Op → Bool
  | conditional _ _ _ => true
  | _ => false

/-- The conditions over an operation as width and value, outermost first. -/
def layers : Op → List (Nat × Nat)
  | conditional op width value => (width, value) :: op.layers
  | _ => []

/-- The operation under all conditions. -/
def innermost : Op → Op
  | conditional op _ _ => op.innermost
  | op => op

/-! ## Comparison -/

def paramsAgree : List Angle → List Angle → Bool
  | [], [] => true
  | a :: as, b :: bs => a.agrees b && paramsAgree as bs
  | _, _ => false

/-- Whether two operations have the same name, signature and parameters. -/
def looksLike (a b : Op) : Bool :=
  a.name == b.name && a.signature == b.signature && paramsAgree a.params b.params

/-- Comparison of `a` and `b` as asked of `a`, or of `b` when `turned`. The one that is asked agrees only
with a condition if it is one itself, and otherwise goes by looks. Conditions have to match, and what they
guard is compared with the roles exchanged. -/
def agreesFrom : Bool → Op → Op → Bool
  | turned, conditional a width value, conditional b width' value' =>
    width == width' && value == value' && agreesFrom (!turned) a b
  | false, a, b => !a.isConditional && a.looksLike b
  | true, a, b => !b.isConditional && b.looksLike a

/-- Whether `a` finds itself equal to `b`. -/
def agrees (a b : Op) : Bool := agreesFrom false a b

/-! ## Inverse, transpose and binding -/

def dagger : Op → Except CircuitError Op
  | gate g => .ok (gate g.dagger)
  | barrier signature => .ok (barrier signature)
  | phase a => .ok (phase (-a))
  | op => .error (.unsupported (.reverseOperation op.name))

def transpose : Op → Except CircuitError Op
  | gate g => .ok (gate g.transpose)
  | barrier signature => .ok (barrier signature)
  | phase a => .ok (phase a)
  | op => .error (.unsupported (.reverseOperation op.name))

/-- The operation with symbols bound and angles simplified; none if no angle can change. -/
def bind? (σ : Binding) : Op → Option Op
  | gate g =>
    if g.angle?.any Angle.isSymbolic then some (gate (g.mapAngle fun a => (a.bind σ).simplify))
    else none
  | phase a => if a.isSymbolic then some (phase (a.bind σ).simplify) else none
  | conditional op width value => (bind? σ op).map fun op => conditional op width value
  | _ => none

/-! ## Signatures are kept -/

theorem signature_dagger {op op' : Op} (h : op.dagger = .ok op') : op'.signature = op.signature := by
  cases op <;> simp only [dagger, Except.ok.injEq, reduceCtorEq] at h <;> subst h <;> simp [signature]

theorem signature_transpose {op op' : Op} (h : op.transpose = .ok op') :
    op'.signature = op.signature := by
  cases op <;> simp only [transpose, Except.ok.injEq, reduceCtorEq] at h <;> subst h <;>
    simp [signature]

theorem signature_bind? {σ : Binding} {op op' : Op} (h : bind? σ op = some op') :
    op'.signature = op.signature := by
  induction op generalizing op' with
  | gate g =>
    simp only [bind?] at h
    split at h
    · cases h
      simp [signature]
    · cases h
  | phase a =>
    simp only [bind?] at h
    split at h <;> cases h
    simp [signature]
  | conditional op width value ih =>
    obtain ⟨inner, hinner, rfl⟩ := Option.map_eq_some_iff.1 h
    simp [signature, ih hinner]
  | measure => cases h
  | reset => cases h
  | barrier signature => cases h
  | custom name signature params => cases h

end Op

end Wireloom
