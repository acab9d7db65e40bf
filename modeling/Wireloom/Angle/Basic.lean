import Wireloom.SortedMap
import Wireloom.Decimal.Text

/-!
# `Angle` — symbolic angles

Rotation angles and the global phase are arithmetic terms over floats, the constant π and free symbols. A
term is carried as it was built; `simplify` folds what has a value, drops a double negation and a summand
that is zero, and the operators `-`, `+` and `*` simplify what they build.

* `Angle.value?` evaluates a term without symbols, `Angle.symbols` lists the free symbols;
* `Angle.bind` replaces symbols by terms, all at once;
* `Angle.text` writes a term.
-/

namespace Wireloom

/-- An angle in radians, possibly with free symbols. -/
inductive Angle where
  | const (value : Float)
  | symbol (name : String)
  | pi
  | neg (a : Angle)
  | add (a b : Angle)
  | mul (a b : Angle)

abbrev Binding := SortedMap String Angle

namespace Angle

def piValue : Float := 3.141592653589793

def zero : Angle := const 0.0

instance : Inhabited Angle := ⟨zero⟩

/-- Whether two terms are built alike; constants are compared as numbers. -/
def agrees : Angle → Angle → Bool
  | const x, const y => x == y
  | symbol s, symbol t => s == t
  | pi, pi => true
  | neg a, neg b => agrees a b
  | add a b, add c d => agrees a c && agrees b d
  | mul a b, mul c d => agrees a c && agrees b d
  | _, _ => false

/-! ## Evaluation and symbols -/

def isSymbolic : Angle → Bool
  | const _ => false
  | symbol _ => true
  | pi => false
  | neg a => a.isSymbolic
  | add a b => a.isSymbolic || b.isSymbolic
  | mul a b => a.isSymbolic || b.isSymbolic

def value? : Angle → Option Float
  | const x => some x
  | symbol _ => none
  | pi => some piValue
  | neg a => a.value?.map fun x => -x
  | add a b => a.value?.bind fun x => b.value?.map fun y => x + y
  | mul a b => a.value?.bind fun x => b.value?.map fun y => x * y

/-- Values closer to zero than this count as zero. -/
def tolerance : Float := 1e-12

def isZero (a : Angle) : Bool := a.value?.any fun x => x.abs < tolerance

def symbols : Angle → SortedSet String
  | const _ => .empty
  | symbol s => SortedSet.add .empty s
  | pi => .empty
  | neg a => a.symbols
  | add a b => SortedSet.union a.symbols b.symbols
  | mul a b => SortedSet.union a.symbols b.symbols

/-- The term with bound symbols replaced by their terms, all at once; other symbols stay free. -/
def bind (σ : Binding) : Angle → Angle
  | const x => const x
  | symbol s => (σ.get? s).getD (symbol s)
  | pi => pi
  | neg a => neg (a.bind σ)
  | add a b => add (a.bind σ) (b.bind σ)
  | mul a b => mul (a.bind σ) (b.bind σ)

/-! ## Simplification -/

/-- The constant that a term denotes, or else `other`. -/
def foldOr (a other : Angle) : Angle :=
  match a.value? with
  | some x => const x
  | none => other

def negSimple : Angle → Angle
  | neg a => a
  | a => neg a

def addSimple (a b : Angle) : Angle :=
  if a.isZero then b else if b.isZero then a else add a b

/-- Folds every subterm that has a value, and drops double negations and zero summands. -/
def simplify : Angle → Angle
  | const x => const x
  | symbol s => symbol s
  | pi => const piValue
  | neg a => foldOr (neg a) (negSimple a.simplify)
  | add a b => foldOr (add a b) (addSimple a.simplify b.simplify)
  | mul a b => foldOr (mul a b) (mul a.simplify b.simplify)

instance : Neg Angle := ⟨fun a => (neg a).simplify⟩

instance : Add Angle := ⟨fun a b => (add a b).simplify⟩

instance : Mul Angle := ⟨fun a b => (mul a b).simplify⟩

/-! ## Text -/

/-- The text of a term: every operator brackets its operands. -/
def text : Angle → String
  | const x => Decimal.text x
  | symbol s => s
  | pi => "π"
  | neg a => "-(" ++ a.text ++ ")"
  | add a b => "(" ++ a.text ++ " + " ++ b.text ++ ")"
  | mul a b => "(" ++ a.text ++ " * " ++ b.text ++ ")"

end Angle

end Wireloom
