import Wireloom.Predicate.Basic

/-!
# `Contract` — what passes require and promise

A contract says which predicates a pass needs, which hold after it, and for every other kind of predicate whether
it survives. `Contract.andThen` is the contract of two passes one after the other. It looks at no circuit: with
`strict` set, two passes are refused when the first one breaks, or may break, what the second one needs.
-/

namespace Wireloom

/-- What a pass promises about the predicates of a kind. -/
inductive Guarantee where
  /-- They may no longer hold. -/
  | clear
  /-- Those that held still hold. -/
  | preserve
  deriving DecidableEq

namespace Guarantee

def and : Guarantee → Guarantee → Guarantee
  | preserve, g => g
  | clear, _ => clear

def text : Guarantee → String
  | clear => "Clear"
  | preserve => "Preserve"

def toJson (g : Guarantee) : Json := .string g.text

def ofName? (name : String) : Option Guarantee := [clear, preserve].find? fun g => g.text = name

def ofJson? (j : Json) : Option Guarantee := j.bareCase?.bind ofName?

end Guarantee

abbrev GuaranteeMap := SortedMap PredicateKind Guarantee

/-- What holds after a pass. -/
structure Postconditions where
  /-- Predicates that hold afterwards. -/
  specific : PredicateMap := .empty
  /-- What becomes of predicates of some kinds. -/
  generic : GuaranteeMap := .empty
  /-- What becomes of predicates of all other kinds. -/
  fallback : Guarantee := .clear

/-- What a pass requires and promises. -/
structure Contract where
  pre : PredicateMap := .empty
  post : Postconditions := {}

namespace Postconditions

/-- Everything that held still holds. -/
def preserveAll : Postconditions := { fallback := .preserve }

/-- The postconditions with one more predicate that holds afterwards. -/
def ensuring (post : Postconditions) (p : Predicate) : Postconditions :=
  { post with specific := post.specific.insert p.kind p }

def treating (post : Postconditions) (kind : PredicateKind) (g : Guarantee) : Postconditions :=
  { post with generic := post.generic.insert kind g }

def guarantee (post : Postconditions) (kind : PredicateKind) : Guarantee :=
  (post.generic.get? kind).getD post.fallback

/-- What holds after two passes. What the second one ensures comes first; what the first one ensures stays if the
second preserves its kind. A kind is preserved if both preserve it. -/
def andThen (first second : Postconditions) : Postconditions where
  specific := second.specific.unionLeft
    (first.specific.filter fun kind _ => second.guarantee kind = .preserve)
  generic := (second.generic.mapValues fun kind g => g.and (first.guarantee kind)).unionLeft
    (first.generic.mapValues fun kind g => g.and (second.guarantee kind))
  fallback := second.fallback.and first.fallback

end Postconditions

namespace Contract

/-- Adds a requirement of the pass after `first` to the requirements of both. One that `first` ensures is met
there; any other has to hold from the start, together with what is already required of its kind. -/
def require (first : Contract) (strict : Bool) (pre : PredicateMap) (required : PredicateKind × Predicate) :
    Except CompileError PredicateMap :=
  let (kind, p) := required
  match first.post.specific.get? kind with
  | some provided => do
    if !(← provided.implies p) && strict then .error (.incompatible kind) else .ok pre
  | none =>
    if strict && first.post.guarantee kind = .clear then .error (.incompatible kind)
    else do
      let p ← match pre.get? kind with
        | some existing => existing.meet p
        | none => .ok p
      return pre.insert p.kind p

def andThen (first second : Contract) (strict : Bool) : Except CompileError Contract := do
  let pre ← second.pre.entries.foldlM (require first strict) first.pre
  return { pre, post := first.post.andThen second.post }

/-- The contract of a sequence of passes after `first`. -/
def chain (strict : Bool) (first : Contract) (rest : List Contract) : Except CompileError Contract :=
  rest.foldlM (fun c next => c.andThen next strict) first

def text (c : Contract) : String :=
  let line (s : String) : String := "  " ++ s ++ "\n"
  "Preconditions:\n" ++ String.join (c.pre.values.map fun p => line p.text) ++
  "Specific Postconditions:\n" ++ String.join (c.post.specific.values.map fun p => line p.text) ++
  "Generic Postconditions:\n" ++
  String.join (c.post.generic.entries.map fun (kind, g) => line (kind.name ++ " " ++ g.text)) ++
  "Default Postcondition: " ++ c.post.fallback.text ++ "\n"

end Contract

end Wireloom
