import Wireloom.Circuit.Build
import Wireloom.Circuit.Command
import Wireloom.Circuit.Substitution
import Wireloom.Circuit.Units

/-!
# `Circuit.conditioned` — circuits under a condition

A circuit under a condition does all that it does only when given bits read a given value: each operation is
put under the condition, and a global phase becomes a phase operation under it.

`substituteConditional` replaces what an operation does under its conditions, and puts the replacement under
the same conditions.
-/

namespace Wireloom.Circuit

/-- Adds a blank wire for a unit of `c`, created and discarded as in `c`. -/
def addUnitLike (c : Circuit) (u : UnitId) : Edit Unit := do
  addUnit u
  if ← ask fun _ => c.isCreated u then createQubit u
  if ← ask fun _ => c.isDiscarded u then discardQubit u

/-- Adds a condition bit if it is not there. -/
def addConditionBit (u : UnitId) : Edit Unit := do
  ask fun _ => checkKind u .bit
  if !(← get).hasUnit u then addUnit u

def writesAny (bits : List UnitId) (cmd : Command) : Bool :=
  (cmd.args.zip cmd.op.signature).any fun (u, kind) => kind = .classical && bits.contains u

/-- Adds a command under the condition that `bits` read `value`. -/
def addConditioned (bits : List UnitId) (value : Nat) (cmd : Command) : Edit Unit := do
  if writesAny bits cmd then throw (.invalid .writesCondition)
  let op ← ask fun _ => cmd.op.conditioned bits.length value
  discard (addOp op (bits ++ cmd.args) cmd.opgroup)

/-- The circuit under the condition that `bits`, the first the lowest, read `value`. -/
def conditioned (c : Circuit) (bits : List UnitId) (value : Nat) : Except CircuitError Circuit :=
  Circuit.edited { name := c.name } do
    c.units.forM c.addUnitLike
    bits.forM addConditionBit
    c.commands.forM (addConditioned bits value)
    if !c.phase.isZero then
      let op ← ask fun _ => (Op.phase c.phase).conditioned bits.length value
      discard (addOp op bits none)

/-! ## Replacing under conditions -/

def totalWidth (layers : List (Nat × Nat)) : Nat := layers.foldr (fun layer total => layer.1 + total) 0

/-- The renaming that moves bits up by `shift` in their register. -/
def shiftBits (bits : List UnitId) (shift : Nat) : Renaming :=
  .ofList (bits.map fun u => (u, .bit (u.index.headD 0 + shift)))

/-- The circuit under conditions given from the outermost in, whose bits start at `offset`. -/
def underLayers (c : Circuit) : Nat → List (Nat × Nat) → Except CircuitError Circuit
  | _, [] => .ok c
  | offset, (width, value) :: rest => do
    let inner ← underLayers c (offset + width) rest
    inner.conditioned ((List.range width).map fun i => .bit (offset + i)) value

/-- Puts a simple circuit in the place of the operation under the conditions at `v`, under the same
conditions. The bits of the replacement come after those of the conditions. -/
def substituteConditional (replacement : Circuit) (v : Vertex) (deletion : Deletion)
    (policy : OpgroupPolicy) : Edit Unit := do
  if !replacement.isSimple then throw .simpleOnly
  let op ← ask (·.opAt v)
  if !op.isConditional then throw (.invalid .notConditional)
  let shift := totalWidth op.layers
  if shift ≥ 1 <<< 32 then throw (.invalid .conditionTooWide)
  let (_, shifted) ← ask fun _ => replacement.rename (shiftBits replacement.bits shift)
  let wrapped ← ask fun _ => shifted.underLayers 0 op.layers
  let hole ← ask (·.holeAt v)
  substitute wrapped hole deletion policy

end Wireloom.Circuit
