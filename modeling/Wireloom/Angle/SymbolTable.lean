import Wireloom.Angle.Basic

/-!
# `SymbolTable` — the symbol names in use

A table of names that only grows. `SymbolTable.fresh` takes a name that is not in the table: the preferred
one, or the first free of `preferred_0`, `preferred_1`, …. A table of `n` names leaves one of the first
`n + 1` candidates free, so the search looks no further.
-/

namespace Wireloom

/-- The symbol names in use. -/
structure SymbolTable where
  names : SortedSet String

namespace SymbolTable

def empty : SymbolTable := ⟨.empty⟩

def contains (t : SymbolTable) (name : String) : Bool := SortedMap.contains t.names name

def size (t : SymbolTable) : Nat := SortedMap.size t.names

def isEmpty (t : SymbolTable) : Bool := SortedMap.isEmpty t.names

def register (t : SymbolTable) (name : String) : SymbolTable := ⟨SortedSet.add t.names name⟩

def registerAll (t : SymbolTable) (a : Angle) : SymbolTable := ⟨SortedSet.union t.names a.symbols⟩

/-- The names tried for a fresh symbol: the preferred one and its first `n` numbered variants. -/
def candidates (preferred : String) (n : Nat) : List String :=
  preferred :: (List.range n).map fun i => preferred ++ "_" ++ toString i

/-- The first candidate that is not in use. -/
def freshName (t : SymbolTable) (preferred : String) : String :=
  ((candidates preferred t.size).find? fun name => !t.contains name).getD preferred

/-- A symbol whose name was not in use, and the table with that name added. -/
def fresh (t : SymbolTable) (preferred : String) : Angle × SymbolTable :=
  let name := t.freshName preferred
  (.symbol name, t.register name)

end SymbolTable

end Wireloom
