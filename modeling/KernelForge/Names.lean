/-
A supply of unique names for one scope.

A name is taken once it has been registered or handed out.  A wanted name that is free is
handed out as it is; otherwise an index is appended to it, counted separately for each
root, and indices whose name is taken are skipped.

The search for a free index ends because the names of one root are pairwise different, so
that at most as many of them are taken as there are taken names.
-/

namespace KernelForge

/-- The names of a scope that are taken, and the next index of each root. -/
structure Names where
  taken : List String := []
  next : List (String × Nat) := []
deriving Repr, Inhabited, DecidableEq

namespace Names

def isTaken (ns : Names) (name : String) : Bool := ns.taken.contains name

/-- The next index of a root. -/
def nextIndex (ns : Names) (root : String) : Nat := (ns.next.lookup root).getD 0

/-- Takes a name; `false` when it was taken already. -/
def register (ns : Names) (name : String) : Bool × Names :=
  if ns.isTaken name then (false, ns) else (true, { ns with taken := name :: ns.taken })

/-- A root with an index. -/
def indexedName (root : String) (index : Nat) : String := root ++ toString index

/-- The first index from `index` on, among `fuel` ones, whose name is free. -/
def freeIndex (ns : Names) (root : String) : Nat → Nat → Nat
  | 0, index => index
  | fuel + 1, index =>
    if ns.isTaken (indexedName root index) then freeIndex ns root fuel (index + 1) else index

/-- Hands out the root with an index. -/
def indexed (ns : Names) (root : String) : String × Names :=
  let index := ns.freeIndex root ns.taken.length (ns.nextIndex root)
  let name := indexedName root index
  (name,
    { taken := name :: ns.taken
      next := (root, index + 1) :: ns.next.filter fun e => e.1 != root })

/-- Hands out the wanted name when it is free, and else the name with an index. -/
def fresh (ns : Names) (root : String) : String × Names :=
  if ns.isTaken root then ns.indexed root else (root, { ns with taken := root :: ns.taken })

end Names
end KernelForge
