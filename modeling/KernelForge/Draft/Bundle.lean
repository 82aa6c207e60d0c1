/-
A kernel in the making together with the bodies of its helper functions.

All parts share one preamble.  The kernel itself is part 0.
-/
import KernelForge.Draft.Basic

namespace KernelForge

/-- A kernel and the bodies of helper functions that are being written. -/
structure Bundle where
  name : String
  pre : Preamble := {}
  parts : Array DraftPart := #[{}]
deriving Inhabited

namespace Bundle

/-- A new kernel with a given name, without helpers. -/
def ofName (name : String) : Bundle := { name, pre := (Draft.ofName name).pre }

/-- A part, with the preamble. -/
def draft (b : Bundle) (i : Nat) : Draft :=
  { name := b.name, pre := b.pre, part := b.parts.getD i {} }

/-- Puts a part back after it has been written on. -/
def put (b : Bundle) (i : Nat) (d : Draft) : Bundle :=
  { b with pre := d.pre, parts := b.parts.setIfInBounds i d.part }

/-- Starts the body of a helper function, and gives its number. -/
def addPart (b : Bundle) : Nat × Bundle :=
  (b.parts.size, { b with parts := b.parts.push Draft.helperPart })

end Bundle
end KernelForge
