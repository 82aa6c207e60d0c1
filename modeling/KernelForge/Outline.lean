/-
Outlines: trees in a plain form.

An outline is built of words, numbers and lists only, so that trees of different types can be
shown and compared in the same way.
-/

namespace KernelForge

/-- A tree in a plain form. -/
inductive Outline where
  /-- Something that is not there. -/
  | absent
  | word (w : String)
  | number (n : Nat)
  | flag (b : Bool)
  | list (items : List Outline)
deriving Repr, Inhabited

namespace Outline

/-- A node: a tag, and what belongs to it. -/
def node (tag : String) (items : List Outline) : Outline := list (word tag :: items)

end Outline
end KernelForge
