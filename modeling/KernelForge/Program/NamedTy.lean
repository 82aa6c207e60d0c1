/-
Types in which the fields of structures have names.

Two structures are the same type when their fields have the same types, whatever the fields
are called; but a field is selected by the name that its own declaration gave it.  So the
checker keeps the names beside the types, and compares types without them.

Lanes of vectors are named by position: `x`, `y`, `z`, `w` for the first four, `s` followed by
hexadecimal digits for any of them, and `lo`, `hi`, `even`, `odd` for halves.
-/
import KernelForge.Ty.Basic

namespace KernelForge

/-! ### The components of vectors -/

namespace Component

/-- The lanes that letters name, each looked up in an alphabet of `n` usable letters. -/
def lanesIn (alphabet : List Char) (n : Nat) : List Char → Option (List Nat)
  | [] => some []
  | c :: cs =>
    match alphabet.findIdx? (· = c), lanesIn alphabet n cs with
    | some i, some is => if i < n then some (i :: is) else none
    | _, _ => none

/-- The lanes of a vector of `n` lanes that a component name selects. -/
def lanes? (n : Nat) (name : String) : Option (List Nat) :=
  match name with
  | "lo" => some (List.range (n / 2))
  | "hi" => some ((List.range (n / 2)).map (n / 2 + ·))
  | "even" => some ((List.range n).filter (· % 2 = 0))
  | "odd" => some ((List.range n).filter (· % 2 = 1))
  | name =>
    match name.toList with
    | [] => none
    | c :: d :: cs =>
      if c = 's' ∨ c = 'S' then
        lanesIn "0123456789abcdef".toList n ((d :: cs).map Char.toLower)
      else lanesIn "xyzw".toList (min n 4) (c :: d :: cs)
    | cs => lanesIn "xyzw".toList (min n 4) cs

/-- Tests whether no lane is selected twice. -/
def distinct : List Nat → Bool
  | [] => true
  | i :: is => !is.contains i && distinct is

end Component

/-! ### Types with field names -/

/-- A type whose structures carry the names of their fields. -/
inductive NamedTy where
  | void
  | scalar (s : Scalar)
  | vector (elem : Scalar) (width : Width)
  | struct (names : List String) (fields : List NamedTy)
  | pointer (elem : NamedTy) (space : Space) (readOnly : Bool)
deriving Repr, Inhabited

namespace NamedTy

mutual

/-- The type without the names. -/
def ty : NamedTy → Ty
  | void => .void
  | scalar s => .scalar s
  | vector s w => .vector s w
  | struct _ fs => .tuple (tys fs)
  | pointer t space readOnly => .pointer t.ty space readOnly

def tys : List NamedTy → List Ty
  | [] => []
  | t :: ts => t.ty :: tys ts

end

theorem tys_eq_map (ts : List NamedTy) : tys ts = ts.map ty := by
  induction ts with
  | nil => rfl
  | cons t ts ih => simp [tys, ih]

/-- A type that has no fields and points to nothing. -/
def ofPlain? : Ty → Option NamedTy
  | .void => some .void
  | .scalar s => some (.scalar s)
  | .vector s w => some (.vector s w)
  | _ => none

def isScalar : NamedTy → Bool
  | scalar _ => true
  | _ => false

def isPointer : NamedTy → Bool
  | pointer _ _ _ => true
  | _ => false

end NamedTy

mutual

/-- Tests whether a type has double precision numbers in it. -/
def Ty.usesDouble : Ty → Bool
  | .void => false
  | .scalar s => s = .double
  | .vector s _ => s = .double
  | .tuple fs => Ty.anyUsesDouble fs
  | .pointer t _ _ => t.usesDouble

def Ty.anyUsesDouble : List Ty → Bool
  | [] => false
  | t :: ts => t.usesDouble || Ty.anyUsesDouble ts

end
end KernelForge
