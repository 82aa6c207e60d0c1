/-
The types of the values that a kernel handles.

A type is `void`, a scalar, a vector of two, four, eight or sixteen lanes, a tuple (a
structure whose fields are known by position) or a pointer into one of four address
spaces.  Two types are the same type exactly when they are equal here, so type equality
is the decidable equality of the datatype.

Arithmetic never happens below `int`: booleans and narrow integers are promoted first,
and then the operand of lower rank is converted to the type of the other.  A scalar meets
a vector only when it can be converted to the element of the vector without going down
the order of promotion.

Scalars have several spellings, among them the two-word ones of C.  A vector is the short
spelling of its element followed by the number of lanes in decimal digits.  Tuples are
declared by each kernel and are not read from their names.
-/
import KernelForge.Scalar

namespace KernelForge

/-- The numbers of lanes that a vector may have. -/
inductive Width where
  | two
  | four
  | eight
  | sixteen
deriving DecidableEq, Repr, Inhabited

namespace Width

def lanes : Width → Nat
  | two => 2
  | four => 4
  | eight => 8
  | sixteen => 16

def ofLanes? : Nat → Option Width
  | 2 => some two
  | 4 => some four
  | 8 => some eight
  | 16 => some sixteen
  | _ => none

@[simp] theorem ofLanes?_lanes (w : Width) : ofLanes? w.lanes = some w := by
  cases w <;> rfl

theorem lanes_of_ofLanes? {n : Nat} {w : Width} (h : ofLanes? n = some w) : w.lanes = n := by
  unfold ofLanes? at h
  split at h <;> simp_all [lanes] <;> subst h <;> rfl

theorem lanes_pos (w : Width) : 0 < w.lanes := by
  cases w <;> decide

end Width

/-- The memory that a pointer points into. -/
inductive Space where
  | priv
  | global
  | constant
  | loc
deriving DecidableEq, Repr, Inhabited

namespace Space

/-- The qualifier of an address space in kernel source. -/
def qualifier : Space → String
  | priv => "__private"
  | global => "__global"
  | constant => "__constant"
  | loc => "__local"

end Space

/-- The type of a value in a kernel. -/
inductive Ty where
  | void
  | scalar (s : Scalar)
  | vector (elem : Scalar) (width : Width)
  | tuple (fields : List Ty)
  | pointer (elem : Ty) (space : Space) (readOnly : Bool)
deriving Repr, Inhabited

namespace Ty

/-! ### Equality -/

mutual

def same : Ty → Ty → Bool
  | void, void => true
  | scalar a, scalar b => decide (a = b)
  | vector a m, vector b n => decide (a = b) && decide (m = n)
  | tuple fs, tuple gs => sameAll fs gs
  | pointer a s c, pointer b t d => same a b && decide (s = t) && decide (c = d)
  | _, _ => false

def sameAll : List Ty → List Ty → Bool
  | [], [] => true
  | f :: fs, g :: gs => same f g && sameAll fs gs
  | _, _ => false

end

mutual

theorem same_iff (a b : Ty) : same a b = true ↔ a = b := by
  cases a <;> cases b <;> simp [same]
  · exact sameAll_iff _ _
  · rw [same_iff, and_assoc]

theorem sameAll_iff (as bs : List Ty) : sameAll as bs = true ↔ as = bs := by
  cases as <;> cases bs <;> simp [sameAll]
  rw [same_iff, sameAll_iff]

end

instance : DecidableEq Ty := fun a b =>
  decidable_of_iff (same a b = true) (same_iff a b)

/-! ### Spelling -/

/-- Removes the underscores around a name. -/
def trimUnderscores (cs : List Char) : List Char :=
  ((cs.dropWhile (· == '_')).reverse.dropWhile (· == '_')).reverse

/-- The name of field `i` of a tuple with `arity` fields: a pair has a first and a second. -/
def fieldName (arity i : Nat) : String :=
  if arity = 2 then if i = 0 then "first" else "second" else "v" ++ toString i

mutual

/-- The spelling of a type in kernel source.  A tuple is spelled by the name of its structure. -/
def name : Ty → String
  | void => "void"
  | scalar s => s.name
  | vector s w => s.name ++ toString w.lanes
  | tuple fs =>
    (if fs.length = 2 then "_pair_" else "_tuple_") ++ "_".intercalate (stems fs) ++ "_t"
  | pointer t space readOnly =>
    (if space = .priv then "" else space.qualifier ++ " ") ++
      (if readOnly then "const " else "") ++ t.name ++ "*"

/-- The names of the fields' types as they enter the name of the structure. -/
def stems : List Ty → List String
  | [] => []
  | t :: ts => String.ofList (trimUnderscores t.name.toList) :: stems ts

end

instance : ToString Ty := ⟨name⟩

/-- The position of a field, given its name. -/
def fieldIndex? (arity : Nat) (field : String) : Option Nat :=
  (List.range arity).find? fun i => fieldName arity i = field

/-- The declaration of the structure of a tuple in kernel source. -/
def typedef (fields : List Ty) : String :=
  "typedef struct \x7b\n" ++
    String.join (fields.zipIdx.map fun (t, i) =>
      "    " ++ t.name ++ " " ++ fieldName fields.length i ++ ";\n") ++
    "\x7d " ++ (tuple fields).name ++ ";\n"

/-! ### Classes of types -/

/-- The word for the kind of a type. -/
def kind : Ty → String
  | void => "void"
  | scalar _ => "scalar"
  | vector _ _ => "vector"
  | tuple _ => "tuple"
  | pointer _ _ _ => "pointer"

/-- Scalars other than `bool`, and vectors. -/
def isNumeric : Ty → Bool
  | scalar s => !s.isBool
  | vector _ _ => true
  | _ => false

/-- The scalar of a scalar or vector type. -/
def element? : Ty → Option Scalar
  | scalar s => some s
  | vector s _ => some s
  | _ => none

/-- A vector type has a valid number of lanes and no boolean lanes. -/
def vectorOf? (elem : Scalar) (lanes : Nat) : Option Ty :=
  if elem.isBool then none else (Width.ofLanes? lanes).map (vector elem)

/-- A pointer to an element of global memory. -/
def pointerTo (elem : Ty) (readOnly : Bool) : Ty :=
  pointer elem .global readOnly

end Ty
/-! ### The common type of operands -/

namespace Scalar

/-- The type that a scalar has as an operand of arithmetic. -/
def arithmetic (s : Scalar) : Scalar :=
  if s.isBool || s.isNarrow then int else s

/-- The type of an arithmetic operation between two scalars. -/
def promote (a b : Scalar) : Scalar :=
  if b.arithmetic.rank ≤ a.arithmetic.rank then a.arithmetic else b.arithmetic

/-- A value of type `src` can be converted to `dst` without going down the order. -/
def promotesTo (src dst : Scalar) : Bool :=
  if dst.isNarrow then decide (src.rank ≤ dst.rank)
  else decide (src.promote dst = dst.arithmetic)

end Scalar

namespace Ty

/-- The type of a lane-by-lane operation between two types, when there is one. -/
def broadcast? : Ty → Ty → Option Ty
  | scalar a, scalar b => some (scalar (a.promote b))
  | scalar a, vector e w => if a.promotesTo e then some (vector e w) else none
  | vector e w, scalar b => if b.promotesTo e then some (vector e w) else none
  | vector e v, vector f w => if e = f ∧ v = w then some (vector e v) else none
  | _, _ => none

end Ty
/-! ### Reading the names of types -/

/-- The spellings of the scalar types. -/
def Scalar.spellings : List (String × Scalar) :=
  [("bool", .bool), ("char", .char), ("uchar", .uchar), ("unsigned char", .uchar),
    ("short", .short), ("ushort", .ushort), ("unsigned short", .ushort), ("int", .int),
    ("uint", .uint), ("unsigned", .uint), ("unsigned int", .uint), ("long", .long),
    ("ulong", .ulong), ("unsigned long", .ulong), ("size_t", .ulong), ("float", .float),
    ("double", .double)]

/-- The scalar with a given spelling. -/
def Scalar.parse? (word : String) : Option Scalar :=
  Scalar.spellings.lookup word

/-- The number written by decimal digits, when there are digits only and at least one. -/
def decimalDigits? (cs : List Char) : Option Nat :=
  if cs.isEmpty then none
  else if cs.all Char.isDigit then
    some (cs.foldl (fun n c => 10 * n + (c.toNat - '0'.toNat)) 0)
  else none

namespace Ty

/-- The scalar or vector type with a given name. -/
def parse? (word : String) : Option Ty :=
  match Scalar.parse? word with
  | some s => some (scalar s)
  | none =>
    let cs := word.toList
    let stem := String.ofList (cs.takeWhile fun c => !c.isDigit)
    match Scalar.parse? stem with
    | some s =>
      if s.name = stem then (decimalDigits? (cs.dropWhile fun c => !c.isDigit)).bind (vectorOf? s)
      else none
    | none => none

/-- The words that start a type in kernel source. -/
def isTypeName (word : String) : Bool :=
  word = "void" || word = "unsigned" || (parse? word).isSome

end Ty
end KernelForge
