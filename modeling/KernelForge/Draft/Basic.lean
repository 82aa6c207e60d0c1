/-
Kernel source in the making.

A draft has a preamble (extensions, structures and helper functions) and a part that is being
written: the kernel itself, or the body of a helper function.  All parts of a kernel share the
preamble and the names that the kernel has taken; the body of a helper has names of its own
besides.  Nothing is checked here: a draft only puts text in order and hands out names.
-/
import KernelForge.Collection.Maps
import KernelForge.Host.Memory
import KernelForge.Names

namespace KernelForge

/-- An argument of a drafted kernel.  What is set is bound when the kernel is compiled. -/
structure DraftArg where
  name : String
  type : Ty
  buffer? : Option Nat := none
  value? : Option Bytes := none
deriving Repr, Inhabited

namespace DraftArg

def isBuffer (a : DraftArg) : Bool :=
  match a.type with
  | .pointer _ _ _ => true
  | _ => false

/-- Tests whether the argument is bound when the kernel is compiled. -/
def isPreset (a : DraftArg) : Bool := a.buffer?.isSome || a.value?.isSome

/-- The type of the value, or of the elements of the buffer. -/
def elem (a : DraftArg) : Ty :=
  match a.type with
  | .pointer t _ _ => t
  | t => t

end DraftArg

/-- What a helper function is known by, so that it is defined once. -/
inductive HelperKey where
  | word (w : String)
  | function (id : Nat)
deriving DecidableEq, Repr, Inhabited

/-- What comes before a kernel, and the names that the kernel has taken. -/
structure Preamble where
  names : Names := {}
  extensions : OrderedMap String Unit := {}
  /-- The fields of each structure, by its name. -/
  structs : OrderedMap String (List Ty) := {}
  /-- The source of each helper function, by its name. -/
  functions : OrderedMap String String := {}
  /-- The names of the helper functions that have been defined. -/
  helperNames : List (HelperKey × String) := []
deriving Inhabited

/-- A part that is being written. -/
structure DraftPart where
  /-- The names of the body of a helper; the kernel itself uses those of the preamble. -/
  own? : Option Names := none
  args : List DraftArg := []
  body : String := ""
  indent : Nat := 1
deriving Inhabited

/-- A part of a kernel that is being written, and the preamble of the kernel. -/
structure Draft where
  name : String
  pre : Preamble := {}
  part : DraftPart := {}
deriving Inhabited

namespace Draft

/-- A new kernel with a given name. -/
def ofName (name : String) : Draft :=
  { name, pre := { names := (Names.register {} name).2 } }

/-- The body of a new helper function of the same kernel. -/
def helperPart : DraftPart := { own? := some {} }

/-! ### Names -/

/-- Names that are free in the part: `take` takes one. -/
def withNames {α : Type} (d : Draft) (take : Names → α × Names) : α × Draft :=
  match d.part.own? with
  | some ns =>
    let (a, ns) := take ns
    (a, { d with part := { d.part with own? := some ns } })
  | none =>
    let (a, ns) := take d.pre.names
    (a, { d with pre := { d.pre with names := ns } })

/-- A name that is not taken: the root itself if possible. -/
def fresh (d : Draft) (root : String) : String × Draft := d.withNames (·.fresh root)

/-- A name made of a root and an index. -/
def indexed (d : Draft) (root : String) : String × Draft := d.withNames (·.indexed root)

/-- Takes a name, so that it is never handed out. -/
def reserve (d : Draft) (name : String) : Draft := (d.withNames (·.register name)).2

/-! ### Preamble -/

/-- The extension for double precision. -/
def doubleExtension : String := "cl_khr_fp64"

end Draft

namespace Preamble

def enable (p : Preamble) (extension : String) : Preamble :=
  { p with extensions := (p.extensions.insert extension ()).2 }

mutual

/-- Declares the structures of a type, inner ones first, and enables what the type needs. -/
def inject (p : Preamble) (t : Ty) : Preamble :=
  match t with
  | .void => p
  | .scalar s => if s = .double then p.enable Draft.doubleExtension else p
  | .vector s _ => if s = .double then p.enable Draft.doubleExtension else p
  | .pointer t _ _ => inject p t
  | .tuple ts =>
    let name := (Ty.tuple ts).name
    if (p.structs.get? name).isSome then p
    else
      let p := injectAll p ts
      { p with structs := (p.structs.insert name ts).2 }

def injectAll (p : Preamble) (ts : List Ty) : Preamble :=
  match ts with
  | [] => p
  | t :: ts => injectAll (inject p t) ts

end

end Preamble

namespace Draft

def enable (d : Draft) (extension : String) : Draft := { d with pre := d.pre.enable extension }

/-- Declares what a type needs. -/
def inject (d : Draft) (t : Ty) : Draft := { d with pre := d.pre.inject t }

/-! ### Text -/

/-- Appends text to the body. -/
def append (d : Draft) (text : String) : Draft :=
  { d with part := { d.part with body := d.part.body ++ text } }

/-- Four blanks for each step of indentation. -/
def margin (indent : Nat) : String := String.join (List.replicate indent "    ")

/-- Appends an indented line. -/
def line (d : Draft) (text : String) : Draft := d.append (margin d.part.indent ++ text ++ "\n")

def indent (d : Draft) : Draft := { d with part := { d.part with indent := d.part.indent + 1 } }

def dedent (d : Draft) : Draft := { d with part := { d.part with indent := d.part.indent - 1 } }

/-- The declaration of a variable with a given name, which is taken. -/
def decl (d : Draft) (t : Ty) (name : String) : String × Draft :=
  (t.name ++ " " ++ name, (d.reserve name).inject t)

/-- Declares a new variable with an initial value. -/
def declare (d : Draft) (t : Ty) (init : String) : String × Draft :=
  let (name, d) := d.indexed "_v"
  (name, (d.inject t).line (t.name ++ " " ++ name ++ " = " ++ init ++ ";"))

/-! ### Arguments -/

/-- Appends an argument and gives its slot. -/
def pushArg (d : Draft) (a : DraftArg) : Nat × Draft :=
  (d.part.args.length, { d with part := { d.part with args := d.part.args ++ [a] } })

/-- Adds an argument that is bound later, under a free name. -/
def addArg (d : Draft) (name : String) (t : Ty) : (String × Nat) × Draft :=
  let (name, d) := d.fresh name
  let (slot, d) := (d.inject t).pushArg { name, type := t }
  ((name, slot), d)

/-- Adds an argument with the value of a host value.  The draft is kept when the value has no
kernel type. -/
def addSetArg (d : Draft) (name : String) (h? : Option HostTy) (v : HostValue) :
    Except String ((String × Nat) × Draft) :=
  match HostTy.kernelTyOf h?, h? with
  | .error e, _ => .error e.message
  | .ok _, none => .error ""
  | .ok t, some h =>
    match Host.encode t h v (Array.replicate t.size 0) with
    | .error e => .error e.message
    | .ok bytes =>
      let (name, d) := d.fresh name
      let (slot, d) := (d.inject t).pushArg { name, type := t, value? := some bytes }
      .ok ((name, slot), d)

/-- Makes a pointer to read-only elements one to elements that can change. -/
def writable (t : Ty) : Ty :=
  match t with
  | .pointer elem space _ => .pointer elem space false
  | t => t

/-- The argument for a buffer.  A buffer has one argument, which points to read-only elements
as long as every registration is for reading. -/
def register (d : Draft) (buffer : Nat) (elem : Ty) (readOnly : Bool) : (String × Nat) × Draft :=
  match d.part.args.findIdx? fun a => a.buffer? = some buffer with
  | some slot =>
    let arg := d.part.args.getD slot default
    if readOnly then ((arg.name, slot), d)
    else
      ((arg.name, slot),
        { d with part :=
          { d.part with args := d.part.args.set slot { arg with type := writable arg.type } } })
  | none =>
    let (name, d) := d.indexed "_buf"
    let (slot, d) :=
      (d.inject elem).pushArg
        { name, type := Ty.pointerTo elem readOnly, buffer? := some buffer }
    ((name, slot), d)

/-! ### Helper functions -/

/-- The name that a new helper function gets: one that the kernel has not taken. -/
def helperName (d : Draft) (root : String) : String × Draft :=
  let (name, ns) := d.pre.names.fresh root
  (name, { d with pre := { d.pre with names := ns } })

/-- Adds the source of a helper function to the preamble. -/
def addHelper (d : Draft) (key : HelperKey) (name source : String) : Draft :=
  { d with pre :=
    { d.pre with
      functions := (d.pre.functions.insert name source).2
      helperNames := (key, name) :: d.pre.helperNames } }

/-- The name of a helper function that has been defined. -/
def helper? (d : Draft) (key : HelperKey) : Option String := d.pre.helperNames.lookup key

/-- The helper function for a key: the one that has been defined, or a new one named after a
root, whose source is made for its name.  The name stays taken when no source can be made. -/
def define {ε : Type} (d : Draft) (key : HelperKey) (root : String)
    (source : String → Except ε String) : Except ε String × Draft :=
  match d.helper? key with
  | some name => (.ok name, d)
  | none =>
    let (name, d) := d.helperName root
    match source name with
    | .error e => (.error e, d)
    | .ok src => (.ok name, d.addHelper key name src)

/-! ### Source -/

/-- The words of a text: longest runs of letters, digits and underscores. -/
def words (text : String) : List String :=
  ((text.toList.splitBy fun a b => isWordChar a == isWordChar b).filter
    (·.any isWordChar)).map String.ofList
where
  isWordChar (c : Char) : Bool := c.isAlphanum || c = '_'

/-- Tests whether a text mentions a double precision type. -/
def mentionsDouble (text : String) : Bool :=
  (words text).any fun w => ["double", "double2", "double4", "double8", "double16"].contains w

/-- A parameter of the kernel; values are read-only. -/
def param (a : DraftArg) : String :=
  if a.isBuffer then a.type.name ++ " " ++ a.name else "const " ++ a.type.name ++ " " ++ a.name

/-- Enables double precision where the text asks for it. -/
def settle (d : Draft) : Draft :=
  if mentionsDouble d.part.body || d.pre.functions.values.any mentionsDouble then
    d.enable doubleExtension
  else d

/-- The text of a settled draft. -/
def text (d : Draft) : String :=
  let pragmas := d.pre.extensions.keys.map fun e => "#pragma OPENCL EXTENSION " ++ e ++ " : enable\n"
  String.join pragmas ++ (if pragmas.isEmpty then "" else "\n") ++
    String.join (d.pre.structs.values.map fun ts => Ty.typedef ts ++ "\n") ++
    String.join (d.pre.functions.values.map fun src => src ++ "\n") ++
    "__kernel void " ++ d.name ++ "(" ++ ", ".intercalate (d.part.args.map param) ++ ")\n\x7b\n" ++
    d.part.body ++ "\x7d\n"

/-- The complete source of the kernel. -/
def source (d : Draft) : String × Draft :=
  let d := d.settle
  (d.text, d)

end Draft
end KernelForge
