/-
Calls.

A name that is called is, in this order: a function that asks for the work item, an atomic
function under either of its two names, an explicit conversion, a mathematical function, or a
function of the source.  Which of them it is does not depend on the arguments.
-/
import KernelForge.Program.Env

namespace KernelForge

namespace WorkItemFn

def all : List WorkItemFn :=
  [globalId, globalSize, globalOffset, localId, localSize, groupId, numGroups]

def name : WorkItemFn → String
  | globalId => "get_global_id"
  | globalSize => "get_global_size"
  | globalOffset => "get_global_offset"
  | localId => "get_local_id"
  | localSize => "get_local_size"
  | groupId => "get_group_id"
  | numGroups => "get_num_groups"

def ofName? (word : String) : Option WorkItemFn := all.find? fun f => f.name = word

end WorkItemFn

namespace AtomicFn

def all : List AtomicFn := [add, sub, xchg, min, max, and, or, xor, inc, dec, cmpxchg]

/-- What follows `atomic_` or `atom_` in the name of a function. -/
def stem : AtomicFn → String
  | add => "add"
  | sub => "sub"
  | xchg => "xchg"
  | min => "min"
  | max => "max"
  | and => "and"
  | or => "or"
  | xor => "xor"
  | inc => "inc"
  | dec => "dec"
  | cmpxchg => "cmpxchg"

def name (f : AtomicFn) : String := "atomic_" ++ f.stem

def ofName? (word : String) : Option AtomicFn := all.find? fun f => f.name = word

/-- The number of arguments, the pointer included. -/
def arity : AtomicFn → Nat
  | inc | dec => 1
  | cmpxchg => 3
  | _ => 2

end AtomicFn

/-- The functions of the device, which no source may define again. -/
def isDeviceFunction (name : String) : Bool :=
  name = "get_work_dim" || WorkItemFn.all.any (fun f => f.name = name) ||
    AtomicFn.all.any (fun f => f.name = name || "atom_" ++ f.stem = name) ||
    Builtin.all.any fun f => f.name = name

/-- The functions that synchronize work items, which run one after another here. -/
def isFence (name : String) : Bool :=
  ["barrier", "mem_fence", "read_mem_fence", "write_mem_fence"].contains name

/-- What is left of a name after some letters that it starts with. -/
def afterStem? (stem name : String) : Option String :=
  if stem.toList.isPrefixOf name.toList then
    some (String.ofList (name.toList.drop stem.length))
  else none

/-- What a called name stands for. -/
inductive Callee where
  | workItem (fn : WorkItemFn)
  | workDim
  | atomic (fn : AtomicFn)
  | convert (target : String)
  | math (fn : Builtin)
  | source (name : String) (header : Header)
  | unknown

namespace Callee

/-- The name that is looked up: atomic functions have a short name as well. -/
def fullName (name : String) : String :=
  match afterStem? "atom_" name with
  | some rest => "atomic_" ++ rest
  | none => name

/-- Finds what a called name stands for. -/
def ofName (env : Env) (name : String) : Callee :=
  match WorkItemFn.ofName? name with
  | some f => workItem f
  | none =>
    if name = "get_work_dim" then workDim
    else
      match AtomicFn.ofName? name with
      | some f => atomic f
      | none =>
        match afterStem? "convert_" name with
        | some target => convert target
        | none =>
          match Builtin.ofName? name with
          | some f => math f
          | none =>
            match env.funcs.lookup name with
            | some header => source name header
            | none => unknown

end Callee

namespace Checked

/-- Objects to a wrong number of arguments. -/
def requireArgs (fn : Code.Ident) (paren want got : Nat) : Check Unit :=
  if got = want then .ok () else complain paren (.argCount fn.name want got)

def callWorkItem (paren : Nat) (f : WorkItemFn) (dim : Checked) : Check Checked := do
  let dim ← dim.convert paren (.scalar .uint)
  return { type := .scalar .ulong, term := .workItem f dim.term }

/-- The integer that the pointer of an atomic function points to. -/
def atomicElem (paren : Nat) (f : AtomicFn) (ptr : Checked) : Check Scalar :=
  match ptr.type with
  | .pointer (.scalar s) space readOnly =>
    if !s.isInteger || s.isNarrow || readOnly || (space ≠ .global && space ≠ .loc) then
      complain paren (.atomicPointer f.name ptr.type.ty)
    else .ok s
  | .pointer _ _ _ => complain paren (.atomicPointer f.name ptr.type.ty)
  | t => complain paren (.atomicArg f.name t.ty)

/-- An explicit conversion, lane by lane for vectors of the same width. -/
def callConvert (paren : Nat) (dst : Ty) (x : Checked) : Check Checked :=
  match dst, x.type with
  | .scalar s, .scalar _ => .ok { type := .scalar s, term := .cast s x.term }
  | .vector s w, .vector _ v =>
    if v = w then .ok { type := .vector s w, term := .cast s x.term }
    else complain paren (.noConversion x.type.ty dst)
  | _, t => complain paren (.noConversion t.ty dst)

/-- A mathematical function; the arguments are converted as its signature says. -/
def callMath (paren : Nat) (f : Builtin) (offsets : List Nat) (args : List Checked) :
    Check Checked :=
  match f.signature (args.map fun x => x.type.ty) with
  | .error e => complain paren (.signature e)
  | .ok sig => do
    let args ← convertAll offsets args (sig.params.map fun t => (NamedTy.ofPlain? t).getD .void)
    return { type := (NamedTy.ofPlain? sig.result).getD .void
             term := .math f sig.result (args.map (·.term)) }

end Checked
end KernelForge
