/-
Building a program from its source.

Directives come first, then the structures and then the functions, in the order of the source
each.  One objection ends the declaration it is about, but not the others, so that the log
tells of every faulty declaration.  A function is known from its own body on; one whose
parameters are faulty stays unknown.
-/
import KernelForge.Code.Parse
import KernelForge.Fault
import KernelForge.Program.Stmt

namespace KernelForge

/-- The result of building a program. -/
inductive BuildResult where
  | built (p : Program)
  | rejected (log : List Diagnostic)
  /-- The builder itself stops. -/
  | crashed
deriving Inhabited

namespace Env

/-! ### Directives -/

/-- The words of a directive, which blanks and colons divide. -/
def directiveWords (text : SourceText) : List SourceText :=
  (text.splitBy fun a b => isBreak a == isBreak b).filter fun w => !w.any isBreak
where
  isBreak (g : Glyph) : Bool := g.sat fun c => c = ' ' || c = '\t' || c = ':'

/-- Obeys a directive about an extension; others are passed over. -/
def obey (env : Env) (p : Pragma) : Check Env :=
  match directiveWords p.text with
  | [_, vendor, subject, name, behavior] =>
    if vendor.shown = "OPENCL" && subject.shown = "EXTENSION" then
      let concerned := name.shown = "cl_khr_fp64" || name.shown = "all"
      match behavior.shown with
      | "enable" => .ok (if concerned then { env with fp64 := true } else env)
      | "disable" => .ok (if concerned then { env with fp64 := false } else env)
      | _ => complain p.offset (.badBehavior behavior)
    else .ok env
  | _ => .ok env

/-! ### Structures -/

/-- Checks the fields of a structure; `seen` are the names of those before. -/
def checkMembers (env : Env) (seen : List String) :
    List Code.Field → Check (List String × List NamedTy)
  | [] => .ok ([], [])
  | f :: fs => do
    let t ← env.resolve f.type
    if f.type.pointer then complain f.type.offset .pointerField
    else if seen.contains f.name.name then
      complain f.name.offset (.duplicateMember f.name.name)
    else
      let (names, ts) ← checkMembers env (f.name.name :: seen) fs
      return (f.name.name :: names, t :: ts)

/-- Checks the declaration of a structure. -/
def checkTypedef (env : Env) (d : Code.Typedef) : Check Env := do
  let (names, fields) ← env.checkMembers [] d.fields
  if (env.structs.lookup d.name.name).isSome then
    complain d.name.offset (.typedefTwice d.name.name)
  else return { env with structs := (d.name.name, .struct names fields) :: env.structs }

/-! ### Functions -/

/-- Objects to a parameter that no argument of a kernel can be. -/
def checkKernelParam (f : Code.Field) (t : NamedTy) : Check Unit :=
  match t with
  | .pointer _ .loc _ => complain f.type.offset (.localParam f.name.name)
  | .pointer _ .priv _ => complain f.type.offset (.privateParam f.name.name)
  | _ => .ok ()

/-- Checks the parameters of a function and declares them. -/
def checkParams (env : Env) (isKernel : Bool) : List Code.Field → Check (List NamedTy × Env)
  | [] => .ok ([], env)
  | f :: fs => do
    let t ← env.resolve f.type
    if t.ty = .void then complain f.type.offset (.voidParam f.name.name)
    else
      if isKernel then checkKernelParam f t
      let (_, env) ← env.declare f.name t (f.type.readOnly && !f.type.pointer)
      let (ts, env) ← checkParams env isKernel fs
      return (t :: ts, env)

/-- Checks what comes before the body of a function, and makes the function known. -/
def checkHeader (env : Env) (d : Code.Func) : Check (List NamedTy × Env) := do
  let name := d.name.name
  if (env.funcs.lookup name).isSome then complain d.name.offset (.redefinition name)
  else if isDeviceFunction name then complain d.name.offset (.redefinesBuiltin name)
  else
    let result ← env.resolve d.result
    if d.isKernel && result.ty ≠ .void then complain d.result.offset (.kernelResult name)
    else
      let (params, inner) ←
        { env with scopes := [[]], slots := 0, fn := name, result }.checkParams d.isKernel d.params
      return (params, { inner with funcs := (name, ⟨d.isKernel, result, params⟩) :: env.funcs })

/-- Checks the body of a function. -/
def checkBody (env : Env) (d : Code.Func) (params : List NamedTy) : Check CheckedFn := do
  let (body, inner) ← env.openScope.checkStmts d.body
  return { name := d.name.name
           isKernel := d.isKernel
           result := env.result.ty
           params := (d.params.zip params).map fun (f, t) => (f.name.name, t.ty)
           slots := inner.slots
           body }

end Env

/-! ### Programs -/

/-- A program as far as it has been checked. -/
structure Builder where
  env : Env := {}
  funcs : List CheckedFn := []
  log : List (Nat × CheckError) := []
deriving Inhabited

namespace Builder

/-- Notes an objection, unless the checker has to stop. -/
def object (b : Builder) : Objection → Option Builder
  | .complaint offset e => some { b with log := b.log ++ [(offset, e)] }
  | .collapse => none

/-- Goes on with a changed environment, or notes why not. -/
def learn (b : Builder) : Check Env → Option Builder
  | .ok env => some { b with env }
  | .error o => b.object o

/-- Checks a function. -/
def addFunc (b : Builder) (d : Code.Func) : Option Builder :=
  match b.env.checkHeader d with
  | .error o => b.object o
  | .ok (params, inner) =>
    let b := { b with env := { b.env with funcs := inner.funcs } }
    match inner.checkBody d params with
    | .error o => b.object o
    | .ok f => some { b with funcs := b.funcs ++ [f] }

/-- Checks a whole source. -/
def ofFile (file : Code.File) : Option Builder := do
  let b ← file.pragmas.foldlM (fun b p => b.learn (b.env.obey p)) ({} : Builder)
  let b ← file.typedefs.foldlM (fun b d => b.learn (b.env.checkTypedef d)) b
  file.funcs.foldlM addFunc b

end Builder

namespace Program

/-- The name of a kernel source in the log. -/
def fileName : String := "kernel.cl"

/-- Builds a program. -/
def build (source : SourceText) : BuildResult :=
  let stream := TokenStream.ofText fileName source
  match Code.File.ofStream stream with
  | .error log => .rejected log
  | .ok file =>
    match Builder.ofFile file with
    | none => .crashed
    | some b =>
      if b.log.isEmpty then .built { source, fp64 := b.env.fp64, funcs := b.funcs }
      else .rejected (b.log.map fun (offset, e) => stream.map.complain offset e.message)

/-- The kernel with a given name, or the fault that there is none. -/
def kernel (p : Program) (name : String) : Except Fault CheckedFn :=
  match p.kernel? name with
  | some k => .ok k
  | none => .error (.plain ("kernel " ++ Text.quoted name ++ " not defined by the program"))

end Program
end KernelForge
