/-
What is written for a formula.

The text that computes a formula has little structure: variables are declared with the result of
one operation each, and the right operand of `&&` and `||` is computed under a condition.  Here
this structure is brought out: a formula is compiled to a script, and what is written is the text
of the script.  All that is proved of the text is then proved of scripts.
-/
import KernelForge.Formula.Lower
import KernelForge.Proofs.Draft.Structures
import KernelForge.Proofs.Formula.Progress
import KernelForge.Proofs.Host.Literals

namespace KernelForge

/-! ### Scripts -/

/-- Where the element of a buffer is. -/
inductive Index where
  | var (x : String)
  | literal (n : Nat)
  /-- A number of places after a variable. -/
  | offset (x : String) (n : Nat)
deriving DecidableEq, Repr, Inhabited

/-- A variable, or an element of the buffer that a variable points to. -/
inductive Source where
  | var (x : String)
  | element (x : String) (i : Index)
deriving DecidableEq, Repr, Inhabited

/-- An operand: what is in a variable or a buffer, or an integer of a scalar type. -/
inductive Operand where
  | source (a : Source)
  | literal (s : Scalar) (i : Int)
deriving DecidableEq, Repr, Inhabited

/-- One operation. -/
inductive Operation where
  | copy (a : Operand)
  | unary (op : Operator) (a : Operand)
  | binary (op : Operator) (a b : Operand)
  | call (fn : String) (as : List Operand)
  | select (a : Source) (field : String)
deriving DecidableEq, Repr, Inhabited

/-- Statements one after another. -/
inductive Script where
  | done
  /-- The declaration of a variable. -/
  | declare (t : Ty) (x : String) (r : Operation) (next : Script)
  /-- Statements that are run when a variable is true, or when it is not. -/
  | guard (negated : Bool) (x : String) (body next : Script)
  | assign (place : Source) (a : Operand) (next : Script)
deriving Repr, Inhabited

namespace Index

def text : Index → String
  | var x => x
  | literal n => toString n
  | offset x n => x ++ "+" ++ toString n

end Index

namespace Source

def text : Source → String
  | var x => x
  | element x i => x ++ "[" ++ i.text ++ "]"

end Source

namespace Operand

def text : Operand → String
  | source a => a.text
  | literal s i => Literal.integer s i

end Operand

namespace Operation

def text : Operation → String
  | copy a => a.text
  | unary op a => Formula.unarySign op ++ a.text
  | binary op a b => a.text ++ " " ++ op.spelling ++ " " ++ b.text
  | call fn as => fn ++ "(" ++ ", ".intercalate (as.map Operand.text) ++ ")"
  | select a field => a.text ++ "." ++ field

end Operation

namespace Script

/-- The condition of a guarded part. -/
def testText (negated : Bool) (x : String) : String := if negated then "!" ++ x else x

/-- The text of a line. -/
def lineText (indent : Nat) (text : String) : String := Draft.margin indent ++ text ++ "\n"

def text (indent : Nat) : Script → String
  | done => ""
  | declare t x r next =>
    lineText indent (t.name ++ " " ++ x ++ " = " ++ r.text ++ ";") ++ next.text indent
  | guard negated x body next =>
    lineText indent ("if (" ++ testText negated x ++ ") \x7b") ++ body.text (indent + 1) ++
      lineText indent "\x7d" ++ next.text indent
  | assign place a next => lineText indent (place.text ++ " = " ++ a.text ++ ";") ++ next.text indent

/-- One script after another. -/
def append : Script → Script → Script
  | done, after => after
  | declare t x r next, after => declare t x r (next.append after)
  | guard negated x body next, after => guard negated x body (next.append after)
  | assign place a next, after => assign place a (next.append after)

instance : Append Script := ⟨append⟩

@[simp] theorem done_append (b : Script) : done ++ b = b := rfl

@[simp] theorem declare_append (t : Ty) (x : String) (r : Operation) (a b : Script) :
    declare t x r a ++ b = declare t x r (a ++ b) := rfl

@[simp] theorem guard_append (negated : Bool) (x : String) (body a b : Script) :
    guard negated x body a ++ b = guard negated x body (a ++ b) := rfl

@[simp] theorem assign_append (place : Source) (o : Operand) (a b : Script) :
    assign place o a ++ b = assign place o (a ++ b) := rfl

theorem append_assoc (a b c : Script) : a ++ b ++ c = a ++ (b ++ c) := by
  induction a with
  | done => rfl
  | declare t x r next ih => rw [declare_append, declare_append, ih, declare_append]
  | guard negated x body next _ ih => rw [guard_append, guard_append, ih, guard_append]
  | assign place a next ih => rw [assign_append, assign_append, ih, assign_append]

theorem text_append (indent : Nat) (a b : Script) :
    (a ++ b).text indent = a.text indent ++ b.text indent := by
  induction a with
  | done => simp [text]
  | declare t x r next ih =>
    rw [declare_append, text, text, ih]
    simp only [String.append_assoc]
  | guard negated x body next _ ih =>
    rw [guard_append, text, text, ih]
    simp only [String.append_assoc]
  | assign place a next ih =>
    rw [assign_append, text, text, ih]
    simp only [String.append_assoc]

/-- The types of the declared variables. -/
def types : Script → List Ty
  | done => []
  | declare t _ _ next => t :: next.types
  | guard _ _ body next => body.types ++ next.types
  | assign _ _ next => next.types

@[simp] theorem types_append (a b : Script) : (a ++ b).types = a.types ++ b.types := by
  induction a with
  | done => rfl
  | declare t x r next ih => rw [declare_append, types, types, ih]; rfl
  | guard negated x body next _ ih => rw [guard_append, types, types, ih, List.append_assoc]
  | assign place a next ih => rw [assign_append, types, types, ih]

end Script

/-! ### Compiling -/

namespace Formula

mutual

/-- Formulas of placeholders, operators, mathematical functions, elements and integer literals. -/
def isPure : Formula → Bool
  | literal type value =>
    (Literal.integer? type value).any fun (s, i) => !Literal.isSmallest s i
  | arg _ => true
  | unary _ x => x.isPure
  | binary _ x y => x.isPure && y.isPure
  | call _ xs => arePure xs
  | get _ x => x.isPure
  | _ => false

def arePure : List Formula → Bool
  | [] => true
  | x :: xs => x.isPure && arePure xs

end

/-- The type of a formula that has one. -/
def typeOf (types : List Ty) (n : Formula) : Ty :=
  match n.infer types with
  | .ok t => t
  | .error _ => .void

theorem typeOf_eq {types : List Ty} {n : Formula} {t : Ty} (h : n.infer types = .ok t) :
    n.typeOf types = t := by
  rw [typeOf, h]

/-- A formula that has been compiled: its value, what computes it, and the names taken since. -/
structure Compiled (α : Type) where
  value : α
  script : Script
  names : Names

/-- The source that an operand is. -/
def sourceOf : Operand → Source
  | .source a => a
  | .literal _ _ => default

/-- Compiles one operation on what has been compiled before it. -/
def compileOperation {α : Type} (t : Ty) (c : Compiled α) (r : Operation) : Compiled Operand :=
  let x := c.names.indexed "_v"
  { value := .source (.var x.1)
    script := c.script ++ .declare t x.1 r .done
    names := x.2 }

mutual

/-- The script of a formula whose placeholders stand for sources. -/
def compile (types : List Ty) (sources : List Source) (ns : Names) (n : Formula) :
    Compiled Operand :=
  match n with
  | literal type value =>
    let i := (Literal.integer? type value).getD default
    ⟨.literal i.1 i.2, .done, ns⟩
  | arg i => ⟨.source (sources.getD i.toNat default), .done, ns⟩
  | unary op x =>
    let c := compile types sources ns x
    compileOperation ((unary op x).typeOf types) c (.unary op c.value)
  | binary op x y =>
    let c := compile types sources ns x
    if op.isLogical then
      let test := compileOperation (.scalar .bool) c (.copy c.value)
      let name := (c.names.indexed "_v").1
      let d := compile types sources test.names y
      { value := .source (.var name)
        script := test.script ++
          .guard (op = .lor) name (d.script ++ .assign (.var name) d.value .done) .done
        names := d.names }
    else
      let d := compile types sources c.names y
      compileOperation ((binary op x y).typeOf types) ⟨d.value, c.script ++ d.script, d.names⟩
        (.binary op c.value d.value)
  | call name xs =>
    let c := compileAll types sources ns xs
    compileOperation ((call name xs).typeOf types) c (.call name c.value)
  | get index x =>
    let c := compile types sources ns x
    compileOperation ((get index x).typeOf types) c
      (.select (sourceOf c.value) (elementName index (x.typeOf types)))
  | _ => ⟨default, .done, ns⟩

/-- The script of some formulas, one after another. -/
def compileAll (types : List Ty) (sources : List Source) (ns : Names) (xs : List Formula) :
    Compiled (List Operand) :=
  match xs with
  | [] => ⟨[], .done, ns⟩
  | x :: xs =>
    let c := compile types sources ns x
    let d := compileAll types sources c.names xs
    ⟨c.value :: d.value, c.script ++ d.script, d.names⟩

end

end Formula

end KernelForge
