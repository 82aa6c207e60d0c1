/-
What goes wrong, and how it reads.

A fault is a text, or a cause seen from further out: given a kind, put into a context,
reported by a device while it executed a command, or one of several.  The log of a device
compiler is a fault of its own.  The kind of a fault is that of the outermost part that has
one, and `mentions` asks whether a kind occurs on the way down the single causes.
-/

namespace KernelForge

/-- The kinds of faults. -/
inductive FaultKind where
  | invalid
  | typeMismatch
  | arity
  | indexRange
  | unknownFunction
  | argumentType
  | build
  | execution
deriving DecidableEq, Repr, Inhabited

namespace FaultKind

def name : FaultKind → String
  | invalid => "invalid"
  | typeMismatch => "type mismatch"
  | arity => "arity error"
  | indexRange => "index out of range"
  | unknownFunction => "unknown function"
  | argumentType => "argument type error"
  | build => "build error"
  | execution => "device execution error"

def all : List FaultKind :=
  [invalid, typeMismatch, arity, indexRange, unknownFunction, argumentType, build, execution]

end FaultKind

/-- What went wrong. -/
inductive Fault where
  | plain (text : String)
  | kinded (kind : FaultKind) (cause : Fault)
  | within (context : String) (cause : Fault)
  | build (log : String)
  | execution (command : String) (cause : Fault)
  | several (parts : List Fault)
deriving Repr, Inhabited

namespace Fault

mutual

/-- The text of a fault. -/
def message : Fault → String
  | plain text => text
  | kinded kind cause => kind.name ++ ": " ++ cause.message
  | within context cause => context ++ ": " ++ cause.message
  | build log => "kernel build failed:\n" ++ log
  | execution command cause => "device execution of " ++ command ++ " failed: " ++ cause.message
  | several parts => "; ".intercalate (messages parts)

def messages : List Fault → List String
  | [] => []
  | f :: fs => f.message :: messages fs

end

mutual

/-- The kind of the outermost part that has one, several parts being asked in their order. -/
def kind? : Fault → Option FaultKind
  | plain _ => none
  | kinded kind _ => some kind
  | within _ cause => cause.kind?
  | build _ => some .build
  | execution _ _ => some .execution
  | several parts => firstKind? parts

def firstKind? : List Fault → Option FaultKind
  | [] => none
  | f :: fs =>
    match f.kind? with
    | some k => some k
    | none => firstKind? fs

end

/-- The kind of a fault, `invalid` when no part of it has one. -/
def kind (f : Fault) : FaultKind := f.kind?.getD .invalid

/-- Tests whether a kind occurs on the way down the single causes; several parts end it. -/
def mentions (k : FaultKind) : Fault → Bool
  | plain _ => false
  | kinded kind cause => kind = k || cause.mentions k
  | within _ cause => cause.mentions k
  | build _ => k = .build
  | execution _ cause => k = .execution || cause.mentions k
  | several _ => false

/-- A text with a kind. -/
def ofKind (kind : FaultKind) (text : String) : Fault := kinded kind (plain text)

/-- Joins faults: none is no fault, one is itself, and several are taken apart first. -/
def join? (fs : List Fault) : Option Fault :=
  let parts := fs.flatMap fun
    | several ps => ps
    | f => [f]
  match parts with
  | [] => none
  | [f] => some f
  | ps => some (several ps)

end Fault
end KernelForge
