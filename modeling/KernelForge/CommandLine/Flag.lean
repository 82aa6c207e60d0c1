/-
Flags of a command line.

A flag has a name, which follows two dashes, and may have a letter, which follows one.  Its
value follows an equals sign or is the next argument; a flag for a truth value needs none.
Letters may be run together, and what follows a letter that takes a value is that value.
Arguments that are no flags are kept in their order, and two dashes alone end the flags.
-/
import KernelForge.Fault
import KernelForge.Numeral.Basic
import KernelForge.Text.Quoted
import KernelForge.Text.Record

namespace KernelForge.CommandLine

/-- What a flag holds. -/
inductive FlagKind where
  | text
  | whole
  | truth
  /-- Texts that commas divide; what is given again is appended. -/
  | texts
deriving DecidableEq, Repr, Inhabited

/-- A flag of a command. -/
structure Flag where
  name : String
  letter? : Option Char := none
  kind : FlagKind := .text
  usage : String
  /-- The text that the flag has when it is not given. -/
  default : String := ""
deriving DecidableEq, Repr, Inhabited

namespace Flag

/-- Tests whether a flag stands for itself when no value follows it. -/
def isSwitch (f : Flag) : Bool := f.kind = .truth

/-- A flag as messages name it. -/
def text (f : Flag) : String :=
  match f.letter? with
  | some c => "-" ++ String.singleton c ++ ", --" ++ f.name
  | none => "--" ++ f.name

end Flag

/-- The value that a flag was given. -/
inductive FlagValue where
  | text (s : String)
  | whole (i : Int)
  | truth (b : Bool)
  | texts (xs : List String)
deriving DecidableEq, Repr, Inhabited

/-- What is wrong with the flags of a command line. -/
inductive FlagError where
  | badForm (arg : String)
  | unknown (name : String)
  | unknownLetter (letter : Char) (letters : String)
  | noValue (arg : String)
  | noLetterValue (letter : Char) (letters : String)
  | badValue (value : String) (flag : String) (reason : String)
deriving DecidableEq, Repr, Inhabited

def FlagError.message : FlagError → String
  | badForm arg => "bad flag syntax: " ++ arg
  | unknown name => "unknown flag: --" ++ name
  | unknownLetter c letters =>
    "unknown shorthand flag: " ++ Text.quotedChar c ++ " in -" ++ letters
  | noValue arg => "flag needs an argument: " ++ arg
  | noLetterValue c letters =>
    "flag needs an argument: " ++ Text.quotedChar c ++ " in -" ++ letters
  | badValue value flag reason =>
    "invalid argument " ++ Text.quoted value ++ " for " ++ Text.quoted flag ++ " flag: " ++ reason

/-- What has been read of a command line: the flags that were given, and the arguments. -/
structure Given where
  flags : List (String × FlagValue) := []
  args : List String := []
deriving DecidableEq, Repr, Inhabited

namespace Given

/-- The value of a flag, when it was given. -/
def flag? (g : Given) (name : String) : Option FlagValue := g.flags.lookup name

def put (g : Given) (name : String) (v : FlagValue) : Given :=
  { g with flags := (name, v) :: g.flags.filter fun f => f.1 != name }

def addArgs (g : Given) (args : List String) : Given := { g with args := g.args ++ args }

/-- The text of a flag, or what it is by default. -/
def textOr (g : Given) (name default : String) : String :=
  match g.flag? name with
  | some (.text s) => s
  | _ => default

/-- Tests whether a switch is on. -/
def isOn (g : Given) (name : String) : Bool := g.flag? name = some (.truth true)

end Given

/-- The words for truth values. -/
def truthOf? (word : String) : Option Bool :=
  if ["1", "t", "T", "TRUE", "true", "True"].contains word then some true
  else if ["0", "f", "F", "FALSE", "false", "False"].contains word then some false
  else none

/-- Reads the value of a flag; `before` is the value that it was given before. -/
def FlagKind.read (kind : FlagKind) (before : Option FlagValue) (value : String) :
    Except String FlagValue :=
  match kind with
  | text => .ok (.text value)
  | whole =>
    match Numeral.integer 64 value.toList with
    | .ok i => .ok (.whole i)
    | .error e => .error (NumeralError.message ⟨"ParseInt", value, e⟩)
  | truth =>
    match truthOf? value with
    | some b => .ok (.truth b)
    | none => .error (NumeralError.message ⟨"ParseBool", value, .malformed⟩)
  | texts =>
    match if value = "" then .ok [] else Text.Record.parse value with
    | .error e => .error e.message
    | .ok xs =>
      match before with
      | some (.texts ys) => .ok (.texts (ys ++ xs))
      | _ => .ok (.texts xs)

/-- Gives a flag its value. -/
def Flag.assign (f : Flag) (value : String) (g : Given) : Except FlagError Given :=
  match f.kind.read (g.flag? f.name) value with
  | .ok v => .ok (g.put f.name v)
  | .error reason => .error (.badValue value f.text reason)

/-- The first byte of a text as a character; letters of flags are single bytes. -/
def leadByte (cs : List Char) : Char :=
  Char.ofNat ((String.ofList cs).toUTF8.toList.headD 0).toNat

/-- Reads letters that follow one dash; `next?` is the argument after them.  The result tells
whether that argument has been used. -/
def readLetters (flags : List Flag) (next? : Option String) (cs : List Char) (g : Given) :
    Except FlagError (Bool × Given) :=
  match cs with
  | [] => .ok (false, g)
  | c :: rest =>
    if "test.".toList.isPrefixOf cs then .ok (false, g)
    else
      match flags.find? fun f => f.letter? = some c with
      | none => .error (.unknownLetter (leadByte cs) (String.ofList cs))
      | some f =>
        match rest with
        | '=' :: v :: vs => (false, ·) <$> f.assign (String.ofList (v :: vs)) g
        | _ =>
          if f.isSwitch then
            match f.assign "true" g with
            | .error e => .error e
            | .ok g => readLetters flags next? rest g
          else if !rest.isEmpty then (false, ·) <$> f.assign (String.ofList rest) g
          else
            match next? with
            | some v => (true, ·) <$> f.assign v g
            | none => .error (.noLetterValue c (String.ofList cs))

/-- What a flag after two dashes asks for. -/
inductive LongFlag where
  /-- The flag has its value. -/
  | complete (f : Flag) (value : String)
  /-- The value is the next argument. -/
  | open (f : Flag)

/-- The text before the first equals sign, and the text after it. -/
def splitEquals (cs : List Char) : List Char × Option (List Char) :=
  match cs.dropWhile (· ≠ '=') with
  | [] => (cs, none)
  | _ :: value => (cs.takeWhile (· ≠ '='), some value)

/-- Takes a flag after two dashes apart. -/
def longFlag (flags : List Flag) (arg : String) : Except FlagError LongFlag :=
  match arg.toList.drop 2 with
  | [] | '-' :: _ | '=' :: _ => .error (.badForm arg)
  | cs =>
    let (name, value?) := splitEquals cs
    let name := String.ofList name
    match flags.find? fun f => f.name = name with
    | none => .error (.unknown name)
    | some f =>
      match value? with
      | some v => .ok (.complete f (String.ofList v))
      | none => .ok (if f.isSwitch then .complete f "true" else .open f)

/-- Reads the arguments of a command. -/
def readArgs (flags : List Flag) (g : Given) : List String → Except FlagError Given
  | [] => .ok g
  | s :: rest =>
    if s = "--" then .ok (g.addArgs rest)
    else
      match s.toList with
      | '-' :: '-' :: _ =>
        match longFlag flags s with
        | .error e => .error e
        | .ok (.complete f v) =>
          match f.assign v g with
          | .error e => .error e
          | .ok g => readArgs flags g rest
        | .ok (.open f) =>
          match rest with
          | [] => .error (.noValue s)
          | v :: rest =>
            match f.assign v g with
            | .error e => .error e
            | .ok g => readArgs flags g rest
      | '-' :: c :: cs =>
        match readLetters flags rest.head? (c :: cs) g with
        | .error e => .error e
        | .ok (used, g) =>
          match used, rest with
          | true, _ :: rest => readArgs flags g rest
          | _, rest => readArgs flags g rest
      | _ => readArgs flags (g.addArgs [s]) rest

/-! ### Finding the command

The command is the first argument that is neither a flag nor the value of one.  Which flags take
the next argument as their value is asked before they are read, so an unknown flag counts as one
that does. -/

/-- Tests whether the argument after this one is its value. -/
def takesNext (flags : List Flag) (s : String) : Bool :=
  let cs := s.toList
  if cs.contains '=' then false
  else
    match cs with
    | '-' :: '-' :: name => !flags.any fun f => f.isSwitch && f.name = String.ofList name
    | ['-', c] => c.utf8Size = 1 && !flags.any fun f => f.isSwitch && f.letter? = some c
    | _ => false

/-- The arguments that are neither flags nor their values. -/
def words (flags : List Flag) : List String → List String
  | [] => []
  | s :: rest =>
    if s = "--" then []
    else if takesNext flags s then
      match rest with
      | _ :: r :: rest => words flags (r :: rest)
      | _ => []
    else if s ≠ "" && !s.startsWith "-" then s :: words flags rest
    else words flags rest

/-- The arguments without the first one that is a given word. -/
def withoutWord (flags : List Flag) (word : String) : List String → List String
  | [] => []
  | s :: rest =>
    if s = "--" then s :: rest
    else if takesNext flags s then
      match rest with
      | [] => [s]
      | v :: rest => s :: v :: withoutWord flags word rest
    else if s = word then rest
    else s :: withoutWord flags word rest

end KernelForge.CommandLine
