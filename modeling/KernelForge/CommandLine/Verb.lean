/-
The commands, their flags and their help.
-/
import KernelForge.CommandLine.Flag
import KernelForge.Text.Classes

namespace KernelForge.CommandLine

/-- The name of the program. -/
def programName : String := "clgen"

/-- What the program can be asked to do. -/
inductive Verb where
  /-- Nothing in particular. -/
  | root
  | run
  | source
  | version
  | help
  | completion
deriving DecidableEq, Repr, Inhabited

namespace Verb

def name : Verb → String
  | root => programName
  | run => "run"
  | source => "source"
  | version => "version"
  | help => "help"
  | completion => "completion"

/-- The verbs, in the order in which they are suggested. -/
def all : List Verb := [run, source, version, help, completion]

def ofName? (word : String) : Option Verb := all.find? fun v => v.name = word

/-- Tests whether a verb has an algorithm run. -/
def runsTask (v : Verb) : Bool := v = run || v = source

/-- A command in full. -/
def path (v : Verb) : String :=
  match v with
  | root => programName
  | v => programName ++ " " ++ v.name

/-- What a verb does, in one line. -/
def summary : Verb → String
  | root => "Generate and run kernels from expressions"
  | run => "Run an algorithm on the host device and print its result"
  | source => "Print the source of the kernels generated by an algorithm"
  | version => "Print the version of clgen and of the host device"
  | help => "Help about any command"
  | completion => "Generate the autocompletion script for the specified shell"

/-! ### Flags -/

/-- The flags of every verb. -/
def sharedFlags : List Flag :=
  [{ name := "config", usage := "YAML configuration file" },
    { name := "build-option", kind := .texts
      usage := "build option passed to the device compiler (repeatable)" },
    { name := "cache-capacity", kind := .whole, usage := "number of programs kept in memory" },
    { name := "offline-cache", usage := "directory of the persistent program cache" },
    { name := "verbosity", letter? := some 'v', kind := .whole, usage := "log verbosity" }]

def taskFlags : List Flag :=
  [{ name := "input", usage := "comma separated list of input values" },
    { name := "type", usage := "type of the input elements", default := "int" },
    { name := "expr", usage := "expression of the element _1 (transform, find_if)" },
    { name := "value", usage := "value searched by lower_bound" }]

def helpFlag (v : Verb) : Flag :=
  { name := "help", letter? := some 'h', kind := .truth, usage := "help for " ++ v.name }

/-- The flags that a verb has besides the shared ones. -/
def ownFlags (v : Verb) : List Flag :=
  match v with
  | run =>
    taskFlags ++ [{ name := "print-source", kind := .truth
                    usage := "print the source of the kernels before the result" }, helpFlag v]
  | source => taskFlags ++ [helpFlag v]
  | v => [helpFlag v]

def flags (v : Verb) : List Flag := v.ownFlags ++ sharedFlags

/-! ### Help -/

/-- What follows the name of a flag in its help. -/
def kindWord : FlagKind → String
  | .text => " string"
  | .whole => " int"
  | .truth => ""
  | .texts => " strings"

/-- A flag and its value as the help shows them. -/
def flagHead (f : Flag) : String :=
  (match f.letter? with
    | some c => "  -" ++ String.singleton c ++ ", --"
    | none => "      --") ++ f.name ++ kindWord f.kind

def flagTail (f : Flag) : String :=
  f.usage ++ if f.default = "" then "" else " (default " ++ Text.quoted f.default ++ ")"

def padded (width : Nat) (s : String) : String :=
  s ++ String.ofList (List.replicate (width - s.length) ' ')

/-- The help of some flags, in the order of their names. -/
def flagsHelp (fs : List Flag) : String :=
  let fs := fs.mergeSort fun a b => a.name ≤ b.name
  let width := (fs.map fun f => (flagHead f).length).foldl max 0
  String.join (fs.map fun f => padded width (flagHead f) ++ "   " ++ flagTail f ++ "\n")

/-- What a verb does, at length. -/
def description : Verb → String
  | help =>
    "Help provides help for any command in the application.\nSimply type " ++ programName ++
      " help [path to command] for full details."
  | completion =>
    "Generate the autocompletion script for " ++ programName ++ " for the specified shell.\n" ++
      "See each sub-command's help for details on how to use the generated script."
  | v => v.summary

/-- How a verb is used. -/
def useLine (v : Verb) : String :=
  match v with
  | root | completion => v.path ++ " [command]"
  | run | source => v.path ++ " ALGORITHM [flags]"
  | help => v.path ++ " [command] [flags]"
  | version => v.path ++ " [flags]"

/-- The shells that can complete command lines. -/
def shells : List String := ["bash", "fish", "powershell", "zsh"]

/-- The commands below a verb with what they do, in the order of their names. -/
def parts : Verb → List (String × String)
  | root => (all.mergeSort fun a b => a.name ≤ b.name).map fun v => (v.name, v.summary)
  | completion => shells.map fun s => (s, "Generate the autocompletion script for " ++ s)
  | _ => []

/-- The usage of a verb: its form, the commands below it, and its flags, `own` before those that
every verb has. -/
def usageText (v : Verb) (own : List Flag) : String :=
  let commands := if v.parts.isEmpty then "" else
    "\nAvailable Commands:\n" ++
      String.join (v.parts.map fun (n, s) => "  " ++ padded 11 n ++ " " ++ s ++ "\n")
  let flags := match v with
    | root => "\nFlags:\n" ++ flagsHelp (own ++ sharedFlags)
    | _ => "\nFlags:\n" ++ flagsHelp own ++ "\nGlobal Flags:\n" ++ flagsHelp sharedFlags
  let more := if v.parts.isEmpty then "" else
    "\nUse \"" ++ v.path ++ " [command] --help\" for more information about a command.\n"
  "Usage:\n  " ++ v.useLine ++ "\n" ++ commands ++ flags ++ more

/-- The help of a verb. -/
def helpText (v : Verb) : String := v.description ++ "\n\n" ++ v.usageText v.ownFlags

/-! ### Suggestions -/

/-- One row of the table of distances: `left` is the entry before the row. -/
def distanceRow (b : UInt8) : List UInt8 → Nat → List Nat → List Nat
  | a :: as, left, diagonal :: above :: rest =>
    let d := if a = b then diagonal else min (min above left) diagonal + 1
    d :: distanceRow b as d (above :: rest)
  | _, _, _ => []

/-- The number of bytes to insert, remove or replace to get from one text to another. -/
def editDistance (s t : String) : Nat :=
  let as := s.toUTF8.toList
  let start := List.range (as.length + 1)
  let last := t.toUTF8.toList.foldl
    (fun (row : List Nat) b =>
      let head := row.headD 0 + 1
      head :: distanceRow b as head row) start
  last.getLastD 0

/-- The verbs that a word may have been meant for. -/
def suggestions (word : String) : List Verb :=
  (all.filter (· ≠ help)).filter fun v =>
    editDistance (Text.lowercase word) v.name ≤ 2 ||
      (Text.lowercase word).toList.isPrefixOf v.name.toList

/-- The suggestions for a word, as they follow a message. -/
def suggestionText (word : String) : String :=
  match suggestions word with
  | [] => ""
  | vs => "\n\nDid you mean this?\n" ++ String.join (vs.map fun v => "\t" ++ v.name ++ "\n")

end Verb
end KernelForge.CommandLine
