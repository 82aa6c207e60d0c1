/-
Build options.

The device takes the usual options for mathematics without obeying them, and a language
version up to its own.  Versions are compared number by number; a version with a suffix for
pre-releases comes before the one without.
-/
import KernelForge.Text.Classes

namespace KernelForge

/-- A version: three numbers, kept as they are written, and the parts of a pre-release. -/
structure Version where
  numbers : List (List Char)
  pre : List (List Char)
deriving DecidableEq, Repr, Inhabited

namespace Version

/-- A number is digits without a leading zero. -/
def isNumber (cs : List Char) : Bool :=
  !cs.isEmpty && cs.all Char.isDigit && (cs.length = 1 || cs.head? ≠ some '0')

def isPartChar (c : Char) : Bool := c.isAlphanum || c = '-'

/-- Parts that points divide. -/
def dotted (cs : List Char) : List (List Char) := cs.splitOn '.'

/-- A part of a pre-release is not empty, and as a number it has no leading zero. -/
def isPrePart (cs : List Char) : Bool :=
  !cs.isEmpty && cs.all isPartChar && (!cs.all Char.isDigit || isNumber cs)

def isBuildPart (cs : List Char) : Bool := !cs.isEmpty && cs.all isPartChar

/-- The text before the first of some characters, and the text from it on. -/
def splitBefore (stops : List Char) (cs : List Char) : List Char × List Char :=
  (cs.takeWhile fun c => !stops.contains c, cs.dropWhile fun c => !stops.contains c)

/-- The parts of a pre-release that follow a hyphen, and what is left. -/
def prePart? (cs : List Char) : Option (List (List Char) × List Char) :=
  match cs with
  | '-' :: cs =>
    let (text, rest) := splitBefore ['+'] cs
    if (dotted text).all isPrePart then some (dotted text, rest) else none
  | cs => some ([], cs)

/-- What follows a plus sign is checked and dropped. -/
def isBuild (cs : List Char) : Bool :=
  match cs with
  | [] => true
  | '+' :: cs => (dotted cs).all isBuildPart
  | _ => false

/-- Reads a version.  Missing numbers at the end are zero, and only a version with all three
may have suffixes. -/
def parse? (cs : List Char) : Option Version :=
  let (head, tail) := splitBefore ['-', '+'] cs
  let numbers := dotted head
  if !numbers.all isNumber then none
  else
    match numbers with
    | [_, _, _] =>
      match prePart? tail with
      | some (pre, rest) => if isBuild rest then some ⟨numbers, pre⟩ else none
      | none => none
    | [_] | [_, _] =>
      if tail.isEmpty then some ⟨(numbers ++ [['0'], ['0']]).take 3, []⟩ else none
    | _ => none

/-- Compares texts by their characters. -/
def compareText : List Char → List Char → Ordering
  | [], [] => .eq
  | [], _ :: _ => .lt
  | _ :: _, [] => .gt
  | a :: as, b :: bs =>
    match compare a.toNat b.toNat with
    | .eq => compareText as bs
    | o => o

/-- Compares numbers as they are written: a longer one is greater. -/
def compareNumber (a b : List Char) : Ordering :=
  match compare a.length b.length with
  | .eq => compareText a b
  | o => o

def compareNumbers : List (List Char) → List (List Char) → Ordering
  | a :: as, b :: bs =>
    match compareNumber a b with
    | .eq => compareNumbers as bs
    | o => o
  | _, _ => .eq

/-- Compares parts of pre-releases: numbers come before words. -/
def comparePart (a b : List Char) : Ordering :=
  match a.all Char.isDigit, b.all Char.isDigit with
  | true, true => compareNumber a b
  | true, false => .lt
  | false, true => .gt
  | false, false => compareText a b

def compareParts : List (List Char) → List (List Char) → Ordering
  | [], [] => .eq
  | [], _ :: _ => .lt
  | _ :: _, [] => .gt
  | a :: as, b :: bs =>
    match comparePart a b with
    | .eq => compareParts as bs
    | o => o

/-- A version without a pre-release is the greater one. -/
def comparePre (a b : List (List Char)) : Ordering :=
  match a, b with
  | [], [] => .eq
  | [], _ => .gt
  | _, [] => .lt
  | a, b => compareParts a b

def cmp (a b : Version) : Ordering :=
  match compareNumbers a.numbers b.numbers with
  | .eq => comparePre a.pre b.pre
  | o => o

end Version

namespace Device

def platformName : String := "gonative"
def name : String := "Go host device"
def vendor : String := "gx-org"

/-- The version of the kernel language. -/
def version : String := "v1.2.0"

/-- The version of the kernel language, without its last number. -/
def shortVersion : String := "v1.2"

/-- The version as it is compared. -/
def languageVersion : Version := ⟨[['1'], ['2'], ['0']], []⟩

/-- The options that are taken without effect. -/
def ignoredOptions : List String :=
  ["-cl-fast-relaxed-math", "-cl-mad-enable", "-cl-no-signed-zeros",
    "-cl-unsafe-math-optimizations", "-cl-finite-math-only", "-cl-denorms-are-zero",
    "-cl-opt-disable", "-w"]

/-- The words of a list of options. -/
def optionWords (options : String) : List String :=
  ((options.toList.splitBy fun a b => Text.isBlank a == Text.isBlank b).filter
    fun w => !w.any Text.isBlank).map String.ofList

/-- What is wrong with an option. -/
def optionProblem? (option : String) : Option String :=
  if ignoredOptions.contains option then none
  else
    let stem := "-cl-std=CL".toList
    if !stem.isPrefixOf option.toList then some ("error: unsupported build option " ++ option)
    else
      match Version.parse? (option.toList.drop stem.length) with
      | none => some ("error: invalid value for -cl-std: " ++ option)
      | some v =>
        if v.cmp languageVersion = .gt then
          some ("error: " ++ option ++ " not supported by the device: kernel language version is " ++
            shortVersion)
        else none

/-- The log of what is wrong with some options; none if nothing is. -/
def optionLog? (options : String) : Option String :=
  match (optionWords options).filterMap optionProblem? with
  | [] => none
  | problems => some ("\n".intercalate problems ++ "\n")

end Device
end KernelForge
