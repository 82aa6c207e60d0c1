/-
The settings of the command.

Settings come from a YAML document.  Every key must be the name of a setting, and every value
must fit; all that does not is told at once, each with its line.  A setting whose value is
missing keeps its default.  A document of which nearly all comes from aliases is refused.
-/
import KernelForge.Fault
import KernelForge.Host.Memory
import KernelForge.Text.Encoded
import KernelForge.Text.Quoted
import KernelForge.Yaml.Node

namespace KernelForge.CommandLine

/-- How the command works. -/
structure Settings where
  /-- The options for the device compiler. -/
  buildOptions : List String := []
  /-- The number of programs that are kept in memory. -/
  cacheCapacity : Int := 64
  /-- The directory of the programs that are kept for good, or nothing. -/
  offlineCache : String := ""
  verbosity : Int := 0
deriving DecidableEq, Repr, Inhabited

namespace Settings

open Yaml

/-- What has been read of a document. -/
structure Reading where
  settings : Settings := {}
  /-- What does not fit. -/
  misfits : List String := []
  /-- The keys that a mapping being merged must leave alone. -/
  merged? : Option (List String) := none
  /-- The nodes that have a name. -/
  named : Array Node := #[]
  /-- The numbers of the nodes that are being merged through an alias. -/
  merging : List Nat := []
  /-- The number of aliases that are being followed. -/
  depth : Nat := 0
  /-- The number of nodes that have been visited. -/
  visited : Nat := 0
  /-- How many of them through an alias. -/
  aliased : Nat := 0
deriving Inhabited

abbrev Read := StateT Reading (Except DocumentError)

/-- The start of a text, of a given number of bytes; the bytes of a character that is cut are
replaced. -/
def cutAt (bytes : Nat) : List Char → List Char
  | [] => []
  | c :: cs =>
    if c.utf8Size ≤ bytes then c :: cutAt (bytes - c.utf8Size) cs
    else List.replicate bytes '\ufffd'

/-- A text in a message; long ones are cut. -/
def excerpt (text : String) : String :=
  if 10 < text.utf8ByteSize then " `" ++ String.ofList (cutAt 7 text.toList) ++ "...`"
  else " `" ++ text ++ "`"

def note (line : Nat) (text : String) : Read Unit := modify fun st =>
  { st with misfits := st.misfits ++ [s!"line {line}: " ++ text] }

/-- Notes that a node is not of a type. -/
def misfit (line : Nat) (tag text type : String) : Read Unit :=
  let shown := if tag = seqTag || tag = mapTag then "" else excerpt text
  note line ("cannot unmarshal " ++ tag ++ shown ++ " into " ++ type)

/-- What a scalar stands for, given its tag. -/
def resolve (tag text : String) : Except DocumentError Resolved :=
  if tag = binaryTag then
    match Text.Base64.decode? text with
    | some bytes => .ok (.text (SourceText.shown (.ofBytes bytes)))
    | none => .error (.general "!!binary value contains invalid base64 data")
  else if tag = strTag || !isResolvable tag then .ok (.text text)
  else
    let r := resolveWith (tag = dateTag) text
    if r.tag = tag then .ok r
    else
      match r with
      | .int i =>
        if tag = floatTag then .ok (.float (Binary64.ofInt i)) else .error (mixed r)
      | r => .error (mixed r)
where
  mixed (r : Resolved) : DocumentError :=
    .general ("cannot decode " ++ r.tag ++ " `" ++ text ++ "` as a " ++ tag)

/-- The nodes of keys that occur twice in a mapping are noted. -/
def noteTwice : List (Node × Node) → Read Bool
  | [] => return false
  | (k, _) :: entries => do
    let again := entries.filter fun (l, _) => sameKey k l
    for (l, _) in again do
      note l.line ("mapping key " ++ Text.quoted l.text ++ s!" already defined at line " ++
        toString k.line)
    let more ← noteTwice entries
    return !again.isEmpty || more
where
  sameKey : Node → Node → Bool
    | .scalar _ _ a, .scalar _ _ b => a = b
    | .reference _ a _, .reference _ b _ => a = b
    | .sequence _ _ _, .sequence _ _ _ => true
    | .mapping _ _ _, .mapping _ _ _ => true
    | _, _ => false

/-- Counts a node.  Of a large document no more than ninety-nine in a hundred may come from
aliases. -/
def visit : Read Unit := do
  let st ← get
  let visited := st.visited + 1
  let aliased := if st.depth = 0 then st.aliased else st.aliased + 1
  if 100 < aliased && 1000 < visited && 99 * visited < 100 * aliased then
    throw (.general "document contains excessive aliasing")
  else set { st with visited, aliased }

/-- Visits a node, or the node that an alias stands for. -/
def visiting {α : Type} (n : Node) (read : Node → Read α) : Read α := do
  visit
  match n with
  | .reference _ _ number =>
    modify fun st => { st with depth := st.depth + 1 }
    visit
    let a ← read ((← get).named.getD number default)
    modify fun st => { st with depth := st.depth - 1 }
    return a
  | n => read n

/-- Reads a scalar of a type: `fits` gives its value. -/
def scalarAs {α : Type} (type : String) (fits : Resolved → String → Option α) (n : Node) :
    Read (Option α) :=
  visiting n fun
  | .scalar line tag text => do
    match ← (resolve tag text : Except DocumentError Resolved) with
    | .null => return none
    | r =>
      match fits r text with
      | some a => return some a
      | none =>
        misfit line tag text type
        return none
  | .sequence line tag _ => do
    misfit line tag "" type
    return none
  | .mapping line tag entries => do
    if ← noteTwice entries then return none
    misfit line tag "" type
    return none
  | .reference _ _ _ => return none

/-- Whole numbers of 64 bits; a fraction is cut off. -/
def wholeOf (r : Resolved) (_ : String) : Option Int :=
  match r with
  | .int i => if i < 0x8000000000000000 then some i else none
  | .float x => if x.le (Binary64.ofInt 0x8000000000000000) then some x.toInt64.toInt else none
  | _ => none

def textOf (r : Resolved) (text : String) : Option String :=
  match r with
  | .text s => some s
  | _ => some text

def wholeAs (n : Node) : Read (Option Int) := scalarAs "int" wholeOf n

def textAs (n : Node) : Read (Option String) := scalarAs "string" textOf n

/-- Reads a sequence of texts; those that are missing are left out. -/
def textsAs (n : Node) : Read (Option (List String)) :=
  visiting n fun
  | .sequence _ _ items => some <$> items.filterMapM textAs
  | .scalar line tag text => do
    match ← (resolve tag text : Except DocumentError Resolved) with
    | .null => return some []
    | _ =>
      misfit line tag text "[]string"
      return none
  | .mapping line tag entries => do
    if !(← noteTwice entries) then misfit line tag "" "[]string"
    return none
  | .reference _ _ _ => return none

def change (f : Settings → Settings) : Read Unit := modify fun st =>
  { st with settings := f st.settings }

/-- Reads a setting; tells whether there is one of that name. -/
def readSetting (name : String) (n : Node) : Read Bool := do
  match name with
  | "build_options" =>
    if let some xs ← textsAs n then change ({ · with buildOptions := xs })
    return true
  | "cache_capacity" =>
    if let some i ← wholeAs n then change ({ · with cacheCapacity := i })
    return true
  | "offline_cache" =>
    if let some s ← textAs n then change ({ · with offlineCache := s })
    return true
  | "verbosity" =>
    if let some i ← wholeAs n then change ({ · with verbosity := i })
    return true
  | _ => return false

/-- The name of the settings as a whole in messages. -/
def typeName : String := "main.config"

/-- Tests for the key whose value is merged into the mapping around it. -/
def isMerge : Node → Bool
  | .scalar _ tag text => text = "<<" && tag = mergeTag
  | _ => false

/-- Reads the entries of a mapping; `done` are the settings that it has set already, and
`merged?` the keys to be left alone.  Gives the keys that are then to be left alone. -/
def readEntries (done : List String) (merged? : Option (List String)) :
    List (Node × Node) → Read (Option (List String))
  | [] => return merged?
  | (k, v) :: entries => do
    if isMerge k then readEntries done merged? entries
    else
      match ← textAs k with
      | none => readEntries done merged? entries
      | some name =>
        if merged?.any (·.contains name) then readEntries done merged? entries
        else
          let merged? := merged?.map (name :: ·)
          if done.contains name then
            note k.line ("field " ++ name ++ " already set in type " ++ typeName)
            readEntries done merged? entries
          else if ← readSetting name v then readEntries (name :: done) merged? entries
          else
            note k.line ("field " ++ name ++ " not found in type " ++ typeName)
            readEntries done merged? entries

/-- The keys of a mapping that are texts. -/
def textKeys (entries : List (Node × Node)) : Read (List String) :=
  entries.filterMapM fun (k, _) => visiting k fun
    | .scalar _ tag text => do
      match ← (resolve tag text : Except DocumentError Resolved) with
      | .text s => return some s
      | _ => return none
    | _ => return none

/-- Merges a mapping, or the one that an alias stands for; nothing else can be merged, nor what
is being merged already. -/
def mergeNode (readMapping : List (Node × Node) → Read Unit) (n : Node) : Read Unit := do
  let problem := DocumentError.general "map merge requires map or sequence of maps as the value"
  match n with
  | .mapping _ _ entries =>
    visit
    readMapping entries
  | .reference _ name number =>
    let st ← get
    match st.named.getD number default with
    | .mapping _ _ entries =>
      if st.merging.contains number then
        throw (.general s!"anchor '{name}' value contains itself")
      modify fun st => { st with merging := number :: st.merging }
      visiting n fun _ => readMapping entries
      modify fun st => { st with merging := st.merging.drop 1 }
    | _ => throw problem
  | _ => throw problem

/-- Reads a mapping, and then what is merged into it. -/
def readMapping (fuel : Nat) (entries : List (Node × Node)) : Read Unit :=
  match fuel with
  | 0 => return
  | fuel + 1 => do
    if ← noteTwice entries then return
    let merged? := (← get).merged?
    modify ({ · with merged? := none })
    let merged? ← readEntries [] merged? entries
    modify ({ · with merged? })
    match (entries.filter fun (k, _) => isMerge k).getLast? with
    | none => return
    | some (_, source) =>
      if merged?.isNone then
        let keys ← textKeys entries
        modify ({ · with merged? := some keys })
      match source with
      | .sequence _ _ items => for n in items do mergeNode (readMapping fuel) n
      | n => mergeNode (readMapping fuel) n
      if merged?.isNone then modify ({ · with merged? := none })

/-- Reads a document. -/
def readNode (fuel : Nat) (n : Node) : Read Unit := do
  visit
  match n with
  | .mapping _ _ entries =>
    visit
    readMapping fuel entries
  | n =>
    let _ ← scalarAs (α := Unit) typeName (fun _ _ => none) n

/-- The settings of a document. -/
def ofDocument (text : String) : Except String Settings :=
  match Yaml.parse text with
  | .error c => .error c.message
  | .ok none => .ok {}
  | .ok (some doc) =>
    let fuel := (text.length + 1) * (doc.named.size + 1)
    match (readNode fuel doc.root).run { named := doc.named } with
    | .error c => .error c.message
    | .ok (_, st) =>
      if st.misfits.isEmpty then .ok st.settings
      else .error ("yaml: unmarshal errors:\n  " ++ "\n  ".intercalate st.misfits)

/-- Reads settings; the cache must have room for a program. -/
def parse (text : String) : Except Fault Settings :=
  match ofDocument text with
  | .error problem => .error (.within "invalid configuration" (.plain problem))
  | .ok s =>
    if s.cacheCapacity ≤ 0 then
      .error (.plain ("invalid configuration: cache_capacity must be positive, got " ++
        toString s.cacheCapacity))
    else .ok s

end Settings
end KernelForge.CommandLine
