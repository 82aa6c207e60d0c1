/-
YAML documents as trees.

A document is read as far as its end, and what follows it is left alone.  A tag that is not
written is that of the kind of node, or the one that a plain scalar resolves to.  Nodes that
have a name are numbered, and an alias holds the number of its node, which may be a node around
it.
-/
import KernelForge.Yaml.Resolve
import KernelForge.Yaml.Scan

namespace KernelForge.Yaml

/-- A node of a document, with the line that it starts in, counted from one. -/
inductive Node where
  | scalar (line : Nat) (tag : String) (text : String)
  | sequence (line : Nat) (tag : String) (items : List Node)
  | mapping (line : Nat) (tag : String) (entries : List (Node × Node))
  /-- An alias: the number of the node that bears the name. -/
  | reference (line : Nat) (name : String) (number : Nat)
deriving Repr, Inhabited

namespace Node

def line : Node → Nat
  | scalar line _ _ => line
  | sequence line _ _ => line
  | mapping line _ _ => line
  | reference line _ _ => line

/-- The text of a scalar or the name of an alias. -/
def text : Node → String
  | scalar _ _ text => text
  | reference _ name _ => name
  | _ => ""

end Node

/-- A document: its outermost node, and the nodes that have a name. -/
structure Document where
  root : Node
  named : Array Node := #[]
deriving Repr, Inhabited

/-! ### Reading

What comes before a node, and what has been named so far, is kept beside the scanner. -/

/-- The state of reading. -/
structure Reading where
  scanner : Scanner
  /-- The numbers of the nodes that have a name, the last one of that name first. -/
  anchors : List (String × Nat) := []
  /-- The nodes that have a name; those that are still being read are not filled in. -/
  named : Array Node := #[]
  /-- What the handles of tags stand for. -/
  handles : List (String × String) := []
deriving Inhabited

abbrev Read := StateT Reading (Except DocumentError)

namespace Read

/-- The next token. -/
def peek : Read Token := do
  let st ← get
  match st.scanner.peek with
  | .error e => throw e
  | .ok (t, scanner) =>
    set { st with scanner }
    return t

def skip : Read Unit := modify fun st => { st with scanner := st.scanner.skip }

def complain {α : Type} (context place : Mark) (problem : String) : Read α :=
  throw (.parse context place problem)

/-- Reads a node that may have a name, which is known inside it already. -/
def named (anchor? : Option String) (read : Read Node) : Read Node := do
  match anchor? with
  | none => read
  | some name =>
    let number := (← get).named.size
    modify fun st =>
      { st with anchors := (name, number) :: st.anchors, named := st.named.push default }
    let node ← read
    modify fun st => { st with named := st.named.setIfInBounds number node }
    return node

end Read

/-- A scalar that is not there. -/
def emptyScalar (mark : Mark) : Node := .scalar (mark.line + 1) nullTag ""

/-- The tag of a node, given what is written before it. -/
def tagOr (written : String) (default : String) : String :=
  if written = "" || written = "!" then default else shortTag written

/-- The tag of a scalar that has none before it. -/
def defaultTag (style : ScalarStyle) (text : String) : String :=
  match style with
  | .quoted => strTag
  | .plain => if text = "<<" then mergeTag else (resolvePlain text).tag

/-- What may come before a node. -/
structure Properties where
  start : Mark
  anchor? : Option String := none
  tag : String := ""

/-- The tag that a handle and a suffix stand for. -/
def resolveHandle (start place : Mark) (handle suffix : String) : Read String := do
  if handle = "" then return suffix
  match (← get).handles.lookup handle with
  | some head => return head ++ suffix
  | none => Read.complain start place "found undefined tag handle"

/-- Reads an anchor and a tag, in either order. -/
def readProperties : Read Properties := do
  let first ← Read.peek
  let start := first.start
  match first.kind with
  | .anchor name =>
    Read.skip
    let second ← Read.peek
    match second.kind with
    | .tag handle suffix =>
      Read.skip
      let _ ← Read.peek
      return { start, anchor? := some name, tag := ← resolveHandle start second.start handle suffix }
    | _ => return { start, anchor? := some name }
  | .tag handle suffix =>
    Read.skip
    let second ← Read.peek
    match second.kind with
    | .anchor name =>
      Read.skip
      let _ ← Read.peek
      return { start, anchor? := some name, tag := ← resolveHandle start first.start handle suffix }
    | _ => return { start, tag := ← resolveHandle start first.start handle suffix }
  | _ => return { start }

/-- What stands for a node where none starts: an empty scalar after an anchor or a tag. -/
def readEmpty (p : Properties) (token : Token) : Read Node := do
  if p.anchor?.isSome || p.tag ≠ "" then
    Read.named p.anchor? (return .scalar (p.start.line + 1) (tagOr p.tag nullTag) "")
  else
    Read.complain p.start token.start "did not find expected node content"

mutual

/-- Reads a node.  Blocks are allowed only if `block`, and entries without indentation only if
`indentless`. -/
def readNode (fuel : Nat) (block indentless : Bool) : Read Node :=
  match fuel with
  | 0 => throw (.general "the document is nested too deeply")
  | fuel + 1 => do
    let first ← Read.peek
    match first.kind with
    | .reference name =>
      Read.skip
      match (← get).anchors.lookup name with
      | some number => return .reference (first.start.line + 1) name number
      | none => throw (.general s!"unknown anchor '{name}' referenced")
    | _ =>
      let p ← readProperties
      let token ← Read.peek
      let line := p.start.line + 1
      let sequence := fun (read : Read (List Node)) =>
        Read.named p.anchor? (.sequence line (tagOr p.tag seqTag) <$> read)
      let mapping := fun (read : Read (List (Node × Node))) =>
        Read.named p.anchor? (.mapping line (tagOr p.tag mapTag) <$> read)
      match token.kind with
      | .blockEntry =>
        if indentless then sequence (readIndentless fuel)
        else readEmpty p token
      | .scalar text style =>
        Read.skip
        Read.named p.anchor? (return .scalar line (tagOr p.tag (defaultTag style text)) text)
      | .flowSequenceStart => Read.skip; sequence (readFlowSequence fuel token.start true)
      | .flowMappingStart => Read.skip; mapping (readFlowMapping fuel token.start true)
      | .blockSequenceStart =>
        if block then Read.skip; sequence (readBlockSequence fuel token.start)
        else readEmpty p token
      | .blockMappingStart =>
        if block then Read.skip; mapping (readBlockMapping fuel token.start)
        else readEmpty p token
      | _ => readEmpty p token

/-- Reads the entries of a block sequence that starts at a mark. -/
def readBlockSequence (fuel : Nat) (start : Mark) : Read (List Node) :=
  match fuel with
  | 0 => throw (.general "the document is nested too deeply")
  | fuel + 1 => do
    let token ← Read.peek
    match token.kind with
    | .blockEntry =>
      Read.skip
      let next ← Read.peek
      let item ← match next.kind with
        | .blockEntry | .blockEnd => pure (emptyScalar token.stop)
        | _ => readNode fuel true false
      return item :: (← readBlockSequence fuel start)
    | .blockEnd =>
      Read.skip
      return []
    | _ => Read.complain start token.start "did not find expected '-' indicator"

/-- Reads the entries of a sequence that is not indented. -/
def readIndentless (fuel : Nat) : Read (List Node) :=
  match fuel with
  | 0 => throw (.general "the document is nested too deeply")
  | fuel + 1 => do
    let token ← Read.peek
    match token.kind with
    | .blockEntry =>
      Read.skip
      let next ← Read.peek
      let item ← match next.kind with
        | .blockEntry | .key | .value | .blockEnd => pure (emptyScalar token.stop)
        | _ => readNode fuel true false
      return item :: (← readIndentless fuel)
    | _ => return []

/-- Reads the entries of a block mapping that starts at a mark. -/
def readBlockMapping (fuel : Nat) (start : Mark) : Read (List (Node × Node)) :=
  match fuel with
  | 0 => throw (.general "the document is nested too deeply")
  | fuel + 1 => do
    let token ← Read.peek
    match token.kind with
    | .key =>
      Read.skip
      let next ← Read.peek
      let key ← match next.kind with
        | .key | .value | .blockEnd => pure (emptyScalar token.stop)
        | _ => readNode fuel true true
      let value ← readBlockValue fuel
      return (key, value) :: (← readBlockMapping fuel start)
    | .blockEnd =>
      Read.skip
      return []
    | _ => Read.complain start token.start "did not find expected key"

/-- Reads the value of an entry of a block mapping. -/
def readBlockValue (fuel : Nat) : Read Node :=
  match fuel with
  | 0 => throw (.general "the document is nested too deeply")
  | fuel + 1 => do
    let token ← Read.peek
    match token.kind with
    | .value =>
      Read.skip
      let next ← Read.peek
      match next.kind with
      | .key | .value | .blockEnd => return emptyScalar token.stop
      | _ => readNode fuel true true
    | _ => return emptyScalar token.start

/-- Reads the items of a flow sequence that starts at a mark. -/
def readFlowSequence (fuel : Nat) (start : Mark) (first : Bool) : Read (List Node) :=
  match fuel with
  | 0 => throw (.general "the document is nested too deeply")
  | fuel + 1 => do
    let token ← Read.peek
    let item : Read (List Node) := do
      let token ← Read.peek
      match token.kind with
      | .key =>
        Read.skip
        let entry ← readFlowPair fuel
        let node := Node.mapping (token.start.line + 1) mapTag [entry]
        return node :: (← readFlowSequence fuel start false)
      | .flowSequenceEnd =>
        Read.skip
        return []
      | _ =>
        let node ← readNode fuel false false
        return node :: (← readFlowSequence fuel start false)
    match token.kind with
    | .flowSequenceEnd => item
    | .flowEntry =>
      if first then item
      else
        Read.skip
        item
    | _ =>
      if first then item
      else Read.complain start token.start "did not find expected ',' or ']'"

/-- Reads a single entry of a mapping as an item of a flow sequence. -/
def readFlowPair (fuel : Nat) : Read (Node × Node) :=
  match fuel with
  | 0 => throw (.general "the document is nested too deeply")
  | fuel + 1 => do
    let token ← Read.peek
    let key ← match token.kind with
      | .value | .flowEntry | .flowSequenceEnd =>
        Read.skip
        pure (emptyScalar token.stop)
      | _ => readNode fuel false false
    let token ← Read.peek
    match token.kind with
    | .value =>
      Read.skip
      let next ← Read.peek
      match next.kind with
      | .flowEntry | .flowSequenceEnd => return (key, emptyScalar next.start)
      | _ =>
        let value ← readNode fuel false false
        return (key, value)
    | _ => return (key, emptyScalar token.start)

/-- Reads the entries of a flow mapping that starts at a mark. -/
def readFlowMapping (fuel : Nat) (start : Mark) (first : Bool) : Read (List (Node × Node)) :=
  match fuel with
  | 0 => throw (.general "the document is nested too deeply")
  | fuel + 1 => do
    let token ← Read.peek
    let entry : Read (List (Node × Node)) := do
      let token ← Read.peek
      match token.kind with
      | .key =>
        Read.skip
        let next ← Read.peek
        let key ← match next.kind with
          | .value | .flowEntry | .flowMappingEnd => pure (emptyScalar next.start)
          | _ => readNode fuel false false
        let value ← readFlowValue fuel
        return (key, value) :: (← readFlowMapping fuel start false)
      | .flowMappingEnd =>
        Read.skip
        return []
      | _ =>
        let key ← readNode fuel false false
        let next ← Read.peek
        return (key, emptyScalar next.start) :: (← readFlowMapping fuel start false)
    match token.kind with
    | .flowMappingEnd => entry
    | .flowEntry =>
      if first then entry
      else
        Read.skip
        entry
    | _ =>
      if first then entry
      else Read.complain start token.start "did not find expected ',' or '\x7d'"

/-- Reads the value of an entry of a flow mapping. -/
def readFlowValue (fuel : Nat) : Read Node :=
  match fuel with
  | 0 => throw (.general "the document is nested too deeply")
  | fuel + 1 => do
    let token ← Read.peek
    match token.kind with
    | .value =>
      Read.skip
      let next ← Read.peek
      match next.kind with
      | .flowEntry | .flowMappingEnd => return emptyScalar next.start
      | _ => readNode fuel false false
    | _ => return emptyScalar token.start

end

/-! ### Documents -/

/-- What handles stand for when no directive says otherwise. -/
def standardHandles : List (String × String) := [("!", "!"), ("!!", longTagHead)]

/-- Reads the directives before a document; the version may be given once. -/
def readDirectives (fuel : Nat) (versioned : Bool) : Read Unit :=
  match fuel with
  | 0 => return
  | fuel + 1 => do
    let token ← Read.peek
    match token.kind with
    | .version major minor =>
      if versioned then Read.complain {} token.start "found duplicate %YAML directive"
      else if major ≠ 1 || minor ≠ 1 then
        Read.complain {} token.start "found incompatible YAML document"
      else
        Read.skip
        readDirectives fuel true
    | .tagDirective handle head =>
      if ((← get).handles.lookup handle).isSome then
        Read.complain {} token.start "found duplicate %TAG directive"
      else
        modify fun st => { st with handles := (handle, head) :: st.handles }
        Read.skip
        readDirectives fuel versioned
    | _ => modify fun st => { st with handles := st.handles ++ standardHandles }

/-- Reads the first document; there may be none. -/
def readDocument (fuel : Nat) : Read (Option Node) := do
  let _ ← Read.peek
  Read.skip
  let token ← Read.peek
  match token.kind with
  | .streamEnd => return none
  | .version _ _ | .tagDirective _ _ | .documentStart =>
    readDirectives fuel false
    let mark ← Read.peek
    if mark.kind ≠ .documentStart then
      Read.complain {} mark.start "did not find expected <document start>"
    else
      Read.skip
      let content ← Read.peek
      match content.kind with
      | .version _ _ | .tagDirective _ _ | .documentStart | .documentEnd | .streamEnd =>
        return some (emptyScalar content.start)
      | _ => finish
  | _ =>
    readDirectives fuel false
    finish
where
  finish : Read (Option Node) := do
    let node ← readNode fuel true false
    let _ ← Read.peek
    return some node

/-- Reads the first document of a text. -/
def parse (text : String) : Except DocumentError (Option Document) := do
  let scanner := Scanner.ofText text.toList
  let (root?, st) ← (readDocument (8 * text.length + 64)).run { scanner }
  return root?.map fun root => { root, named := st.named }

end KernelForge.Yaml
