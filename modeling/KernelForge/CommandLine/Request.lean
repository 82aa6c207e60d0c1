/-
Command lines.

A command line is first understood, and only then are its settings looked up and its task done.
Reading and keeping files is left to whoever runs the command, so the same rules hold wherever
the files are.
-/
import KernelForge.CommandLine.Task
import KernelForge.CommandLine.Verb

namespace KernelForge.CommandLine

/-- What a command has printed, and how it failed, if it did. -/
structure Report where
  output : String := ""
  fault? : Option Fault := none
deriving Repr, Inhabited

namespace Report

def failed (f : Fault) : Report := { fault? := some f }

def refused (text : String) : Report := failed (.plain text)

end Report

/-- What a command line asks for. -/
structure Request where
  verb : Verb
  given : Given
deriving Repr, Inhabited

/-- The verb of a command line and the arguments that are left for it. -/
def findVerb (args : List String) : Except String (Verb × List String) :=
  match words Verb.sharedFlags args with
  | [] => .ok (.root, args)
  | word :: _ =>
    match Verb.ofName? word with
    | some v => .ok (v, withoutWord Verb.sharedFlags word args)
    | none =>
      .error ("unknown command " ++ Text.quoted word ++ " for " ++ Text.quoted programName ++
        Verb.suggestionText word)

/-- Objects to arguments that a verb cannot use. -/
def checkArgs (v : Verb) (args : List String) : Except String Unit :=
  let known := ", ".intercalate algorithms
  match v with
  | .run | .source =>
    match args with
    | [a] =>
      if algorithms.contains a then .ok ()
      else .error ("unknown algorithm " ++ Text.quoted a ++ ": available algorithms are " ++ known)
    | _ => .error ("expected one algorithm among " ++ known)
  | .help => .ok ()
  | v =>
    match args with
    | [] => .ok ()
    | a :: _ => .error ("unknown command " ++ Text.quoted a ++ " for " ++ Text.quoted v.path)

/-- The help on a topic, which is a command line in itself. -/
def helpOn (topic : List String) : String :=
  match findVerb topic with
  | .ok (v, _) => v.helpText
  | .error _ =>
    "Unknown help topic [" ++ " ".intercalate (topic.map Text.literallyQuoted) ++ "]\n" ++
      Verb.root.usageText []

/-- Understands a command line, or reports what there is to say already. -/
def understand (args : List String) : Except Report Request :=
  match findVerb args with
  | .error text => .error (.refused text)
  | .ok (v, rest) =>
    match readArgs v.flags {} rest with
    | .error e => .error (.refused e.message)
    | .ok given =>
      if given.isOn "help" then .error { output := v.helpText }
      else
        match v with
        | .root | .completion => .error { output := v.helpText }
        | v =>
          match checkArgs v given.args with
          | .error text => .error (.refused text)
          | .ok () => .ok { verb := v, given }

namespace Request

/-- The path of the settings, or nothing. -/
def configPath (r : Request) : String := r.given.textOr "config" ""

/-- Settings with those that the command line gives. -/
def override (r : Request) (s : Settings) : Settings :=
  let options := match r.given.flag? "build-option" with
    | some (.texts xs) => xs
    | _ => s.buildOptions
  let wholeOr := fun (name : String) (i : Int) => match r.given.flag? name with
    | some (.whole j) => j
    | _ => i
  { buildOptions := options
    cacheCapacity := wholeOr "cache-capacity" s.cacheCapacity
    offlineCache := r.given.textOr "offline-cache" s.offlineCache
    verbosity := wholeOr "verbosity" s.verbosity }

/-- The settings of a request, given the text of the file that it names. -/
def settings (r : Request) (file? : Option (Except Fault String)) : Except Fault Settings := do
  let base ← match file? with
    | none => pure {}
    | some (.error f) => .error f
    | some (.ok text) =>
      match Settings.parse text with
      | .ok s => pure s
      | .error f => .error (.within ("cannot load " ++ r.configPath) f)
  let s := r.override base
  if s.cacheCapacity ≤ 0 then
    .error (.plain ("invalid cache capacity " ++ toString s.cacheCapacity))
  else return s

/-- The task of a request. -/
def task (r : Request) : Task :=
  { algorithm := r.given.args.headD ""
    input := r.given.textOr "input" ""
    elem := r.given.textOr "type" "int"
    formula := r.given.textOr "expr" ""
    value := r.given.textOr "value" "" }

/-- What the program says about itself. -/
def versionText : String :=
  programName ++ " (devel)\n" ++ Device.platformName ++ ": " ++ Device.name ++ " (" ++
    Device.vendor ++ "), kernel language " ++ Device.shortVersion ++ "\n"

/-- Does what is asked for.  Programs are kept in a store, if there is one. -/
def perform (r : Request) (s : Settings) (store? : Option BinaryStore) :
    Report × Option BinaryStore :=
  match r.verb with
  | .version => ({ output := versionText }, store?)
  | .help => ({ output := helpOn r.given.args }, store?)
  | verb =>
    let (result, m) := (r.task.run s).run { stores := store?.toArray }
    let trace := if verb = .source || r.given.isOn "print-source" then m.trace else ""
    let report : Report := match result with
      | .error f => { output := trace, fault? := some f }
      | .ok text => { output := if verb = .source then trace else trace ++ text ++ "\n" }
    (report, m.stores[0]?)

end Request

/-- The files that a command uses, wherever they are. -/
structure Files (m : Type → Type) where
  read : String → m (Except Fault String)
  /-- The programs that are kept in a directory. -/
  load : String → m BinaryStore
  keep : String → BinaryStore → m Unit

/-- Does what a command line asks for. -/
def execute {m : Type → Type} [Monad m] (files : Files m) (args : List String) : m Report := do
  match understand args with
  | .error report => return report
  | .ok r =>
    let file? ← if r.configPath = "" then pure none else some <$> files.read r.configPath
    match r.settings file? with
    | .error f => return .failed f
    | .ok s =>
      if s.offlineCache = "" || !r.verb.runsTask then return (r.perform s none).1
      else
        let (report, store?) := r.perform s (some (← files.load s.offlineCache))
        if let some store := store? then files.keep s.offlineCache store
        return report

end KernelForge.CommandLine
