import RpcSchema.Generation

/-!
# Arguments

The arguments of the program: a command, the paths of its documents, and options
in any order among them.  The value of an option follows it or stands behind an
equals sign; a double dash ends the options.  An argument that begins with a dash
is never the value of the option before it.

Options are given once, but bundles and proxies may be given many times.

## Main definitions

* `OptionName`, `CommandName` — options, commands, and which go together.
* `scan` — the options and paths among arguments.
* `Invocation.ofArguments` — what the arguments ask for.
* `UsageFault` — what can be wrong with them.
-/

namespace RpcSchema

/-- An option. -/
inductive OptionName
  | schema
  | method
  | collapseUnions
  | profile
  | tuplesAsArrays
  | degradeTuples
  | event
  | noExpandEnums
  | inlineNamed
  | proxy
  | bundle
  | output
  | pretty
  deriving DecidableEq, Repr

/-- What an option takes. -/
inductive OptionValue
  | nothing
  | text
  | path
  deriving DecidableEq, Repr

namespace OptionName

/-- All options. -/
def all : List OptionName :=
  [.schema, .method, .collapseUnions, .profile, .tuplesAsArrays, .degradeTuples, .event,
    .noExpandEnums, .inlineNamed, .proxy, .bundle, .output, .pretty]

/-- The name of an option, after two dashes. -/
def name : OptionName → String
  | .schema => "schema"
  | .method => "method"
  | .collapseUnions => "collapse-unions"
  | .profile => "profile"
  | .tuplesAsArrays => "tuples-as-arrays"
  | .degradeTuples => "degrade-tuples"
  | .event => "event"
  | .noExpandEnums => "no-expand-enums"
  | .inlineNamed => "inline-named"
  | .proxy => "proxy"
  | .bundle => "bundle"
  | .output => "output"
  | .pretty => "pretty"

/-- What an option takes. -/
def value : OptionName → OptionValue
  | .schema => .text
  | .method => .text
  | .proxy => .text
  | .profile => .path
  | .bundle => .path
  | .output => .path
  | _ => .nothing

/-- Whether an option may be given many times. -/
def isRepeatable : OptionName → Bool
  | .proxy => true
  | .bundle => true
  | _ => false

end OptionName

/-- A command. -/
inductive CommandName
  | resolve
  | project
  | generate
  | localize
  deriving DecidableEq, Repr

namespace CommandName

/-- All commands. -/
def all : List CommandName := [.resolve, .project, .generate, .localize]

/-- The name of a command. -/
def name : CommandName → String
  | .resolve => "resolve"
  | .project => "project"
  | .generate => "generate"
  | .localize => "localize"

/-- The command of a name. -/
def ofName? (text : String) : Option CommandName := all.find? fun command => command.name = text

/-- Options of all commands. -/
def commonOptions : List OptionName := [.bundle, .output, .pretty]

/-- Options of the commands that work on one target. -/
def targetOptions : List OptionName := [.schema, .method]

/-- Options of the commands that project. -/
def projectionOptions : List OptionName :=
  [.profile, .tuplesAsArrays, .degradeTuples, .event, .noExpandEnums, .inlineNamed, .proxy]

/-- The options of a command. -/
def options : CommandName → List OptionName
  | .resolve => targetOptions ++ .collapseUnions :: commonOptions
  | .project => targetOptions ++ projectionOptions ++ commonOptions
  | .generate => projectionOptions ++ commonOptions
  | .localize => commonOptions

/-- Whether a command works on many documents. -/
def takesManyPaths : CommandName → Bool
  | .generate => true
  | _ => false

end CommandName

/-- What is wrong with arguments. -/
inductive UsageFault
  | noCommand
  | unknownArgument (text : String)
  /-- An option lacks its value. -/
  | missingValue (option : OptionName)
  /-- An option takes no value. -/
  | surplusValue (option : OptionName)
  | repeatedOption (option : OptionName)
  | emptyPath
  | missingDocument
  | surplusDocument (path : String)
  /-- The target is missing, or there are two. -/
  | target
  /-- A proxy is not of the form `PRIMITIVE=NAME`. -/
  | proxy (text : String)
  deriving DecidableEq, Repr

/-- The wording of a fault. -/
def UsageFault.message : UsageFault → String
  | .noCommand => "a command is required"
  | .unknownArgument text => "unexpected argument \"" ++ text ++ "\""
  | .missingValue option => "--" ++ option.name ++ " requires a value"
  | .surplusValue option => "--" ++ option.name ++ " takes no value"
  | .repeatedOption option => "--" ++ option.name ++ " cannot be given more than once"
  | .emptyPath => "a path cannot be empty"
  | .missingDocument => "a document is required"
  | .surplusDocument path => "only one document is allowed, got \"" ++ path ++ "\" as well"
  | .target => "exactly one of --schema and --method is required"
  | .proxy text => "expected PRIMITIVE=NAME, got \"" ++ text ++ "\""

/-! ### Values -/

/-- The text before the first equals sign, and the text behind it. -/
def splitAtEquals (argument : String) : String × Option String :=
  let cs := argument.toList
  match cs.takeWhile (· ≠ '='), cs.dropWhile (· ≠ '=') with
  | name, [] => (String.ofList name, none)
  | name, _ :: value => (String.ofList name, some (String.ofList value))

/-- The primitive type and the name of a proxy. -/
def readProxy (text : String) : Except UsageFault (Primitive × String) :=
  match splitAtEquals text with
  | (name, some proxy) =>
    match Primitive.ofName? name with
    | some p => .ok (p, proxy)
    | none => .error (.proxy text)
  | (_, none) => .error (.proxy text)

/-- Refuse an empty path, and a proxy that cannot be read. -/
def OptionName.check (option : OptionName) (value : String) : Except UsageFault Unit :=
  if option.value = .path && value = "" then .error .emptyPath
  else if option = .proxy then (readProxy value).map fun _ => ()
  else .ok ()

/-! ### Scanning -/

/-- Options with their values, and paths, in order. -/
structure Scanned where
  options : List (OptionName × String)
  paths : List String

namespace Scanned

/-- Nothing scanned. -/
def empty : Scanned := ⟨[], []⟩

/-- Whether an option is given. -/
def has (scanned : Scanned) (option : OptionName) : Bool :=
  scanned.options.any fun given => given.1 = option

/-- The values of an option. -/
def values (scanned : Scanned) (option : OptionName) : List String :=
  (scanned.options.filter fun given => given.1 = option).map Prod.snd

/-- The value of an option. -/
def value? (scanned : Scanned) (option : OptionName) : Option String :=
  (scanned.values option).head?

/-- Add an option behind those there are. -/
def addOption (scanned : Scanned) (option : OptionName) (value : String) :
    Except UsageFault Scanned :=
  if !option.isRepeatable && scanned.has option then .error (.repeatedOption option)
  else (option.check value).map fun _ =>
    { scanned with options := scanned.options ++ [(option, value)] }

/-- Add a path behind those there are. -/
def addPath (scanned : Scanned) (command : CommandName) (path : String) :
    Except UsageFault Scanned :=
  if path = "" then .error .emptyPath
  else if !command.takesManyPaths && !scanned.paths.isEmpty then .error (.surplusDocument path)
  else .ok { scanned with paths := scanned.paths ++ [path] }

end Scanned

/-- Whether an argument has the form of an option. -/
def isDashed (argument : String) : Bool :=
  match argument.toList with
  | '-' :: _ :: _ => true
  | _ => false

/-- Whether an argument asks for help, for which one letter of many suffices. -/
def asksForHelp (argument : String) : Bool :=
  argument = "--help" ||
    match argument.toList with
    | '-' :: 'h' :: _ => true
    | _ => false

/-- Scan the arguments of a command, from the first on, behind what is scanned;
nothing when they ask for help. -/
def scan (command : CommandName) (scanned : Scanned) :
    List String → Except UsageFault (Option Scanned)
  | [] => .ok (some scanned)
  | argument :: rest =>
    if argument = "--" then
      (rest.foldlM (fun (scanned : Scanned) path => scanned.addPath command path) scanned).map some
    else if asksForHelp argument then .ok none
    else if !isDashed argument then do
      scan command (← scanned.addPath command argument) rest
    else
      let (name, attached) := splitAtEquals argument
      match command.options.find? fun option => "--" ++ option.name = name with
      | none => .error (.unknownArgument argument)
      | some option =>
        match option.value, attached with
        | .nothing, some _ => .error (.surplusValue option)
        | .nothing, none => do scan command (← scanned.addOption option "") rest
        | _, some value => do scan command (← scanned.addOption option value) rest
        | _, none =>
          match rest with
          | [] => .error (.missingValue option)
          | value :: rest =>
            if isDashed value then .error (.missingValue option)
            else do scan command (← scanned.addOption option value) rest

/-! ### Commands -/

/-- What a command does. -/
inductive Action
  /-- Write the canonical schema of a target. -/
  | resolve (document : String) (target : RunTarget) (preserveUnions : Bool)
  /-- Write the projection of a target. -/
  | project (document : String) (target : RunTarget) (profile : Option String)
    (options : ProjectionOptions)
  /-- Write everything in some modules. -/
  | generate (documents : List String) (profile : Option String) (options : ProjectionOptions)
  /-- Write a document with the schemas it refers to. -/
  | localize (document : String)

/-- A command with its options. -/
structure Command where
  action : Action
  bundles : List String
  /-- The file to write to instead of standard output. -/
  output : Option String
  pretty : Bool

namespace Scanned

/-- The path of the document. -/
def document (scanned : Scanned) : Except UsageFault String :=
  match scanned.paths with
  | [] => .error .missingDocument
  | path :: _ => .ok path

/-- The paths, of which there is at least one. -/
def documents (scanned : Scanned) : Except UsageFault (List String) :=
  if scanned.paths.isEmpty then .error .missingDocument else .ok scanned.paths

/-- The target. -/
def target (scanned : Scanned) : Except UsageFault RunTarget :=
  match scanned.value? .schema, scanned.value? .method with
  | some name, none => .ok (.schema name)
  | none, some name => .ok (.method name)
  | _, _ => .error .target

/-- How to project. -/
def projection (scanned : Scanned) : Except UsageFault ProjectionOptions := do
  let proxies ← (scanned.values .proxy).mapM readProxy
  let options : ProjectionOptions :=
    { ProjectionOptions.standard with
      tuplesAsArrays := scanned.has .tuplesAsArrays
      degradeTuples := scanned.has .degradeTuples
      eventContext := scanned.has .event
      expandEnums := !scanned.has .noExpandEnums
      inlineNamed := scanned.has .inlineNamed }
  pure (proxies.foldl (fun options entry => options.withProxy entry.1 entry.2) options)

/-- What a command does. -/
def action (scanned : Scanned) : CommandName → Except UsageFault Action
  | .resolve => do
    let document ← scanned.document
    let target ← scanned.target
    pure (.resolve document target (!scanned.has .collapseUnions))
  | .project => do
    let document ← scanned.document
    let target ← scanned.target
    let options ← scanned.projection
    pure (.project document target (scanned.value? .profile) options)
  | .generate => do
    let documents ← scanned.documents
    let options ← scanned.projection
    pure (.generate documents (scanned.value? .profile) options)
  | .localize => do
    let document ← scanned.document
    pure (.localize document)

/-- The command. -/
def command (scanned : Scanned) (name : CommandName) : Except UsageFault Command := do
  let action ← scanned.action name
  pure ⟨action, scanned.values .bundle, scanned.value? .output, scanned.has .pretty⟩

end Scanned

/-- What arguments ask for. -/
inductive Invocation
  | help
  | version
  | run (command : Command)

/-- Whether there is help on a name: that of a command, or help itself. -/
def hasHelp (name : String) : Bool := name = "help" || (CommandName.ofName? name).isSome

/-- What the arguments ask for. -/
def Invocation.ofArguments : List String → Except UsageFault Invocation
  | [] => .error .noCommand
  | argument :: rest =>
    if asksForHelp argument then .ok .help
    else if argument = "--version" || "-V".isPrefixOf argument then .ok .version
    else if argument = "help" then
      match rest.find? fun name => !hasHelp name, rest with
      | some name, _ => .error (.unknownArgument name)
      | none, _ :: name :: _ => .error (.unknownArgument name)
      | none, _ => .ok .help
    else
      match CommandName.ofName? argument with
      | none => .error (.unknownArgument argument)
      | some name => do
        match ← scan name .empty rest with
        | some scanned => (scanned.command name).map .run
        | none => pure .help

end RpcSchema
