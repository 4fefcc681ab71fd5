import RpcSchema.Proofs.Generation.Precedence
import RpcSchema.Proofs.Generation.Removal

/-!
# What a failure leaves behind

An item that fails is reported, and the others are generated all the same.  What it registered
before it failed stays registered, is declared, and keeps its name from others; and what it would
have been declared under stays reserved, in vain.  An item that fails before it registers anything
leaves nothing behind but its report: the module is generated as if the item were not there.

## Main results

* `generateModuleBy_without_failed` — a module without an item that failed and registered nothing.
* `failures_leave_traces` — what else may be left behind.
-/

namespace RpcSchema

/-- **A failure that registers nothing leaves no trace but its error.**  Without a method that
fails, declarations and methods are the same, if the references that the other schemas meet find
the same.  So they are without a named schema that fails, if the others do not refer to it, and
nothing else goes by its names: no schema of this or another module, and none that is registered. -/
theorem generateModuleBy_without_failed (findComponents : Nat → List (Nat × Nat) → List (List Nat))
    (document : Document) (store : Store) (profile : Profile) (options : ProjectionOptions) :
    let generate := fun document => generateModuleBy findComponents document store profile options
    let run := Run.forProfile document store profile
    (∀ (earlier later : List PlacedMethod) (placed : PlacedMethod) (failure : Failure),
      let other := document.withoutMethod earlier.length
      let reached := (run.resolveModule earlier).registry
      documentMethods document = .ok (earlier ++ placed :: later) →
      (run.resolveMethod placed).run.run reached = (.error failure, reached) →
      (∀ held ∈ heldSchemas document.named (earlier ++ later),
        store.FindsAlike document other held.1 held.2) →
      (generate other).declarations = (generate document).declarations ∧
        (generate other).methods = (generate document).methods) ∧
    (∀ (before after : List NamedNode) (entry : NamedNode) (failure : Failure),
      let other := document.withoutSchema entry.pointer
      let reached := (run.resolveItems run.registry before []).registry
      let resolution := (Run.forProfile other store profile).resolveModule (readableMethods other)
      document.root.DistinctNames →
      document.named = before ++ entry :: after →
      (run.resolveLocated entry).run.run reached = (.error failure, reached) →
      (∀ held ∈ heldSchemas (before ++ after) (readableMethods document),
        store.FindsAlike document other held.1 held.2 ∧
          ¬store.Mentions document held.1 held.2 entry.pointer) →
      (∀ name, entry.goesBy name = true →
        store.owner? name other = none ∧ name ∉ Fields.keys resolution.registry.entries) →
      (generate other).declarations = (generate document).declarations ∧
        (generate other).methods = (generate document).methods) := by
  intro generate run
  constructor
  · intro earlier later placed failure other reached hmethods hfails hfinds
    have halike := resolveModule_withoutMethod hmethods hfails fun held hheld =>
      twins_withoutMethod (hfinds held hheld)
    exact generateModuleBy_alike halike (agrees_withoutMethod earlier.length)
  · intro before after entry failure other reached resolution hnames hnamed hfails hothers hfree
    -- The methods stay where they are, so only the named schemas have to be told apart.
    have hread : readableMethods other = readableMethods document := by
      rw [readableMethods, readableMethods, documentMethods, documentMethods,
        Document.methods_withoutSchema]
    have hunowned := fun name hname => (hfree name hname).1
    have halike := resolveModule_withoutSchema hnames hnamed hfails
      (fun held hheld => twins_withoutSchema hnames hnamed hunowned (hothers held hheld).1
        (hothers held hheld).2) fun name hname => hread ▸ (hfree name hname).2
    refine generateModuleBy_alike ?_ (agrees_withoutSchema hnames hnamed hunowned)
    rwa [hread]

/-! ### Schemas that fail and schemas that do not -/

/-- A schema without a name. -/
def optionsNode : Json := .object [("properties", .object [("fast", .bool true)])]

/-- What it is read as. -/
def optionsSchema : Schema :=
  ⟨none, none, .object ⟨[("fast", .ofKind .empty)], [], .unstated, [], none⟩, []⟩

/-- A schema of texts, with a title. -/
def nicknameNode : Json := .object [("title", .string "Nickname"), ("type", .string "string")]

/-- What it is read as. -/
def nicknameSchema : Schema := ⟨some "Nickname", none, .primitive .string, []⟩

/-- A schema of texts that are numbers, with a title. -/
def conflictNode (title : String) : Json := .object [("title", .string title), ("allOf", .array
  [.object [("type", .string "string")], .object [("type", .string "integer")]])]

/-- What it is read as. -/
def conflictSchema (title : String) : Schema :=
  ⟨some title, none, .allOf [.ofKind (.primitive .string), .ofKind (.primitive .integer)], []⟩

section Reading

variable {run : Run}

theorem parsed_optionsNode (pointer : String) :
    run.parsed optionsNode pointer = .ok optionsSchema := by
  have hrun : run.store.dereferenceAt .standard optionsNode run.document pointer
      = .ok ⟨optionsNode, [], []⟩ := by
    refine dereferenceAt_eq_ok_iff.mpr ⟨optionsNode, .empty, ?_, by rfl⟩
    exact .object rfl (.member rfl (.object rfl (.member rfl (.scalar rfl rfl) .nil)) .nil)
  refine Run.parsed_eq_ok_iff.mpr ⟨_, hrun, ?_⟩
  simp [optionsNode, Schema.ofJson, Schema.read, Schema.readBody, Schema.readPartsAt,
    Schema.readObject, Schema.readFieldsAt, Schema.readFields, Schema.readAdditional, takenText,
    describesObject, describesArray, typeName?]
  rfl

theorem ofJson_nicknameNode (pointer : String) :
    Schema.ofJson nicknameNode pointer = .ok nicknameSchema := by
  simp [nicknameNode, Schema.ofJson, Schema.read, Schema.readBody, Schema.readPartsAt,
    Schema.readObject, Schema.readFieldsAt, Schema.readAdditional, takenText, describesObject,
    describesArray, typeName?]
  rfl

theorem parsed_nicknameNode (pointer : String) :
    run.parsed nicknameNode pointer = .ok nicknameSchema := by
  have hrun : run.store.dereferenceAt .standard nicknameNode run.document pointer
      = .ok ⟨nicknameNode, [], []⟩ := by
    refine dereferenceAt_eq_ok_iff.mpr ⟨nicknameNode, .empty, ?_, by rfl⟩
    exact .object rfl (.member rfl (.scalar rfl rfl) (.member rfl (.scalar rfl rfl) .nil))
  exact Run.parsed_eq_ok_iff.mpr ⟨_, hrun, ofJson_nicknameNode _⟩

theorem parsed_conflictNode (title pointer : String) :
    run.parsed (conflictNode title) pointer = .ok (conflictSchema title) := by
  have hpart : ∀ (frame : Frame) (type : String),
      Walks ⟨run.store, .standard⟩ frame (.object [("type", .string type)]) .empty
        (.object [("type", .string type)]) .empty := fun _ _ =>
    .object rfl (.member rfl (.scalar rfl rfl) .nil)
  have hrun : run.store.dereferenceAt .standard (conflictNode title) run.document pointer
      = .ok ⟨conflictNode title, [], []⟩ := by
    refine dereferenceAt_eq_ok_iff.mpr ⟨conflictNode title, .empty, ?_, by rfl⟩
    exact .object rfl (.member rfl (.scalar rfl rfl)
      (.member rfl (.array (.item (hpart _ _) (.item (hpart _ _) .nil))) .nil))
  refine Run.parsed_eq_ok_iff.mpr ⟨_, hrun, ?_⟩
  simp [conflictNode, Schema.ofJson, Schema.read, Schema.readBody, Schema.readPartsAt,
    Schema.readObject, Schema.readFieldsAt, Schema.readItems, Schema.readAdditional, takenText,
    describesObject, describesArray, typeName?]
  rfl

/-- A reference that finds nothing cannot be read. -/
theorem Run.exists_parsed_error {fields : Fields Json} {reference : String}
    (hmade : referenceOf? fields = some reference)
    (hnone : run.store.locate? reference run.document.asContext = none) (pointer : String) :
    ∃ failure, run.parsed (.object fields) pointer = .error failure := by
  cases hparsed : run.parsed (.object fields) pointer with
  | error failure => exact ⟨failure, rfl⟩
  | ok schema =>
    obtain ⟨result, hresult, -⟩ := Run.parsed_eq_ok_iff.mp hparsed
    obtain ⟨walked, log, hwalks, -⟩ := dereferenceAt_eq_ok_iff.mp hresult
    have hunfound : ∀ {reference' : String} {target : Target},
        ¬RefersTo run.store run.document.asContext fields reference' target := by
      intro reference' target href
      obtain rfl := Option.some.inj (hmade.symm.trans href.made)
      exact Option.some_ne_none _ (href.found.symm.trans hnone)
    -- Every rule for an object with a reference asks for its target.
    cases hwalks with
    | scalar hobject => cases hobject
    | object hplain => exact absurd (hmade.symm.trans hplain) (Option.some_ne_none _)
    | keep href | copied href | copy href | leave href | inline href => exact absurd href hunfound

/-- A reference that finds nothing. -/
def danglingNode : Json := .object [("$ref", .string "#/gone")]

theorem parsed_danglingNode (run : Run)
    (hgone : run.store.locate? "#/gone" run.document.asContext = none) (pointer : String) :
    ∃ failure, run.parsed danglingNode pointer = .error failure :=
  Run.exists_parsed_error rfl hgone pointer

/-- A conflict is found before anything is registered. -/
theorem resolveLocated_conflictNode (name pointer title : String) (registry : Registry) :
    ∃ failure, (run.resolveLocated ⟨name, pointer, conflictNode title⟩).run.run registry
      = (.error failure, registry) := by
  simp only [Run.resolveLocated, Run.resolveNamed, Run.canonical, parsed_conflictNode]
  exact ⟨_, rfl⟩

end Reading

/-! ### Modules without a trace of failures -/

/-- A parameter or result, as it is written. -/
def descriptorNode (name : String) (schema : Json) : Json :=
  .object [("name", .string name), ("schema", schema)]

/-- A method with a result that refers to nothing. -/
def putMethod : PlacedMethod :=
  ⟨0, ⟨"put", none, [], some ⟨"done", false, none, danglingNode⟩, []⟩⟩

/-- A method that returns a pet. -/
def getMethod : PlacedMethod := ⟨1, ⟨"get", none, [], some ⟨"pet", false, none,
  .object [("$ref", .string "#/definitions/Pet")]⟩, []⟩⟩

/-- The owner and the pet, and the two methods. -/
def danglingDocument : Document := ⟨none, "Pets", .object [
  ("definitions", .object [("Owner", ownerNode), ("Pet", petNode)]),
  ("methods", .array [
    .object [("name", .string "put"), ("result", descriptorNode "done" danglingNode)],
    .object [("name", .string "get"), ("result", descriptorNode "pet"
      (.object [("$ref", .string "#/definitions/Pet")]))]])]⟩

/-- A named schema that nothing satisfies. -/
def conflictEntry : NamedNode := ⟨"Conflict", "#/definitions/Conflict", conflictNode "Conflict"⟩

/-- The owner and the pet, and the schema that nothing satisfies. -/
def conflictDocument : Document := ⟨none, "Pets", .object [("definitions", .object
  [("Owner", ownerNode), ("Pet", petNode), ("Conflict", conflictNode "Conflict")])]⟩

theorem resolveLocated_conflictEntry (registry : Registry) :
    ∃ failure, ((Run.forProfile conflictDocument .empty .typescript).resolveLocated
      conflictEntry).run.run registry = (.error failure, registry) :=
  resolveLocated_conflictNode _ _ _ registry

/-- A method without parameters whose result cannot be read fails before anything is
registered. -/
theorem resolveMethod_putMethod (registry : Registry) :
    ∃ failure, ((Run.forProfile danglingDocument .empty .typescript).resolveMethod
      putMethod).run.run registry = (.error failure, registry) := by
  choose failure hdone using
    parsed_danglingNode (Run.forProfile danglingDocument .empty .typescript) rfl
  refine ⟨failure putMethod.resultPointer, ?_⟩
  simp only [Run.resolveMethod, putMethod, Run.resolveParams, Option.mapM_some,
    Run.resolveDescriptor, Run.canonical, hdone]
  rfl

/-- Without the method that fails the other one is the first, and without the schema that fails
the owner and the pet are left. -/
theorem generateModuleBy_without_failed_owners :
    let run := fun document => Run.forProfile document .empty .typescript
    let generate := fun document => generateModule document .empty .typescript .standard
    let other := danglingDocument.withoutMethod 0
    let started := ((run danglingDocument).resolveModule []).registry
    let reached := ((run conflictDocument).resolveItems (run conflictDocument).registry
      ownersDocument.named []).registry
    (documentMethods danglingDocument = .ok [putMethod, getMethod] ∧
      (∃ failure, ((run danglingDocument).resolveMethod putMethod).run.run started
        = (.error failure, started)) ∧
      (∀ held ∈ heldSchemas danglingDocument.named [getMethod],
        Store.empty.FindsAlike danglingDocument other held.1 held.2) ∧
      (generate other).declarations = (generate danglingDocument).declarations ∧
      (generate other).methods = (generate danglingDocument).methods) ∧
    conflictDocument.root.DistinctNames ∧
      conflictDocument.withoutSchema conflictEntry.pointer = ownersDocument ∧
      conflictDocument.named = ownersDocument.named ++ [conflictEntry] ∧
      (∃ failure, ((run conflictDocument).resolveLocated conflictEntry).run.run reached
        = (.error failure, reached)) ∧
      (∀ held ∈ heldSchemas ownersDocument.named [],
        Store.empty.FindsAlike conflictDocument ownersDocument held.1 held.2 ∧
          ¬Store.empty.Mentions conflictDocument held.1 held.2 conflictEntry.pointer) ∧
      (∀ name, conflictEntry.goesBy name = true → Store.empty.owner? name ownersDocument = none ∧
        name ∉ Fields.keys ((run ownersDocument).resolveModule []).registry.entries) ∧
      (generate ownersDocument).declarations = (generate conflictDocument).declarations ∧
      (generate ownersDocument).methods = (generate conflictDocument).methods := by
  dsimp only
  constructor
  · have hmethods : documentMethods danglingDocument = .ok ([] ++ putMethod :: [getMethod]) :=
      rfl
    obtain ⟨failure, hfails⟩ := resolveMethod_putMethod
      ((Run.forProfile danglingDocument .empty .typescript).resolveModule []).registry
    -- Not only the references that are met, but all that are written anywhere find the same.
    have hwritten : ∀ held ∈ heldSchemas danglingDocument.named [getMethod],
        ∀ entry ∈ Store.empty.written danglingDocument.asContext held.1,
          Reference.fragment entry.2 = "#" ∨
            (Store.empty.lookup entry.2 (danglingDocument.withoutMethod 0).asContext).map Prod.snd
              = (Store.empty.lookup entry.2 danglingDocument.asContext).map Prod.snd := by
      decide +kernel
    have hfinds : ∀ held ∈ heldSchemas danglingDocument.named [getMethod],
        Store.empty.FindsAlike danglingDocument (danglingDocument.withoutMethod 0) held.1 held.2 :=
      fun held hheld => Store.findsAlike_of_written _ (hwritten held hheld)
    have houtputs := (generateModuleBy_without_failed Order.stronglyConnected danglingDocument
      .empty .typescript .standard).1 [] [getMethod] putMethod failure hmethods
    dsimp only at houtputs
    exact ⟨hmethods, ⟨failure, hfails⟩, hfinds, houtputs hfails hfinds⟩
  · have hnames : conflictDocument.root.DistinctNames := by decide
    have hleft : conflictDocument.withoutSchema conflictEntry.pointer = ownersDocument := rfl
    have hnamed : conflictDocument.named = ownersDocument.named ++ [conflictEntry] := rfl
    obtain ⟨failure, hfails⟩ := resolveLocated_conflictEntry
      ((Run.forProfile conflictDocument .empty .typescript).resolveItems
        (Run.forProfile conflictDocument .empty .typescript).registry
        ownersDocument.named []).registry
    have hwritten : ∀ held ∈ heldSchemas ownersDocument.named [],
        ∀ entry ∈ Store.empty.written conflictDocument.asContext held.1,
          Reference.fragment entry.2 = "#" ∨
            (Store.empty.lookup entry.2 ownersDocument.asContext).map Prod.snd
              = (Store.empty.lookup entry.2 conflictDocument.asContext).map Prod.snd := by
      decide +kernel
    have hunmentioned : ∀ held ∈ heldSchemas ownersDocument.named [],
        ∀ entry ∈ Store.empty.written conflictDocument.asContext held.1,
          Store.empty.canonical? .context entry ≠ some conflictEntry.pointer := by
      decide
    have hothers : ∀ held ∈ heldSchemas ownersDocument.named [],
        Store.empty.FindsAlike conflictDocument ownersDocument held.1 held.2 ∧
          ¬Store.empty.Mentions conflictDocument held.1 held.2 conflictEntry.pointer :=
      fun held hheld => ⟨Store.findsAlike_of_written _ (hwritten held hheld),
        Store.not_mentions_of_written _ (hunmentioned held hheld)⟩
    have hfree : ∀ name, conflictEntry.goesBy name = true →
        Store.empty.owner? name ownersDocument = none ∧
          name ∉ Fields.keys ((Run.forProfile ownersDocument .empty .typescript).resolveModule
            []).registry.entries := by
      intro name hgoes
      have hname : name = "Conflict" := by
        simpa [NamedNode.goesBy, conflictEntry, conflictNode, Json.stringField?, Json.field?,
          Json.object?, Json.string?, eq_comm] using hgoes
      subst hname
      refine ⟨by rfl, ?_⟩
      rw [resolveModule_ownersDocument]
      exact List.not_mem_nil
    have houtputs := (generateModuleBy_without_failed Order.stronglyConnected conflictDocument
      .empty .typescript .standard).2 ownersDocument.named [] conflictEntry failure hnames hnamed
    have hread : readableMethods conflictDocument = [] := rfl
    have hread' : readableMethods ownersDocument = [] := rfl
    dsimp only at houtputs
    rw [hleft, List.append_nil, hread, hread'] at houtputs
    exact ⟨hnames, hleft, hnamed, ⟨failure, hfails⟩, hothers, hfree, houtputs hfails hothers hfree⟩

/-! ### Traces of failures -/

section Traces

variable {document : Document} {methods : List PlacedMethod}

/-- The names of what is declared. -/
def declaredNames (document : Document) : List String :=
  (generateModule document .empty .typescript .standard).declarations.map Declaration.name

/-- The types of the results of methods. -/
def resultTypes (document : Document) : List (Option String) :=
  (generateModule document .empty .typescript .standard).methods.map fun method =>
    method.result.map ProjectedParam.typeRef

/-- The names of the schemas that can be declared, wherever these stand. -/
theorem declaredNames_eq {named : List NamedSchema} (hread : readableMethods document = methods)
    (hnamed : ((Run.forProfile document .empty .typescript).resolveModule methods).named = named) :
    declaredNames document = ((orderBy Order.stronglyConnected named).filterMap fun named =>
      ((Projector.atRoot document .empty .typescript .standard).declare named).toOption).map
        Declaration.name := by
  have hsame := Projector.Agrees.refl (Projector.atRoot document .empty .typescript .standard)
  rw [declaredNames, generateModule, declarations_eq, hread, hnamed]
  refine congrArg _ (List.filterMap_congr fun named _ => ?_)
  exact (hsame.atPath "#" _).toOption_declare named

/-- A method whose second parameter fails, when the first one has been registered. -/
def hastyMethod : PlacedMethod := ⟨0, ⟨"setup", none, [⟨"options", false, none, optionsNode⟩,
  ⟨"mode", false, none, danglingNode⟩], none, []⟩⟩

/-- A document with that method. -/
def hastyDocument : Document := ⟨none, "Setup", .object [
  ("info", .object [("title", .string "Setup")]),
  ("methods", .array [.object [("name", .string "setup"),
    ("params", .array [descriptorNode "options" optionsNode,
      descriptorNode "mode" danglingNode])]])]⟩

theorem resolveModule_hastyDocument : ∃ failure,
    (Run.forProfile hastyDocument .empty .typescript).resolveModule [hastyMethod] =
      ⟨⟨[], []⟩, ⟨[], [.ofFailure failure (some "setup")]⟩,
        ⟨[("SetupOptions", optionsSchema.withTitle "SetupOptions")], []⟩⟩ := by
  choose failure hmode using
    parsed_danglingNode (Run.forProfile hastyDocument .empty .typescript) rfl
  refine ⟨failure (hastyMethod.paramPointer 1), ?_⟩
  have hnamed : (Run.forProfile hastyDocument .empty .typescript).document.named = [] := rfl
  rw [Run.resolveModule, hnamed]
  simp only [resolveEach, Run.resolveMethod, hastyMethod, Run.resolveParams,
    Run.resolveDescriptor, Run.canonical, parsed_optionsNode, hmode]
  rfl

/-- A method that fails, although its parameter can be referred to. -/
def lendingMethod : PlacedMethod := ⟨0, ⟨"name", none, [⟨"nickname", false, none, nicknameNode⟩],
  some ⟨"done", false, none, danglingNode⟩, []⟩⟩

/-- A reference to the parameter. -/
def borrowedNode : Json := .object [("title", .string "Nickname"),
  ("$ref", .string "#/methods/0/params/0/schema")]

/-- A document with that method, and a schema that refers to its parameter. -/
def lendingDocument : Document := ⟨none, "Names", .object [
  ("info", .object [("title", .string "Names")]),
  ("definitions", .object [("Nickname", borrowedNode)]),
  ("methods", .array [.object [("name", .string "name"),
    ("params", .array [descriptorNode "nickname" nicknameNode]),
    ("result", descriptorNode "done" danglingNode)]])]⟩

theorem parsed_borrowedNode : (Run.forProfile lendingDocument .empty .typescript).parsed
    borrowedNode "#/definitions/Nickname" = .ok nicknameSchema := by
  have hrun := @eq_ok_of_toOption
    (Store.empty.dereferenceAt .standard borrowedNode lendingDocument "#/definitions/Nickname")
    ⟨nicknameNode, [], []⟩ (by decide +kernel)
  exact Run.parsed_eq_ok_iff.mpr ⟨_, hrun, ofJson_nicknameNode _⟩

theorem resolveModule_lendingDocument : ∃ failure,
    (Run.forProfile lendingDocument .empty .typescript).resolveModule [lendingMethod] =
      ⟨⟨[⟨"#/definitions/Nickname", ⟨"Nickname", nicknameSchema, []⟩⟩], []⟩,
        ⟨[], [.ofFailure failure (some "name")]⟩, ⟨[], ["Nickname", "Nickname"]⟩⟩ := by
  choose failure hdone using
    parsed_danglingNode (Run.forProfile lendingDocument .empty .typescript) rfl
  refine ⟨failure lendingMethod.resultPointer, ?_⟩
  have hnamed : (Run.forProfile lendingDocument .empty .typescript).document.named
      = [⟨"Nickname", "#/definitions/Nickname", borrowedNode⟩] := rfl
  rw [Run.resolveModule, hnamed]
  simp only [resolveEach, Run.resolveLocated, Run.resolveNamed, Run.resolveMethod, lendingMethod,
    Run.resolveParams, Option.mapM_some, Run.resolveDescriptor, Run.canonical,
    parsed_borrowedNode, parsed_nicknameNode, hdone]
  rfl

/-- Without the method there is nothing to refer to. -/
theorem named_lendingDocument_withoutMethod :
    ((Run.forProfile (lendingDocument.withoutMethod 0) .empty .typescript).resolveModule []).named
      = [] := by
  have hnamed : (Run.forProfile (lendingDocument.withoutMethod 0) .empty .typescript).document.named
      = [⟨"Nickname", "#/definitions/Nickname", borrowedNode⟩] := rfl
  have hnone : Store.empty.locate? "#/methods/0/params/0/schema"
      (lendingDocument.withoutMethod 0).asContext = none := rfl
  obtain ⟨failure, hfails⟩ : ∃ failure, (Run.forProfile (lendingDocument.withoutMethod 0) .empty
      .typescript).parsed borrowedNode "#/definitions/Nickname" = .error failure :=
    Run.exists_parsed_error rfl hnone _
  rw [Run.resolveModule, hnamed]
  simp only [resolveEach, Run.resolveLocated, Run.resolveNamed, Run.canonical, hfails]
  rfl

/-- A method that registers the schema of its parameter. -/
def setupMethod : PlacedMethod :=
  ⟨0, ⟨"setup", none, [⟨"options", false, none, optionsNode⟩], none, []⟩⟩

/-- A schema that fails, of the name under which the parameter would be registered. -/
def squattingEntry : NamedNode :=
  ⟨"SetupOptions", "#/definitions/SetupOptions", conflictNode "SetupOptions"⟩

/-- A document with the two. -/
def squattingDocument : Document := ⟨none, "Setup", .object [
  ("info", .object [("title", .string "Setup")]),
  ("definitions", .object [("SetupOptions", conflictNode "SetupOptions")]),
  ("methods", .array [.object [("name", .string "setup"),
    ("params", .array [descriptorNode "options" optionsNode])]])]⟩

theorem named_squattingDocument :
    ((Run.forProfile squattingDocument .empty .typescript).resolveModule [setupMethod]).named
      = [⟨"SetupOptions2", optionsSchema.withTitle "SetupOptions2", []⟩] := by
  have hnamed : (Run.forProfile squattingDocument .empty .typescript).document.named
      = [squattingEntry] := rfl
  rw [Run.resolveModule, hnamed]
  simp only [resolveEach, Run.resolveLocated, Run.resolveNamed, squattingEntry, Run.resolveMethod,
    setupMethod, Run.resolveParams, Run.resolveDescriptor, Run.canonical, parsed_conflictNode,
    parsed_optionsNode]
  rfl

/-- Without the schema, its name is given to the parameter. -/
theorem named_squattingDocument_withoutSchema :
    ((Run.forProfile (squattingDocument.withoutSchema squattingEntry.pointer) .empty
      .typescript).resolveModule [setupMethod]).named
        = [⟨"SetupOptions", optionsSchema.withTitle "SetupOptions", []⟩] := by
  have hnamed : (Run.forProfile (squattingDocument.withoutSchema squattingEntry.pointer) .empty
      .typescript).document.named = [] := rfl
  rw [Run.resolveModule, hnamed]
  simp only [resolveEach, Run.resolveMethod, setupMethod, Run.resolveParams,
    Run.resolveDescriptor, Run.canonical, parsed_optionsNode]
  rfl

/-- A method that returns a schema of a title. -/
def nicknameMethod : PlacedMethod :=
  ⟨0, ⟨"name", none, [], some ⟨"nickname", false, none, nicknameNode⟩, []⟩⟩

/-- A schema that fails, of that title. -/
def rivalEntry : NamedNode := ⟨"Nickname", "#/definitions/Nickname", conflictNode "Nickname"⟩

/-- A document with the two, and a schema of that title that belongs to another module. -/
def rivalDocument : Document := ⟨none, "Names", .object [
  ("info", .object [("title", .string "Names")]),
  ("definitions", .object [("Nickname", conflictNode "Nickname")]),
  ("x-schemas", .object [("Shop", .object [("Nickname", nicknameNode)])]),
  ("methods", .array [.object [("name", .string "name"),
    ("result", descriptorNode "nickname" nicknameNode)]])]⟩

/-- With the schema and without it, the method is resolved to the same. -/
theorem results_nicknameMethod (h : document.named = [] ∨ document.named = [rivalEntry]) :
    ((Run.forProfile document .empty .typescript).resolveModule [nicknameMethod]).methods.results
      = [⟨nicknameMethod, [], some (⟨"nickname", false, none, nicknameNode⟩, nicknameSchema)⟩] := by
  have hdocument : (Run.forProfile document .empty .typescript).document = document := rfl
  rw [Run.resolveModule, hdocument]
  rcases h with h | h
  · rw [h]
    simp only [resolveEach, Run.resolveMethod, nicknameMethod, Run.resolveParams, Option.mapM_some,
      Run.resolveDescriptor, Run.canonical, parsed_nicknameNode]
    rfl
  · rw [h]
    simp only [resolveEach, Run.resolveLocated, Run.resolveNamed, rivalEntry, Run.resolveMethod,
      nicknameMethod, Run.resolveParams, Option.mapM_some, Run.resolveDescriptor, Run.canonical,
      parsed_nicknameNode, parsed_conflictNode]
    rfl

/-- **What failures may leave behind.**  What a method registers before it fails is declared; what
refers to a parameter of a method that fails fails without it; and the name of a schema that fails
is reserved for it, and taken to belong to its module. -/
theorem failures_leave_traces :
    let run := fun document => Run.forProfile document .empty .typescript
    let fails := fun document =>
      ((run document).resolveModule (readableMethods document)).methods.errors.map Report.method
    (fails hastyDocument = [some "setup"] ∧
      declaredNames hastyDocument = ["SetupOptions"] ∧
      declaredNames (hastyDocument.withoutMethod 0) = []) ∧
    (fails lendingDocument = [some "name"] ∧
      declaredNames lendingDocument = ["Nickname"] ∧
      declaredNames (lendingDocument.withoutMethod 0) = []) ∧
    (squattingDocument.named = [squattingEntry] ∧
      (∀ registry, ∃ failure, ((run squattingDocument).resolveLocated squattingEntry).run.run
        registry = (.error failure, registry)) ∧
      declaredNames squattingDocument = ["SetupOptions2"] ∧
      declaredNames (squattingDocument.withoutSchema squattingEntry.pointer) = ["SetupOptions"]) ∧
    rivalDocument.named = [rivalEntry] ∧
      (∀ registry, ∃ failure, ((run rivalDocument).resolveLocated rivalEntry).run.run
        registry = (.error failure, registry)) ∧
      resultTypes rivalDocument = [some "Nickname"] ∧
      resultTypes (rivalDocument.withoutSchema rivalEntry.pointer) = [some "Shop.Nickname"] := by
  dsimp only
  -- Each run registers a known list of schemas; the names that it declares are those of the list.
  obtain ⟨hasty, hhasty⟩ := resolveModule_hastyDocument
  have hoptions : ((Run.forProfile hastyDocument .empty .typescript).resolveModule
      [hastyMethod]).named = [⟨"SetupOptions", optionsSchema.withTitle "SetupOptions", []⟩] := by
    rw [hhasty]
    rfl
  have hnothing : ((Run.forProfile (hastyDocument.withoutMethod 0) .empty
      .typescript).resolveModule []).named = [] := rfl
  obtain ⟨lending, hlending⟩ := resolveModule_lendingDocument
  have hnickname : ((Run.forProfile lendingDocument .empty .typescript).resolveModule
      [lendingMethod]).named = [⟨"Nickname", nicknameSchema, []⟩] := by
    rw [hlending]
    rfl
  refine ⟨⟨?_, ?_, ?_⟩, ⟨?_, ?_, ?_⟩, ⟨rfl, resolveLocated_conflictNode _ _ _, ?_, ?_⟩,
    rfl, resolveLocated_conflictNode _ _ _, ?_, ?_⟩
  · have hread : readableMethods hastyDocument = [hastyMethod] := rfl
    rw [hread, hhasty]
    rfl
  · rw [declaredNames_eq rfl hoptions]
    rfl
  · rw [declaredNames_eq rfl hnothing]
    rfl
  · have hread : readableMethods lendingDocument = [lendingMethod] := rfl
    rw [hread, hlending]
    rfl
  · rw [declaredNames_eq rfl hnickname]
    rfl
  · rw [declaredNames_eq rfl named_lendingDocument_withoutMethod]
    rfl
  · rw [declaredNames_eq rfl named_squattingDocument]
    rfl
  · rw [declaredNames_eq rfl named_squattingDocument_withoutSchema]
    rfl
  · have hread : readableMethods rivalDocument = [nicknameMethod] := rfl
    rw [resultTypes, generateModule, methods_eq, hread, results_nicknameMethod (.inr rfl)]
    rfl
  · have hread : readableMethods (rivalDocument.withoutSchema rivalEntry.pointer)
        = [nicknameMethod] := rfl
    rw [resultTypes, generateModule, methods_eq, hread, results_nicknameMethod (.inl rfl)]
    rfl

end Traces

end RpcSchema
