import RpcSchema.Proofs.Generation.Naming
import RpcSchema.Proofs.Projection.Agreement
import RpcSchema.Proofs.Sharing

/-!
# Single targets

A schema or method may be projected on its own, with a registry of its own, or with its module,
where the registry holds what the schemas and methods before it registered.  If everything that is
registered in the module is given the wanted name, the turn of an item does the same with the
registry that all turns start with: it ends with the same value, and what it registers the module
registers, too.  So what is projected on its own is projected the same as in the module, and the
synthesized schemas that come with it are declared in the module.

## Main definitions

* `PlainTurns` — in turns taken one after the other, every schema is registered under the wanted
  name.
* `Run.PlainModule` — the same for a module.

## Main results

* `Turns.alone` — a turn on its own.
* `Projector.exists_declareAllBy` — what is declared one by one is declared together.
* `projectTargetBy_generated` — targets on their own and in their module.
-/

namespace RpcSchema

open Registry (Within)

/-! ### Turns on their own -/

section Turns

variable {α β : Type} {step : α → Resolving β} {start before after : Registry}
  {pairs : List (α × Except Failure β)} {method? : α → Option String}

/-- In steps taken one after the other with one registry, every schema is registered under the
name that is wanted for it. -/
def PlainTurns (step : α → Resolving β) : Registry → List α → Prop
  | _, [] => True
  | registry, item :: rest =>
    registry.Plain (step item).run ∧ PlainTurns step ((step item).run.run registry).2 rest

theorem Turns.after_eq (h : Turns step before pairs after) (method? : α → Option String) :
    after = ((resolveEach method? step (pairs.map Prod.fst)).run before).2 := by
  induction h with
  | nil => rfl
  | cons item _ ih => rw [ih, List.map_cons, registry_resolveEach_cons]

theorem Turns.grown_of_plain (h : Turns step before pairs after)
    (hplain : PlainTurns step before (pairs.map Prod.fst)) : before.Grown after := by
  induction h with
  | nil => exact .refl _
  | cons item _ ih => exact hplain.1.grown.trans (ih hplain.2)

/-- **A turn on its own.**  With less registered than before the first turn, each item ends with
the same value as in its turn, and what is registered then is registered after the last turn. -/
theorem Turns.alone (h : Turns step before pairs after)
    (hplain : PlainTurns step before (pairs.map Prod.fst)) (hkept : before.WellKept)
    (hwithin : start.Within before) {pair : α × Except Failure β} (hpair : pair ∈ pairs) :
    ((step pair.1).run.run start).1 = pair.2 ∧ ((step pair.1).run.run start).2.Within after ∧
      start.Plain (step pair.1).run := by
  induction h with
  | nil => exact absurd hpair List.not_mem_nil
  | @cons before after pairs item hturns ih =>
    obtain ⟨hfirst, hrest⟩ := hplain
    rcases List.mem_cons.mp hpair with rfl | hpair
    · obtain ⟨hvalue, hafter, hplain⟩ := hfirst.within hwithin hkept
      exact ⟨hvalue, hafter.trans (hturns.grown_of_plain hrest).grows.within, hplain⟩
    · exact ih hrest (hfirst.grown.kept hkept) (hwithin.trans hfirst.grown.grows.within) hpair

end Turns

/-! ### A module in turns -/

/-- While the module is resolved, every schema is registered under the name that is wanted for
it. -/
structure Run.PlainModule (run : Run) (methods : List PlacedMethod) : Prop where
  schemas : PlainTurns run.resolveLocated run.registry run.document.named
  methods : PlainTurns run.resolveMethod
    ((resolveEach (fun _ => none) run.resolveLocated run.document.named).run run.registry).2 methods

theorem Run.run_resolveLocated (run : Run) (entry : NamedNode) (registry : Registry) :
    (run.resolveLocated entry).run.run registry =
      (((run.resolveNamed entry).run.run registry).1.map (LocatedSchema.mk entry.pointer),
        ((run.resolveNamed entry).run.run registry).2) := by
  rw [resolveLocated, ExceptT.run_bind, StateT.run_bind]
  cases (run.resolveNamed entry).run.run registry with
  | mk outcome after => cases outcome <;> rfl

namespace Resolution.Turns

variable {run : Run} {methods : List PlacedMethod} {resolution : Resolution}
  {schemas : List (NamedNode × Except Failure LocatedSchema)}
  {resolved : List (PlacedMethod × Except Failure ResolvedMethod)}

/-- The turns of a module, one after the other, register under the wanted names. -/
theorem exists_plain (h : resolution.Turns run methods schemas resolved)
    (hplain : run.PlainModule methods) : ∃ middle,
      RpcSchema.Turns run.resolveLocated run.registry schemas middle ∧
      PlainTurns run.resolveLocated run.registry (schemas.map Prod.fst) ∧
      RpcSchema.Turns run.resolveMethod middle resolved resolution.registry ∧
      PlainTurns run.resolveMethod middle (resolved.map Prod.fst) := by
  obtain ⟨middle, hfirst, hsecond⟩ := h.turns
  have hmethods := hplain.methods
  rw [← h.named, ← h.methods, ← hfirst.after_eq] at hmethods
  exact ⟨middle, hfirst, h.named.symm ▸ hplain.schemas, hsecond, hmethods⟩

/-- **A named schema on its own** is resolved to the same, and registers nothing that its module
does not. -/
theorem resolveNamed_alone (h : resolution.Turns run methods schemas resolved)
    (hplain : run.PlainModule methods) {entry : NamedNode} {located : LocatedSchema}
    (hmem : (entry, .ok located) ∈ schemas) :
    ∃ registry, (run.resolveNamed entry).run.run run.registry = (.ok located.named, registry) ∧
      registry.Within resolution.registry ∧ registry.WellKept := by
  obtain ⟨middle, hfirst, hschemas, hsecond, hmethods⟩ := h.exists_plain hplain
  have hstart : run.registry.WellKept := Registry.wellKept_reserving _
  obtain ⟨hvalue, hwithin, halone⟩ :=
    hfirst.alone hschemas hstart (Registry.Extends.refl _).within hmem
  have hkept := halone.grown.kept hstart
  rw [run.run_resolveLocated] at hvalue hwithin hkept
  have hnamed : ((run.resolveNamed entry).run.run run.registry).1 = .ok located.named := by
    obtain ⟨named, hnamed, hlocated⟩ := map_eq_ok_iff.mp hvalue
    rw [← hlocated]
    exact hnamed
  exact ⟨_, Prod.ext hnamed rfl, hwithin.trans (hsecond.grown_of_plain hmethods).grows.within,
    hkept⟩

/-- **A method on its own** is resolved to the same, and registers nothing that its module
does not. -/
theorem resolveMethod_alone (h : resolution.Turns run methods schemas resolved)
    (hplain : run.PlainModule methods) {placed : PlacedMethod} {value : ResolvedMethod}
    (hmem : (placed, .ok value) ∈ resolved) :
    ∃ registry, (run.resolveMethod placed).run.run run.registry = (.ok value, registry) ∧
      registry.Within resolution.registry ∧ registry.WellKept := by
  obtain ⟨middle, hfirst, hschemas, hsecond, hmethods⟩ := h.exists_plain hplain
  have hstart : run.registry.WellKept := Registry.wellKept_reserving _
  have hgrown := hfirst.grown_of_plain hschemas
  obtain ⟨hvalue, hwithin, halone⟩ :=
    hsecond.alone hmethods (hgrown.kept hstart) hgrown.grows.within hmem
  exact ⟨_, Prod.ext hvalue rfl, hwithin, halone.grown.kept hstart⟩

end Resolution.Turns

/-! ### Projecting targets -/

namespace Projector

variable {projector : Projector} {findComponents : Nat → List (Nat × Nat) → List (List Nat)}

/-- A declaration does not depend on where failures would be reported. -/
theorem declare_atPath {named : NamedSchema} {declaration : Declaration} {path : String}
    (h : (projector.atPath path).declare named = .ok declaration) (path' : String) :
    (projector.atPath path').declare named = .ok declaration := by
  have hsame := ((Agrees.refl projector).atPath path path').toOption_declare named
  rw [h] at hsame
  exact toOption_eq_some_iff.mp hsame

/-- **What is declared one by one is declared together.** -/
theorem exists_declareAllBy (hfind : Order.FindsComponents findComponents) {entries : Fields Schema}
    (h : ∀ entry ∈ entries, ∃ path declaration,
      (projector.atPath path).declare (.of entry.1 entry.2) = .ok declaration) :
    ∃ supporting, projector.declareAllBy findComponents entries = .ok supporting ∧
      ∀ declaration ∈ supporting, ∃ entry ∈ entries, ∃ path,
        (projector.atPath path).declare (.of entry.1 entry.2) = .ok declaration := by
  let schemas := entries.map fun entry => NamedSchema.of entry.1 entry.2
  have hmem : ∀ named ∈ orderBy findComponents schemas,
      ∃ entry ∈ entries, NamedSchema.of entry.1 entry.2 = named := fun named hnamed =>
    List.mem_map.mp ((orderBy_perm hfind schemas).mem_iff.mp hnamed)
  have hdeclared : ∀ named ∈ orderBy findComponents schemas, ∃ declaration,
      (projector.atPath (Reference.toComponent named.name)).declare named = .ok declaration := by
    intro named hnamed
    obtain ⟨entry, hentry, rfl⟩ := hmem named hnamed
    obtain ⟨path, declaration, hok⟩ := h entry hentry
    exact ⟨declaration, declare_atPath hok _⟩
  obtain ⟨supporting, hsupporting, hall⟩ := exists_mapM_eq_ok hdeclared
  refine ⟨supporting, hsupporting, fun declaration hdeclaration => ?_⟩
  obtain ⟨named, hnamed, hok⟩ := hall declaration hdeclaration
  obtain ⟨entry, hentry, rfl⟩ := hmem named hnamed
  exact ⟨entry, hentry, _, hok⟩

end Projector

section Output

variable {findComponents : Nat → List (Nat × Nat) → List (List Nat)} {document : Document}
  {store : Store} {profile : Profile} {options : ProjectionOptions}

/-- What a target registers on its own is declared in the module. -/
theorem exists_supporting (hfind : Order.FindsComponents findComponents)
    (h : (generateModuleBy findComponents document store profile options).errors = [])
    {registry : Registry} (hkept : registry.WellKept)
    (hwithin : registry.Within ((Run.forProfile document store profile).resolveModule
      (readableMethods document)).registry) :
    ∃ supporting, (Projector.atRoot document store profile options).declareAllBy findComponents
        registry.entries = .ok supporting ∧
      ∀ declaration ∈ supporting, declaration ∈
        (generateModuleBy findComponents document store profile options).declarations := by
  obtain ⟨-, -, hdeclared, -⟩ := outcomes_of_errors_eq_nil hfind h
  have hnamed : ∀ entry ∈ registry.entries, NamedSchema.of entry.1 entry.2 ∈
      ((Run.forProfile document store profile).resolveModule (readableMethods document)).named :=
    fun entry hentry =>
      List.mem_append_right _ (List.mem_map_of_mem (hwithin.mem_entries hkept hentry))
  obtain ⟨supporting, hsupporting, hall⟩ := Projector.exists_declareAllBy hfind
    fun entry hentry => ⟨_, hdeclared _ (hnamed entry hentry)⟩
  refine ⟨supporting, hsupporting, fun declaration hdeclaration => ?_⟩
  obtain ⟨entry, hentry, path, hok⟩ := hall declaration hdeclaration
  exact (mem_declarations_iff hfind).mpr ⟨_, hnamed entry hentry, Projector.declare_atPath hok _⟩

theorem mem_named_of_findSchema {name : String} {entry : NamedNode}
    (h : findSchema document name = .ok entry) : entry ∈ document.named := by
  unfold findSchema at h
  cases hfound : document.find? name with
  | none =>
    rw [hfound] at h
    cases h
  | some found =>
    rw [hfound] at h
    obtain rfl := Except.ok.inj h
    exact List.mem_of_find?_eq_some hfound

section Target

variable {schemas : List (NamedNode × Except Failure LocatedSchema)}
  {resolved : List (PlacedMethod × Except Failure ResolvedMethod)}
  (hfind : Order.FindsComponents findComponents)
  (herrors : (generateModuleBy findComponents document store profile options).errors = [])
  (hplain : (Run.forProfile document store profile).PlainModule (readableMethods document))
  (hturns : ((Run.forProfile document store profile).resolveModule (readableMethods document)).Turns
    (Run.forProfile document store profile) (readableMethods document) schemas resolved)

include hfind herrors hplain hturns

/-- A named schema that is declared in the module is projected to that declaration on its own. -/
theorem projectTargetBy_schema {name path : String} {entry : NamedNode} {located : LocatedSchema}
    {declaration : Declaration} (hfound : findSchema document name = .ok entry)
    (hmem : (entry, .ok located) ∈ schemas)
    (hdeclared : ((Projector.atRoot document store profile options).atPath path).declare
      located.named = .ok declaration) :
    ∃ supporting, projectTargetBy findComponents document store (.schema name) profile options
        = .ok (.schema declaration supporting) ∧
      ∀ other ∈ supporting,
        other ∈ (generateModuleBy findComponents document store profile options).declarations := by
  obtain ⟨registry, hrun, hwithin, hkept⟩ := hturns.resolveNamed_alone hplain hmem
  obtain ⟨supporting, hsupporting, hall⟩ := exists_supporting hfind herrors hkept hwithin
  refine ⟨supporting, bind_eq_ok_iff.mpr ⟨entry, hfound, ?_⟩, hall⟩
  change (Run.resolveNamed _ entry).run _ = _ at hrun
  rw [hrun]
  exact bind_eq_ok_iff.mpr ⟨_, rfl, bind_eq_ok_iff.mpr ⟨declaration,
    Projector.declare_atPath hdeclared _, bind_eq_ok_iff.mpr ⟨supporting, hsupporting, rfl⟩⟩⟩

/-- A method that is projected in the module is projected the same on its own. -/
theorem projectTargetBy_method {placed : PlacedMethod} {value : ResolvedMethod}
    {method : ProjectedMethod} (hfound : findMethod document placed.method.name = .ok placed)
    (hmem : (placed, .ok value) ∈ resolved)
    (hprojected : (Projector.atRoot document store profile options).method value = .ok method) :
    ∃ supporting, projectTargetBy findComponents document store (.method placed.method.name) profile
        options = .ok (.method method supporting) ∧
      ∀ other ∈ supporting,
        other ∈ (generateModuleBy findComponents document store profile options).declarations := by
  obtain ⟨registry, hrun, hwithin, hkept⟩ := hturns.resolveMethod_alone hplain hmem
  obtain ⟨supporting, hsupporting, hall⟩ := exists_supporting hfind herrors hkept hwithin
  refine ⟨supporting, bind_eq_ok_iff.mpr ⟨placed, hfound, ?_⟩, hall⟩
  change (Run.resolveMethod _ placed).run _ = _ at hrun
  rw [hrun]
  exact bind_eq_ok_iff.mpr ⟨_, rfl, bind_eq_ok_iff.mpr ⟨method, hprojected,
    bind_eq_ok_iff.mpr ⟨supporting, hsupporting, rfl⟩⟩⟩

end Target

/-- **Targets on their own and in their module.**  When nothing fails in a module, and everything
that is registered in it is given the wanted name, each target is projected on its own: the first
schema of a name to the declaration that it has in the module, the first method of a name to the
method that it is there.  The synthesized schemas that come with it are declared in the module. -/
theorem projectTargetBy_generated (hfind : Order.FindsComponents findComponents)
    (document : Document) (store : Store) (profile : Profile) (options : ProjectionOptions)
    (herrors : (generateModuleBy findComponents document store profile options).errors = [])
    (hplain : (Run.forProfile document store profile).PlainModule (readableMethods document)) :
    let run := Run.forProfile document store profile
    let methods := readableMethods document
    let resolution := run.resolveModule methods
    let projector := Projector.atRoot document store profile options
    let output := generateModuleBy findComponents document store profile options
    let project := fun target =>
      projectTargetBy findComponents document store target profile options
    ∃ schemas resolved, resolution.Turns run methods schemas resolved ∧
      (∀ name entry, findSchema document name = .ok entry →
        ∃ located declaration supporting, (entry, .ok located) ∈ schemas ∧
          (projector.atPath (resolution.pointerTo located.named.name)).declare located.named
            = .ok declaration ∧
          declaration ∈ output.declarations ∧
          project (.schema name) = .ok (.schema declaration supporting) ∧
          ∀ other ∈ supporting, other ∈ output.declarations) ∧
      ∀ (index : Nat) (placed : PlacedMethod), methods[index]? = some placed →
        findMethod document placed.method.name = .ok placed →
        ∃ method supporting, output.methods[index]? = some method ∧
          project (.method placed.method.name) = .ok (.method method supporting) ∧
          ∀ other ∈ supporting, other ∈ output.declarations := by
  intro run methods resolution projector output project
  obtain ⟨schemas, resolved, hturns⟩ := resolveModule_run run methods
  -- Without errors everything was resolved, registered and projected.
  obtain ⟨hschemas, hmethods, hdeclared, hprojected⟩ := outcomes_of_errors_eq_nil hfind herrors
  refine ⟨schemas, resolved, hturns, fun name entry hfound => ?_,
    fun index placed hplaced hfound => ?_⟩
  · rw [hturns.schemaOutcomes] at hschemas
    obtain ⟨index, hindex⟩ := List.mem_iff_getElem?.mp (mem_named_of_findSchema hfound)
    obtain ⟨located, hmem, -⟩ := getElem?_successes hschemas (hturns.named.symm ▸ hindex)
    have hnamed := hturns.mem_named hmem
    obtain ⟨declaration, hdeclaration⟩ := hdeclared located.named hnamed
    obtain ⟨supporting, hproject, hall⟩ :=
      projectTargetBy_schema hfind herrors hplain hturns hfound hmem hdeclaration
    exact ⟨located, declaration, supporting, hmem, hdeclaration,
      (mem_declarations_iff hfind).mpr ⟨_, hnamed, hdeclaration⟩, hproject, hall⟩
  · rw [hturns.methodOutcomes] at hmethods hprojected
    obtain ⟨value, hmem, hvalue⟩ := getElem?_successes hmethods (hturns.methods.symm ▸ hplaced)
    obtain ⟨method, hok, hmethod⟩ := hprojected index value hvalue
    obtain ⟨supporting, hproject, hall⟩ :=
      projectTargetBy_method hfind herrors hplain hturns hfound hmem hok
    refine ⟨method, supporting, ?_, hproject, hall⟩
    have hshown : output.methods = _ := methods_eq document store profile options
    rw [hshown, hturns.methodOutcomes]
    exact hmethod

end Output

/-! ### A schema and a method that share a part -/

/-- A schema with a part like the parameter of a method. -/
def setupNode : Json := .object [("title", .string "Setup"),
  ("properties", .object [("options", optionsNode)])]

/-- What it is read as. -/
def setupSchema : Schema :=
  ⟨some "Setup", none, .object ⟨[("options", optionsSchema)], [], .unstated, [], none⟩, []⟩

/-- A document with the schema and the method. -/
def sharedDocument : Document := ⟨none, "Setup", .object [
  ("info", .object [("title", .string "Setup")]),
  ("definitions", .object [("Setup", setupNode)]),
  ("methods", .array [.object [("name", .string "setup"),
    ("params", .array [descriptorNode "options" optionsNode])]])]⟩

theorem parsed_setupNode {run : Run} (pointer : String) :
    run.parsed setupNode pointer = .ok setupSchema := by
  have hrun : run.store.dereferenceAt .standard setupNode run.document pointer
      = .ok ⟨setupNode, [], []⟩ := by
    refine dereferenceAt_eq_ok_iff.mpr ⟨setupNode, .empty, ?_, by rfl⟩
    exact .object rfl (.member rfl (.scalar rfl rfl) (.member rfl (.object rfl (.member rfl
      (.object rfl (.member rfl (.object rfl (.member rfl (.scalar rfl rfl) .nil)) .nil)) .nil))
        .nil))
  refine Run.parsed_eq_ok_iff.mpr ⟨_, hrun, ?_⟩
  simp [setupNode, optionsNode, Schema.ofJson, Schema.read, Schema.readBody, Schema.readPartsAt,
    Schema.readObject, Schema.readFieldsAt, Schema.readFields, Schema.readAdditional, takenText,
    describesObject, describesArray, typeName?]
  rfl

/-- The schema registers its part. -/
theorem resolveLocated_setupNode :
    ((Run.forProfile sharedDocument .empty .typescript).resolveLocated
      ⟨"Setup", "#/definitions/Setup", setupNode⟩).run =
    Registry.register "SetupOptions" (optionsSchema.withTitle "SetupOptions") >>= fun name =>
      pure (.ok ⟨"#/definitions/Setup", (NamedSchema.of "Setup" ⟨some "Setup", none,
        .object ⟨[("options", .registered name)], [], .unstated, [], none⟩, []⟩).withDependenciesOf
          setupSchema⟩) := by
  simp only [Run.resolveLocated, Run.resolveNamed, Run.canonical, parsed_setupNode]
  rfl

/-- The method registers its parameter. -/
theorem resolveMethod_setupMethod :
    ((Run.forProfile sharedDocument .empty .typescript).resolveMethod setupMethod).run =
    Registry.register "SetupOptions" (optionsSchema.withTitle "SetupOptions") >>= fun name =>
      pure (.ok ⟨setupMethod, [(⟨"options", false, none, optionsNode⟩, .registered name)],
        none⟩) := by
  simp only [Run.resolveMethod, Run.resolveParams, Run.resolveDescriptor, Run.canonical,
    setupMethod, parsed_optionsNode]
  rfl

/-- The first of the two adds the schema, and the second finds it. -/
theorem plainModule_sharedDocument :
    (Run.forProfile sharedDocument .empty .typescript).PlainModule [setupMethod] := by
  let run := Run.forProfile sharedDocument .empty .typescript
  have hnamed : run.document.named = [⟨"Setup", "#/definitions/Setup", setupNode⟩] := rfl
  have hafter : ((resolveEach (fun _ => none) run.resolveLocated run.document.named).run
      run.registry).2 = ⟨[("SetupOptions", optionsSchema.withTitle "SetupOptions")],
        ["Setup", "Setup"]⟩ := by
    rw [hnamed, registry_resolveEach_cons, resolveLocated_setupNode]
    rfl
  constructor
  · change PlainTurns run.resolveLocated run.registry run.document.named
    rw [hnamed]
    refine ⟨?_, trivial⟩
    rw [resolveLocated_setupNode]
    exact .register (Registry.takes_of_accepts (by decide) fun _ hentry => by cases hentry) .done
  · rw [hafter]
    refine ⟨?_, trivial⟩
    rw [resolveMethod_setupMethod]
    exact .register (Registry.takes_of_accepts (by decide)
      fun entry hentry => (Option.some.inj hentry).symm) .done

theorem resolveModule_sharedDocument :
    (Run.forProfile sharedDocument .empty .typescript).resolveModule [setupMethod] =
      ⟨⟨[⟨"#/definitions/Setup", ⟨"Setup", ⟨some "Setup", none, .object ⟨[("options",
          .registered "SetupOptions")], [], .unstated, [], none⟩, []⟩, ["SetupOptions"]⟩⟩], []⟩,
        ⟨[⟨setupMethod, [(⟨"options", false, none, optionsNode⟩, .registered "SetupOptions")],
          none⟩], []⟩,
        ⟨[("SetupOptions", optionsSchema.withTitle "SetupOptions")], ["Setup", "Setup"]⟩⟩ := by
  have hnamed : (Run.forProfile sharedDocument .empty .typescript).document.named =
      [⟨"Setup", "#/definitions/Setup", setupNode⟩] := rfl
  rw [Run.resolveModule, hnamed]
  simp only [resolveEach, resolveLocated_setupNode, resolveMethod_setupMethod]
  rfl

/-- On their own the schema and the method come with the part that they share in the module. -/
theorem projectTargetBy_generated_sharedDocument :
    let output := generateModule sharedDocument .empty .typescript .standard
    let project := fun target => projectTarget sharedDocument .empty target .typescript .standard
    Order.FindsComponents Order.stronglyConnected ∧ output.errors = [] ∧
      (Run.forProfile sharedDocument .empty .typescript).PlainModule
        (readableMethods sharedDocument) ∧
      (∃ declaration supporting, declaration ∈ output.declarations ∧
        project (.schema "Setup") = .ok (.schema declaration supporting) ∧
        ∀ other ∈ supporting, other ∈ output.declarations) ∧
      ∃ method supporting, output.methods[0]? = some method ∧
        project (.method "setup") = .ok (.method method supporting) ∧
        ∀ other ∈ supporting, other ∈ output.declarations := by
  intro output project
  have hfind := Order.findsComponents_stronglyConnected
  have hread : readableMethods sharedDocument = [setupMethod] := rfl
  have hplain := plainModule_sharedDocument
  rw [← hread] at hplain
  have herrors : output.errors = [] := by
    simp only [output, generateModule, generateModuleBy_eq, generateMethods, hread,
      resolveModule_sharedDocument]
    rfl
  obtain ⟨schemas, resolved, -, hschemas, hmethods⟩ :=
    projectTargetBy_generated hfind sharedDocument .empty .typescript .standard herrors hplain
  obtain ⟨located, declaration, supporting, -, -, hdeclared, hproject, hall⟩ :=
    hschemas "Setup" ⟨"Setup", "#/definitions/Setup", setupNode⟩ rfl
  exact ⟨hfind, herrors, hplain, ⟨declaration, supporting, hdeclared, hproject, hall⟩,
    hmethods 0 setupMethod rfl rfl⟩

end RpcSchema
