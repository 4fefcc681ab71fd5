import RpcSchema.Proofs.Declaration.Order
import RpcSchema.Proofs.Generation.Resolution

/-!
# Nothing is lost or doubled

Every named schema, every registered schema and every method comes to one outcome: it is resolved,
if it was not registered, and then projected, and the first step that fails is the end of it.  The
outcomes that are values make up the declarations and methods of the output, and those that are
failures make up its errors.

Declarations are put in order before they are projected.  Putting them in order permutes them,
whatever their names and dependencies, so that it changes nothing about the outcomes.

## Main results

* `generateMethods_eq` — the output, from the turns in which the module was resolved.
* `generateModuleBy_accounts` — the outcomes of all items make up the output.
-/

namespace RpcSchema

/-! ### Outcomes of two steps -/

section Outcomes

variable {α β γ δ : Type} {method? : α → Option String} {step : β → Except Failure γ}
  {pairs others : List (α × Except Failure β)}

theorem successes_append : successes (pairs ++ others) = successes pairs ++ successes others :=
  List.filterMap_append

theorem reports_append :
    reports method? (pairs ++ others) = reports method? pairs ++ reports method? others :=
  List.filterMap_append

theorem tryEach_eq (method? : α → Option String) (step : α → Except Failure β) (items : List α) :
    tryEach method? step items = ⟨successes (items.map fun item => (item, step item)),
      reports method? (items.map fun item => (item, step item))⟩ := by
  simp only [tryEach, successes, reports, List.filterMap_map]
  congr 1
  refine List.filterMap_congr fun item _ => ?_
  simp only [Function.comp_apply]
  cases step item <;> rfl

/-- The values that items end with after a second step. -/
theorem successes_bind (key : α → δ) :
    successes (pairs.map fun pair => (key pair.1, pair.2 >>= step))
      = successes ((successes pairs).map fun value => (value, step value)) := by
  induction pairs with
  | nil => rfl
  | cons pair pairs ih =>
    obtain ⟨item, outcome⟩ := pair
    rw [List.map_cons]
    cases outcome with
    | error failure => exact ih
    | ok value =>
      rw [successes_cons_ok, List.map_cons]
      change successes ((key item, step value) :: _) = _
      cases step value with
      | error failure => exact ih
      | ok result => rw [successes_cons_ok, successes_cons_ok, ih]

/-- A failed item failed in the first step or in the second one, and is reported for the same
method. -/
theorem reports_bind (key : α → δ) {method₁? : δ → Option String} (method₂? : β → Option String)
    (htag : ∀ item, method₁? (key item) = method? item)
    (htag' : ∀ item value, (item, .ok value) ∈ pairs → method₂? value = method? item) :
    (reports method₁? (pairs.map fun pair => (key pair.1, pair.2 >>= step))).Perm
      (reports method? pairs
        ++ reports method₂? ((successes pairs).map fun value => (value, step value))) := by
  induction pairs with
  | nil => exact .nil
  | cons pair pairs ih =>
    obtain ⟨item, outcome⟩ := pair
    have hrest := ih fun item value hmem => htag' item value (List.mem_cons_of_mem _ hmem)
    rw [List.map_cons]
    cases outcome with
    | error failure =>
      change (reports method₁? ((key item, .error failure) :: _)).Perm _
      rw [reports_cons_error, reports_cons_error, htag]
      exact hrest.cons _
    | ok value =>
      rw [successes_cons_ok, reports_cons_ok, List.map_cons]
      change (reports method₁? ((key item, step value) :: _)).Perm _
      cases step value with
      | error failure =>
        rw [reports_cons_error, reports_cons_error, htag, htag' item value List.mem_cons_self]
        exact (hrest.cons _).trans List.perm_middle.symm
      | ok result =>
        rw [reports_cons_ok, reports_cons_ok]
        exact hrest

/-- Every item ends with a value or is reported. -/
theorem length_successes_add_length_reports (pairs : List (α × Except Failure β)) :
    (successes pairs).length + (reports method? pairs).length = pairs.length := by
  induction pairs with
  | nil => rfl
  | cons pair pairs ih =>
    obtain ⟨item, outcome⟩ := pair
    cases outcome with
    | error failure =>
      rw [successes_cons_error, reports_cons_error, List.length_cons, List.length_cons]
      omega
    | ok value =>
      rw [successes_cons_ok, reports_cons_ok, List.length_cons, List.length_cons]
      omega

/-- Reports name the method that items name. -/
theorem method_of_mem_reports {report : Report} (h : report ∈ reports method? pairs) :
    ∃ item, report.method = method? item := by
  obtain ⟨⟨item, outcome⟩, hmem, hreport⟩ := List.mem_filterMap.mp h
  cases outcome with
  | ok value => cases hreport
  | error failure =>
    obtain rfl := Option.some.inj hreport
    exact ⟨item, rfl⟩

/-- The values and the reports of outcomes that are given for each item. -/
theorem successes_map (key : γ → α) (outcome : γ → Except Failure β) (items : List γ) :
    successes (items.map fun item => (key item, outcome item))
      = items.filterMap fun item => (outcome item).toOption := by
  rw [successes, List.filterMap_map]
  rfl

theorem reports_map (key : γ → α) (outcome : γ → Except Failure β) (items : List γ) :
    reports method? (items.map fun item => (key item, outcome item))
      = items.filterMap fun item =>
          match outcome item with
          | .error failure => some (.ofFailure failure (method? (key item)))
          | .ok _ => none := by
  rw [reports, List.filterMap_map]
  refine List.filterMap_congr fun item _ => ?_
  simp only [Function.comp_apply]
  cases outcome item <;> rfl

/-- When nothing is reported, the values are at the places of the items. -/
theorem getElem?_successes (h : reports method? pairs = []) {index : Nat} {item : α}
    (hitem : (pairs.map Prod.fst)[index]? = some item) :
    ∃ value, (item, .ok value) ∈ pairs ∧ (successes pairs)[index]? = some value := by
  induction pairs generalizing index with
  | nil => cases hitem
  | cons pair rest ih =>
    obtain ⟨first, outcome⟩ := pair
    cases outcome with
    | error failure => cases h
    | ok value =>
      cases index with
      | zero =>
        obtain rfl := Option.some.inj hitem
        exact ⟨value, List.mem_cons_self, rfl⟩
      | succ index =>
        obtain ⟨found, hmem, hfound⟩ := ih h hitem
        exact ⟨found, List.mem_cons_of_mem _ hmem, hfound⟩

end Outcomes

/-! ### The output -/

variable {findComponents : Nat → List (Nat × Nat) → List (List Nat)}

/-- A declaration goes by the name of its schema, and shows its shape. -/
theorem Projector.declare_eq_ok {projector : Projector} {named : NamedSchema}
    {declaration : Declaration} (h : projector.declare named = .ok declaration) :
    declaration.name = named.name ∧ projector.shape named.schema = .ok declaration.shape := by
  obtain ⟨ref, -, h⟩ := bind_eq_ok_iff.mp h
  obtain ⟨shape, hshape, h⟩ := bind_eq_ok_iff.mp h
  obtain rfl := Except.ok.inj h
  exact ⟨rfl, hshape⟩

/-- What there is to declare in a module: its named schemas and the registered ones. -/
abbrev Declarable := NamedNode ⊕ (String × Schema)

/-- The output of a module, from the turns in which it was resolved. -/
theorem generateMethods_eq (findComponents : Nat → List (Nat × Nat) → List (List Nat))
    {document : Document} {store : Store} {profile : Profile} (options : ProjectionOptions)
    {methods : List PlacedMethod} {resolution : Resolution}
    {schemas : List (NamedNode × Except Failure LocatedSchema)}
    {resolved : List (PlacedMethod × Except Failure ResolvedMethod)} (unreadable : List Report)
    (hresolution : (Run.forProfile document store profile).resolveModule methods = resolution)
    (hturns : resolution.Turns (Run.forProfile document store profile) methods schemas resolved) :
    let projector := Projector.atRoot document store profile options
    let declared := (orderBy findComponents resolution.named).map fun named =>
      (named, (projector.atPath (resolution.pointerTo named.name)).declare named)
    let projected := (successes resolved).map fun value => (value, projector.method value)
    generateMethods findComponents document store profile options methods unreadable =
      ⟨document.title, successes declared, successes projected,
        reports (fun _ => none) schemas ++ unreadable
          ++ reports (fun placed => some placed.method.name) resolved
          ++ reports (fun _ => none) declared
          ++ reports (fun value => some value.placed.method.name) projected⟩ := by
  intro projector declared projected
  have hschemas : resolution.schemas.errors = reports (fun _ => none) schemas :=
    congrArg Outcomes.errors hturns.schemaOutcomes
  have hresults : resolution.methods.results = successes resolved :=
    congrArg Outcomes.results hturns.methodOutcomes
  have hfailed : resolution.methods.errors
      = reports (fun placed => some placed.method.name) resolved :=
    congrArg Outcomes.errors hturns.methodOutcomes
  simp only [generateMethods, hresolution, tryEach_eq, hschemas, hresults, hfailed, declared,
    projected, projector]

/-- The methods that a module is generated with: those of the document, if they can be read. -/
def readableMethods (document : Document) : List PlacedMethod :=
  (documentMethods document).toOption.getD []

/-- The report on methods that cannot be read, if they cannot. -/
def unreadableReports (document : Document) : List Report :=
  match documentMethods document with
  | .ok _ => []
  | .error failure => [.ofFailure failure none]

theorem generateModuleBy_eq (document : Document) (store : Store) (profile : Profile)
    (options : ProjectionOptions) :
    generateModuleBy findComponents document store profile options =
      generateMethods findComponents document store profile options (readableMethods document)
        (unreadableReports document) := by
  unfold generateModuleBy readableMethods unreadableReports
  cases documentMethods document <;> rfl

/-- What is declared: the schemas that can be projected, in the order of declarations. -/
theorem declarations_eq (document : Document) (store : Store) (profile : Profile)
    (options : ProjectionOptions) :
    let resolution := (Run.forProfile document store profile).resolveModule
      (readableMethods document)
    let projector := Projector.atRoot document store profile options
    (generateModuleBy findComponents document store profile options).declarations =
      (orderBy findComponents resolution.named).filterMap fun named =>
        ((projector.atPath (resolution.pointerTo named.name)).declare named).toOption := by
  intro resolution projector
  simp only [generateModuleBy_eq, generateMethods, tryEach, List.filterMap_map]
  rfl

/-- The projected methods: the resolved ones that can be projected, in order. -/
theorem methods_eq (document : Document) (store : Store) (profile : Profile)
    (options : ProjectionOptions) :
    let resolution := (Run.forProfile document store profile).resolveModule
      (readableMethods document)
    (generateModuleBy findComponents document store profile options).methods =
      resolution.methods.results.filterMap fun resolved =>
        ((Projector.atRoot document store profile options).method resolved).toOption := by
  intro resolution
  simp only [generateModuleBy_eq, generateMethods, tryEach, List.filterMap_map]
  rfl

/-- Errors of schemas and of methods are told apart by the method that they name. -/
private theorem filter_errors (schemas methods declared projected : List Report)
    (hschemas : ∀ report ∈ schemas, report.method = none)
    (hmethods : ∀ report ∈ methods, report.method.isSome)
    (hdeclared : ∀ report ∈ declared, report.method = none)
    (hprojected : ∀ report ∈ projected, report.method.isSome) :
    ((schemas ++ [] ++ methods ++ declared ++ projected).filter fun report =>
        report.method.isNone) = schemas ++ declared ∧
      ((schemas ++ [] ++ methods ++ declared ++ projected).filter fun report =>
        report.method.isSome) = methods ++ projected := by
  have hnone : ∀ reports : List Report, (∀ report ∈ reports, report.method = none) →
      (reports.filter fun report => report.method.isNone) = reports ∧
        (reports.filter fun report => report.method.isSome) = [] := by
    intro reports h
    refine ⟨List.filter_eq_self.mpr fun report hreport => ?_,
      List.filter_eq_nil_iff.mpr fun report hreport => ?_⟩
    · rw [h report hreport]
      rfl
    · rw [h report hreport]
      exact Bool.false_ne_true
  have hsome : ∀ reports : List Report, (∀ report ∈ reports, report.method.isSome) →
      (reports.filter fun report => report.method.isNone) = [] ∧
        (reports.filter fun report => report.method.isSome) = reports := by
    intro reports h
    refine ⟨List.filter_eq_nil_iff.mpr fun report hreport => ?_, List.filter_eq_self.mpr h⟩
    rw [Option.isNone_iff_eq_none]
    exact Option.isSome_iff_ne_none.mp (h report hreport)
  simp only [List.filter_append, hnone schemas hschemas, hsome methods hmethods,
    hnone declared hdeclared, hsome projected hprojected, List.append_nil,
    List.nil_append, and_self]

/-- **Nothing is lost or doubled.**  Each named schema and each registered schema comes to one
outcome, and so does each method: it is resolved, if there is something to resolve, with the
registry that those before it left, and what it is resolved to is projected.  Up to their order
the values among these outcomes are the declarations, and the failures are the errors that name
no method; the values of methods are the projected methods in order of the document, and their
failures are the errors that name a method, each its own. -/
theorem generateModuleBy_accounts (hfind : Order.FindsComponents findComponents)
    (document : Document) (store : Store) (profile : Profile) (options : ProjectionOptions)
    {methods : List PlacedMethod} (hmethods : documentMethods document = .ok methods) :
    let run := Run.forProfile document store profile
    let resolution := run.resolveModule methods
    let projector := Projector.atRoot document store profile options
    let declare : NamedSchema → Except Failure Declaration := fun named =>
      (projector.atPath (resolution.pointerTo named.name)).declare named
    let output := generateModuleBy findComponents document store profile options
    ∃ (schemas : List (NamedNode × Except Failure LocatedSchema))
      (resolved : List (PlacedMethod × Except Failure ResolvedMethod))
      (declared : List (Declarable × Except Failure Declaration))
      (projected : List (PlacedMethod × Except Failure ProjectedMethod)),
      resolution.Turns run methods schemas resolved ∧
      declared = schemas.map (fun pair =>
          (.inl pair.1, pair.2 >>= fun located => declare located.named))
        ++ resolution.registry.entries.map (fun entry =>
          (.inr entry, declare (.of entry.1 entry.2))) ∧
      projected = resolved.map (fun pair => (pair.1, pair.2 >>= projector.method)) ∧
      declared.map Prod.fst
        = document.named.map .inl ++ resolution.registry.entries.map .inr ∧
      projected.map Prod.fst = methods ∧
      (successes declared).Perm output.declarations ∧
      (reports (fun _ => none) declared).Perm
        (output.errors.filter fun report => report.method.isNone) ∧
      successes projected = output.methods ∧
      (reports (fun placed => some placed.method.name) projected).Perm
        (output.errors.filter fun report => report.method.isSome) := by
  intro run resolution projector declare output
  obtain ⟨schemas, resolved, hturns⟩ := resolveModule_run run methods
  have houtput := generateMethods_eq findComponents options [] rfl hturns
  have hgenerate : output
      = generateMethods findComponents document store profile options methods [] := by
    simp only [output, generateModuleBy, hmethods]
  -- What is declared, in the order in which it was resolved and registered.
  have hnamed : resolution.named = (successes schemas).map LocatedSchema.named
      ++ resolution.registry.entries.map fun entry => .of entry.1 entry.2 := by
    rw [Resolution.named, hturns.schemaOutcomes]
  have hperm := (orderBy_perm hfind resolution.named).symm
  have hplaced : ∀ placed value, (placed, .ok value) ∈ resolved →
      some value.placed.method.name = some placed.method.name := by
    intro placed value hmem
    rw [hturns.placed_eq hmem]
  obtain ⟨hnone, hsome⟩ := filter_errors (reports (fun _ => none) schemas)
    (reports (fun placed : PlacedMethod => some placed.method.name) resolved)
    (reports (fun _ => none) ((orderBy findComponents resolution.named).map fun named =>
      (named, declare named)))
    (reports (fun value : ResolvedMethod => some value.placed.method.name)
      ((successes resolved).map fun value => (value, projector.method value)))
    (fun _ h => (method_of_mem_reports h).choose_spec)
    (fun _ h => (method_of_mem_reports h).choose_spec ▸ rfl)
    (fun _ h => (method_of_mem_reports h).choose_spec)
    (fun _ h => (method_of_mem_reports h).choose_spec ▸ rfl)
  rw [hgenerate, houtput]
  refine ⟨schemas, resolved, _, _, hturns, rfl, rfl, ?_, ?_, ?_, ?_, ?_, ?_⟩
  · have hitems : schemas.map Prod.fst = document.named := hturns.named
    rw [List.map_append, List.map_map, List.map_map, ← hitems, List.map_map]
    rfl
  · rw [List.map_map, ← hturns.methods]
    rfl
  · dsimp only
    rw [successes_append, successes_bind Sum.inl, successes_map, successes_map, successes_map]
    refine List.Perm.trans (List.Perm.of_eq ?_) (hperm.filterMap _)
    rw [hnamed, List.filterMap_append, List.filterMap_map, List.filterMap_map]
    rfl
  · dsimp only
    rw [hnone, reports_append]
    refine List.Perm.trans ((reports_bind Sum.inl (fun _ => none) (fun _ => rfl)
      fun _ _ _ => rfl).append_right _) ?_
    rw [List.append_assoc]
    refine List.Perm.append_left _ ?_
    rw [reports_map, reports_map, reports_map]
    refine List.Perm.trans (List.Perm.of_eq ?_) (hperm.filterMap _)
    rw [hnamed, List.filterMap_append, List.filterMap_map, List.filterMap_map]
    rfl
  · exact successes_bind id
  · dsimp only
    rw [hsome]
    exact reports_bind id _ (fun _ => rfl) hplaced

/-- A module with a schema that refers to nothing and a method whose result does: of its two
schemas and the registered ones each is declared or reported, and so is each of its two methods. -/
theorem generateModuleBy_accounts_pets :
    let dangling : Json := .object [("$ref", .string "#/gone")]
    let result : Json → Json := fun schema =>
      .object [("name", .string "pet"), ("schema", schema)]
    let document : Document := ⟨none, "Pets", .object [
      ("definitions", .object [("Pet", .object [("properties", .object [("tag", .bool true)])]),
        ("Owner", dangling)]),
      ("methods", .array [.object [("name", .string "get"), ("result", result (.bool true))],
        .object [("name", .string "put"), ("result", result dangling)]])]⟩
    let methods : List PlacedMethod :=
      [⟨0, "get", none, [], some ⟨"pet", false, none, .bool true⟩, []⟩,
        ⟨1, "put", none, [], some ⟨"pet", false, none, dangling⟩, []⟩]
    let registry := ((Run.forProfile document .empty .typescript).resolveModule methods).registry
    let output := generateModule document .empty .typescript .standard
    Order.FindsComponents Order.stronglyConnected ∧ documentMethods document = .ok methods ∧
      output.declarations.length + (output.errors.filter fun report => report.method.isNone).length
        = 2 + registry.entries.length ∧
      output.methods.length + (output.errors.filter fun report => report.method.isSome).length
        = 2 := by
  intro dangling result document methods registry output
  have hfind := Order.findsComponents_stronglyConnected
  have hmethods : documentMethods document = .ok methods := by rfl
  obtain ⟨schemas, resolved, declared, projected, -, -, -, hdeclarable, hplaced, hdeclarations,
    hschemaErrors, hprojected, hmethodErrors⟩ :=
    generateModuleBy_accounts hfind document .empty .typescript .standard hmethods
  have hnamed : document.named.length = 2 := by rfl
  have hdeclared := congrArg List.length hdeclarable
  have hall := congrArg List.length hplaced
  rw [List.length_map] at hdeclared hall
  rw [List.length_append, List.length_map, List.length_map, hnamed] at hdeclared
  refine ⟨hfind, hmethods, ?_, ?_⟩
  · rw [← hdeclared, ← length_successes_add_length_reports declared, hdeclarations.length_eq,
      hschemaErrors.length_eq]
    rfl
  · have hcount : (successes projected).length
        + (reports (fun placed => some placed.method.name) projected).length = 2 :=
      (length_successes_add_length_reports projected).trans hall
    rw [hprojected, hmethodErrors.length_eq] at hcount
    exact hcount

end RpcSchema
