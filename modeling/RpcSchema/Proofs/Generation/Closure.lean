import RpcSchema.Proofs.Dereference.Mooring
import RpcSchema.Proofs.Document
import RpcSchema.Proofs.Generation.Precedence
import RpcSchema.Proofs.Projection.Names

/-!
# Closed modules

What a module mentions is declared, or belongs to another module, when nothing fails and what is
read in place of its schemas has such names only.  Unification, promotion and projection bring no
names of their own but those of registered schemas, and those are declared.  A schema of the
document is declared under its title: no keyword of the target of a reference takes the place of
a title beside it, and unification keeps the title that was read.

The names that are read have to be asked for.  A titled schema within another is left to its own
declaration, and it has none unless it is a named schema of the document; and a reference left in
place goes by the key of what it refers to, which need not be the title that it is declared under.

## Main definitions

* `ModuleOutput.shapes` — all shapes of a module.
* `Store.Foreign` — the names that belong to other modules.
* `ModuleOutput.Closed` — all mentioned names are declared or foreign.

## Main results

* `Run.title_of_parsed` — a schema is read with the title that it has.
* `Resolution.Turns.mem_names` — all known names are declared, when nothing fails.
* `generateModuleBy_closed` — the module is closed, when nothing fails and the names that are read
  are known.
-/

namespace RpcSchema

/-! ### Titles stay -/

section Titles

variable {setting : WalkSetting} {frame : Frame} {fields beside : Fields Json} {title : String}

/-- The title beside a reference wins over that of the target. -/
theorem get?_title_overlay (h : Fields.get? beside "title" = some (.string title)) :
    Fields.get? (fields.foldl overlayMember beside) "title" = some (.string title) := by
  induction fields generalizing beside with
  | nil => exact h
  | cons entry rest ih =>
    refine ih ?_
    rw [overlayMember_eq_set]
    by_cases hname : entry.1 = "title"
    · obtain ⟨name, value⟩ := entry
      obtain rfl : name = "title" := hname
      rw [Fields.get?_set_self, laidOver, h]
      rfl
    · rw [Fields.get?_set_of_ne _ _ (Ne.symm hname), h]

/-- An object of distinct names with a title. -/
def Json.Titled (value : Json) (title : String) : Prop :=
  ∃ fields, value = .object fields ∧ (Fields.keys fields).Nodup ∧
    Fields.get? fields "title" = some (.string title)

theorem Json.titled_of_distinctNames {value : Json} (hnames : value.DistinctNames)
    (h : value.stringField? "title" = some title) : value.Titled title := by
  obtain ⟨found, hfield, hstring⟩ := Option.bind_eq_some_iff.mp h
  cases value with
  | object fields =>
    refine ⟨fields, rfl, (Json.everyObject_object_iff.mp hnames).1, ?_⟩
    cases found with
    | string text =>
      obtain rfl := Option.some.inj hstring
      exact hfield
    | _ => cases hstring
  | _ => cases hfield

theorem Json.titled_overlayTarget (hkeys : (Fields.keys beside).Nodup)
    (htitle : Fields.get? beside "title" = some (.string title)) (target : Json) :
    (overlayTarget beside target).Titled title := by
  cases target with
  | object fields => exact ⟨_, rfl, nodup_keys_overlay hkeys, get?_title_overlay htitle⟩
  | _ =>
    -- There is something beside the reference, so a target that is no object is dropped.
    cases beside with
    | nil => cases htitle
    | cons entry rest => exact ⟨_, rfl, hkeys, htitle⟩

/-- **A walk leaves the title of an object.** -/
theorem Walks.titled {value walked : Json} {log log' : WalkLog}
    (h : Walks setting frame value log walked log') (htitled : value.Titled title) :
    walked.Titled title := by
  obtain ⟨fields, rfl, hkeys, htitle⟩ := htitled
  have hne : "title" ≠ markerKeyword := by decide
  have hmembers : ∀ {frame : Frame} {fields' : Fields Json} {log' : WalkLog},
      WalksMembers setting frame fields log fields' log' → (Fields.keys fields').Nodup ∧
        Fields.get? fields' "title" = some (.string title) :=
    fun hmembers => ⟨hmembers.keys_eq ▸ hkeys, hmembers.get?_of_string htitle⟩
  cases h with
  | scalar hobject => cases hobject
  | object _ hwalks => exact ⟨_, rfl, hmembers hwalks⟩
  | keep _ _ hwalks => exact ⟨_, rfl, hmembers hwalks⟩
  | copied _ _ hwalks _ | copy _ _ hwalks _ _ _ =>
    obtain ⟨hkeys', htitle'⟩ := hmembers hwalks
    exact ⟨_, rfl, Fields.nodup_keys_set hkeys' _ _,
      (Fields.get?_set_of_ne _ _ (by decide)).trans htitle'⟩
  | leave _ _ hwalks =>
    obtain ⟨hkeys', htitle'⟩ := hmembers hwalks
    refine ⟨_, rfl, Fields.nodup_keys_set (Fields.nodup_keys_swapErase hkeys' _) _ _, ?_⟩
    rw [Fields.get?_set_of_ne _ _ hne, Fields.get?_swapErase_of_ne hkeys' (by decide), htitle']
  | inline _ _ hwalks _ =>
    obtain ⟨hkeys', htitle'⟩ := hmembers hwalks
    exact Json.titled_overlayTarget (Fields.nodup_keys_swapErase hkeys' _)
      ((Fields.get?_swapErase_of_ne hkeys' (by decide)).trans htitle') _

/-- Markers are not titles. -/
theorem Json.Titled.restoreMarkers {value : Json} (h : value.Titled title) :
    value.restoreMarkers.Titled title := by
  obtain ⟨fields, rfl, hkeys, htitle⟩ := h
  have hkeys' : (Fields.keys (Json.restoreMarkersFields fields)).Nodup := by
    rwa [Json.keys_restoreMarkersFields]
  refine ⟨_, rfl, nodup_keys_restoreMarker hkeys', ?_⟩
  rw [get?_restoreMarker hkeys', if_neg (by decide), if_neg (by decide),
    Json.get?_restoreMarkersFields, htitle]
  rfl

/-- What describes a schema gives it its title. -/
theorem Schema.title_of_ofJson {value : Json} {path : String} {schema : Schema}
    (h : Schema.ofJson value path = .ok schema) (htitled : value.Titled title) :
    schema.title = some title := by
  obtain ⟨fields, rfl, -, htitle⟩ := htitled
  rw [Schema.ofJson, Schema.read, htitle] at h
  dsimp only at h
  split at h
  · obtain rfl := Except.ok.inj h
    rfl
  · obtain ⟨⟨base, taken⟩, -, h⟩ := bind_eq_ok_iff.mp h
    obtain ⟨parts, -, h⟩ := bind_eq_ok_iff.mp h
    obtain ⟨branches, -, h⟩ := bind_eq_ok_iff.mp h
    obtain ⟨alternatives, -, h⟩ := bind_eq_ok_iff.mp h
    obtain rfl := Except.ok.inj h
    rfl

/-- **A schema is read with the title that it has.** -/
theorem Run.title_of_parsed {run : Run} {value : Json} {pointer : String} {schema : Schema}
    (hnames : value.DistinctNames) (htitle : value.stringField? "title" = some title)
    (h : run.parsed value pointer = .ok schema) : schema.title = some title := by
  obtain ⟨result, hresult, hschema⟩ := Run.parsed_eq_ok_iff.mp h
  obtain ⟨walked, log, hwalks, rfl⟩ := dereferenceAt_eq_ok_iff.mp hresult
  have htitled := hwalks.titled (Json.titled_of_distinctNames hnames htitle)
  exact Schema.title_of_ofJson hschema htitled.restoreMarkers

end Titles

/-! ### Names in methods -/

/-- The shapes of the parameters and the result of a method. -/
def ProjectedMethod.shapes (method : ProjectedMethod) : List Shape :=
  (method.params ++ method.result.toList).map ProjectedParam.shape

/-- All shapes of a module: those of its declarations and those of its methods. -/
def ModuleOutput.shapes (output : ModuleOutput) : List Shape :=
  output.declarations.map Declaration.shape ++ output.methods.flatMap ProjectedMethod.shapes

namespace Projector

variable {projector : Projector} {names : Set String}

theorem within_param {descriptor : Descriptor} {required : Bool} {schema : Schema}
    {param : ProjectedParam} (hschema : schema.UsesOnly names)
    (h : projector.param descriptor required schema = .ok param) : param.shape.Within names := by
  obtain ⟨ref, -, h⟩ := bind_eq_ok_iff.mp h
  obtain ⟨shape, hshape, h⟩ := bind_eq_ok_iff.mp h
  obtain rfl := Except.ok.inj h
  exact (bounds_usesOnly projector names).usedWithin hschema [] shape hshape

theorem within_params {placed : PlacedMethod} {first : Nat} {params : List (Descriptor × Schema)}
    {projected : List ProjectedParam} (hparams : Run.ParamsUse names params)
    (h : projector.params placed first params = .ok projected) :
    ∀ param ∈ projected, param.shape.Within names := by
  induction params generalizing first projected with
  | nil =>
    obtain rfl := Except.ok.inj h
    exact List.forall_mem_nil _
  | cons param rest ih =>
    obtain ⟨hparam, hrest⟩ := List.forall_mem_cons.mp hparams
    obtain ⟨descriptor, schema⟩ := param
    rw [Projector.params] at h
    obtain ⟨shown, hshown, h⟩ := bind_eq_ok_iff.mp h
    obtain ⟨others, hothers, h⟩ := bind_eq_ok_iff.mp h
    obtain rfl := Except.ok.inj h
    exact List.forall_mem_cons.mpr ⟨within_param hparam hshown, ih hrest hothers⟩

/-- The payload of an event goes by the names of the whole. -/
theorem usesOnly_eventPayload {schema : Schema} (h : schema.UsesOnly names) :
    schema.eventPayload.UsesOnly names := by
  obtain ⟨title, description, kind, extra⟩ := schema
  cases kind with
  | anyOf branches =>
    cases hpayload : Schema.payloadBranch? branches with
    | none =>
      simpa only [Schema.eventPayload, hpayload, Option.getD_none] using h
    | some branch =>
      have hbranch : branch.UsesOnly names := h.parts branch (List.mem_of_find?_eq_some hpayload)
      simpa only [Schema.eventPayload, hpayload, Option.getD_some] using hbranch
  | _ => exact h

/-- **The names in the shapes of a method.** -/
theorem within_method {placed : PlacedMethod} {resolved : ResolvedMethod} {method : ProjectedMethod}
    (hresolved : Run.ResolvesMethodTo placed names resolved)
    (h : projector.method resolved = .ok method) : ∀ shape ∈ method.shapes, shape.Within names := by
  rw [Projector.method] at h
  obtain ⟨params, hparams, h⟩ := bind_eq_ok_iff.mp h
  obtain ⟨result, hresult, h⟩ := bind_eq_ok_iff.mp h
  obtain rfl := Except.ok.inj h
  intro shape hshape
  obtain ⟨param, hparam, rfl⟩ := List.mem_map.mp hshape
  rcases List.mem_append.mp hparam with hparam | hparam
  · exact within_params hresolved.params hparams param hparam
  · obtain rfl := Option.mem_toList.mp hparam
    cases hfound : resolved.result with
    | none =>
      rw [hfound] at hresult
      cases hresult
    | some found =>
      have hfoundNames := hresolved.result found hfound
      rw [hfound] at hresult
      obtain ⟨shown, hshown, hresult⟩ := bind_eq_ok_iff.mp hresult
      obtain rfl := Option.some.inj (Except.ok.inj hresult)
      refine within_param ?_ hshown
      split
      · exact usesOnly_eventPayload hfoundNames
      · exact hfoundNames

end Projector

/-! ### Closed modules -/

/-- The name belongs to another module. -/
def Store.Foreign (store : Store) (document : Document) (name : String) : Prop :=
  ∃ owner, store.owner? name document = some owner ∧ owner ≠ document.title

/-- The titles of the named schemas of a document. -/
def Document.titles (document : Document) : Set String :=
  {title | ∃ entry ∈ document.named, entry.node.stringField? "title" = some title}

/-- Without reports, every item ends with a value. -/
theorem exists_ok_of_reports_eq_nil {α β : Type} {method? : α → Option String}
    {pairs : List (α × Except Failure β)} (h : reports method? pairs = [])
    {pair : α × Except Failure β} (hmem : pair ∈ pairs) : ∃ value, pair.2 = .ok value := by
  obtain ⟨item, outcome⟩ := pair
  cases outcome with
  | ok value => exact ⟨value, rfl⟩
  | error failure =>
    have hreport := List.filterMap_eq_nil_iff.mp h _ hmem
    cases hreport


section Closed

variable {run : Run} {methods : List PlacedMethod} {resolution : Resolution}
  {schemas : List (NamedNode × Except Failure LocatedSchema)}
  {resolved : List (PlacedMethod × Except Failure ResolvedMethod)} {known : Set String}

/-- The names that a module is to declare: those of its resolved schemas and of the registered
ones. -/
def Resolution.names (resolution : Resolution) : Set String :=
  {name | ∃ named ∈ resolution.named, named.name = name}

/-- A resolved schema is to be declared. -/
theorem Resolution.Turns.mem_named (h : resolution.Turns run methods schemas resolved)
    {entry : NamedNode} {located : LocatedSchema} (hmem : (entry, .ok located) ∈ schemas) :
    located.named ∈ resolution.named := by
  refine List.mem_append_left _ (List.mem_map.mpr ⟨located, ?_, rfl⟩)
  rw [h.schemaOutcomes]
  exact mem_successes.mpr ⟨entry, hmem⟩

/-- A schema of the document goes by its title when it is resolved. -/
theorem Resolution.Turns.name_eq (h : resolution.Turns run methods schemas resolved)
    (hnames : run.document.root.DistinctNames) {entry : NamedNode} {located : LocatedSchema}
    (hmem : (entry, .ok located) ∈ schemas) {title : String}
    (htitle : entry.node.stringField? "title" = some title) : located.named.name = title := by
  have hentry : entry ∈ run.document.named := h.named ▸ List.mem_map_of_mem hmem
  obtain ⟨steps, hlocate⟩ := Document.locate?_of_mem_named hnames hentry
  obtain ⟨-, known', -, -, hschemas, -, -⟩ := h.spec (fun entry _ => run.reads_univ _ _)
    fun placed _ => run.reads_method_univ placed
  obtain ⟨schema, hparsed, hname⟩ := (hschemas _ hmem located rfl).name
  exact hname title (Run.title_of_parsed (hnames.of_locate? hlocate) htitle hparsed)

/-- **The titles of the document are declared**, when all its schemas are resolved. -/
theorem Resolution.Turns.titles_subset (h : resolution.Turns run methods schemas resolved)
    (hnames : run.document.root.DistinctNames) (hdone : reports (fun _ => none) schemas = []) :
    run.document.titles ⊆ resolution.names := by
  rintro title ⟨entry, hentry, htitle⟩
  rw [← h.named] at hentry
  obtain ⟨⟨entry, outcome⟩, hmem, rfl⟩ := List.mem_map.mp hentry
  obtain ⟨located, rfl⟩ : ∃ located, outcome = .ok located :=
    exists_ok_of_reports_eq_nil hdone hmem
  exact ⟨located.named, h.mem_named hmem, h.name_eq hnames hmem htitle⟩

/-- **What is resolved goes by known names and names to be declared.** -/
theorem Resolution.Turns.uses (h : resolution.Turns run methods schemas resolved)
    (hschemas : ∀ entry ∈ run.document.named, run.Reads known entry.node entry.pointer)
    (hmethods : ∀ placed ∈ methods, run.ReadsMethod known placed) :
    (∀ named ∈ resolution.named, ∀ part ∈ named.schema.kind.parts,
      part.UsesOnly (known ∪ resolution.names)) ∧
      AllEnd Run.ResolvesMethodTo (known ∪ resolution.names) resolved := by
  obtain ⟨-, known', -, hbound, hends, hends', hknows⟩ := h.spec hschemas hmethods
  have hregistered : ∀ entry ∈ resolution.registry.entries,
      NamedSchema.of entry.1 entry.2 ∈ resolution.named := fun entry hentry =>
    List.mem_append_right _ (List.mem_map_of_mem hentry)
  -- A name that came to be known is that of a registered schema.
  have hsub : known' ⊆ known ∪ resolution.names := by
    intro name hname
    rcases hbound name hname with hknown | hkey
    · exact .inl hknown
    · obtain ⟨entry, hentry, rfl⟩ := List.mem_map.mp hkey
      exact .inr ⟨_, hregistered entry hentry, rfl⟩
  refine ⟨fun named hnamed part hpart => ?_, fun pair hpair value hvalue =>
    (hends' pair hpair value hvalue).mono hsub⟩
  rcases List.mem_append.mp hnamed with hnamed | hnamed
  · obtain ⟨located, hlocated, rfl⟩ := List.mem_map.mp hnamed
    rw [h.schemaOutcomes] at hlocated
    obtain ⟨entry, hmem⟩ := mem_successes.mp hlocated
    exact ((hends _ hmem located rfl).parts part hpart).mono hsub
  · obtain ⟨entry, hentry, rfl⟩ := List.mem_map.mp hnamed
    exact (hknows entry hentry part hpart).mono hsub

end Closed

/-- Every name that the module mentions is that of a declaration or belongs to another module. -/
def ModuleOutput.Closed (store : Store) (document : Document) (output : ModuleOutput) : Prop :=
  ∀ shape ∈ output.shapes, ∀ name ∈ shape.names,
    (∃ declaration ∈ output.declarations, declaration.name = name) ∨ store.Foreign document name

section Output

variable {findComponents : Nat → List (Nat × Nat) → List (List Nat)} {document : Document}
  {store : Store} {profile : Profile} {options : ProjectionOptions}
  (hfind : Order.FindsComponents findComponents)

include hfind

/-- What is declared. -/
theorem mem_declarations_iff {declaration : Declaration} :
    let resolution := (Run.forProfile document store profile).resolveModule
      (readableMethods document)
    let projector := Projector.atRoot document store profile options
    declaration ∈ (generateModuleBy findComponents document store profile options).declarations ↔
      ∃ named ∈ resolution.named,
        (projector.atPath (resolution.pointerTo named.name)).declare named = .ok declaration := by
  intro resolution projector
  simp only [declarations_eq, List.mem_filterMap, toOption_eq_some_iff,
    (orderBy_perm hfind _).mem_iff, resolution, projector]

/-- **Without errors** everything is resolved and projected. -/
theorem outcomes_of_errors_eq_nil
    (h : (generateModuleBy findComponents document store profile options).errors = []) :
    let resolution := (Run.forProfile document store profile).resolveModule
      (readableMethods document)
    let projector := Projector.atRoot document store profile options
    resolution.schemas.errors = [] ∧ resolution.methods.errors = [] ∧
      (∀ named ∈ resolution.named, ∃ declaration,
        (projector.atPath (resolution.pointerTo named.name)).declare named = .ok declaration) ∧
      ∀ (index : Nat) (value : ResolvedMethod), resolution.methods.results[index]? = some value →
        ∃ method, projector.method value = .ok method ∧
          (resolution.methods.results.filterMap fun value =>
            (projector.method value).toOption)[index]? = some method := by
  intro resolution projector
  simp only [generateModuleBy_eq, generateMethods, List.append_eq_nil_iff, tryEach_eq] at h
  obtain ⟨⟨⟨⟨hschemas, -⟩, hmethods⟩, hdeclared⟩, hprojected⟩ := h
  refine ⟨hschemas, hmethods, fun named hnamed => ?_, fun index value hvalue => ?_⟩
  · have hordered := (orderBy_perm hfind resolution.named).mem_iff.mpr hnamed
    exact exists_ok_of_reports_eq_nil hdeclared (List.mem_map_of_mem hordered)
  · have hitems : (resolution.methods.results.map fun value =>
        (value, projector.method value)).map Prod.fst = resolution.methods.results := by
      rw [List.map_map]
      exact List.map_id' _
    obtain ⟨method, hmem, hmethod⟩ := getElem?_successes hprojected (hitems.symm ▸ hvalue)
    obtain ⟨other, -, heq⟩ := List.mem_map.mp hmem
    obtain ⟨rfl, hok⟩ := Prod.ext_iff.mp heq
    rw [successes_map] at hmethod
    exact ⟨method, hok, hmethod⟩

/-- Without errors, all schemas are resolved and declared. -/
theorem resolved_of_errors_eq_nil
    (h : (generateModuleBy findComponents document store profile options).errors = []) :
    let resolution := (Run.forProfile document store profile).resolveModule
      (readableMethods document)
    resolution.schemas.errors = [] ∧
      ∀ named ∈ resolution.named,
        ∃ declaration ∈ (generateModuleBy findComponents document store profile options).declarations,
          declaration.name = named.name := by
  intro resolution
  obtain ⟨hschemas, -, hdeclared, -⟩ := outcomes_of_errors_eq_nil hfind h
  refine ⟨hschemas, fun named hnamed => ?_⟩
  obtain ⟨declaration, hok⟩ := hdeclared named hnamed
  exact ⟨declaration, (mem_declarations_iff hfind).mpr ⟨named, hnamed, hok⟩,
    (Projector.declare_eq_ok hok).1⟩

/-- **Closed modules.**  When all that is read in place of the schemas of a document has names
that are titles of its named schemas or belong to other modules, and nothing fails, then every
name that a declaration, a parameter or a result mentions at any depth is that of a declaration
or belongs to another module. -/
theorem generateModuleBy_closed (hnames : document.root.DistinctNames) :
    let run := Run.forProfile document store profile
    let known := document.titles ∪ {name | store.Foreign document name}
    let output := generateModuleBy findComponents document store profile options
    (∀ entry ∈ document.named, run.Reads known entry.node entry.pointer) →
    (∀ placed ∈ readableMethods document, run.ReadsMethod known placed) →
    output.errors = [] → output.Closed store document := by
  intro run known output hschemas hmethods herrors
  obtain ⟨schemas, resolved, hturns⟩ := resolveModule_run run (readableMethods document)
  obtain ⟨hparts, hends⟩ := hturns.uses hschemas hmethods
  obtain ⟨hdone, hdeclared⟩ := resolved_of_errors_eq_nil hfind herrors
  rw [hturns.schemaOutcomes] at hdone
  -- All known names and all names to be declared are declared or foreign.
  let closed : Set String := {name | (∃ declaration ∈ output.declarations, declaration.name = name) ∨
    store.Foreign document name}
  have hnamed : (run.resolveModule (readableMethods document)).names ⊆ closed := by
    rintro name ⟨named, hmem, rfl⟩
    exact .inl (hdeclared named hmem)
  have hsub : known ∪ (run.resolveModule (readableMethods document)).names ⊆ closed :=
    Set.union_subset (Set.union_subset ((hturns.titles_subset hnames hdone).trans hnamed)
      fun name hforeign => .inr hforeign) hnamed
  intro shape hshape
  suffices shape.Within closed from this
  rcases List.mem_append.mp hshape with hshape | hshape
  · obtain ⟨declaration, hdeclaration, rfl⟩ := List.mem_map.mp hshape
    obtain ⟨named, hmem, hok⟩ := (mem_declarations_iff hfind).mp hdeclaration
    obtain ⟨-, hshape⟩ := Projector.declare_eq_ok hok
    refine (Projector.bounds_usesOnly _ closed).within_shape
      (fun part hpart => (hparts named hmem part hpart).mono hsub) (fun name hname => ?_) hshape
    -- The schema goes by its own name, which it is declared under.
    rw [Schema.useName?, (hturns.complete named hmem).titled, Option.some_or,
      Option.some.injEq] at hname
    exact hnamed ⟨named, hmem, hname⟩
  · obtain ⟨method, hmethod, hshape⟩ := List.mem_flatMap.mp hshape
    have hmethods' : output.methods = _ := methods_eq document store profile options
    rw [hmethods'] at hmethod
    obtain ⟨value, hvalue, hok⟩ := List.mem_filterMap.mp hmethod
    rw [hturns.methodOutcomes] at hvalue
    obtain ⟨placed, hplaced⟩ := mem_successes.mp hvalue
    exact Projector.within_method ((hends _ hplaced value rfl).mono hsub)
      (toOption_eq_some_iff.mp hok) shape hshape

end Output

/-! ### Closed and open documents -/

theorem namesOnly_petSchema {known : Set String} (h : "Pet" ∈ known) :
    petSchema.NamesOnly known := by
  refine .intro ⟨fun _ htitle => Option.some.inj htitle ▸ h, fun _ hrefers => by cases hrefers⟩ ?_
  exact List.forall_mem_singleton.mpr Schema.namesOnly_empty

theorem namesOnly_ownerSchema {known : Set String} (h : "Pet" ∈ known) (h' : "Owner" ∈ known) :
    ownerSchema.NamesOnly known := by
  refine .intro ⟨fun _ htitle => Option.some.inj htitle ▸ h', fun _ hrefers => by cases hrefers⟩ ?_
  exact List.forall_mem_singleton.mpr (namesOnly_petSchema h)

/-- The owner mentions the pet, which is a schema of the document, too, and so is declared. -/
theorem generateModuleBy_closed_owners :
    let run := Run.forProfile ownersDocument .empty .typescript
    let known := ownersDocument.titles ∪ {name | Store.empty.Foreign ownersDocument name}
    let output := generateModule ownersDocument .empty .typescript .standard
    Order.FindsComponents Order.stronglyConnected ∧ ownersDocument.root.DistinctNames ∧
      (∀ entry ∈ ownersDocument.named, run.Reads known entry.node entry.pointer) ∧
      (∀ placed ∈ readableMethods ownersDocument, run.ReadsMethod known placed) ∧
      output.errors = [] ∧
      ∃ shape ∈ output.shapes, "Pet" ∈ shape.names ∧
        ((∃ declaration ∈ output.declarations, declaration.name = "Pet") ∨
          Store.empty.Foreign ownersDocument "Pet") := by
  intro run known output
  have hfind := Order.findsComponents_stronglyConnected
  have hnames : ownersDocument.root.DistinctNames := by decide
  have hmethods : readableMethods ownersDocument = [] := rfl
  have hnamed : ownersDocument.named = [⟨"Owner", "#/definitions/Owner", ownerNode⟩,
      ⟨"Pet", "#/definitions/Pet", petNode⟩] := rfl
  have howner : "Owner" ∈ known := .inl ⟨_, hnamed ▸ List.mem_cons_self, rfl⟩
  have hpet : "Pet" ∈ known :=
    .inl ⟨_, hnamed ▸ List.mem_cons_of_mem _ List.mem_cons_self, rfl⟩
  have hschemas : ∀ entry ∈ ownersDocument.named, run.Reads known entry.node entry.pointer := by
    rw [hnamed]
    refine List.forall_mem_cons.mpr ⟨fun schema hschema => ?_,
      List.forall_mem_singleton.mpr fun schema hschema => ?_⟩
    · obtain rfl := Except.ok.inj (hschema.symm.trans parsed_ownerNode)
      exact namesOnly_ownerSchema hpet howner
    · obtain rfl := Except.ok.inj (hschema.symm.trans parsed_petNode)
      exact namesOnly_petSchema hpet
  have hplaced : ∀ placed ∈ readableMethods ownersDocument, run.ReadsMethod known placed := by
    rw [hmethods]
    exact fun _ hmem => absurd hmem List.not_mem_nil
  have herrors : output.errors = [] := by
    simp only [output, generateModule, generateModuleBy_eq, generateMethods, hmethods,
      resolveModule_ownersDocument]
    rfl
  have hmention : ∃ shape ∈ output.shapes, "Pet" ∈ shape.names := by
    have hshapes : (output.shapes.any fun shape => shape.names.contains "Pet") = true := by
      simp only [output, ModuleOutput.shapes, generateModule, generateModuleBy_eq, generateMethods,
        hmethods, resolveModule_ownersDocument]
      rfl
    simpa only [List.any_eq_true, List.contains_iff_mem] using hshapes
  obtain ⟨shape, hshape, hpetName⟩ := hmention
  exact ⟨hfind, hnames, hschemas, hplaced, herrors, shape, hshape, hpetName,
    generateModuleBy_closed hfind hnames hschemas hplaced herrors shape hshape "Pet" hpetName⟩

/-- A schema that holds a schema of another title. -/
def strayNode : Json := .object [("properties", .object [("pet", petNode)]),
  ("title", .string "Owner")]

/-- A document in which nothing is declared under that title. -/
def strayDocument : Document := ⟨none, "Pets", .object [
  ("info", .object [("title", .string "Pets")]), ("definitions", .object [("Owner", strayNode)])]⟩

theorem parsed_strayNode : (Run.forProfile strayDocument .empty .typescript).parsed strayNode
    "#/definitions/Owner" = .ok ownerSchema := by
  have hrun := @eq_ok_of_toOption
    (Store.empty.dereferenceAt .standard strayNode strayDocument "#/definitions/Owner")
    ⟨strayNode, [], []⟩ rfl
  refine Run.parsed_eq_ok_iff.mpr ⟨_, hrun, ?_⟩
  simp [strayNode, petNode, Schema.ofJson, Schema.read, Schema.readBody, Schema.readPartsAt,
    Schema.readObject, Schema.readFieldsAt, Schema.readFields, Schema.readAdditional, takenText,
    describesObject, describesArray, typeName?]
  rfl

theorem resolveModule_strayDocument :
    (Run.forProfile strayDocument .empty .typescript).resolveModule [] =
      ⟨⟨[⟨"#/definitions/Owner", ⟨"Owner", ownerSchema, ["Pet"]⟩⟩], []⟩, ⟨[], []⟩,
        (Run.forProfile strayDocument .empty .typescript).registry⟩ := by
  have hnamed : (Run.forProfile strayDocument .empty .typescript).document.named =
      [⟨"Owner", "#/definitions/Owner", strayNode⟩] := rfl
  rw [Run.resolveModule, hnamed]
  simp only [resolveEach, Run.resolveLocated, Run.resolveNamed, Run.canonical, parsed_strayNode]
  rfl

/-- A titled schema within another is mentioned by its title and left to its own declaration,
although it is no schema of the document and so is never declared. -/
theorem not_closed_strayDocument :
    let output := generateModule strayDocument .empty .typescript .standard
    output.errors = [] ∧ ¬output.Closed .empty strayDocument := by
  intro output
  have hmethods : readableMethods strayDocument = [] := rfl
  have houtput : output = generateMethods Order.stronglyConnected strayDocument .empty .typescript
      .standard [] [] := generateModuleBy_eq ..
  have herrors : output.errors = [] := by
    simp only [houtput, generateMethods, resolveModule_strayDocument]
    rfl
  have hshapes : (output.shapes.any fun shape => shape.names.contains "Pet") = true := by
    simp only [houtput, ModuleOutput.shapes, generateMethods, resolveModule_strayDocument]
    rfl
  have hdeclared : output.declarations.map Declaration.name = ["Owner"] := by
    simp only [houtput, generateMethods, resolveModule_strayDocument]
    rfl
  refine ⟨herrors, fun hclosed => ?_⟩
  obtain ⟨shape, hshape, hmention⟩ := List.any_eq_true.mp hshapes
  rcases hclosed shape hshape "Pet" (List.contains_iff_mem.mp hmention) with
    ⟨declaration, hdeclaration, hname⟩ | ⟨owner, howner, -⟩
  · have hmem : declaration.name ∈ output.declarations.map Declaration.name :=
      List.mem_map_of_mem hdeclaration
    rw [hdeclared, hname] at hmem
    exact absurd hmem (by decide)
  · have hnone : Store.empty.owner? "Pet" strayDocument = none := rfl
    rw [hnone] at howner
    cases howner

end RpcSchema
