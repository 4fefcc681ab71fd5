import RpcSchema.Generation
import RpcSchema.Proofs.Outcome
import RpcSchema.Proofs.Promotion.Names
import RpcSchema.Proofs.Unification.Names

/-!
# Resolving a module

All that resolving does to the registry is to register schemas: each schema is unified and then
promoted, one after the other, and both are scripts.  So the registry only grows while a module is
resolved, whatever fails on the way, and stays well kept.

Resolving brings no names.  If what is read in place of the schemas of the document names only
known schemas, then so does what is resolved, but for registered names.

## Main definitions

* `NamedSchema.Complete` — a schema to be declared has its name as title, and depends on what it
  names.
* `Run.Reads known` — what is read at a pointer has known names only.
* `Turns` — steps taken one after the other with one registry, and what came of each.

## Main results

* `Run.tries_resolveNamed`, `Run.tries_resolveMethod` — resolving is a script.
* `resolveEach_run` — each item has its turn, whatever came of those before.
* `Turns.spec` — what the turns keep, and what is known of the values they end with.
* `resolveModule_run`, `Resolution.Turns.spec` — the same for a module.
* `Resolution.Turns.complete` — all schemas to be declared depend on what they name.
-/

namespace RpcSchema

open Registry (Scripted Tries)

variable {known known' : Set String}

/-! ### Schemas to be declared -/

/-- A schema to be declared has its name as title, and depends on what it names. -/
structure NamedSchema.Complete (named : NamedSchema) : Prop where
  titled : named.schema.title = some named.name
  depends : ∀ name ∈ Kind.names named.schema.kind, name ≠ named.name → name ∈ named.dependencies

theorem NamedSchema.complete_of {name : String} {schema : Schema} (h : schema.title = some name) :
    (NamedSchema.of name schema).Complete where
  titled := h
  depends other hother hne := by
    have hdependency : other ∈ schema.dependencies := by
      rw [Schema.dependencies, distinct, mem_unionOf]
      exact .inr hother
    exact List.mem_filter.mpr ⟨hdependency, decide_eq_true hne⟩

/-- More dependencies do no harm. -/
theorem NamedSchema.Complete.withDependenciesOf {named : NamedSchema} (h : named.Complete)
    (source : Schema) : (named.withDependenciesOf source).Complete where
  titled := h.titled
  depends name hname hne := mem_unionOf.mpr (.inl (h.depends name hname hne))

/-! ### Resolving one schema -/

namespace Run

variable {run : Run} {value : Json} {pointer : String} {entry : NamedNode} {method : Method}
  {descriptor : Descriptor} {placed : PlacedMethod}

/-- A run starts with the names that schemas of the document go by. -/
theorem mem_reserved {name : String} :
    name ∈ run.registry.reserved ↔ ∃ entry ∈ run.document.named, entry.goesBy name = true := by
  change name ∈ run.document.named.flatMap _ ↔ _
  rw [List.mem_flatMap]
  refine exists_congr fun entry => and_congr_right fun _ => ?_
  simp only [List.mem_append, Option.mem_toList, List.mem_singleton, NamedNode.goesBy,
    Bool.or_eq_true, decide_eq_true_eq]
  exact ⟨fun h => h.symm.imp Eq.symm id, fun h => h.symm.imp id Eq.symm⟩

/-- A schema is read when it can be dereferenced and the result describes it. -/
theorem parsed_eq_ok_iff {schema : Schema} : run.parsed value pointer = .ok schema ↔
    ∃ result, run.store.dereferenceAt .standard value run.document pointer = .ok result ∧
      Schema.ofJson result.schema pointer = .ok schema := by
  simp only [parsed, bind_eq_ok_iff, mapError_eq_ok_iff]

/-- What is read in place of the schema at a pointer, if anything is, has known names only. -/
def Reads (run : Run) (known : Set String) (value : Json) (pointer : String) : Prop :=
  ∀ schema, run.parsed value pointer = .ok schema → schema.NamesOnly known

theorem Reads.mono (h : run.Reads known value pointer) (hsub : known ⊆ known') :
    run.Reads known' value pointer :=
  fun schema hschema => (h schema hschema).mono hsub

/-- When all names are known, nothing is asked for. -/
theorem reads_univ (run : Run) (value : Json) (pointer : String) :
    run.Reads Set.univ value pointer :=
  fun schema _ => schema.namesOnly_univ

/-- What is read and what is made of it: names stay known, and the title stays. -/
structure Canonical (run : Run) (value : Json) (pointer : String) (known : Set String)
    (schemas : Schema × Schema) : Prop where
  parsed : run.parsed value pointer = .ok schemas.1
  names : schemas.2.NamesOnly known
  title : ∀ name, schemas.1.title = some name → schemas.2.title = some name

theorem tries_canonical (h : run.Reads known value pointer) :
    Tries (run.Canonical value pointer) known (run.canonical value pointer) := by
  refine (Tries.of_outcome (p := fun known schema =>
    run.parsed value pointer = .ok schema ∧ schema.NamesOnly known) fun schema hschema =>
      ⟨hschema, h schema hschema⟩).bind fun known' _ schema ⟨hparsed, hschema⟩ => ?_
  refine (Tries.adapt (schema.tries_unify run.preserveUnions hschema) _).bind
    fun known'' _ unified ⟨hunified, htitle⟩ => .pure ⟨hparsed, hunified, htitle⟩

/-- What a named schema is resolved to. -/
structure ResolvesTo (run : Run) (entry : NamedNode) (known : Set String) (named : NamedSchema) :
    Prop where
  complete : named.Complete
  /-- What it holds goes by known names. -/
  parts : ∀ part ∈ named.schema.kind.parts, part.UsesOnly known
  /-- It keeps the title that it was read with. -/
  name : ∃ schema, run.parsed entry.node entry.pointer = .ok schema ∧
    ∀ title, schema.title = some title → named.name = title

theorem ResolvesTo.mono {named : NamedSchema} (h : run.ResolvesTo entry known named)
    (hsub : known ⊆ known') : run.ResolvesTo entry known' named :=
  ⟨h.complete, fun part hpart => (h.parts part hpart).mono hsub, h.name⟩

/-- **Resolving a named schema is a script.** -/
theorem tries_resolveNamed (h : run.Reads known entry.node entry.pointer) :
    Tries (run.ResolvesTo entry) known (run.resolveNamed entry) := by
  refine (tries_canonical h).bind fun known' _ schemas hcanonical => ?_
  obtain ⟨schema, unified⟩ := schemas
  have hname : ∀ title, schema.title = some title → unified.title.getD entry.name = title := by
    intro title htitle
    rw [hcanonical.title title htitle, Option.getD_some]
  dsimp only
  generalize unified.title.getD entry.name = name at hname ⊢
  -- The name itself is of no concern: only what the schema holds is promoted.
  have hparts : ∀ part ∈ (unified.withTitle name).kind.parts, part.UsesOnly known' :=
    fun part hpart => Schema.NamesOnly.usesOnly (hcanonical.names.parts part hpart)
  refine (Tries.lift (Schema.scripted_promote hparts name)).bind
    fun known'' _ promoted ⟨htitle, hpromoted⟩ => .pure ?_
  exact ⟨(NamedSchema.complete_of htitle).withDependenciesOf schema, hpromoted, schema,
    hcanonical.parsed, hname⟩

theorem tries_resolveLocated (h : run.Reads known entry.node entry.pointer) :
    Tries (fun known located => run.ResolvesTo entry known located.named) known
      (run.resolveLocated entry) :=
  (tries_resolveNamed h).bind fun _ _ _ hnamed => .pure hnamed

/-- **Resolving a parameter or result is a script.** -/
theorem tries_resolveDescriptor (h : run.Reads known descriptor.schema pointer) :
    Tries (fun known resolved => resolved.1 = descriptor ∧ resolved.2.UsesOnly known) known
      (run.resolveDescriptor method descriptor pointer) := by
  refine (tries_canonical h).bind fun known' _ schemas hcanonical => ?_
  refine (Tries.lift (Schema.scripted_lift schemas.2 _ hcanonical.names.usesOnly)).bind
    fun known'' _ lifted hlifted => .pure ⟨rfl, hlifted⟩

/-- The parameters and the result of a method are read with known names only. -/
structure ReadsMethod (run : Run) (known : Set String) (placed : PlacedMethod) : Prop where
  params : ∀ index descriptor, placed.method.params[index]? = some descriptor →
    run.Reads known descriptor.schema (placed.paramPointer index)
  result : ∀ descriptor, placed.method.result = some descriptor →
    run.Reads known descriptor.schema placed.resultPointer

theorem reads_method_univ (run : Run) (placed : PlacedMethod) : run.ReadsMethod Set.univ placed :=
  ⟨fun _ _ _ => run.reads_univ _ _, fun _ _ => run.reads_univ _ _⟩

theorem ReadsMethod.mono (h : run.ReadsMethod known placed) (hsub : known ⊆ known') :
    run.ReadsMethod known' placed :=
  ⟨fun index descriptor hindex => (h.params index descriptor hindex).mono hsub,
    fun descriptor hresult => (h.result descriptor hresult).mono hsub⟩

/-- Resolved parameters go by known names. -/
def ParamsUse (known : Set String) (params : List (Descriptor × Schema)) : Prop :=
  ∀ param ∈ params, param.2.UsesOnly known

theorem ParamsUse.mono {params : List (Descriptor × Schema)} (h : ParamsUse known params)
    (hsub : known ⊆ known') : ParamsUse known' params :=
  fun param hparam => (h param hparam).mono hsub

theorem tries_resolveParams {params : List Descriptor} (first : Nat)
    (h : ∀ index descriptor, params[index]? = some descriptor →
      run.Reads known descriptor.schema (placed.paramPointer (first + index))) :
    Tries ParamsUse known (run.resolveParams placed first params) := by
  induction params generalizing known first with
  | nil => exact .pure (List.forall_mem_nil _)
  | cons param rest ih =>
    refine (tries_resolveDescriptor (h 0 param rfl)).bind fun known' hsub resolved hresolved => ?_
    have hrest : ∀ index descriptor, rest[index]? = some descriptor →
        run.Reads known' descriptor.schema (placed.paramPointer (first + 1 + index)) := by
      intro index descriptor hindex
      rw [Nat.add_assoc, Nat.add_comm 1 index]
      exact (h (index + 1) descriptor hindex).mono hsub
    refine (ih (first + 1) hrest).bind fun known'' hsub' others hothers => .pure ?_
    exact List.forall_mem_cons.mpr ⟨hresolved.2.mono hsub', hothers⟩

/-- What a method is resolved to: its parameters and its result go by known names. -/
structure ResolvesMethodTo (placed : PlacedMethod) (known : Set String) (resolved : ResolvedMethod) :
    Prop where
  placed : resolved.placed = placed
  params : ParamsUse known resolved.params
  result : ∀ result, resolved.result = some result → result.2.UsesOnly known

theorem ResolvesMethodTo.mono {resolved : ResolvedMethod} (h : ResolvesMethodTo placed known resolved)
    (hsub : known ⊆ known') : ResolvesMethodTo placed known' resolved :=
  ⟨h.placed, h.params.mono hsub, fun result hresult => (h.result result hresult).mono hsub⟩

/-- **Resolving a method is a script.** -/
theorem tries_resolveMethod (h : run.ReadsMethod known placed) :
    Tries (ResolvesMethodTo placed) known (run.resolveMethod placed) := by
  have hparams : Tries ParamsUse known (run.resolveParams placed 0 placed.method.params) :=
    tries_resolveParams 0 fun index descriptor hindex =>
      (Nat.zero_add index).symm ▸ h.params index descriptor hindex
  refine hparams.bind fun known' hsub params hparams => ?_
  cases hresult : placed.method.result with
  | none => exact .pure ⟨rfl, hparams, fun _ heq => by cases heq⟩
  | some descriptor =>
    have hread := (h.result descriptor hresult).mono hsub
    refine Tries.bind (p := fun known result => ∀ found, result = some found → found.2.UsesOnly known)
      ?_ fun known'' hsub' result hresult => .pure ⟨rfl, hparams.mono hsub', hresult⟩
    exact (tries_resolveDescriptor hread).bind fun _ _ resolved hresolved =>
      .pure fun found heq => Option.some.inj heq ▸ hresolved.2

end Run

/-! ### Turns -/

section Turns

variable {α β : Type} {step : α → Resolving β} {before after : Registry}
  {pairs : List (α × Except Failure β)} {method? : α → Option String}

/-- Steps taken one after the other with one registry: what came of each item, between the
registry before the first step and the one after the last. -/
inductive Turns (step : α → Resolving β) :
    Registry → List (α × Except Failure β) → Registry → Prop
  | nil (registry : Registry) : Turns step registry [] registry
  | cons {before after : Registry} {pairs : List (α × Except Failure β)} (item : α)
      (rest : Turns step ((step item).run.run before).2 pairs after) :
      Turns step before ((item, ((step item).run.run before).1) :: pairs) after

/-- The values that items ended with, in order. -/
def successes (pairs : List (α × Except Failure β)) : List β :=
  pairs.filterMap fun pair => pair.2.toOption

/-- The reports of the items that failed, in order. -/
def reports (method? : α → Option String) (pairs : List (α × Except Failure β)) : List Report :=
  pairs.filterMap fun
    | (item, .error failure) => some (.ofFailure failure (method? item))
    | (_, .ok _) => none

@[simp] theorem successes_nil : successes ([] : List (α × Except Failure β)) = [] := rfl

@[simp] theorem reports_nil : reports method? ([] : List (α × Except Failure β)) = [] := rfl

@[simp] theorem successes_cons_ok (item : α) (value : β) :
    successes ((item, .ok value) :: pairs) = value :: successes pairs := rfl

@[simp] theorem successes_cons_error (item : α) (failure : Failure) :
    successes ((item, .error failure) :: pairs) = successes pairs := rfl

@[simp] theorem reports_cons_ok (item : α) (value : β) :
    reports method? ((item, .ok value) :: pairs) = reports method? pairs := rfl

@[simp] theorem reports_cons_error (item : α) (failure : Failure) :
    reports method? ((item, .error failure) :: pairs)
      = .ofFailure failure (method? item) :: reports method? pairs := rfl

theorem mem_successes {value : β} :
    value ∈ successes pairs ↔ ∃ item, (item, .ok value) ∈ pairs := by
  rw [successes, List.mem_filterMap]
  constructor
  · rintro ⟨⟨item, outcome⟩, hmem, hvalue⟩
    exact ⟨item, toOption_eq_some_iff.mp hvalue ▸ hmem⟩
  · rintro ⟨item, hmem⟩
    exact ⟨_, hmem, rfl⟩

theorem run_resolveEach_cons (item : α) (rest : List α) (registry : Registry) :
    (resolveEach method? step (item :: rest)).run registry =
      (let first := (step item).run.run registry
       let others := (resolveEach method? step rest).run first.2
       match first.1 with
       | .ok value => ({ others.1 with results := value :: others.1.results }, others.2)
       | .error failure =>
         ({ others.1 with errors := .ofFailure failure (method? item) :: others.1.errors },
           others.2)) := by
  rw [resolveEach, StateT.run_bind]
  change (match (step item).run.run registry with | (outcome, middle) => _) = _
  cases (step item).run.run registry with
  | mk outcome middle => cases outcome <;> rfl

/-- **Each item has its turn**, whatever came of those before it. -/
theorem resolveEach_run (method? : α → Option String) (step : α → Resolving β) (items : List α)
    (registry : Registry) :
    ∃ pairs, pairs.map Prod.fst = items ∧
      Turns step registry pairs ((resolveEach method? step items).run registry).2 ∧
        ((resolveEach method? step items).run registry).1
          = ⟨successes pairs, reports method? pairs⟩ := by
  induction items generalizing registry with
  | nil => exact ⟨[], rfl, .nil registry, rfl⟩
  | cons item rest ih =>
    obtain ⟨pairs, hitems, hturns, houtcomes⟩ := ih ((step item).run.run registry).2
    refine ⟨(item, ((step item).run.run registry).1) :: pairs, by rw [List.map_cons, hitems], ?_⟩
    rw [run_resolveEach_cons]
    dsimp only
    rw [houtcomes]
    have hcons := Turns.cons item hturns
    revert hcons
    cases ((step item).run.run registry).1 with
    | ok value => exact fun hcons => ⟨hcons, rfl⟩
    | error failure => exact fun hcons => ⟨hcons, rfl⟩

/-- What is known of the values that items ended with. -/
def AllEnd (p : α → Set String → β → Prop) (known : Set String)
    (pairs : List (α × Except Failure β)) : Prop :=
  ∀ pair ∈ pairs, ∀ value, pair.2 = .ok value → p pair.1 known value

/-- **What turns keep.**  The known names grow from one turn to the next, so what is known of the
first values has to last. -/
theorem Turns.spec (p : α → Set String → β → Prop)
    (hp : ∀ item known known' value, known ⊆ known' → p item known value → p item known' value)
    (h : Turns step before pairs after)
    (hstep : ∀ pair ∈ pairs, ∀ known', known ⊆ known' → Tries (p pair.1) known' (step pair.1)) :
    before.Grown after ∧
      ∃ known', Registry.Ends (AllEnd p) known before (pairs, after) known' := by
  induction h generalizing known with
  | nil registry =>
    exact ⟨.refl registry, known, subset_rfl, fun _ hname => .inl hname,
      List.forall_mem_nil _, id⟩
  | @cons before after pairs item rest ih =>
    obtain ⟨hitem, hrest⟩ := List.forall_mem_cons.mp hstep
    obtain ⟨hgrown, middle, hends⟩ := (hitem known subset_rfl).run before
    obtain ⟨hgrown', known', hends'⟩ := ih fun pair hpair known' hsub =>
      hrest pair hpair known' (hends.grows.trans hsub)
    refine ⟨hgrown.trans hgrown', known', hends.grows.trans hends'.grows, fun name hname => ?_,
      List.forall_mem_cons.mpr ⟨fun value hvalue => ?_, hends'.holds⟩,
      fun hknows => hends'.knows (hends.knows hknows)⟩
    · rcases hends'.bound name hname with hmiddle | hkey
      · exact (hends.bound name hmiddle).imp id hgrown'.grows.keys_mem
      · exact .inr hkey
    · exact hp item middle known' value hends'.grows (hends.holds value hvalue)

end Turns

/-! ### Resolving a module -/

section Module

variable {run : Run} {methods : List PlacedMethod} {resolution : Resolution}

/-- The turns in which a module is resolved: what came of each named schema and each method, and
the registry between them. -/
structure Resolution.Turns (run : Run) (methods : List PlacedMethod) (resolution : Resolution)
    (schemas : List (NamedNode × Except Failure LocatedSchema))
    (resolved : List (PlacedMethod × Except Failure ResolvedMethod)) : Prop where
  named : schemas.map Prod.fst = run.document.named
  methods : resolved.map Prod.fst = methods
  turns : ∃ middle, RpcSchema.Turns run.resolveLocated run.registry schemas middle ∧
    RpcSchema.Turns run.resolveMethod middle resolved resolution.registry
  schemaOutcomes : resolution.schemas = ⟨successes schemas, reports (fun _ => none) schemas⟩
  methodOutcomes : resolution.methods = ⟨successes resolved,
    reports (fun placed => some placed.method.name) resolved⟩

/-- **A module is resolved in turns.** -/
theorem resolveModule_run (run : Run) (methods : List PlacedMethod) :
    ∃ schemas resolved, (run.resolveModule methods).Turns run methods schemas resolved := by
  obtain ⟨schemas, hnamed, hschemas, houtcomes⟩ := resolveEach_run (fun _ => none)
    run.resolveLocated run.document.named run.registry
  obtain ⟨resolved, hmethods, hresolved, houtcomes'⟩ := resolveEach_run
    (fun placed : PlacedMethod => some placed.method.name) run.resolveMethod methods
    ((resolveEach (fun _ => none) run.resolveLocated run.document.named).run run.registry).2
  exact ⟨schemas, resolved, hnamed, hmethods, ⟨_, hschemas, hresolved⟩, houtcomes, houtcomes'⟩

/-- **What is known of a resolved module**, when what is read in place of its schemas has known
names only. -/
theorem Resolution.Turns.spec {schemas : List (NamedNode × Except Failure LocatedSchema)}
    {resolved : List (PlacedMethod × Except Failure ResolvedMethod)}
    (h : resolution.Turns run methods schemas resolved)
    (hschemas : ∀ entry ∈ run.document.named, run.Reads known entry.node entry.pointer)
    (hmethods : ∀ placed ∈ methods, run.ReadsMethod known placed) :
    run.registry.Grown resolution.registry ∧ ∃ known',
      known ⊆ known' ∧
      (∀ name ∈ known', name ∈ known ∨ name ∈ Fields.keys resolution.registry.entries) ∧
      AllEnd (fun entry known located => run.ResolvesTo entry known located.named) known' schemas ∧
      AllEnd Run.ResolvesMethodTo known' resolved ∧
      resolution.registry.Knows known' := by
  obtain ⟨middle, hfirst, hsecond⟩ := h.turns
  have hentries : ∀ pair ∈ schemas, pair.1 ∈ run.document.named := fun pair hpair =>
    h.named ▸ List.mem_map_of_mem hpair
  have hplaced : ∀ pair ∈ resolved, pair.1 ∈ methods := fun pair hpair =>
    h.methods ▸ List.mem_map_of_mem hpair
  obtain ⟨hgrown, known₁, hends⟩ := hfirst.spec
    (fun entry known located => run.ResolvesTo entry known located.named)
    (fun _ _ _ _ hsub hvalue => Run.ResolvesTo.mono hvalue hsub) fun pair hpair known' hsub =>
      Run.tries_resolveLocated ((hschemas pair.1 (hentries pair hpair)).mono hsub)
  obtain ⟨hgrown', known₂, hends'⟩ := hsecond.spec Run.ResolvesMethodTo
    (fun _ _ _ _ hsub hvalue => hvalue.mono hsub) fun pair hpair known' hsub =>
      Run.tries_resolveMethod
      ((hmethods pair.1 (hplaced pair hpair)).mono (hends.grows.trans hsub))
  refine ⟨hgrown.trans hgrown', known₂, hends.grows.trans hends'.grows, fun name hname => ?_,
    fun pair hpair value hvalue =>
      Run.ResolvesTo.mono (hends.holds pair hpair value hvalue) hends'.grows,
    hends'.holds, hends'.knows (hends.knows (List.forall_mem_nil _))⟩
  rcases hends'.bound name hname with hmiddle | hkey
  · exact (hends.bound name hmiddle).imp id hgrown'.grows.keys_mem
  · exact .inr hkey

/-- A resolved method is the method that was to be resolved. -/
theorem Resolution.Turns.placed_eq {schemas : List (NamedNode × Except Failure LocatedSchema)}
    {resolved : List (PlacedMethod × Except Failure ResolvedMethod)}
    (h : resolution.Turns run methods schemas resolved) {placed : PlacedMethod}
    {value : ResolvedMethod} (hmem : (placed, .ok value) ∈ resolved) : value.placed = placed := by
  obtain ⟨-, known', -, -, -, hends, -⟩ := h.spec (fun entry _ => run.reads_univ _ _)
    fun placed _ => run.reads_method_univ placed
  exact (hends _ hmem value rfl).placed

/-- Registered schemas have their names as titles, and depend on what they name. -/
theorem Registry.WellKept.complete {registry : Registry} (h : registry.WellKept) :
    ∀ entry ∈ registry.entries, (NamedSchema.of entry.1 entry.2).Complete :=
  fun entry hentry => NamedSchema.complete_of (h.titled entry hentry)

/-- **All schemas to be declared depend on what they name.** -/
theorem Resolution.Turns.complete {schemas : List (NamedNode × Except Failure LocatedSchema)}
    {resolved : List (PlacedMethod × Except Failure ResolvedMethod)}
    (h : resolution.Turns run methods schemas resolved) :
    ∀ named ∈ resolution.named, named.Complete := by
  obtain ⟨hgrown, known', -, -, hschemas, -, -⟩ := h.spec (fun entry _ => run.reads_univ _ _)
    fun placed _ => run.reads_method_univ placed
  refine List.forall_mem_append.mpr ⟨fun named hnamed => ?_, fun named hnamed => ?_⟩
  · obtain ⟨located, hlocated, rfl⟩ := List.mem_map.mp hnamed
    rw [h.schemaOutcomes] at hlocated
    obtain ⟨entry, hmem⟩ := mem_successes.mp hlocated
    exact (hschemas _ hmem located rfl).complete
  · obtain ⟨entry, hentry, rfl⟩ := List.mem_map.mp hnamed
    exact (hgrown.kept (Registry.wellKept_reserving _)).complete entry hentry

end Module

end RpcSchema
