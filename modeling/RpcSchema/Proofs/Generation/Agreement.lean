import RpcSchema.Proofs.Dereference.Simulation
import RpcSchema.Proofs.Generation.Resolution
import RpcSchema.Proofs.Schema.Paths

/-!
# Runs that agree

Two runs agree on a schema when they read the same in its place, or nothing.  Then they make the
same of it, whatever is registered, and leave the same registry.  So they agree on methods, too,
wherever these stand, and on whole modules, item by item.

An item that fails and leaves the registry as it was might as well not be there.  And what is
reserved matters only to names that are given out.

## Main definitions

* `Resolving.Agree` — steps of two runs with the same values and the same registries.
* `Run.ReadsAlike` — what two runs read is the same.
* `Run.resolveItems` — resolving any schemas and methods, with any registry.
* `Resolution.Alike` — resolutions with the same schemas and the same methods.

## Main results

* `Run.resolveItems_agree` — runs that agree on all items resolve them alike.
* `Run.resolveItems_skip_schema`, `Run.resolveItems_skip_method` — failed items are passed by.
* `Run.resolveItems_reserving` — names that are reserved in vain.
-/

namespace RpcSchema

open Registry (Scripted Tries)

/-! ### Steps that agree -/

/-- With any registry, the steps end with the same registry, and with values of which the same is
seen, or both fail. -/
def Resolving.Agree {α γ : Type} (view : α → γ) (x x' : Resolving α) : Prop :=
  ∀ registry, (x'.run.run registry).1.toOption.map view = (x.run.run registry).1.toOption.map view ∧
    (x'.run.run registry).2 = (x.run.run registry).2

namespace Resolving

variable {α β γ δ : Type} {view : α → γ} {view' : β → δ} {x x' : Resolving α}
  {f f' : α → Resolving β}

theorem Agree.pure {value value' : α} (h : view value' = view value) :
    Agree view (Pure.pure value) (Pure.pure value') :=
  fun _ => ⟨congrArg some h, rfl⟩

theorem Agree.refl (x : Resolving α) : Agree view x x := fun _ => ⟨rfl, rfl⟩

theorem Agree.of_outcome {outcome outcome' : Except Failure α}
    (h : outcome'.toOption = outcome.toOption) :
    Agree id (ExceptT.mk (Pure.pure outcome) : Resolving α) (ExceptT.mk (Pure.pure outcome')) :=
  fun _ => ⟨congrArg (Option.map id) h, rfl⟩

theorem run_bind_of_ok {registry : Registry} {value : α}
    (h : (x.run.run registry).1 = .ok value) :
    (x >>= f).run.run registry = (f value).run.run (x.run.run registry).2 := by
  rw [ExceptT.run_bind, StateT.run_bind]
  revert h
  cases x.run.run registry with
  | mk outcome middle =>
    rintro rfl
    rfl

theorem run_bind_of_error {registry : Registry} {failure : Failure}
    (h : (x.run.run registry).1 = .error failure) :
    (x >>= f).run.run registry = (.error failure, (x.run.run registry).2) := by
  rw [ExceptT.run_bind, StateT.run_bind]
  revert h
  cases x.run.run registry with
  | mk outcome middle =>
    rintro rfl
    rfl

/-- **Steps one after the other**: the second ones may count on what is seen of the values of the
first ones. -/
theorem Agree.bind (hx : Agree view x x')
    (hf : ∀ value value', view value' = view value → Agree view' (f value) (f' value')) :
    Agree view' (x >>= f) (x' >>= f') := by
  intro registry
  obtain ⟨hvalue, hregistry⟩ := hx registry
  -- What is seen of the first values tells a value from a failure, so only like meets like.
  cases hfirst : (x.run.run registry).1 with
  | error failure =>
    cases hsecond : (x'.run.run registry).1 with
    | error failure' =>
      rw [run_bind_of_error hfirst, run_bind_of_error hsecond]
      exact ⟨rfl, hregistry⟩
    | ok value' =>
      rw [hfirst, hsecond] at hvalue
      cases hvalue
  | ok value =>
    cases hsecond : (x'.run.run registry).1 with
    | error failure' =>
      rw [hfirst, hsecond] at hvalue
      cases hvalue
    | ok value' =>
      rw [hfirst, hsecond] at hvalue
      rw [run_bind_of_ok hfirst, run_bind_of_ok hsecond, hregistry]
      exact hf value value' (Option.some.inj hvalue) _

/-- Failures may be put in other words. -/
theorem Agree.adapt {ε : Type} (x : ExceptT ε (StateM Registry) α) (f f' : ε → Failure) :
    Agree id (x.adapt f) (x.adapt f') := by
  intro registry
  have hrun : ∀ f : ε → Failure, (x.adapt f).run.run registry
      = ((x.run.run registry).1.mapError f, (x.run.run registry).2) := fun _ => rfl
  rw [hrun, hrun, toOption_mapError, toOption_mapError]
  exact ⟨rfl, rfl⟩

end Resolving

open Resolving (Agree)

/-! ### Schemas and methods -/

namespace Run

variable {run run' : Run} {value : Json} {pointer pointer' : String} {entry : NamedNode}
  {placed placed' : PlacedMethod} {method : Method} {descriptor : Descriptor}

/-- The same is read in two runs in place of a schema, or nothing in either. -/
def ReadsAlike (run run' : Run) (value : Json) (pointer pointer' : String) : Prop :=
  (run'.parsed value pointer').toOption = (run.parsed value pointer).toOption

/-- What can be read is what dereferencing leaves, read at any path. -/
theorem toOption_parsed (run : Run) (value : Json) (pointer : String) :
    (run.parsed value pointer).toOption =
      ((run.store.dereferenceAt .standard value run.document pointer).toOption.map
        Dereferenced.schema).bind fun schema => (Schema.ofJson schema "").toOption := by
  rw [parsed, toOption_bind, Option.bind_map]
  refine congrArg _ (funext fun result => ?_)
  rw [toOption_mapError]
  exact Schema.toOption_ofJson ..

/-- **Documents that look alike to a schema** have it read alike. -/
theorem readsAlike_of_twins {hidden : Set String} (hstore : run'.store = run.store)
    (h : run.document.Twins run.store run'.document hidden value pointer) (pointer' : String) :
    run.ReadsAlike run' value pointer pointer' := by
  rw [ReadsAlike, toOption_parsed, toOption_parsed, hstore, dereferenceAt_twins h pointer']

variable (hunions : run'.preserveUnions = run.preserveUnions)

include hunions

theorem canonical_agree (h : run.ReadsAlike run' value pointer pointer') :
    Agree id (run.canonical value pointer) (run'.canonical value pointer') := by
  refine (Agree.of_outcome h).bind fun schema schema' hschema => ?_
  obtain rfl : schema' = schema := hschema
  rw [hunions]
  refine (Agree.adapt _ _ _).bind fun unified unified' hunified => ?_
  exact .pure (congrArg (Prod.mk schema') hunified)

/-- **Named schemas that are read alike are resolved alike.** -/
theorem resolveNamed_agree (h : run.ReadsAlike run' entry.node entry.pointer entry.pointer) :
    Agree id (run.resolveNamed entry) (run'.resolveNamed entry) := by
  refine (canonical_agree hunions h).bind fun schemas schemas' hschemas => ?_
  obtain rfl : schemas' = schemas := hschemas
  exact .refl _

theorem resolveLocated_agree (h : run.ReadsAlike run' entry.node entry.pointer entry.pointer) :
    Agree id (run.resolveLocated entry) (run'.resolveLocated entry) := by
  refine (resolveNamed_agree hunions h).bind fun named named' hnamed => ?_
  obtain rfl : named' = named := hnamed
  exact .refl _

theorem resolveDescriptor_agree (h : run.ReadsAlike run' descriptor.schema pointer pointer') :
    Agree id (run.resolveDescriptor method descriptor pointer)
      (run'.resolveDescriptor method descriptor pointer') := by
  refine (canonical_agree hunions h).bind fun schemas schemas' hschemas => ?_
  obtain rfl : schemas' = schemas := hschemas
  exact .refl _

/-- The parameters and the result of a method are read alike, wherever it stands. -/
structure ReadsMethodAlike (run run' : Run) (placed placed' : PlacedMethod) : Prop where
  method : placed'.method = placed.method
  params : ∀ index descriptor, placed.method.params[index]? = some descriptor →
    run.ReadsAlike run' descriptor.schema (placed.paramPointer index) (placed'.paramPointer index)
  result : ∀ descriptor, placed.method.result = some descriptor →
    run.ReadsAlike run' descriptor.schema placed.resultPointer placed'.resultPointer

theorem resolveParams_agree (hmethod : placed'.method = placed.method) {params : List Descriptor}
    (first : Nat) (h : ∀ index descriptor, params[index]? = some descriptor →
      run.ReadsAlike run' descriptor.schema (placed.paramPointer (first + index))
        (placed'.paramPointer (first + index))) :
    Agree id (run.resolveParams placed first params) (run'.resolveParams placed' first params) := by
  induction params generalizing first with
  | nil => exact .refl _
  | cons param rest ih =>
    rw [resolveParams, resolveParams, hmethod]
    refine (resolveDescriptor_agree hunions (h 0 param rfl)).bind fun resolved resolved' hresolved => ?_
    have hrest : ∀ index descriptor, rest[index]? = some descriptor →
        run.ReadsAlike run' descriptor.schema (placed.paramPointer (first + 1 + index))
          (placed'.paramPointer (first + 1 + index)) := by
      intro index descriptor hindex
      rw [Nat.add_assoc, Nat.add_comm 1 index]
      exact h (index + 1) descriptor hindex
    refine (ih (first + 1) hrest).bind fun others others' hothers => ?_
    obtain rfl : resolved' = resolved := hresolved
    exact .pure (congrArg (List.cons resolved') hothers)

end Run

/-- What is seen of a resolved method, but for its position. -/
def ResolvedMethod.view (resolved : ResolvedMethod) :
    Method × List (Descriptor × Schema) × Option (Descriptor × Schema) :=
  (resolved.placed.method, resolved.params, resolved.result)

namespace Run

variable {run run' : Run} {placed placed' : PlacedMethod}

/-- **Methods whose schemas are read alike are resolved alike.** -/
theorem resolveMethod_agree (hunions : run'.preserveUnions = run.preserveUnions)
    (h : run.ReadsMethodAlike run' placed placed') :
    Agree ResolvedMethod.view (run.resolveMethod placed) (run'.resolveMethod placed') := by
  have hparams := resolveParams_agree hunions h.method 0 fun index descriptor hindex =>
    (Nat.zero_add index).symm ▸ h.params index descriptor hindex
  have hresult : Agree id
      (placed.method.result.mapM fun result =>
        run.resolveDescriptor placed.method result placed.resultPointer)
      (placed.method.result.mapM fun result =>
        run'.resolveDescriptor placed.method result placed'.resultPointer) := by
    cases hdescriptor : placed.method.result with
    | none =>
      rw [Option.mapM_none, Option.mapM_none]
      exact .refl _
    | some descriptor =>
      rw [Option.mapM_some, Option.mapM_some, ← bind_pure_comp, ← bind_pure_comp]
      refine (resolveDescriptor_agree hunions (h.result descriptor hdescriptor)).bind
        fun value value' heq => ?_
      exact .pure (congrArg some heq)
  rw [resolveMethod, resolveMethod, h.method]
  refine hparams.bind fun params params' heq => ?_
  obtain rfl : params' = params := heq
  refine hresult.bind fun result result' heq => ?_
  obtain rfl : result' = result := heq
  exact .pure (congrArg (fun method => (method, params', result')) h.method)

end Run

/-! ### Items in turn -/

section Each

variable {α β γ : Type} {method? : α → Option String} {step step' : α → Resolving β}
  {view : β → γ} {items items' : List α}

theorem results_resolveEach_cons (item : α) (rest : List α) (registry : Registry) :
    ((resolveEach method? step (item :: rest)).run registry).1.results =
      ((step item).run.run registry).1.toOption.toList
        ++ ((resolveEach method? step rest).run ((step item).run.run registry).2).1.results := by
  rw [run_resolveEach_cons]
  dsimp only
  cases ((step item).run.run registry).1 <;> rfl

theorem registry_resolveEach_cons (item : α) (rest : List α) (registry : Registry) :
    ((resolveEach method? step (item :: rest)).run registry).2 =
      ((resolveEach method? step rest).run ((step item).run.run registry).2).2 := by
  rw [run_resolveEach_cons]
  dsimp only
  cases ((step item).run.run registry).1 <;> rfl

/-- **Steps that agree on all items** agree on the lists. -/
theorem resolveEach_agree (method? : α → Option String)
    (h : List.Forall₂ (fun item item' => Agree view (step item) (step' item')) items items')
    (registry : Registry) :
    ((resolveEach method? step' items').run registry).1.results.map view
        = ((resolveEach method? step items).run registry).1.results.map view ∧
      ((resolveEach method? step' items').run registry).2
        = ((resolveEach method? step items).run registry).2 := by
  induction h generalizing registry with
  | nil => exact ⟨rfl, rfl⟩
  | @cons item item' rest rest' hitem _ ih =>
    obtain ⟨hvalue, hregistry⟩ := hitem registry
    obtain ⟨hresults, hlast⟩ := ih ((step item).run.run registry).2
    rw [results_resolveEach_cons, results_resolveEach_cons, registry_resolveEach_cons,
      registry_resolveEach_cons, hregistry, List.map_append, List.map_append, hresults, hlast,
      ← Option.toList_map, ← Option.toList_map, hvalue]
    exact ⟨rfl, rfl⟩

/-- **A failed item that leaves the registry as it was is passed by.** -/
theorem resolveEach_skip (method? : α → Option String) {before : List α} (after : List α) {item : α}
    {failure : Failure} {registry : Registry}
    (h : let reached := ((resolveEach method? step before).run registry).2
      (step item).run.run reached = (.error failure, reached)) :
    ((resolveEach method? step (before ++ item :: after)).run registry).1.results
        = ((resolveEach method? step (before ++ after)).run registry).1.results ∧
      ((resolveEach method? step (before ++ item :: after)).run registry).2
        = ((resolveEach method? step (before ++ after)).run registry).2 := by
  induction before generalizing registry with
  | nil =>
    have hstep : (step item).run.run registry = (.error failure, registry) := h
    rw [List.nil_append, List.nil_append, results_resolveEach_cons, registry_resolveEach_cons, hstep]
    exact ⟨rfl, rfl⟩
  | cons first before ih =>
    rw [registry_resolveEach_cons] at h
    obtain ⟨hresults, hregistry⟩ := ih h
    rw [List.cons_append, List.cons_append, results_resolveEach_cons, registry_resolveEach_cons,
      results_resolveEach_cons, registry_resolveEach_cons, hresults, hregistry]
    exact ⟨rfl, rfl⟩

/-- Scripts in turn are a script. -/
theorem scripted_resolveEach
    (h : ∀ item ∈ items, Tries (fun _ _ => True) Set.univ (step item)) :
    Scripted (fun _ _ => True) Set.univ (resolveEach method? step items) := by
  induction items with
  | nil => exact .done trivial
  | cons item rest ih =>
    obtain ⟨hitem, hrest⟩ := List.forall_mem_cons.mp h
    refine Scripted.bind (Scripted.mono hitem fun _ _ _ => trivial) fun known hknown outcome _ => ?_
    obtain rfl := Set.univ_subset_iff.mp hknown
    refine (ih hrest).bind fun _ _ others _ => ?_
    cases outcome <;> exact .done trivial

end Each

/-! ### Modules -/

/-- Two resolutions end with the same schemas, and with the same methods but for their
positions. -/
structure Resolution.Alike (resolution resolution' : Resolution) : Prop where
  schemas : resolution'.schemas.results = resolution.schemas.results
  methods : resolution'.methods.results.map ResolvedMethod.view
    = resolution.methods.results.map ResolvedMethod.view
  entries : resolution'.registry.entries = resolution.registry.entries

namespace Resolution.Alike

variable {first second third : Resolution}

theorem symm (h : first.Alike second) : second.Alike first :=
  ⟨h.schemas.symm, h.methods.symm, h.entries.symm⟩

theorem trans (h : first.Alike second) (h' : second.Alike third) : first.Alike third :=
  ⟨h'.schemas.trans h.schemas, h'.methods.trans h.methods, h'.entries.trans h.entries⟩

/-- The same is to be declared. -/
theorem named (h : first.Alike second) : second.named = first.named := by
  rw [Resolution.named, Resolution.named, h.schemas, h.entries]

end Resolution.Alike

namespace Run

variable {run run' : Run} {registry : Registry} {entries before after : List NamedNode}
  {entry : NamedNode} {methods methods' earlier later : List PlacedMethod} {placed : PlacedMethod}
  {failure : Failure}

/-- Resolve named schemas, and then methods, with a registry. -/
def resolveItems (run : Run) (registry : Registry) (entries : List NamedNode)
    (methods : List PlacedMethod) : Resolution :=
  let schemas := (resolveEach (fun _ => none) run.resolveLocated entries).run registry
  let resolved :=
    (resolveEach (fun placed => some placed.method.name) run.resolveMethod methods).run schemas.2
  ⟨schemas.1, resolved.1, resolved.2⟩

theorem resolveModule_eq (run : Run) (methods : List PlacedMethod) :
    run.resolveModule methods = run.resolveItems run.registry run.document.named methods := rfl

/-- **Runs that agree on all items resolve them alike.** -/
theorem resolveItems_agree (hunions : run'.preserveUnions = run.preserveUnions)
    (hentries : ∀ entry ∈ entries, run.ReadsAlike run' entry.node entry.pointer entry.pointer)
    (hmethods : List.Forall₂ (run.ReadsMethodAlike run') methods methods') (registry : Registry) :
    (run.resolveItems registry entries methods).Alike
      (run'.resolveItems registry entries methods') := by
  obtain ⟨hschemas, hmiddle⟩ := resolveEach_agree (fun _ => none)
    (List.forall₂_same.mpr fun entry hentry => resolveLocated_agree hunions (hentries entry hentry))
    registry
  obtain ⟨hresolved, hlast⟩ := resolveEach_agree (fun placed => some placed.method.name)
    (hmethods.imp fun _ _ h => resolveMethod_agree hunions h)
    ((resolveEach (fun _ => none) run.resolveLocated entries).run registry).2
  rw [List.map_id, List.map_id] at hschemas
  refine ⟨hschemas, ?_, ?_⟩
  · simpa only [resolveItems, hmiddle] using hresolved
  · simp only [resolveItems, hmiddle, hlast]

/-- **A named schema that fails and registers nothing is passed by.** -/
theorem resolveItems_skip_schema
    (h : let reached := (run.resolveItems registry before []).registry
      (run.resolveLocated entry).run.run reached = (.error failure, reached)) :
    (run.resolveItems registry (before ++ entry :: after) methods).Alike
      (run.resolveItems registry (before ++ after) methods) := by
  obtain ⟨hresults, hmiddle⟩ := resolveEach_skip (fun _ => none) after h
  have hrest : (run.resolveItems registry (before ++ entry :: after) methods).methods
      = (run.resolveItems registry (before ++ after) methods).methods ∧
        (run.resolveItems registry (before ++ entry :: after) methods).registry
      = (run.resolveItems registry (before ++ after) methods).registry := by
    simp only [resolveItems, hmiddle, and_self]
  exact ⟨hresults.symm, by rw [hrest.1], by rw [hrest.2]⟩

/-- **A method that fails and registers nothing is passed by.** -/
theorem resolveItems_skip_method
    (h : let reached := (run.resolveItems registry entries earlier).registry
      (run.resolveMethod placed).run.run reached = (.error failure, reached)) :
    (run.resolveItems registry entries (earlier ++ placed :: later)).Alike
      (run.resolveItems registry entries (earlier ++ later)) := by
  obtain ⟨hresults, hlast⟩ := resolveEach_skip
    (fun placed : PlacedMethod => some placed.method.name) later h
  exact ⟨rfl, congrArg _ hresults.symm, congrArg Registry.entries hlast.symm⟩

/-- **Names that are reserved in vain** do not matter. -/
theorem resolveItems_reserving {reserved reserved' : List String} (hmore : reserved ⊆ reserved')
    (hfree : ∀ name ∈ Fields.keys
      (run.resolveItems (.reserving reserved) entries methods).registry.entries, name ∉ reserved') :
    (run.resolveItems (.reserving reserved) entries methods).Alike
      (run.resolveItems (.reserving reserved') entries methods) := by
  have hschemas : Scripted (fun _ _ => True) Set.univ
      (resolveEach (fun _ => none) run.resolveLocated entries) :=
    scripted_resolveEach fun entry _ =>
      (tries_resolveLocated (run.reads_univ _ _)).mono fun _ _ _ => trivial
  have hmethods : Scripted (fun _ _ => True) Set.univ
      (resolveEach (fun placed => some placed.method.name) run.resolveMethod methods) :=
    scripted_resolveEach fun placed _ =>
      (tries_resolveMethod (run.reads_method_univ placed)).mono fun _ _ _ => trivial
  -- The two lists one after the other are one script.
  have hboth : Scripted (fun _ _ => True) Set.univ (do
      let schemas ← resolveEach (fun _ => none) run.resolveLocated entries
      let resolved ← resolveEach (fun placed => some placed.method.name) run.resolveMethod methods
      pure (schemas, resolved)) := by
    refine hschemas.bind fun known hknown schemas _ => ?_
    obtain rfl := Set.univ_subset_iff.mp hknown
    exact hmethods.bind fun _ _ resolved _ => .done trivial
  have hrun := hboth.run_reserving hmore [] hfree
  exact ⟨congrArg (fun last => last.1.1.results) hrun,
    congrArg (fun last => last.1.2.results.map ResolvedMethod.view) hrun,
    congrArg (fun last => last.2.entries) hrun⟩

end Run

end RpcSchema
