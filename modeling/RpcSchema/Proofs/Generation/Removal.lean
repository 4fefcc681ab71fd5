import RpcSchema.Proofs.Dereference.Termination
import RpcSchema.Proofs.Document.Removal
import RpcSchema.Proofs.Generation.Accounts
import RpcSchema.Proofs.Generation.Agreement
import RpcSchema.Proofs.Projection.Agreement

/-!
# Modules with something taken out

A run depends on its document through what references find, which schemas go by the titles that
are met, and which names are reserved and belong to which modules.  When a method or a named
schema is taken out, this stays the same for all others if no reference of theirs finds another
part, and if nothing else goes by the names of the schema.  Then all that is left is resolved and
projected as before, provided that what was taken out had failed and had registered nothing.

## Main definitions

* `Store.FindsAlike` — the references that a walk meets find the same in another document.
* `Store.Mentions` — the walk of a value meets a reference to what stands at a pointer.
* `heldSchemas` — the schemas that named schemas and methods hold.

## Main results

* `resolveItems_twins` — documents that look alike to all schemas have them resolved alike.
* `generateModuleBy_alike` — resolutions that are alike are projected to the same.
* `resolveModule_withoutMethod`, `resolveModule_withoutSchema` — failed items are passed by.
-/

namespace RpcSchema

/-! ### What references find -/

/-- Wherever the walk of a value meets a reference in the document, the reference finds the same
in another document, unless it is to the whole document and so is left in place. -/
def Store.FindsAlike (store : Store) (document document' : Document) (value : Json)
    (pointer : String) : Prop :=
  ∀ reference, store.Meets document value pointer document.asContext reference →
    Reference.fragment reference = "#" ∨
      (store.lookup reference document'.asContext).map Prod.snd
        = (store.lookup reference document.asContext).map Prod.snd

/-- The walk of a value meets a reference to what stands at a pointer. -/
def Store.Mentions (store : Store) (document : Document) (value : Json) (pointer key : String) :
    Prop :=
  ∃ source reference target, store.Meets document value pointer source reference ∧
    store.locate? reference source = some target ∧ target.canonical .context reference = key

section Written

variable {store : Store} {document document' : Document} {value : Json} {pointer : String}

/-- The references that are met are written in the value or in a document in reach. -/
theorem Store.Meets.mem_written {source : Source} {reference : String}
    (h : store.Meets document value pointer source reference) :
    (source, reference) ∈ store.written document.asContext value := by
  obtain ⟨call, fields, hreach, hvalue, rfl, hmade⟩ := h
  obtain ⟨keys, hreaches⟩ := exists_reaches hreach
  refine (hreaches.inScope (Call.inScope_start pointer)).written reference ?_
  rw [hvalue, Json.references, hmade]
  exact List.mem_append_left _ (List.mem_singleton_self _)

/-- It is enough to look at all references that are written somewhere. -/
theorem Store.findsAlike_of_written (pointer : String)
    (h : ∀ entry ∈ store.written document.asContext value, Reference.fragment entry.2 = "#" ∨
      (store.lookup entry.2 document'.asContext).map Prod.snd
        = (store.lookup entry.2 document.asContext).map Prod.snd) :
    store.FindsAlike document document' value pointer :=
  fun _ hmeets => h _ hmeets.mem_written

theorem Store.not_mentions_of_written {key : String} (pointer : String)
    (h : ∀ entry ∈ store.written document.asContext value,
      store.canonical? .context entry ≠ some key) :
    ¬store.Mentions document value pointer key := by
  rintro ⟨source, reference, target, hmeets, hfound, rfl⟩
  refine h _ hmeets.mem_written ?_
  rw [Store.canonical?, hfound, Option.map_some]

end Written

/-- The schemas that a method holds, with the pointers to them. -/
def PlacedMethod.schemas (placed : PlacedMethod) : List (Json × String) :=
  (placed.method.params.zipIdx.map fun param => (param.1.schema, placed.paramPointer param.2)) ++
    placed.method.result.toList.map fun result => (result.schema, placed.resultPointer)

/-- The schemas that named schemas and methods hold, with the pointers to them. -/
def heldSchemas (entries : List NamedNode) (methods : List PlacedMethod) : List (Json × String) :=
  (entries.map fun entry => (entry.node, entry.pointer)) ++ methods.flatMap PlacedMethod.schemas

variable {findComponents : Nat → List (Nat × Nat) → List (List Nat)}
  {document document' : Document} {store : Store} {profile : Profile} {options : ProjectionOptions}
  {entries : List NamedNode} {methods methods' : List PlacedMethod}

/-! ### Runs in two documents -/

theorem mem_heldSchemas_of_named {entry : NamedNode} (h : entry ∈ entries) :
    (entry.node, entry.pointer) ∈ heldSchemas entries methods :=
  List.mem_append_left _ (List.mem_map_of_mem h)

theorem mem_heldSchemas_of_param {placed : PlacedMethod} {index : Nat} {descriptor : Descriptor}
    (h : placed ∈ methods) (hparam : placed.method.params[index]? = some descriptor) :
    (descriptor.schema, placed.paramPointer index) ∈ heldSchemas entries methods := by
  have hmem : (descriptor, index) ∈ placed.method.params.zipIdx :=
    List.mem_zipIdx_iff_getElem?.mpr hparam
  refine List.mem_append_right _ (List.mem_flatMap.mpr ⟨placed, h, List.mem_append_left _ ?_⟩)
  exact List.mem_map.mpr ⟨_, hmem, rfl⟩

theorem mem_heldSchemas_of_result {placed : PlacedMethod} {descriptor : Descriptor}
    (h : placed ∈ methods) (hresult : placed.method.result = some descriptor) :
    (descriptor.schema, placed.resultPointer) ∈ heldSchemas entries methods := by
  refine List.mem_append_right _ (List.mem_flatMap.mpr ⟨placed, h, List.mem_append_right _ ?_⟩)
  rw [hresult]
  exact List.mem_singleton_self _

/-- **Runs in documents that look alike to all schemas** resolve them alike. -/
theorem resolveItems_twins {hidden : Set String}
    (htwins : ∀ held ∈ heldSchemas entries methods,
      document.Twins store document' hidden held.1 held.2)
    (hmethods : methods'.map PlacedMethod.method = methods.map PlacedMethod.method)
    (registry : Registry) :
    ((Run.forProfile document store profile).resolveItems registry entries methods).Alike
      ((Run.forProfile document' store profile).resolveItems registry entries methods') := by
  let run := Run.forProfile document store profile
  let run' := Run.forProfile document' store profile
  have hreads : ∀ {value : Json} {pointer : String},
      (value, pointer) ∈ heldSchemas entries methods →
        ∀ pointer', run.ReadsAlike run' value pointer pointer' := by
    intro value pointer hheld pointer'
    have hstore : run'.store = run.store := rfl
    exact Run.readsAlike_of_twins hstore (htwins _ hheld) pointer'
  have hsame : List.Forall₂ (fun placed placed' => placed ∈ methods ∧
      placed.method = PlacedMethod.method placed') methods methods' := by
    have hmapped : List.Forall₂ (· = ·) (methods.map PlacedMethod.method)
        (methods'.map PlacedMethod.method) := by
      rw [List.forall₂_eq_eq_eq]
      exact hmethods.symm
    refine (List.forall₂_and_left _ _).mpr ⟨fun placed hplaced => hplaced, ?_⟩
    simpa only [List.forall₂_map_left_iff, List.forall₂_map_right_iff] using hmapped
  have hunions : run'.preserveUnions = run.preserveUnions := rfl
  refine Run.resolveItems_agree hunions (fun entry hentry => ?_) (hsame.imp ?_) registry
  · exact hreads (mem_heldSchemas_of_named hentry) _
  · rintro placed placed' ⟨hplaced, hmethod⟩
    exact ⟨hmethod.symm, fun _ _ hparam => hreads (mem_heldSchemas_of_param hplaced hparam) _,
      fun _ hresult => hreads (mem_heldSchemas_of_result hplaced hresult) _⟩

/-! ### Outputs of two documents -/

/-- **Resolutions that are alike are projected to the same**, by projectors that agree. -/
theorem generateModuleBy_alike
    (halike : ((Run.forProfile document store profile).resolveModule
        (readableMethods document)).Alike
      ((Run.forProfile document' store profile).resolveModule (readableMethods document')))
    (hagrees : (Projector.atRoot document store profile options).Agrees
      (Projector.atRoot document' store profile options)) :
    (generateModuleBy findComponents document' store profile options).declarations
        = (generateModuleBy findComponents document store profile options).declarations ∧
      (generateModuleBy findComponents document' store profile options).methods
        = (generateModuleBy findComponents document store profile options).methods := by
  constructor
  · rw [declarations_eq, declarations_eq, halike.named]
    exact List.filterMap_congr fun named _ => (hagrees.atPath _ _).toOption_declare named
  · -- What a method is projected to is told by what is seen of it.
    let project := fun seen : Method × List (Descriptor × Schema) × Option (Descriptor × Schema) =>
      ((Projector.atRoot document store profile options).method
        ⟨⟨0, seen.1⟩, seen.2.1, seen.2.2⟩).toOption
    have hsame := Projector.Agrees.refl (Projector.atRoot document store profile options)
    have hproject : ∀ resolved : ResolvedMethod,
        ((Projector.atRoot document store profile options).method resolved).toOption
          = project resolved.view := fun resolved => hsame.toOption_method rfl rfl rfl
    have hproject' : ∀ resolved : ResolvedMethod,
        ((Projector.atRoot document' store profile options).method resolved).toOption
          = project resolved.view := fun resolved => hagrees.toOption_method rfl rfl rfl
    rw [methods_eq, methods_eq]
    simp only [hproject, hproject']
    have hmap := congrArg (List.filterMap project) halike.methods
    rwa [List.filterMap_map, List.filterMap_map] at hmap

/-! ### Without a method -/

/-- The name of a module is told alike, whatever methods it has. -/
theorem agrees_withoutMethod (index : Nat) :
    (Projector.atRoot document store profile options).Agrees
      (Projector.atRoot (document.withoutMethod index) store profile options) where
  profile := rfl
  options := rfl
  qualify name := by
    have howner : store.owner? name (document.withoutMethod index) = store.owner? name document := by
      simp only [Store.owner?, Store.groupOf?, Document.declares, Document.find?,
        Document.named_withoutMethod, Document.groups_withoutMethod]
      rfl
    unfold Projector.qualify
    dsimp only [Projector.atRoot]
    rw [howner]
    rfl

/-- The readable methods that are left when one is taken out. -/
theorem map_readableMethods_withoutMethod (hmethods : documentMethods document = .ok methods)
    (index : Nat) : (readableMethods (document.withoutMethod index)).map PlacedMethod.method
      = (methods.map PlacedMethod.method).eraseIdx index := by
  obtain ⟨others, hothers, hleft⟩ :=
    Document.methods_withoutMethod (mapError_eq_ok_iff.mp hmethods) index
  rw [← hleft, readableMethods, documentMethods, hothers]
  rfl

theorem twins_withoutMethod {index : Nat} {value : Json} {pointer : String}
    (h : store.FindsAlike document (document.withoutMethod index) value pointer) :
    document.Twins store (document.withoutMethod index) ∅ value pointer where
  id := rfl
  named title key _ := by
    rw [Document.pointerOf?, Document.pointerOf?, Document.find?, Document.find?,
      Document.named_withoutMethod]
  found := h
  shown _ _ _ _ _ := Set.notMem_empty _

/-- **A method that fails and registers nothing is passed by.** -/
theorem resolveModule_withoutMethod {earlier later : List PlacedMethod} {placed : PlacedMethod}
    {failure : Failure} (hmethods : documentMethods document = .ok (earlier ++ placed :: later))
    (hfails : let run := Run.forProfile document store profile
      let reached := (run.resolveModule earlier).registry
      (run.resolveMethod placed).run.run reached = (.error failure, reached))
    (hothers : ∀ held ∈ heldSchemas document.named (earlier ++ later),
      document.Twins store (document.withoutMethod earlier.length) ∅ held.1 held.2) :
    ((Run.forProfile document store profile).resolveModule (readableMethods document)).Alike
      ((Run.forProfile (document.withoutMethod earlier.length) store profile).resolveModule
        (readableMethods (document.withoutMethod earlier.length))) := by
  let run := Run.forProfile document store profile
  let run' := Run.forProfile (document.withoutMethod earlier.length) store profile
  have hsame : (readableMethods (document.withoutMethod earlier.length)).map PlacedMethod.method
      = (earlier ++ later).map PlacedMethod.method := by
    rw [map_readableMethods_withoutMethod hmethods, List.map_append, List.map_cons,
      List.eraseIdx_append_of_length_le (by rw [List.length_map]), List.length_map, Nat.sub_self,
      List.eraseIdx_cons_zero, List.map_append]
  have hnamed : run'.document.named = document.named := Document.named_withoutMethod document _
  have hregistry : run'.registry = run.registry := by
    rw [Run.registry, hnamed]
    rfl
  have hskip : (run.resolveModule (readableMethods document)).Alike
      (run.resolveModule (earlier ++ later)) := by
    rw [readableMethods, hmethods]
    exact Run.resolveItems_skip_method hfails
  rw [Run.resolveModule_eq run', hregistry, hnamed]
  exact hskip.trans (resolveItems_twins hothers hsame run.registry)

/-! ### Without a named schema -/

section Schema

variable {before after : List NamedNode} {entry : NamedNode}
  (hnames : document.root.DistinctNames) (hnamed : document.named = before ++ entry :: after)

include hnames hnamed

/-- Without a schema, names of others are declared as they were. -/
theorem declares_withoutSchema {name : String} (hname : ¬entry.goesBy name = true) :
    (document.withoutSchema entry.pointer).declares name = document.declares name := by
  rw [Bool.eq_iff_iff, Document.declares_iff, Document.declares_iff,
    Document.named_withoutSchema_of_split hnames hnamed, hnamed]
  simp only [List.mem_append, List.mem_cons]
  constructor
  · rintro ⟨other, hother, hgoes⟩
    exact ⟨other, hother.imp_right .inr, hgoes⟩
  · rintro ⟨other, hother, hgoes⟩
    rcases hother with hbefore | rfl | hafter
    · exact ⟨other, .inl hbefore, hgoes⟩
    · exact absurd hgoes hname
    · exact ⟨other, .inr hafter, hgoes⟩

/-- A name that belongs to no module without the schema belongs to the module with it. -/
theorem agrees_withoutSchema (hfree : ∀ name, entry.goesBy name = true →
      store.owner? name (document.withoutSchema entry.pointer) = none) :
    (Projector.atRoot document store profile options).Agrees
      (Projector.atRoot (document.withoutSchema entry.pointer) store profile options) where
  profile := rfl
  options := rfl
  qualify name := by
    unfold Projector.qualify
    dsimp only [Projector.atRoot]
    by_cases hname : entry.goesBy name = true
    · have howner : store.owner? name document = some document.title := by
        have hdeclares : document.declares name = true :=
          Document.declares_iff.mpr ⟨entry, hnamed ▸ by simp, hname⟩
        rw [Store.owner?, if_pos hdeclares]
      rw [hfree name hname, howner]
      simp
    · have howner : store.owner? name (document.withoutSchema entry.pointer)
          = store.owner? name document := by
        rw [Store.owner?, Store.owner?, declares_withoutSchema hnames hnamed hname, Store.groupOf?,
          Store.groupOf?, Document.groups_withoutSchema]
        rfl
      rw [howner]
      rfl

theorem twins_withoutSchema {value : Json} {pointer : String}
    (hfree : ∀ name, entry.goesBy name = true →
      store.owner? name (document.withoutSchema entry.pointer) = none)
    (hfinds : store.FindsAlike document (document.withoutSchema entry.pointer) value pointer)
    (hmentions : ¬store.Mentions document value pointer entry.pointer) :
    document.Twins store (document.withoutSchema entry.pointer) {entry.pointer} value pointer where
  id := rfl
  named title key hkey := by
    have hleft := Document.named_withoutSchema_of_split hnames hnamed
    by_cases hgoes : entry.goesBy title = true
    · -- Only the schema goes by the title, and its own pointer is hidden.
      have hnone : ∀ other ∈ before ++ after, ¬other.goesBy title = true := by
        intro other hother hother'
        have hdeclares : (document.withoutSchema entry.pointer).declares title = true :=
          Document.declares_iff.mpr ⟨other, hleft ▸ hother, hother'⟩
        have howner := hfree title hgoes
        rw [Store.owner?, if_pos hdeclares] at howner
        cases howner
      have hbefore : before.find? (NamedNode.goesBy · title) = none :=
        List.find?_eq_none.mpr fun other hother => hnone other (List.mem_append_left _ hother)
      rw [Document.pointerOf?, Document.pointerOf?, Document.find?, Document.find?, hleft, hnamed,
        List.find?_eq_none.mpr hnone, List.find?_append, hbefore, List.find?_cons, hgoes]
      constructor
      · intro h
        cases h
      · intro h
        exact absurd (Option.some.inj h).symm hkey
    · rw [Document.pointerOf?, Document.pointerOf?, Document.find?, Document.find?, hleft, hnamed,
        List.find?_append, List.find?_append, List.find?_cons_of_neg (by simpa using hgoes)]
  found := hfinds
  shown source reference target hmeets hfound hhidden :=
    hmentions ⟨source, reference, target, hmeets, hfound, hhidden⟩

/-- The names that are reserved without the schema are reserved with it, and so are the names of
the schema. -/
theorem mem_reserved_iff {name : String} :
    name ∈ (Run.forProfile document store profile).registry.reserved ↔
      entry.goesBy name = true ∨
        name ∈ (Run.forProfile (document.withoutSchema entry.pointer) store
          profile).registry.reserved := by
  rw [Run.mem_reserved, Run.mem_reserved]
  change (∃ other ∈ document.named, _) ↔ _ ∨ ∃ other ∈ (document.withoutSchema entry.pointer).named, _
  rw [Document.named_withoutSchema_of_split hnames hnamed, hnamed]
  simp only [List.mem_append, List.mem_cons, or_and_right, exists_or, exists_eq_left]
  exact or_left_comm

/-- A named schema that fails and registers nothing is passed by. -/
theorem resolveModule_withoutSchema {failure : Failure}
    (hfails : let run := Run.forProfile document store profile
      let reached := (run.resolveItems run.registry before []).registry
      (run.resolveLocated entry).run.run reached = (.error failure, reached))
    (hothers : ∀ held ∈ heldSchemas (before ++ after) methods,
      document.Twins store (document.withoutSchema entry.pointer) {entry.pointer} held.1 held.2)
    (hfree : ∀ name, entry.goesBy name = true → name ∉ Fields.keys
      ((Run.forProfile (document.withoutSchema entry.pointer) store profile).resolveModule
        methods).registry.entries) :
    ((Run.forProfile document store profile).resolveModule methods).Alike
      ((Run.forProfile (document.withoutSchema entry.pointer) store profile).resolveModule
        methods) := by
  let run := Run.forProfile document store profile
  let run' := Run.forProfile (document.withoutSchema entry.pointer) store profile
  have hnamed' : run'.document.named = before ++ after :=
    Document.named_withoutSchema_of_split hnames hnamed
  have hreserved : ∀ name, name ∈ run.registry.reserved ↔
      entry.goesBy name = true ∨ name ∈ run'.registry.reserved :=
    fun name => mem_reserved_iff hnames hnamed
  have hmore : run'.registry.reserved ⊆ run.registry.reserved := fun name hname =>
    (hreserved name).mpr (.inr hname)
  -- Nothing is registered under a reserved name.
  have hgrown : run'.registry.Grown (run'.resolveModule methods).registry := by
    obtain ⟨schemas, resolved, hturns⟩ := resolveModule_run run' methods
    exact (hturns.spec (fun _ _ => run'.reads_univ _ _) fun placed _ =>
      run'.reads_method_univ placed).1
  have hunreserved : ∀ name ∈ Fields.keys (run'.resolveModule methods).registry.entries,
      name ∉ run.registry.reserved := by
    intro name hname hmem
    rcases (hreserved name).mp hmem with hgoes | hmem'
    · exact hfree name hgoes hname
    · refine (hgrown.kept (Registry.wellKept_reserving _)).free name hname ?_
      rwa [hgrown.grows.reserved]
  have hskip : (run.resolveModule methods).Alike
      (run.resolveItems run.registry (before ++ after) methods) := by
    rw [Run.resolveModule_eq, show run.document.named = before ++ entry :: after from hnamed]
    exact Run.resolveItems_skip_schema hfails
  rw [Run.resolveModule_eq, hnamed'] at hunreserved
  rw [Run.resolveModule_eq run', hnamed']
  exact (hskip.trans (resolveItems_twins hothers rfl run.registry)).trans
    (Run.resolveItems_reserving hmore hunreserved).symm

end Schema

end RpcSchema
