import RpcSchema.Proofs.Localization.Positions
import RpcSchema.Proofs.Localization.Targets

/-!
# The extent of localizing

Two things are asked of a localized document.  Nothing else than references into bundles
may change, but for the components that are added.  And no reference into a bundle may be
left, in the document or in what is added: every reference finds its target in the localized
document itself.

The second needs the first.  A reference into the document is kept as it is written, also
where a bundle holds it because the document is a bundle, too.  It finds its target again
because nothing on the way there has changed.  Only a reference that is turned changes, so no
pointer may pass through one.

## Main definitions

* `Store.PlainNames` — names of components need no escapes, and no pointer passes through a
  reference.
* `Store.Extends` — what may become of the part at a position.

## Main results

* `Store.at?_localize` — what stands in a localized document, and where it comes from.
* `Store.lookup_of_referenceOf?_localize` — its references find their targets in it.
* `localize_extent` — both together.
-/

namespace RpcSchema

open Relation

/-- The names of bundles and of the schemas that references reached from a document are to
need no escapes, and no pointer of such a reference passes through a reference. -/
structure Store.PlainNames (store : Store) (context : Source) : Prop where
  titles : ∀ entry ∈ store.bundles, Pointer.Plain entry.2.title
  names : ∀ site reference,
    ReflTransGen (Site.Follows store) ⟨context, context.document.root⟩ site →
      site.made? = some reference → Pointer.Plain (Reference.name reference)
  pointers : ∀ site reference,
    ReflTransGen (Site.Follows store) ⟨context, context.document.root⟩ site →
      site.made? = some reference →
        ∀ segment ∈ Pointer.segments (Reference.fragment reference),
          Pointer.unescape segment ≠ "$ref"

/-- The document worked on with its references into bundles turned into local ones. -/
def Store.localizedRoot (store : Store) (context : Source) : Json :=
  store.localized context.origin context context.document.root

/-- What may become of the part of a document at the end of some steps. -/
inductive Store.Extends (store : Store) (context : Source) : List Step → Json → Json → Prop
  /-- It looks as before. -/
  | same {steps : List Step} {value value' : Json} (h : value'.outline = value.outline) :
      Extends store context steps value value'
  /-- It is a reference into a bundle, and gives way to a local one. -/
  | redirected {steps : List Step} {fields : Fields Json} {reference name : String}
      {target : Target} (hopen : ∀ step ∈ steps, step.isOpen = true)
      (hat : context.document.root.at? steps = some (.object fields))
      (hredirects : Site.Redirects store context.origin ⟨context, .object fields⟩ name target) :
      Extends store context (steps ++ [.member "$ref"]) (.string reference)
        (.string (Reference.toComponent name))
  /-- It is on the way to the components, and members are added behind those it has. -/
  | grown {steps : List Step} {fields fields' : Fields Json} {names : List String}
      (hway : steps <+: Json.componentsPath)
      (hnames : Fields.keys fields' = Fields.keys fields ++ names) :
      Extends store context steps (.object fields) (.object fields')

theorem Store.Becomes.extends {store : Store} {context : Source} {steps : List Step}
    {part part' : Json}
    (h : store.Becomes context.origin context context.document.root steps part part') :
    store.Extends context steps part part' := by
  cases h with
  | turned => exact .same (Store.outline_localized _)
  | redirected hopen hat hredirects => exact .redirected hopen hat hredirects
  | kept => exact .same rfl

/-! ### Where things stand -/

section Positions

variable {store : Store} {context : Source} {added : Fields Json} {steps : List Step}
  {value : Json}

/-- Everything in a document is found again when its references are turned. -/
theorem Store.at?_localizedRoot (hat : context.document.root.at? steps = some value) :
    ∃ value', (store.localizedRoot context).at? steps = some value' ∧
      store.Extends context steps value value' := by
  obtain ⟨part, hpart, hbecomes⟩ := Store.at?_localized context hat
  exact ⟨part, hpart, hbecomes.extends⟩

/-- Everything in a document is found again. -/
theorem Store.exists_at?_insertComponents (htakes : (store.localizedRoot context).TakesComponents)
    (hat : context.document.root.at? steps = some value) :
    ∃ value', (insertComponents added (store.localizedRoot context)).at? steps = some value' ∧
      store.Extends context steps value value' := by
  obtain ⟨part, hpart, hextends⟩ := store.at?_localizedRoot hat
  by_cases hadded : added = []
  · rw [hadded, Json.insertComponents_nil]
    exact ⟨part, hpart, hextends⟩
  by_cases hway : steps <+: Json.componentsPath
  · obtain ⟨before, fields, names, hbefore, hfields, hkeys, -⟩ :=
      Json.at?_insertComponents_of_prefix htakes hadded hway
    rw [hpart, Option.getD_some] at hbefore
    obtain rfl := hbefore
    refine ⟨_, hfields, ?_⟩
    cases hextends with
    | same houtline =>
      cases value with
      | object inner =>
        rw [Json.outline, Json.outline, Json.Outline.object.injEq] at houtline
        exact .grown hway (houtline ▸ hkeys)
      | _ => cases houtline
    | grown _ hnames =>
      exact .grown hway (by rw [hkeys, hnames, List.append_assoc])
  · exact ⟨part, Json.at?_insertComponents_of_some htakes added hway hpart, hextends⟩

/-- The document declares what it declared before its references were turned. -/
theorem Store.mem_keys_components_localized_iff {name : String} :
    name ∈ Fields.keys (store.localizedRoot context).components ↔
      name ∈ Fields.keys context.document.root.components := by
  rw [Json.mem_keys_components_iff, Json.mem_keys_components_iff]
  constructor
  · rintro ⟨value, hvalue⟩
    exact Store.exists_at?_of_localized hvalue
  · rintro ⟨value, hvalue⟩
    obtain ⟨part, hpart, -⟩ := store.at?_localizedRoot hvalue
    exact ⟨part, hpart⟩

/-- Everything that is found was there, or is a component that the document does not declare,
or leads to one. -/
theorem Store.at?_of_insertComponents (htakes : (store.localizedRoot context).TakesComponents)
    (hat : (insertComponents added (store.localizedRoot context)).at? steps = some value) :
    (∃ before, context.document.root.at? steps = some before) ∨
      ∃ name ∉ Fields.keys context.document.root.components,
        (∃ below, steps = Json.componentsPath ++ .member name :: below) ∨
          steps <+: Json.componentsPath ∧
            ∃ part, (insertComponents added (store.localizedRoot context)).at?
              (Json.componentsPath ++ [.member name]) = some part := by
  rcases (htakes.insertComponents added).position hat with hway | ⟨name, below, rfl⟩ |
    ⟨hbelow, habove⟩
  · by_cases hold : ∃ before, context.document.root.at? steps = some before
    · exact Or.inl hold
    · have hnone : context.document.root.at? steps = none :=
        Option.eq_none_iff_forall_ne_some.mpr fun before hbefore => hold ⟨before, hbefore⟩
      have hempty := Json.components_eq_nil hway hnone
      -- The way is made only for the sake of a component that is added.
      cases added with
      | nil =>
        rw [Json.insertComponents_nil] at hat
        exact absurd (Store.exists_at?_of_localized hat) hold
      | cons entry rest =>
        obtain ⟨name, copy⟩ := entry
        have hundeclared : name ∉ Fields.keys context.document.root.components := by
          rw [hempty]
          exact List.not_mem_nil
        have hfound := Json.at?_component htakes ((name, copy) :: rest) name []
        rw [Fields.get?_eq_none_iff.mpr (mt Store.mem_keys_components_localized_iff.mp hundeclared),
          Option.none_or, Fields.get?_cons, if_pos rfl] at hfound
        exact Or.inr ⟨name, hundeclared, Or.inr ⟨hway, copy, hfound⟩⟩
  · by_cases hdeclared : name ∈ Fields.keys context.document.root.components
    · obtain ⟨own, hown⟩ : ∃ own, Fields.get?
          (store.localizedRoot context).components name = some own :=
        Option.isSome_iff_exists.mp (Fields.contains_iff.mpr
          (Store.mem_keys_components_localized_iff.mpr hdeclared))
      rw [Json.at?_component htakes, hown, Option.some_or, ← hown,
        ← Json.at?_componentsPath] at hat
      exact Or.inl (Store.exists_at?_of_localized hat)
    · exact Or.inr ⟨name, hdeclared, Or.inl ⟨below, rfl⟩⟩
  · rw [Json.at?_insertComponents_of_apart htakes added hbelow habove] at hat
    exact Or.inl (Store.exists_at?_of_localized hat)

end Positions

/-! ### What is copied -/

section Copied

variable {store : Store} {context : store.Context} {copies : Fields Target} {start site : Site}
  {name : String} {target : Target}

/-- What is copied is a part of a bundle. -/
theorem Store.Copied.located (h : store.Copied context copies) (hcopy : (name, target) ∈ copies) :
    target.source ∈ store.sources context ∧ target.source.origin ≠ context.origin ∧
      ∃ fragment, target.source.document.root.locate? fragment
        = some (target.steps, target.node) := by
  obtain ⟨site, hsite, reference, -, hfound, horigin, -⟩ := h.stems _ hcopy
  have hcontext : store.Stands context (⟨context, context.document.root⟩ : Site).source :=
    Or.inl rfl
  have hstands := (hcontext.follows hsite).locate? hfound
  exact ⟨hstands.mem_sources, horigin, _, (Store.locate?_eq_some_iff.mp hfound).2⟩

/-- A reference that is turned has a name that needs no escapes. -/
theorem Store.PlainNames.plain (h : store.PlainNames context)
    (hsite : ReflTransGen (Site.Follows store) ⟨context, context.document.root⟩ site)
    (hredirects : site.Redirects store context.origin name target) : Pointer.Plain name := by
  obtain ⟨reference, hmade, hfound, horigin, rfl⟩ := hredirects
  unfold Walk.componentName
  split
  · have hcontext : store.Stands context (⟨context, context.document.root⟩ : Site).source :=
      Or.inl rfl
    have hstands := (hcontext.follows hsite).locate? hfound
    rcases hstands with heq | ⟨-, id, bundle, hbundle, -, heq⟩
    · exact absurd (congrArg Source.origin heq) horigin
    · rw [heq]
      exact h.titles _ (Fields.mem_of_get? hbundle)
  · rw [Reference.name_fragment]
    exact h.names site reference hsite hmade

/-- What is copied under the name of a reference is a whole bundle. -/
theorem Store.PlainNames.eq_root (h : store.PlainNames context)
    (hcopied : store.Copied context copies) (hcopy : ("$ref", target) ∈ copies) :
    target.node = target.source.document.root := by
  obtain ⟨site, hsite, reference, hmade, hfound, -, hname⟩ := hcopied.stems _ hcopy
  dsimp only at hname hfound
  unfold Walk.componentName at hname
  split at hname
  · next hwhole =>
    have hlocate := (Store.locate?_eq_some_iff.mp hfound).2
    have hsegments : Pointer.segments "#" = [] := by decide
    rw [hwhole, Json.locate?, hsegments, Json.descend?, Option.some.injEq, Prod.mk.injEq]
      at hlocate
    exact hlocate.2.symm
  · rw [Reference.name_fragment] at hname
    have hlist : (Reference.name reference).toList = '$' :: "ref".toList := by
      rw [← hname]
      rfl
    have hmem := Reference.name_mem_segments hlist (by decide) (by decide)
    have hself : Pointer.unescape "$ref" = "$ref" := Pointer.unescape_of_notMem (by decide)
    rw [← hname] at hmem
    exact absurd hself (h.pointers site reference hsite hmade _ hmem)

/-- A reference in what a localized document is made from is to a component that is copied,
or one within the document. -/
theorem Store.Copied.reference_cases (h : store.Copied context copies)
    (hstart : start ∈ localizedSites context copies) {steps : List Step}
    {fields : Fields Json} {reference : String} (hopen : ∀ step ∈ steps, step.isOpen = true)
    (hat : (store.localized context.origin start.source start.value).at? steps
      = some (.object fields))
    (hmade : referenceOf? fields = some reference) :
    ∃ site, ReflTransGen Site.HasPart start site ∧
      ((∃ name target, site.Redirects store context.origin name target ∧ name ∈ Fields.keys copies ∧
          reference = Reference.toComponent name) ∨
        ∃ target, site.made? = some reference ∧
          store.locate? reference start.source = some target ∧
            target.source.origin = context.origin) := by
  rw [Store.at?_localized_of_open hopen] at hat
  obtain ⟨part, hpart, hlocalized⟩ := Option.map_eq_some_iff.mp hat
  have hsite := Site.hasPart_of_at? start.source hopen hpart
  cases part with
  | object inner =>
    refine ⟨_, hsite, ?_⟩
    rw [Store.localized, Json.object.injEq] at hlocalized
    rw [referenceOf?, ← hlocalized] at hmade
    cases hname : store.redirection? context.origin start.source inner with
    | some name =>
      rw [hname, Store.redirect, Fields.get?_set_self] at hmade
      obtain ⟨target, hredirects⟩ := Store.redirection?_eq_some_iff.mp hname
      obtain ⟨copied, hcopied⟩ := h.get?_of_redirects hstart hsite hredirects
      exact Or.inl ⟨name, target, hredirects, Fields.mem_keys_of_mem (Fields.mem_of_get? hcopied),
        (Option.some.inj hmade).symm⟩
    | none =>
      -- A reference that was not turned is not to a bundle, else it would have been.
      have hopaque : isOpaqueKeyword "$ref" = true := by decide
      have hown : referenceOf? inner = some reference := by
        rw [hname, Store.redirect, Store.get?_localizedMembers, hopaque] at hmade
        simpa [referenceOf?] using hmade
      obtain ⟨target, hfound, -⟩ := h.covered hstart _ reference hsite hown
      refine Or.inr ⟨target, hown, hfound, ?_⟩
      by_contra horigin
      have hredirects : Site.Redirects store context.origin ⟨start.source, .object inner⟩
          (Walk.componentName target (Reference.fragment reference)) target :=
        ⟨reference, hown, hfound, horigin, rfl⟩
      rw [Store.redirection?_eq_some_iff.mpr ⟨target, hredirects⟩] at hname
      cases hname
  | _ => cases hlocalized

end Copied

/-! ### What references find -/

/-- A reference finds a target within a document that has another root. -/
def Store.FindsWithin (store : Store) (document : Document) (root : Json) (reference : String) :
    Prop :=
  ∃ part, store.lookup reference (document.withRoot root).asContext
    = some ((document.withRoot root).asContext, part)

section Found

variable {store : Store} {context : store.Context} {copies : Fields Target} {root output : Json}
  {reference name : String} {target : Target}

/-- A document that extends another resembles it. -/
theorem Store.resembles_of_extends
    (h : ∀ steps value, context.document.root.at? steps = some value →
      ∃ value', output.at? steps = some value' ∧ store.Extends context steps value value') :
    context.document.root.Resembles output := by
  intro steps part hsteps hat
  obtain ⟨part', hpart', hextends⟩ := h steps part hat
  refine ⟨part', hpart', ?_⟩
  cases hextends with
  | same houtline => exact Json.sameKind_of_outline_eq houtline
  | redirected => exact absurd rfl (hsteps (.member "$ref") (by simp))
  | grown => exact ⟨rfl, rfl⟩

/-- A reference into a document finds a target in any that resembles it. -/
theorem Store.findsWithin_of_resembles (h : context.document.root.Resembles output)
    {source : Source} (hsource : store.Stands context source)
    (hfound : store.locate? reference source = some target)
    (hcontext : target.source.origin = context.origin)
    (hpointer : ∀ segment ∈ Pointer.segments (Reference.fragment reference),
      Pointer.unescape segment ≠ "$ref") : store.FindsWithin context.document output reference := by
  have htarget : target.source = context := (hsource.locate? hfound).eq_of_origin hcontext
  obtain ⟨hreads, hlocate⟩ := Store.locate?_eq_some_iff.mp hfound
  rw [htarget] at hreads hlocate
  obtain ⟨part, hpart⟩ := h.descend? hpointer hlocate
  -- The document goes by its own id, whatever its root.
  have hreads' : store.source? (context.document.withRoot output).asContext
      (Reference.split reference).1 = some (context.document.withRoot output).asContext := by
    cases hid : (Reference.split reference).1 with
    | none => rfl
    | some id =>
      rw [hid] at hreads
      exact if_pos (Store.id_of_source? hreads)
  have hlocate' : store.locate? reference (context.document.withRoot output).asContext
      = some ⟨(context.document.withRoot output).asContext, target.steps, part⟩ :=
    Store.locate?_eq_some_iff.mpr ⟨hreads', hpart⟩
  exact ⟨part, by rw [Store.lookup, hlocate']; rfl⟩

/-- The local reference to a component that is copied finds one. -/
theorem Store.findsWithin_of_copied (htakes : root.TakesComponents)
    (hname : Pointer.Plain name) (hcopied : name ∈ Fields.keys copies) :
    store.FindsWithin context.document
      (insertComponents (Fields.mapValues (store.copyOf context.origin) copies) root)
      (Reference.toComponent name) := by
  obtain ⟨copied, hget⟩ := Option.isSome_iff_exists.mp (Fields.contains_iff.mpr hcopied)
  have hat :=
    Json.at?_component htakes (Fields.mapValues (store.copyOf context.origin) copies) name []
  rw [Fields.get?_mapValues, hget, Option.map_some] at hat
  cases hown : Fields.get? root.components name with
  | none =>
    rw [hown, Option.none_or] at hat
    exact ⟨_, Store.lookup_toComponent hname hat⟩
  | some own =>
    rw [hown, Option.some_or] at hat
    exact ⟨_, Store.lookup_toComponent hname hat⟩

/-- What a localized document is made from is reached from the document. -/
theorem Store.Copied.follows (h : store.Copied context copies) {start : Site}
    (hstart : start ∈ localizedSites context copies) :
    ReflTransGen (Site.Follows store) ⟨context, context.document.root⟩ start := by
  rcases List.mem_cons.mp hstart with rfl | hmem
  · exact .refl
  · obtain ⟨entry, hentry, rfl⟩ := List.mem_map.mp hmem
    obtain ⟨site, hsite, reference, hmade, hfound, -⟩ := h.stems entry hentry
    refine hsite.tail (Or.inr ?_)
    rw [Site.Leads, Site.target?, hmade]
    simp [hfound]

/-- The references in what a localized document is made from find targets in it. -/
theorem Store.Copied.findsWithin (h : store.Copied context copies)
    (hplain : store.PlainNames context) (htakes : root.TakesComponents)
    (hresembles : context.document.root.Resembles
      (insertComponents (Fields.mapValues (store.copyOf context.origin) copies) root))
    {start : Site} (hstart : start ∈ localizedSites context copies)
    (hholds : (store.localized context.origin start.source start.value).HoldsReference reference) :
    store.FindsWithin context.document
      (insertComponents (Fields.mapValues (store.copyOf context.origin) copies) root)
      reference := by
  obtain ⟨steps, fields, hopen, hat, hmade⟩ := hholds
  obtain ⟨site, hsite, hcases⟩ := h.reference_cases hstart hopen hat hmade
  have hreach := (h.follows hstart).trans (Site.follows_of_hasPart hsite)
  rcases hcases with ⟨name, target, hredirects, hcopied, rfl⟩ | ⟨target, hown, hfound, hcontext⟩
  · exact Store.findsWithin_of_copied htakes (hplain.plain hreach hredirects) hcopied
  · have hstands : store.Stands context start.source :=
      Store.Stands.follows (Or.inl rfl) (h.follows hstart)
    exact Store.findsWithin_of_resembles hresembles hstands hfound hcontext
      (hplain.pointers site reference hreach hown)

/-- On the way to the components a localized document makes no reference but its own. -/
theorem Store.Copied.referenceOf?_of_way (h : store.Copied context copies)
    (hobjects : ∀ source ∈ store.sources context,
      source.document.root.isObject = true)
    (hplain : store.PlainNames context) (htakes : root.TakesComponents)
    {steps : List Step} (hway : steps <+: Json.componentsPath) {fields : Fields Json}
    (hat : (insertComponents (Fields.mapValues (store.copyOf context.origin) copies) root).at? steps
      = some (.object fields)) (hmade : referenceOf? fields = some reference) :
    ∃ before, root.at? steps = some (.object before) ∧ referenceOf? before = some reference := by
  by_cases hadded : Fields.mapValues (store.copyOf context.origin) copies = []
  · rw [hadded, Json.insertComponents_nil] at hat
    exact ⟨fields, hat, hmade⟩
  obtain ⟨before, found, names, hbefore, hfound, -, href⟩ :=
    Json.at?_insertComponents_of_prefix htakes hadded hway
  obtain rfl := Json.object.inj (Option.some.inj (hat.symm.trans hfound))
  rcases href with href | href
  · rw [referenceOf?, href] at hmade
    cases hpart : root.at? steps with
    | some part =>
      rw [hpart, Option.getD_some] at hbefore
      exact ⟨before, congrArg some hbefore, hmade⟩
    | none =>
      -- What is made where nothing stood holds components only.
      rw [hpart, Option.getD_none, Json.object.injEq] at hbefore
      rw [← hbefore] at hmade
      cases hmade
  · -- A component of that name is a whole document, not a text.
    rw [referenceOf?_eq_some_iff, href, Fields.get?_mapValues] at hmade
    obtain ⟨copied, hget, hstring⟩ := Option.map_eq_some_iff.mp hmade
    have hentry := Fields.mem_of_get? hget
    have hobject : (store.copyOf context.origin copied).isObject = true := by
      rw [Store.copyOf, Store.isObject_turned, hplain.eq_root h hentry]
      exact hobjects _ (h.located hentry).1
    obtain ⟨members, hmembers⟩ := Json.isObject_iff.mp hobject
    rw [hmembers] at hstring
    cases hstring

/-- The references in a localized document stand in what it is made from. -/
theorem Store.Copied.holdsReference (h : store.Copied context copies)
    (hlacks : ∀ source ∈ store.sources context,
      source.document.root.Lacks markerKeyword)
    (hobjects : ∀ source ∈ store.sources context,
      source.document.root.isObject = true)
    (hplain : store.PlainNames context)
    (htakes : (store.localizedRoot context).TakesComponents)
    (hholds : (insertComponents (Fields.mapValues (store.copyOf context.origin) copies)
      (store.localizedRoot context)).HoldsReference reference) :
    ∃ start ∈ localizedSites context copies,
      (store.localized context.origin start.source start.value).HoldsReference reference := by
  obtain ⟨steps, fields, hopen, hat, hmade⟩ := hholds
  -- What stands in the document itself.
  have hown : ∀ fields,
      (store.localizedRoot context).at? steps = some (.object fields) →
        referenceOf? fields = some reference → ∃ start ∈ localizedSites context copies,
          (store.localized context.origin start.source start.value).HoldsReference reference :=
    fun fields hat hmade => ⟨_, List.mem_cons_self .., steps, fields, hopen, hat, hmade⟩
  rcases (htakes.insertComponents _).position hat with hway | ⟨name, below, rfl⟩ |
    ⟨hbelow, habove⟩
  · obtain ⟨before, hbefore, hmade⟩ :=
      h.referenceOf?_of_way hobjects hplain htakes hway hat hmade
    exact hown before hbefore hmade
  · rw [Json.at?_component htakes] at hat
    cases hdeclared : Fields.get?
        (store.localizedRoot context).components name with
    | some own =>
      rw [hdeclared, Option.some_or, ← hdeclared, ← Json.at?_componentsPath] at hat
      exact hown fields hat hmade
    | none =>
      rw [hdeclared, Option.none_or, Fields.get?_mapValues] at hat
      obtain ⟨copy, hcopy, hpart⟩ := Option.bind_eq_some_iff.mp hat
      obtain ⟨copied, hget, rfl⟩ := Option.map_eq_some_iff.mp hcopy
      have hentry := Fields.mem_of_get? hget
      obtain ⟨hsource, -, fragment, hlocate⟩ := h.located hentry
      rw [Store.copyOf, Store.turned_eq_localized ((hlacks _ hsource).of_locate? hlocate)] at hpart
      refine ⟨⟨copied.source, copied.node⟩,
        List.mem_cons_of_mem _ (List.mem_map.mpr ⟨(name, copied), hentry, rfl⟩), below, fields,
        fun step hstep => hopen step ?_, hpart, hmade⟩
      exact List.mem_append_right _ (List.mem_cons_of_mem _ hstep)
  · rw [Json.at?_insertComponents_of_apart htakes _ hbelow habove] at hat
    exact hown fields hat hmade

end Found

/-- **The extent of localizing.**  When no markers occur, names need no escapes, no pointer
passes through a reference, and the document has an object or nothing in the place of its
components, then in a localized document

* everything in the document is found again as it was, but for references into bundles,
  which become local ones, and for members that are appended on the way to the components;
* everything else that is found is a component that the document does not declare, or leads
  to one that is added;
* every reference that is reached through schemas only finds a target in the localized
  document itself. -/
theorem localize_extent {store : Store} {context : store.Context} {output : Json}
    (hlacks : ∀ source ∈ store.sources context,
      source.document.root.Lacks markerKeyword)
    (hobjects : ∀ source ∈ store.sources context,
      source.document.root.isObject = true)
    (hnames : context.document.root.DistinctNames) (htakes : context.document.root.TakesComponents)
    (hplain : store.PlainNames context) (h : store.localize context = .ok output) :
    (∀ steps value, context.document.root.at? steps = some value →
        ∃ value', output.at? steps = some value' ∧ store.Extends context steps value value') ∧
      (∀ steps value', output.at? steps = some value' →
        (∃ value, context.document.root.at? steps = some value) ∨
          ∃ name ∉ Fields.keys context.document.root.components,
            (∃ below, steps = Json.componentsPath ++ .member name :: below) ∨
              steps <+: Json.componentsPath ∧
                ∃ part, output.at? (Json.componentsPath ++ [.member name]) = some part) ∧
      ∀ reference, output.HoldsReference reference →
        store.FindsWithin context.document output reference := by
  obtain ⟨copies, hcopied, rfl⟩ := localize_eq_ok h
  have hroot : store.redirected context = store.localizedRoot context :=
    Store.turned_eq_localized (hlacks _ (List.mem_cons_self ..))
  have htakes' := htakes.redirected store hnames
  rw [hroot] at htakes' ⊢
  have hextends : ∀ steps value, context.document.root.at? steps = some value → ∃ value',
      (insertComponents (Fields.mapValues (store.copyOf context.origin) copies)
        (store.localizedRoot context)).at? steps = some value' ∧
        store.Extends context steps value value' :=
    fun _ _ hat => Store.exists_at?_insertComponents htakes' hat
  refine ⟨hextends, fun steps value' hat => Store.at?_of_insertComponents htakes' hat, ?_⟩
  intro reference hholds
  obtain ⟨start, hstart, hmade⟩ :=
    hcopied.holdsReference hlacks hobjects hplain htakes' hholds
  exact hcopied.findsWithin hplain htakes' (Store.resembles_of_extends hextends) hstart hmade

/-- In the localized document of `pairDocument` the reference to the schema that is copied is
now a local one, and the reference in the copy finds what the document declares. -/
theorem localize_extent_pairDocument :
    (∀ source ∈ collidingBundles.sources pairDocument.asContext,
        source.document.root.Lacks markerKeyword) ∧
      (∀ source ∈ collidingBundles.sources pairDocument.asContext,
        source.document.root.isObject = true) ∧
      pairDocument.root.DistinctNames ∧ pairDocument.root.TakesComponents ∧
      collidingBundles.PlainNames pairDocument.asContext ∧
      collidingBundles.localize pairDocument = .ok pairOutput ∧
      (∃ value, pairOutput.at? [.member "pair", .member "$ref"] = some value ∧
        collidingBundles.Extends pairDocument.asContext [.member "pair", .member "$ref"]
          (.string "types#/definitions/Pair") value) ∧
      pairOutput.at? [.member "components", .member "schemas", .member "Pair", .member "items"]
        = some (.object [("$ref", .string "#/components/schemas/Name")]) ∧
      collidingBundles.FindsWithin pairDocument pairOutput "#/components/schemas/Name" := by
  have hlacks : ∀ source ∈ collidingBundles.sources pairDocument.asContext,
      source.document.root.Lacks markerKeyword := by decide +kernel
  have hobjects : ∀ source ∈ collidingBundles.sources pairDocument.asContext,
      source.document.root.isObject = true := by decide +kernel
  have hnames : pairDocument.root.DistinctNames := by decide +kernel
  have hall : ∀ site ∈ pairSites, ∀ reference ∈ site.made?,
      Pointer.Plain (Reference.name reference) ∧
        ∀ segment ∈ Pointer.segments (Reference.fragment reference),
          Pointer.unescape segment ≠ "$ref" := by
    decide +kernel
  have hplain : collidingBundles.PlainNames pairDocument.asContext :=
    ⟨by decide +kernel,
      fun site reference hsite hmade => (hall site (mem_pairSites hsite) reference hmade).1,
      fun site reference hsite hmade => (hall site (mem_pairSites hsite) reference hmade).2⟩
  obtain ⟨hextends, -, hfinds⟩ := localize_extent hlacks hobjects hnames
    takesComponents_pairDocument hplain localize_pairDocument
  refine ⟨hlacks, hobjects, hnames, takesComponents_pairDocument, hplain, localize_pairDocument,
    hextends _ _ (by decide +kernel), by decide +kernel, hfinds _ ?_⟩
  exact ⟨[.member "components", .member "schemas", .member "Pair", .member "items"],
    [("$ref", .string "#/components/schemas/Name")], by decide +kernel, by decide +kernel,
    by decide +kernel⟩

end RpcSchema
