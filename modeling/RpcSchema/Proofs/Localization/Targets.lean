import RpcSchema.Proofs.Localization.Components
import RpcSchema.Proofs.Localization.Copies

/-!
# What local references find

A reference into a bundle is turned into one to a component.  The component of a name is
what the document declares under it.  Only when the document declares nothing is a copy
added, and one copy for each name, although targets of the same name may stand in several
bundles.  So the name of a target is not enough to tell what is found: it depends on who
else goes by the name.

A document that keeps something else than components in their place gets no copies at all.

## Main definitions

* `Document.withRoot` — a document with another root.
* `localizedSites` — what a localized document is made from.

## Main results

* `Store.lookup_toComponent` — the local reference to a component finds it.
* `Store.lookup_of_localize` — what is found in a localized document under the name of a
  reference that was turned.
-/

namespace RpcSchema

open Relation

/-- A document with another root. -/
def Document.withRoot (document : Document) (root : Json) : Document := { document with root }

/-- What a localized document is made from: the document, and the targets that are copied. -/
def localizedSites (context : Source) (copies : Fields Target) : List Site :=
  ⟨context, context.document.root⟩ :: copies.map fun entry => ⟨entry.2.source, entry.2.node⟩

/-! ### Local references -/

/-- **The local reference to a component finds it**, if its name needs no escapes. -/
theorem Store.lookup_toComponent {store : Store} {source : Source} {name : String} {part : Json}
    (hname : Pointer.Plain name)
    (h : source.document.root.at? (Json.componentsPath ++ [.member name]) = some part) :
    store.lookup (Reference.toComponent name) source = some (source, part) := by
  obtain ⟨hslash, htilde⟩ := hname
  have hsplit : Reference.split (Reference.toComponent name) = (none, Reference.toComponent name) :=
    Reference.split_of_startsHash
      ⟨"/components/schemas".toList ++ '/' :: name.toList, by
        simp [Reference.toComponent, Reference.componentsPointer]⟩
  have hsegments : ∀ segment ∈ ["components", "schemas", name],
      Pointer.unescape segment = segment := by
    have hcomponents : Pointer.unescape "components" = "components" :=
      Pointer.unescape_of_notMem (by decide)
    have hschemas : Pointer.unescape "schemas" = "schemas" :=
      Pointer.unescape_of_notMem (by decide)
    have hself := Pointer.unescape_of_notMem htilde
    simp [hcomponents, hschemas, hself]
  have hfound := Json.descend?_of_members hsegments h
  rw [Store.lookup, Store.locate?, hsplit]
  simp only [Store.source?, Option.bind_some, Json.locate?, Pointer.segments_toComponent hslash,
    hfound, Option.map_some]

/-! ### References of localized documents -/

section Localized

variable {store : Store} {home : Origin} {context : Source} {copies : Fields Target} {site : Site}
  {name : String} {target : Target}

/-- The reference is turned to the component of the name. -/
theorem Site.Redirects.field?_localized (h : site.Redirects store home name target) :
    (store.localized home site.source site.value).field? "$ref"
      = some (.string (Reference.toComponent name)) := by
  obtain ⟨source, value⟩ := site
  obtain ⟨reference, hmade⟩ := h.exists_made?
  cases value with
  | object fields =>
    rw [Store.localized, Store.redirection?_eq_some_iff.mpr ⟨target, h⟩, Json.field?_object,
      Store.redirect, Fields.get?_set_self]
  | _ => cases hmade

/-- A document takes components after its references are turned, if it did before. -/
theorem Json.TakesComponents.redirected (store : Store)
    (htakes : context.document.root.TakesComponents)
    (hnames : context.document.root.DistinctNames) :
    (store.redirected context).TakesComponents where
  isObject := by rw [Store.redirected, Store.isObject_turned, htakes.isObject]
  parts := by
    intro value hvalue
    rw [Store.redirected, show [Step.member "components"] = ["components"].map .member from rfl,
      Store.at?_turned ["components"] hnames (by decide)] at hvalue
    obtain ⟨part, hpart, rfl⟩ := Option.map_eq_some_iff.mp hvalue
    rw [Store.isObject_turned, htakes.parts part hpart]
  schemas := by
    intro value hvalue
    rw [Store.redirected, show componentsPath = ["components", "schemas"].map .member from rfl,
      Store.at?_turned ["components", "schemas"] hnames (by decide)] at hvalue
    obtain ⟨part, hpart, rfl⟩ := Option.map_eq_some_iff.mp hvalue
    rw [Store.isObject_turned, htakes.schemas part hpart]

/-- No reference in what a localized document is made from is left without an entry. -/
theorem Store.Copied.covered (h : store.Copied context copies) {start : Site}
    (hstart : start ∈ localizedSites context copies) :
    Site.Covered store context.origin (Fields.keys copies) [] start := by
  rcases List.mem_cons.mp hstart with rfl | hmem
  · exact h.root
  · obtain ⟨entry, hentry, rfl⟩ := List.mem_map.mp hmem
    exact h.targets entry hentry

/-- A reference that is turned has an entry under its name. -/
theorem Store.Copied.get?_of_redirects (h : store.Copied context copies) {start : Site}
    (hstart : start ∈ localizedSites context copies)
    (hsite : ReflTransGen Site.HasPart start site)
    (hredirects : site.Redirects store context.origin name target) :
    ∃ copied, Fields.get? copies name = some copied := by
  obtain ⟨reference, hmade, hfound, horigin, rfl⟩ := hredirects
  obtain ⟨other, hother, hcovered⟩ := h.covered hstart site reference hsite hmade
  obtain rfl := Option.some.inj (hfound.symm.trans hother)
  have hkey := (hcovered horigin).resolve_right List.not_mem_nil
  exact Option.isSome_iff_exists.mp (Fields.contains_iff.mpr hkey)

end Localized

/-- **What is found under the name of a reference that was turned**, in the document or in
a target that was copied, when the name needs no escapes and the document has an object or
nothing in the place of its components.

What the document itself declares under the name is found, if it declares anything.  If it
does not, a copy is found.  It is the copy of a target that some reference was turned to
that name for, and so it is the copy of the target of the reference itself, unless another
reference with another target goes by the same name. -/
theorem Store.lookup_of_localize {store : Store} {context : store.Context} {output : Json}
    (htakes : context.document.root.TakesComponents) (hnames : context.document.root.DistinctNames)
    (h : store.localize context = .ok output) :
    ∃ copies, output = insertComponents (Fields.mapValues (store.copyOf context.origin) copies)
        (store.redirected context) ∧
      ∀ start ∈ localizedSites context copies, ∀ site name target,
        ReflTransGen Site.HasPart start site → site.Redirects store context.origin name target →
        Pointer.Plain name →
          (store.localized context.origin site.source site.value).field? "$ref"
              = some (.string (Reference.toComponent name)) ∧
            (∀ own, Fields.get? (store.redirected context).components name = some own →
              store.lookup (Reference.toComponent name) (context.document.withRoot output).asContext
                = some ((context.document.withRoot output).asContext, own)) ∧
            (Fields.get? (store.redirected context).components name = none →
              (∃ other copied, ReflTransGen (Site.Follows store)
                  ⟨context, context.document.root⟩ other ∧
                other.Redirects store context.origin name copied ∧
                store.lookup (Reference.toComponent name)
                    (context.document.withRoot output).asContext
                  = some ((context.document.withRoot output).asContext,
                      store.copyOf context.origin copied)) ∧
              ((∀ other copied, ReflTransGen (Site.Follows store)
                  ⟨context, context.document.root⟩ other →
                  other.Redirects store context.origin name copied → copied = target) →
                store.lookup (Reference.toComponent name)
                    (context.document.withRoot output).asContext
                  = some ((context.document.withRoot output).asContext,
                      store.copyOf context.origin target))) := by
  obtain ⟨copies, hcopied, rfl⟩ := localize_eq_ok h
  refine ⟨copies, rfl, ?_⟩
  intro start hstart site name target hsite hredirects hplain
  have htakes' := htakes.redirected store hnames
  have hat :=
    Json.at?_component htakes' (Fields.mapValues (store.copyOf context.origin) copies) name []
  -- What is declared comes before what is copied.
  refine ⟨hredirects.field?_localized, fun own hown => ?_, fun hnone => ?_⟩
  · rw [hown, Option.some_or, Option.bind_some, Json.at?_nil] at hat
    exact Store.lookup_toComponent hplain hat
  · obtain ⟨copied, hcopy⟩ := hcopied.get?_of_redirects hstart hsite hredirects
    obtain ⟨other, hother, hstem⟩ := hcopied.stems _ (Fields.mem_of_get? hcopy)
    rw [hnone, Option.none_or, Fields.get?_mapValues, hcopy, Option.map_some, Option.bind_some,
      Json.at?_nil] at hat
    have hlookup : store.lookup (Reference.toComponent name)
        (context.document.withRoot (insertComponents
          (Fields.mapValues (store.copyOf context.origin) copies)
          (store.redirected context))).asContext = some (_, store.copyOf context.origin copied) :=
      Store.lookup_toComponent hplain hat
    refine ⟨⟨other, copied, hother, hstem, hlookup⟩, fun hsingle => ?_⟩
    rwa [hsingle other copied hother hstem] at hlookup

/-! ### Names that collide -/

theorem localize_eq_ok_of_toOption {store : Store} {context : store.Context} {output : Json}
    (h : (store.localize context).toOption = some output) :
    store.localize context = .ok output :=
  toOption_eq_some_iff.mp h

/-- Bundles with a schema that holds another, and with two schemas of one name. -/
def collidingBundles : Store :=
  ((Store.empty.register "types" ⟨none, "Types", .object [("definitions", .object
    [("Pair", .object [("title", .string "Pair"),
        ("items", .object [("$ref", .string "#/definitions/Name")])]),
      ("Name", .object [("title", .string "Name"), ("type", .string "string")])])]⟩).register
    "stock" ⟨none, "Stock", .object [("definitions", .object
      [("Item", .object [("title", .string "Item"), ("type", .string "integer")])])]⟩).register
    "orders" ⟨none, "Orders", .object [("definitions", .object
      [("Item", .object [("title", .string "Item"), ("type", .string "boolean")])])]⟩

/-- A document that refers to the schema that holds another and to that other, and declares
a schema of the name of the latter. -/
def pairDocument : Document := ⟨none, "Pairs", .object
  [("components", .object [("schemas", .object
      [("Name", .object [("title", .string "Name"), ("type", .string "integer")])])]),
    ("pair", .object [("$ref", .string "types#/definitions/Pair")]),
    ("name", .object [("$ref", .string "types#/definitions/Name")])]⟩

/-- The document with the schema copied that it does not declare. -/
def pairOutput : Json := .object
  [("components", .object [("schemas", .object
      [("Name", .object [("title", .string "Name"), ("type", .string "integer")]),
        ("Pair", .object [("title", .string "Pair"),
          ("items", .object [("$ref", .string "#/components/schemas/Name")])])])]),
    ("pair", .object [("$ref", .string "#/components/schemas/Pair")]),
    ("name", .object [("$ref", .string "#/components/schemas/Name")])]

/-- The first bundle, as a source. -/
def typesSource : Source :=
  ⟨.bundle "types", (collidingBundles.bundle? "types").getD pairDocument⟩

/-- All that `pairDocument` leads to. -/
def pairSites : List Site :=
  [⟨pairDocument.asContext, pairDocument.root⟩,
    ⟨pairDocument.asContext, .object [("schemas", .object
      [("Name", .object [("title", .string "Name"), ("type", .string "integer")])])]⟩,
    ⟨pairDocument.asContext, .object
      [("Name", .object [("title", .string "Name"), ("type", .string "integer")])]⟩,
    ⟨pairDocument.asContext, .object [("title", .string "Name"), ("type", .string "integer")]⟩,
    ⟨pairDocument.asContext, .string "Name"⟩, ⟨pairDocument.asContext, .string "integer"⟩,
    ⟨pairDocument.asContext, .object [("$ref", .string "types#/definitions/Pair")]⟩,
    ⟨pairDocument.asContext, .object [("$ref", .string "types#/definitions/Name")]⟩,
    ⟨typesSource, .object [("title", .string "Pair"),
      ("items", .object [("$ref", .string "#/definitions/Name")])]⟩,
    ⟨typesSource, .string "Pair"⟩, ⟨typesSource, .object [("$ref", .string "#/definitions/Name")]⟩,
    ⟨typesSource, .object [("title", .string "Name"), ("type", .string "string")]⟩,
    ⟨typesSource, .string "Name"⟩, ⟨typesSource, .string "string"⟩]

/-- The schema that holds the other, as a target. -/
private def pairTarget : Target := ⟨typesSource, [.member "definitions", .member "Pair"], .object
  [("title", .string "Pair"), ("items", .object [("$ref", .string "#/definitions/Name")])]⟩

/-- The other schema, as a target. -/
private def nameTarget : Target := ⟨typesSource, [.member "definitions", .member "Name"], .object
  [("title", .string "Name"), ("type", .string "string")]⟩

theorem mem_pairSites {site : Site} (h : ReflTransGen (Site.Follows collidingBundles)
    ⟨pairDocument.asContext, pairDocument.root⟩ site) : site ∈ pairSites :=
  Site.mem_of_follows (by decide +kernel) (by decide +kernel) h (by decide +kernel)

theorem takesComponents_pairDocument : pairDocument.root.TakesComponents := by
  refine ⟨rfl, ?_, ?_⟩
  · change ∀ value ∈ pairDocument.root.at? [.member "components"], _
    decide +kernel
  · change ∀ value ∈ pairDocument.root.at? Json.componentsPath, _
    decide +kernel

theorem localize_pairDocument : collidingBundles.localize pairDocument = .ok pairOutput :=
  localize_eq_ok_of_toOption (by decide +kernel)

/-- Only the schema that holds the other goes by its name. -/
private theorem eq_pairTarget {site : Site} {target : Target}
    (hsite : ReflTransGen (Site.Follows collidingBundles)
      ⟨pairDocument.asContext, pairDocument.root⟩ site)
    (h : site.Redirects collidingBundles .context "Pair" target) : target = pairTarget := by
  have hall : ∀ site ∈ pairSites, ∀ reference ∈ site.made?,
      ∀ target ∈ collidingBundles.locate? reference site.source,
        "Pair" = Walk.componentName target (Reference.fragment reference) →
          target = pairTarget := by
    decide +kernel
  obtain ⟨reference, hmade, hfound, -, hname⟩ := h
  exact hall site (mem_pairSites hsite) reference hmade target hfound hname

/-- In the localized document the reference to the schema that is copied finds the copy,
and the other reference what the document declares. -/
theorem Store.lookup_of_localize_pairDocument :
    pairDocument.root.TakesComponents ∧ pairDocument.root.DistinctNames ∧
      collidingBundles.localize pairDocument = .ok pairOutput ∧
      Pointer.Plain "Pair" ∧ Pointer.Plain "Name" ∧
      collidingBundles.lookup "#/components/schemas/Pair"
          (pairDocument.withRoot pairOutput).asContext
        = some ((pairDocument.withRoot pairOutput).asContext, .object [("title", .string "Pair"),
            ("items", .object [("$ref", .string "#/components/schemas/Name")])]) ∧
      collidingBundles.lookup "#/components/schemas/Name"
          (pairDocument.withRoot pairOutput).asContext
        = some ((pairDocument.withRoot pairOutput).asContext, .object [("title", .string "Name"),
            ("type", .string "integer")]) := by
  have htakes := takesComponents_pairDocument
  have hnames : pairDocument.root.DistinctNames := by decide +kernel
  have hrun := localize_pairDocument
  have hpair : Pointer.Plain "Pair" := by decide
  have hname : Pointer.Plain "Name" := by decide
  obtain ⟨copies, -, hall⟩ := Store.lookup_of_localize htakes hnames hrun
  have hroot : (⟨pairDocument.asContext, pairDocument.root⟩ : Site)
      ∈ localizedSites pairDocument.asContext copies := List.mem_cons_self ..
  have hpairSite : Site.Redirects collidingBundles .context
      ⟨pairDocument.asContext, .object [("$ref", .string "types#/definitions/Pair")]⟩ "Pair"
      pairTarget :=
    ⟨"types#/definitions/Pair", by decide +kernel, by decide +kernel, by decide, by decide +kernel⟩
  have hnameSite : Site.Redirects collidingBundles .context
      ⟨pairDocument.asContext, .object [("$ref", .string "types#/definitions/Name")]⟩ "Name"
      nameTarget :=
    ⟨"types#/definitions/Name", by decide +kernel, by decide +kernel, by decide, by decide +kernel⟩
  obtain ⟨-, -, hcopied⟩ := hall _ hroot _ _ _ (.single (by decide +kernel)) hpairSite hpair
  obtain ⟨-, hown, -⟩ := hall _ hroot _ _ _ (.single (by decide +kernel)) hnameSite hname
  refine ⟨htakes, hnames, hrun, hpair, hname, ?_, hown _ (by decide +kernel)⟩
  have hcopy : collidingBundles.copyOf .context pairTarget = .object [("title", .string "Pair"),
      ("items", .object [("$ref", .string "#/components/schemas/Name")])] := by decide +kernel
  rw [← hcopy]
  exact (hcopied (by decide +kernel)).2 fun other copied hother h => eq_pairTarget hother h

/-- Every reference in a document that is turned finds the copy of its target in `output`. -/
def Store.FindsCopies (store : Store) (context : Source) (output : Json) : Prop :=
  ∀ site name target, ReflTransGen Site.HasPart ⟨context, context.document.root⟩ site →
    site.Redirects store context.origin name target →
      store.lookup (Reference.toComponent name) (context.document.withRoot output).asContext
        = some ((context.document.withRoot output).asContext,
            store.copyOf context.origin target)

/-- A document that refers to two schemas of one name. -/
def itemDocument : Document := ⟨none, "Items", .object
  [("stock", .object [("$ref", .string "stock#/definitions/Item")]),
    ("orders", .object [("$ref", .string "orders#/definitions/Item")])]⟩

/-- A document that has a list in the place of its components. -/
def listDocument : Document := ⟨none, "List", .object
  [("components", .array []), ("name", .object [("$ref", .string "types#/definitions/Name")])]⟩

/-- A reference in a document does not find the copy of its target when something else is
found. -/
private theorem not_findsCopies {store : Store} {context : Source} {output : Json} {site : Site}
    {name : String} {target : Target}
    (hpart : Site.HasPart ⟨context, context.document.root⟩ site)
    (hredirects : site.Redirects store context.origin name target)
    (hlookup : store.lookup (Reference.toComponent name)
        (context.document.withRoot output).asContext
      ≠ some ((context.document.withRoot output).asContext,
          store.copyOf context.origin target)) :
    ¬ store.FindsCopies context output :=
  fun hfinds => hlookup (hfinds site name target (.single hpart) hredirects)

/-- The copy is not found where the document declares the name, where a schema of another
bundle goes by it, and where there is a list in the place of the components. -/
theorem not_findsCopies_collidingBundles :
    (∃ output, collidingBundles.localize pairDocument = .ok output ∧
        ¬ collidingBundles.FindsCopies pairDocument.asContext output) ∧
      (∃ output, collidingBundles.localize itemDocument = .ok output ∧
        ¬ collidingBundles.FindsCopies itemDocument.asContext output) ∧
      ∃ output, collidingBundles.localize listDocument = .ok output ∧
        ¬ collidingBundles.FindsCopies listDocument.asContext output := by
  have hpair := localize_pairDocument
  have hitem := @localize_eq_ok_of_toOption collidingBundles itemDocument (.object
    [("stock", .object [("$ref", .string "#/components/schemas/Item")]),
      ("orders", .object [("$ref", .string "#/components/schemas/Item")]),
      ("components", .object [("schemas", .object
        [("Item", .object [("title", .string "Item"), ("type", .string "integer")])])])])
    (by decide +kernel)
  have hlist := @localize_eq_ok_of_toOption collidingBundles listDocument (.object
    [("components", .array []), ("name", .object [("$ref", .string "#/components/schemas/Name")])])
    (by decide +kernel)
  have hname : ∀ document ∈ [pairDocument, listDocument], Site.Redirects collidingBundles .context
      ⟨document.asContext, .object [("$ref", .string "types#/definitions/Name")]⟩ "Name"
      nameTarget := by
    intro document hmem
    have hfound : ∀ document ∈ [pairDocument, listDocument],
        collidingBundles.locate? "types#/definitions/Name" document.asContext
          = some nameTarget := by
      decide +kernel
    exact ⟨"types#/definitions/Name", rfl, hfound document hmem, by decide, by decide +kernel⟩
  refine ⟨⟨_, hpair, ?_⟩, ⟨_, hitem, ?_⟩, _, hlist, ?_⟩
  · exact not_findsCopies (by decide +kernel) (hname pairDocument (by decide +kernel))
      (by decide +kernel)
  · have horders : Site.Redirects collidingBundles .context
        ⟨itemDocument.asContext, .object [("$ref", .string "orders#/definitions/Item")]⟩ "Item"
        ⟨⟨.bundle "orders", (collidingBundles.bundle? "orders").getD itemDocument⟩,
          [.member "definitions", .member "Item"],
          .object [("title", .string "Item"), ("type", .string "boolean")]⟩ :=
      ⟨"orders#/definitions/Item", by decide +kernel, by decide +kernel, by decide,
        by decide +kernel⟩
    exact not_findsCopies (by decide +kernel) horders (by decide +kernel)
  · exact not_findsCopies (by decide +kernel) (hname listDocument (by decide +kernel))
      (by decide +kernel)

end RpcSchema
