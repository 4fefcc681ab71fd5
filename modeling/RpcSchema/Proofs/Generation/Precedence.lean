import RpcSchema.Proofs.Declaration.Preference
import RpcSchema.Proofs.Generation.Accounts
import RpcSchema.Proofs.Identity
import RpcSchema.Proofs.Projection.Names

/-!
# Declared before use

What a declaration mentions, its schema depends on: projection takes the names in a shape from the
promoted schema, and they are among the dependencies that were collected from it.  The order puts
dependencies first, but for those on a common circle, and projecting the schemas in that order
drops some of them and moves none.

## Main results

* `precedes_of_mem_names` — what a declaration mentions comes before it.
-/

namespace RpcSchema

variable {document : Document} {store : Store} {profile : Profile} {options : ProjectionOptions}
  {methods : List PlacedMethod} {findComponents : Nat → List (Nat × Nat) → List (List Nat)}

namespace Projector

variable {projector : Projector} {named : NamedSchema} {declaration : Declaration}

/-- What a declaration mentions, its schema depends on. -/
theorem mem_dependencies_of_declare (hkept : projector.options.inlineNamed = false)
    (hcomplete : named.Complete) (h : projector.declare named = .ok declaration) {name : String}
    (hname : name ∈ declaration.shape.names) (hne : name ≠ named.name) :
    name ∈ named.dependencies := by
  obtain ⟨-, hshape⟩ := declare_eq_ok h
  rcases names_shape_subset hkept hcomplete.titled hshape name hname with rfl | hbelow
  · exact absurd rfl hne
  · exact hcomplete.depends name hbelow hne

end Projector

/-- Two items that are kept stay in order. -/
private theorem filterMap_pair_sublist {α β : Type} {f : α → Option β} {items : List α} {a b : α}
    {c d : β} (h : [a, b].Sublist items) (ha : f a = some c) (hb : f b = some d) :
    [c, d].Sublist (items.filterMap f) := by
  have hkept := h.filterMap f
  rwa [List.filterMap_cons_some ha, List.filterMap_cons_some hb] at hkept

/-- **Declared before use.**  When named schemas are not inlined and the schemas to be declared
have distinct names, what the shape of a declaration mentions at any depth, if it is declared at
all and not by the declaration itself, is declared before, unless the two are on a common circle
of dependencies. -/
theorem precedes_of_mem_names (hfind : Order.FindsComponents findComponents) (document : Document)
    (store : Store) (profile : Profile) {options : ProjectionOptions}
    (hkept : options.inlineNamed = false) :
    let named := ((Run.forProfile document store profile).resolveModule
      (readableMethods document)).named
    let declarations := (generateModuleBy findComponents document store profile options).declarations
    (named.map NamedSchema.name).Nodup →
    ∀ d ∈ declarations, ∀ e ∈ declarations, e.name ∈ d.shape.names → e.name ≠ d.name →
      [e, d].Sublist declarations ∨
        ∃ a ∈ named, ∃ b ∈ named, a.name = d.name ∧ b.name = e.name ∧ Circular named a b := by
  intro named declarations hnames d hd e he hmention hne
  obtain ⟨schemas, resolved, hturns⟩ := resolveModule_run (Run.forProfile document store profile)
    (readableMethods document)
  have hordered : declarations = _ := declarations_eq document store profile options
  rw [hordered] at hd he ⊢
  obtain ⟨a, ha, hdeclared⟩ := List.mem_filterMap.mp hd
  obtain ⟨b, hb, hdeclared'⟩ := List.mem_filterMap.mp he
  have hok := toOption_eq_some_iff.mp hdeclared
  have hnameA := (Projector.declare_eq_ok hok).1
  have hnameB := (Projector.declare_eq_ok (toOption_eq_some_iff.mp hdeclared')).1
  have hperm := orderBy_perm hfind named
  have haNamed : a ∈ named := hperm.mem_iff.mp ha
  have hbNamed : b ∈ named := hperm.mem_iff.mp hb
  have hdependency : e.name ∈ a.dependencies :=
    Projector.mem_dependencies_of_declare hkept (hturns.complete a haNamed) hok hmention
      (hnameA ▸ hne)
  by_cases hcircular : Circular named a b
  · exact .inr ⟨a, haNamed, b, hbNamed, hnameA.symm, hnameB.symm, hcircular⟩
  · -- The two are in order, and both of them are kept.
    have hsublist := sublist_orderBy hfind hnames ⟨haNamed, hbNamed, hnameB ▸ hdependency⟩ hcircular
    exact .inl (filterMap_pair_sublist hsublist hdeclared' hdeclared)

/-! ### A document with a dependency -/

/-- A schema that refers to nothing. -/
def petNode : Json := .object [("title", .string "Pet"),
  ("properties", .object [("tag", .bool true)])]

/-- A schema that refers to the first one, and stands before it. -/
def ownerNode : Json := .object [("title", .string "Owner"),
  ("properties", .object [("pet", .object [("$ref", .string "#/definitions/Pet")])])]

/-- A document with the two. -/
def ownersDocument : Document :=
  ⟨none, "Pets", .object [("definitions", .object [("Owner", ownerNode), ("Pet", petNode)])]⟩

/-- What the first one is read as. -/
def petSchema : Schema :=
  ⟨some "Pet", none, .object ⟨[("tag", .ofKind .empty)], [], .unstated, [], none⟩, []⟩

/-- What the second one is read as. -/
def ownerSchema : Schema :=
  ⟨some "Owner", none, .object ⟨[("pet", petSchema)], [], .unstated, [], none⟩, []⟩

theorem parsed_petNode : (Run.forProfile ownersDocument .empty .typescript).parsed petNode
    "#/definitions/Pet" = .ok petSchema := by
  have hrun := @eq_ok_of_toOption
    (Store.empty.dereferenceAt .standard petNode ownersDocument "#/definitions/Pet")
    ⟨petNode, [], []⟩ rfl
  refine Run.parsed_eq_ok_iff.mpr ⟨_, hrun, ?_⟩
  simp [petNode, Schema.ofJson, Schema.read, Schema.readBody, Schema.readPartsAt,
    Schema.readObject, Schema.readFieldsAt, Schema.readFields, Schema.readAdditional, takenText,
    describesObject, describesArray, typeName?]
  rfl

theorem parsed_ownerNode : (Run.forProfile ownersDocument .empty .typescript).parsed ownerNode
    "#/definitions/Owner" = .ok ownerSchema := by
  have hrun := @eq_ok_of_toOption
    (Store.empty.dereferenceAt .standard ownerNode ownersDocument "#/definitions/Owner")
    ⟨.object [("title", .string "Owner"), ("properties", .object [("pet", petNode)])], [], []⟩
    (by decide +kernel)
  refine Run.parsed_eq_ok_iff.mpr ⟨_, hrun, ?_⟩
  simp [petNode, Schema.ofJson, Schema.read, Schema.readBody, Schema.readPartsAt,
    Schema.readObject, Schema.readFieldsAt, Schema.readFields, Schema.readAdditional, takenText,
    describesObject, describesArray, typeName?]
  rfl

/-- What the document is resolved to. -/
theorem resolveModule_ownersDocument :
    (Run.forProfile ownersDocument .empty .typescript).resolveModule [] =
      ⟨⟨[⟨"#/definitions/Owner", ⟨"Owner", ownerSchema, ["Pet"]⟩⟩,
        ⟨"#/definitions/Pet", ⟨"Pet", petSchema, []⟩⟩], []⟩, ⟨[], []⟩,
        (Run.forProfile ownersDocument .empty .typescript).registry⟩ := by
  have hnamed : (Run.forProfile ownersDocument .empty .typescript).document.named =
      [⟨"Owner", "#/definitions/Owner", ownerNode⟩, ⟨"Pet", "#/definitions/Pet", petNode⟩] := rfl
  rw [Run.resolveModule, hnamed]
  simp only [resolveEach, Run.resolveLocated, Run.resolveNamed, Run.canonical, parsed_ownerNode,
    parsed_petNode]
  rfl

/-- The owner stands first in its document and refers to the pet, so the pet is declared first. -/
theorem precedes_of_mem_names_owner :
    let named := ((Run.forProfile ownersDocument .empty .typescript).resolveModule
      (readableMethods ownersDocument)).named
    let declarations := (generateModule ownersDocument .empty .typescript .standard).declarations
    Order.FindsComponents Order.stronglyConnected ∧
      ProjectionOptions.standard.inlineNamed = false ∧ (named.map NamedSchema.name).Nodup ∧
      ∃ d ∈ declarations, ∃ e ∈ declarations, d.name = "Owner" ∧ e.name = "Pet" ∧
        "Pet" ∈ d.shape.names ∧ [e, d].Sublist declarations := by
  intro named declarations
  have hfind := Order.findsComponents_stronglyConnected
  have hnamed : named = [⟨"Owner", ownerSchema, ["Pet"]⟩, ⟨"Pet", petSchema, []⟩] :=
    congrArg Resolution.named resolveModule_ownersDocument
  have hnames : (named.map NamedSchema.name).Nodup := by
    rw [hnamed]
    decide
  have hdeclarations : declarations.map (fun declaration => (declaration.name,
      declaration.shape.names)) = [("Pet", []), ("Owner", ["Pet"])] := by
    have hmethods : readableMethods ownersDocument = [] := rfl
    simp only [declarations, generateModule, declarations_eq, hmethods, resolveModule_ownersDocument]
    rfl
  obtain ⟨e, rest, he, hpet, hrest⟩ := List.map_eq_cons_iff.mp hdeclarations
  obtain ⟨d, last, rfl, howner, -⟩ := List.map_eq_cons_iff.mp hrest
  obtain ⟨hdName, hdNames⟩ := Prod.ext_iff.mp howner
  obtain ⟨heName, -⟩ := Prod.ext_iff.mp hpet
  dsimp only at hdName hdNames heName
  have hmem : d ∈ declarations := by rw [he]; simp
  have hmem' : e ∈ declarations := by rw [he]; simp
  have hmention : "Pet" ∈ d.shape.names := by rw [hdNames]; simp
  refine ⟨hfind, rfl, hnames, d, hmem, e, hmem', hdName, heName, hmention, ?_⟩
  rcases precedes_of_mem_names hfind ownersDocument .empty .typescript rfl hnames d hmem e hmem'
    (heName ▸ hmention) (by rw [heName, hdName]; decide)
    with hbefore | ⟨a, ha, b, hb, haName, hbName, hcircular⟩
  · exact hbefore
  · -- The pet depends on nothing, so it is on no circle with the owner.
    have hnone : ∀ schema ∈ named, schema.name = "Pet" → schema.dependencies = [] := by
      rw [hnamed]
      simp
    have hindependent : Independent named b :=
      .of_no_dependencies (hnone b hb (hbName.trans heName))
    obtain rfl : a = b := hindependent.eq_of_circular ⟨hcircular.2, hcircular.1⟩
    exact absurd (haName.symm.trans hbName) (by rw [hdName, heName]; decide)

end RpcSchema
