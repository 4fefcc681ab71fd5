import RpcSchema.Proofs.Generation.Closure
import RpcSchema.Proofs.Generation.Failures

/-!
# Names of declarations

A schema of the document is declared under the title that it is read with, which is its own title.
A registered schema is declared under the name that it was given, and no name is given out that a
schema of the document goes by, whether as its key or as its title.  So when all schemas of the
document have titles and no two have the same, no two declarations have the same name.

## Main definitions

* `Document.TitlesApart` — all named schemas have titles, and no two have the same.

## Main results

* `Resolution.Turns.not_goesBy` — nothing in the document goes by the name of a registered schema.
* `generateModuleBy_names` — names of declarations are apart, and whose they are.
-/

namespace RpcSchema

/-- All named schemas have titles, and no two have the same. -/
structure Document.TitlesApart (document : Document) : Prop where
  titled : ∀ entry ∈ document.named, (entry.node.stringField? "title").isSome
  nodup : (document.named.map fun entry => entry.node.stringField? "title").Nodup

/-- What is read off the kept values is a part of what is read off all items, when it is the same
for each value. -/
private theorem map_filterMap_sublist {α β γ : Type} {items : List α} {f : α → Option β} {g : β → γ}
    {g' : α → γ} (h : ∀ item ∈ items, ∀ value, f item = some value → g value = g' item) :
    ((items.filterMap f).map g).Sublist (items.map g') := by
  induction items with
  | nil => exact List.Sublist.slnil
  | cons item rest ih =>
    obtain ⟨hitem, hrest⟩ := List.forall_mem_cons.mp h
    cases hvalue : f item with
    | none =>
      rw [List.filterMap_cons_none hvalue]
      exact (ih hrest).cons _
    | some value =>
      rw [List.filterMap_cons_some hvalue, List.map_cons, List.map_cons, hitem value hvalue]
      exact (ih hrest).cons_cons _

namespace Resolution.Turns

variable {run : Run} {methods : List PlacedMethod} {resolution : Resolution}
  {schemas : List (NamedNode × Except Failure LocatedSchema)}
  {resolved : List (PlacedMethod × Except Failure ResolvedMethod)}

theorem grown (h : resolution.Turns run methods schemas resolved) :
    run.registry.Grown resolution.registry :=
  (h.spec (fun _ _ => run.reads_univ _ _) fun placed _ => run.reads_method_univ placed).1

theorem wellKept (h : resolution.Turns run methods schemas resolved) :
    resolution.registry.WellKept :=
  h.grown.kept (Registry.wellKept_reserving _)

/-- **Nothing in the document goes by the name of a registered schema**: the names of the document
are reserved, and stay so. -/
theorem not_goesBy (h : resolution.Turns run methods schemas resolved)
    {registered : String × Schema} (hregistered : registered ∈ resolution.registry.entries)
    {entry : NamedNode} (hentry : entry ∈ run.document.named) : entry.goesBy registered.1 = false := by
  have hfree := h.wellKept.free registered.1 (List.mem_map_of_mem hregistered)
  rw [h.grown.grows.reserved, Run.mem_reserved] at hfree
  exact Bool.eq_false_iff.mpr fun hgoes => hfree ⟨entry, hentry, hgoes⟩

/-- A schema of the document is called by its own title. -/
theorem title_eq (h : resolution.Turns run methods schemas resolved)
    (hnames : run.document.root.DistinctNames) (htitles : run.document.TitlesApart)
    {entry : NamedNode} {located : LocatedSchema} (hmem : (entry, .ok located) ∈ schemas) :
    entry.node.stringField? "title" = some located.named.name := by
  have hentry : entry ∈ run.document.named := h.named ▸ List.mem_map_of_mem hmem
  obtain ⟨title, htitle⟩ := Option.isSome_iff_exists.mp (htitles.titled entry hentry)
  rw [htitle, h.name_eq hnames hmem htitle]

/-- The resolved schemas of the document have names of their own. -/
theorem nodup_located (h : resolution.Turns run methods schemas resolved)
    (hnames : run.document.root.DistinctNames) (htitles : run.document.TitlesApart) :
    ((successes schemas).map fun located => located.named.name).Nodup := by
  have hsame : ∀ pair ∈ schemas, ∀ located, pair.2.toOption = some located →
      some located.named.name = pair.1.node.stringField? "title" := by
    rintro ⟨entry, outcome⟩ hmem located hvalue
    obtain rfl := toOption_eq_some_iff.mp hvalue
    exact (h.title_eq hnames htitles hmem).symm
  have hall := htitles.nodup
  rw [← h.named, List.map_map] at hall
  have hnodup := (map_filterMap_sublist hsame).nodup hall
  exact List.Nodup.of_map some (by rwa [List.map_map])

/-- **What is to be declared has names of its own**: those of the document are apart, those of the
registry are, and none is of both. -/
theorem nodup_named (h : resolution.Turns run methods schemas resolved)
    (hnames : run.document.root.DistinctNames) (htitles : run.document.TitlesApart) :
    (resolution.named.map NamedSchema.name).Nodup := by
  rw [Resolution.named, h.schemaOutcomes, List.map_append, List.map_map, List.map_map]
  refine (h.nodup_located hnames htitles).append h.wellKept.nodup fun name hlocated hkey => ?_
  obtain ⟨located, hvalue, rfl⟩ := List.mem_map.mp hlocated
  obtain ⟨registered, hregistered, hname⟩ := List.mem_map.mp hkey
  obtain ⟨entry, hmem⟩ := mem_successes.mp hvalue
  have hgoes : entry.goesBy registered.1 = true := by
    change registered.1 = located.named.name at hname
    rw [NamedNode.goesBy, h.title_eq hnames htitles hmem, hname, decide_eq_true rfl, Bool.or_true]
  rw [h.not_goesBy hregistered (h.named ▸ List.mem_map_of_mem hmem)] at hgoes
  cases hgoes

end Resolution.Turns

section Output

variable {findComponents : Nat → List (Nat × Nat) → List (List Nat)} {document : Document}

/-- **Names of declarations.**  When all named schemas of the document have titles, and no two have
the same, no two declarations have the same name.  A schema of the document that is resolved and
projected is declared under its own title; a registered schema is declared under a name that is
neither key nor title of a schema of the document; and there are no other declarations. -/
theorem generateModuleBy_names (hfind : Order.FindsComponents findComponents)
    (hnames : document.root.DistinctNames) (htitles : document.TitlesApart) (store : Store)
    (profile : Profile) (options : ProjectionOptions) :
    let run := Run.forProfile document store profile
    let resolution := run.resolveModule (readableMethods document)
    let projector := Projector.atRoot document store profile options
    let declare : NamedSchema → Except Failure Declaration := fun named =>
      (projector.atPath (resolution.pointerTo named.name)).declare named
    let declarations :=
      (generateModuleBy findComponents document store profile options).declarations
    (declarations.map Declaration.name).Nodup ∧
      ∃ schemas resolved, resolution.Turns run (readableMethods document) schemas resolved ∧
        (∀ entry located declaration, (entry, .ok located) ∈ schemas →
          declare located.named = .ok declaration →
            declaration ∈ declarations ∧ entry.node.stringField? "title" = some declaration.name) ∧
        (∀ registered ∈ resolution.registry.entries, ∀ declaration,
          declare (.of registered.1 registered.2) = .ok declaration →
            declaration ∈ declarations ∧ declaration.name = registered.1 ∧
              ∀ entry ∈ document.named, entry.goesBy declaration.name = false) ∧
        ∀ declaration ∈ declarations,
          (∃ entry located, (entry, .ok located) ∈ schemas ∧
            declare located.named = .ok declaration) ∨
          ∃ registered ∈ resolution.registry.entries,
            declare (.of registered.1 registered.2) = .ok declaration := by
  intro run resolution projector declare declarations
  obtain ⟨schemas, resolved, hturns⟩ := resolveModule_run run (readableMethods document)
  have hdeclared : ∀ named ∈ resolution.named, ∀ declaration, declare named = .ok declaration →
      declaration ∈ declarations := fun named hnamed declaration hok =>
    (mem_declarations_iff hfind).mpr ⟨named, hnamed, hok⟩
  refine ⟨?_, schemas, resolved, hturns, fun entry located declaration hmem hok => ?_,
    fun registered hregistered declaration hok => ?_, fun declaration hdeclaration => ?_⟩
  · -- Projecting the schemas in order drops some of them, and keeps the names of the others.
    have hordered : declarations = _ := declarations_eq document store profile options
    let ordered := orderBy findComponents resolution.named
    have hkept : ((ordered.filterMap fun named => (declare named).toOption).map
        Declaration.name).Sublist (ordered.map NamedSchema.name) :=
      map_filterMap_sublist fun named _ declaration hok =>
        (Projector.declare_eq_ok (toOption_eq_some_iff.mp hok)).1
    rw [hordered]
    refine hkept.nodup ?_
    exact ((orderBy_perm hfind resolution.named).map _).nodup_iff.mpr
      (hturns.nodup_named hnames htitles)
  · refine ⟨hdeclared _ (hturns.mem_named hmem) declaration hok, ?_⟩
    rw [(Projector.declare_eq_ok hok).1]
    exact hturns.title_eq hnames htitles hmem
  · have hname : declaration.name = registered.1 := (Projector.declare_eq_ok hok).1
    refine ⟨hdeclared _ (List.mem_append_right _ (List.mem_map_of_mem hregistered)) declaration hok,
      hname, fun entry hentry => ?_⟩
    rw [hname]
    exact hturns.not_goesBy hregistered hentry
  · obtain ⟨named, hnamed, hok⟩ := (mem_declarations_iff hfind).mp hdeclaration
    rcases List.mem_append.mp hnamed with hnamed | hnamed
    · obtain ⟨located, hlocated, rfl⟩ := List.mem_map.mp hnamed
      rw [hturns.schemaOutcomes] at hlocated
      obtain ⟨entry, hmem⟩ := mem_successes.mp hlocated
      exact .inl ⟨entry, located, hmem, hok⟩
    · obtain ⟨registered, hregistered, rfl⟩ := List.mem_map.mp hnamed
      exact .inr ⟨registered, hregistered, hok⟩

end Output

/-! ### A key that is wanted as a name -/

/-- A document with a method whose parameter would go by the key of a schema of another title. -/
def claimedDocument : Document := ⟨none, "Setup", .object [
  ("info", .object [("title", .string "Setup")]),
  ("definitions", .object [("SetupOptions", nicknameNode)]),
  ("methods", .array [.object [("name", .string "setup"),
    ("params", .array [descriptorNode "options" optionsNode])]])]⟩

theorem named_claimedDocument :
    ((Run.forProfile claimedDocument .empty .typescript).resolveModule [setupMethod]).named
      = [⟨"Nickname", nicknameSchema, []⟩,
        ⟨"SetupOptions2", optionsSchema.withTitle "SetupOptions2", []⟩] := by
  have hnamed : (Run.forProfile claimedDocument .empty .typescript).document.named
      = [⟨"SetupOptions", "#/definitions/SetupOptions", nicknameNode⟩] := rfl
  rw [Run.resolveModule, hnamed]
  simp only [resolveEach, Run.resolveLocated, Run.resolveNamed, Run.resolveMethod, setupMethod,
    Run.resolveParams, Run.resolveDescriptor, Run.canonical, parsed_nicknameNode,
    parsed_optionsNode]
  rfl

/-- The schema is declared under its title, and its key is left free. -/
theorem generateModuleBy_names_claimedDocument :
    let declarations := (generateModule claimedDocument .empty .typescript .standard).declarations
    Order.FindsComponents Order.stronglyConnected ∧ claimedDocument.root.DistinctNames ∧
      claimedDocument.TitlesApart ∧
      declarations.map Declaration.name = ["Nickname", "SetupOptions2"] ∧
      (declarations.map Declaration.name).Nodup := by
  intro declarations
  have hfind := Order.findsComponents_stronglyConnected
  have hnames : claimedDocument.root.DistinctNames := by decide
  have htitles : claimedDocument.TitlesApart := ⟨by decide, by decide⟩
  have hdeclared : declarations.map Declaration.name = ["Nickname", "SetupOptions2"] := by
    have hread : readableMethods claimedDocument = [setupMethod] := rfl
    exact (declaredNames_eq hread named_claimedDocument).trans rfl
  exact ⟨hfind, hnames, htitles, hdeclared,
    (generateModuleBy_names hfind hnames htitles .empty .typescript .standard).1⟩

end RpcSchema
