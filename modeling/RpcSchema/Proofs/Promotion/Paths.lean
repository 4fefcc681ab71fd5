import RpcSchema.Proofs.Identifier.Pascal
import RpcSchema.Proofs.Promotion.Restoration
import RpcSchema.Proofs.Registration

/-!
# Names along paths

What promotion takes out of a schema is called after the way to it.  A path lists the names on this
way: the keys of properties, `value` for other properties, and numbers for items by position.  Other
items, parts of intersections and branches of unions take the name of what holds them, and do not
show on the path.  Where the paths lead is told by the schema alone, without a registry.

The name along a path starts with a first name and nests one name after the other.  Names on the
path are written in PascalCase, one after the other, so it makes no difference whether a path is
followed below a parent, or the name along it is nested in the parent as a whole.

The registry may have a name already.  Then the name is given with a number.

## Main definitions

* `Promotion.Segment`, `Promotion.nameAlong` — the names on a path, and the name along it.
* `Schema.places` — the paths to what is taken out of a schema.
* `Registry.Gains` — the names that a registry gained are the wanted ones, up to numbers.

## Main results

* `Promotion.pascal_nameAlong` — the name along a path is made of the names on it.
* `Promotion.gains_run` — promotion registers what it takes out under the names along the paths.
* `Promotion.names_along_paths` — the laws of names, up to those of whole paths.
-/

namespace RpcSchema

namespace Promotion

/-! ### Paths -/

/-- What a path lists. -/
inductive Segment
  /-- The key of a property, or `value`. -/
  | name (text : String)
  /-- The position of an item. -/
  | index (position : Nat)
  deriving DecidableEq, Repr

namespace Segment

/-- The name of what is one segment below a name. -/
def extend (name : String) : Segment → String
  | .name text => nestedName name text
  | .index position => name ++ toString position

/-- The name that a segment shows. -/
def text : Segment → String
  | .name text => text
  | .index position => toString position

end Segment

/-- The name along a path that starts at a name. -/
def nameAlong (root : String) (path : List Segment) : String := path.foldl Segment.extend root

section Names

variable {root : String}

@[simp] theorem nameAlong_nil (root : String) : nameAlong root [] = root := rfl

@[simp] theorem nameAlong_cons (root : String) (segment : Segment) (path : List Segment) :
    nameAlong root (segment :: path) = nameAlong (segment.extend root) path := rfl

theorem pascal_extend (root : String) (segment : Segment) :
    pascal (segment.extend root) = pascal root ++ pascal segment.text := by
  cases segment with
  | name text => exact (isPascalName_nestedName root text).pascal_eq
  | index position =>
    have hdigits := isPascalName_toString position
    rw [Segment.extend, Segment.text, hdigits.pascal_append, hdigits.pascal_eq]

theorem isPascalName_extend (h : IsPascalName root) (segment : Segment) :
    IsPascalName (segment.extend root) := by
  cases segment with
  | name text => exact isPascalName_nestedName root text
  | index position => exact h.append (isPascalName_toString position)

/-- **The name along a path is made of the names on it**, each in PascalCase. -/
theorem pascal_nameAlong (root : String) (path : List Segment) :
    pascal (nameAlong root path)
      = String.join ((root :: path.map Segment.text).map pascal) := by
  induction path generalizing root with
  | nil => simp
  | cons segment path ih =>
    rw [nameAlong_cons, ih]
    simp only [List.map_cons, String.join_cons, pascal_extend, String.append_assoc]

/-- A path that starts at a name in PascalCase gives such names only. -/
theorem isPascalName_nameAlong (h : IsPascalName root) (path : List Segment) :
    IsPascalName (nameAlong root path) := by
  induction path generalizing root with
  | nil => exact h
  | cons segment path ih => exact ih (isPascalName_extend h segment)

/-- The names along paths below a nested name are those of the parent, the child and the path. -/
theorem nameAlong_nestedName (parent child : String) (path : List Segment) :
    nameAlong (nestedName parent child) path
      = String.join ((parent :: child :: path.map Segment.text).map pascal) := by
  -- The whole name is in PascalCase, and the parent and the child are its first two words.
  have hpascal := isPascalName_nameAlong (isPascalName_nestedName parent child) path
  rw [← hpascal.pascal_eq, pascal_nameAlong]
  simp only [List.map_cons, String.join_cons, (isPascalName_nestedName parent child).pascal_eq]
  rw [nestedName, String.append_assoc]

/-- **Nesting the name along a path as a whole** is nesting where it starts. -/
theorem nestedName_nameAlong (parent child : String) (path : List Segment) :
    nestedName parent (nameAlong child path) = nameAlong (nestedName parent child) path := by
  rw [nestedName, pascal_nameAlong, nameAlong_nestedName]
  simp only [List.map_cons, String.join_cons]

end Names

end Promotion

open Promotion (Segment nameAlong)

/-! ### What is taken out -/

mutual

/-- The paths from a schema to what is taken out of it, itself included. -/
def Schema.places : Schema → List (List Segment)
  | ⟨title, description, kind, extra⟩ =>
    if title.isSome then []
    else
      Kind.places kind ++
        if Schema.isPromotable ⟨title, description, kind, extra⟩ then [[]] else []

/-- The paths to what is taken out of a shape. -/
def Kind.places : Kind → List (List Segment)
  | .object shape => ObjectSchema.places shape
  | .listOf item => Schema.places item
  | .tuple items => Schema.placesTuple 0 items
  | .allOf parts => Schema.placesItems parts
  | .anyOf branches => Schema.placesItems branches
  | _ => []

/-- The paths to what is taken out of an object shape. -/
def ObjectSchema.places : ObjectSchema → List (List Segment)
  | ⟨properties, _, additional, patterns, _⟩ =>
    Schema.placesProperties properties ++
      (Additional.places additional ++ Schema.placesValues patterns)

/-- The paths to what is taken out of undeclared properties. -/
def Additional.places : Additional → List (List Segment)
  | .schema value => (Schema.places value).map (.name "value" :: ·)
  | _ => []

/-- The paths through schemas that share a name. -/
def Schema.placesItems : List Schema → List (List Segment)
  | [] => []
  | schema :: rest => Schema.places schema ++ Schema.placesItems rest

/-- The paths through schemas by position; `index` is that of the first. -/
def Schema.placesTuple (index : Nat) : List Schema → List (List Segment)
  | [] => []
  | schema :: rest =>
    (Schema.places schema).map (.index index :: ·) ++ Schema.placesTuple (index + 1) rest

/-- The paths through properties. -/
def Schema.placesProperties : List (String × Schema) → List (List Segment)
  | [] => []
  | (key, schema) :: rest =>
    (Schema.places schema).map (.name key :: ·) ++ Schema.placesProperties rest

/-- The paths through the values of patterns. -/
def Schema.placesValues : List (String × Schema) → List (List Segment)
  | [] => []
  | (_, schema) :: rest =>
    (Schema.places schema).map (.name "value" :: ·) ++ Schema.placesValues rest

end

/-- The name that the paths through a shape start at. -/
def Kind.root (owner hint : String) : Kind → String
  | .object _ => owner
  | _ => hint

namespace Promotion

/-- The name that the paths of a call start at. -/
def root : Promotion → String
  | .promote name schema => schema.kind.root (schema.title.getD name) name
  | .lift name _ => name

/-- The paths of a call. -/
def places : Promotion → List (List Segment)
  | .promote _ schema => schema.kind.places
  | .lift _ schema => schema.places

end Promotion

/-! ### What a registry gains -/

namespace Registry

/-- The names in a registry at the end of a run are those at its beginning and the wanted ones, as
they are or with a number.  Nothing else changed. -/
structure Gains (registry : Registry) (wanted : List String) (last : Registry) : Prop where
  grows : registry.Extends last
  source : ∀ key ∈ Fields.keys last.entries, key ∈ Fields.keys registry.entries ∨
    ∃ name ∈ wanted, ∃ index, key = candidate name index
  given : ∀ name ∈ wanted, ∃ index, candidate name index ∈ Fields.keys last.entries

variable {registry middle last : Registry} {wanted wanted' : List String}

theorem Gains.refl (registry : Registry) : registry.Gains [] registry :=
  ⟨.refl registry, fun _ hkey => .inl hkey, by simp⟩

theorem Gains.trans (h : registry.Gains wanted middle) (h' : middle.Gains wanted' last) :
    registry.Gains (wanted ++ wanted') last where
  grows := h.grows.trans h'.grows
  source key hkey := by
    rcases h'.source key hkey with hmiddle | ⟨name, hname, hgiven⟩
    · rcases h.source key hmiddle with hbefore | ⟨name, hname, hgiven⟩
      · exact .inl hbefore
      · exact .inr ⟨name, List.mem_append_left _ hname, hgiven⟩
    · exact .inr ⟨name, List.mem_append_right _ hname, hgiven⟩
  given := by
    refine List.forall_mem_append.mpr ⟨fun name hname => ?_, h'.given⟩
    exact (h.given name hname).imp fun _ hmem => h'.grows.keys_mem hmem

/-- One registration is under the wanted name, or under this name with a number. -/
theorem gains_insert (registry : Registry) (name : String) (schema : Schema) :
    registry.Gains [name] (registry.insert name schema).2 := by
  obtain ⟨index, hslot, -⟩ := settles_slot registry name schema
  have hchosen : (registry.insert name schema).1 = candidate name index := by
    rw [insert_fst, hslot]
  refine ⟨extends_insert registry name schema, fun key hkey => ?_, ?_⟩
  · rcases entries_insert registry name schema with hsame | hadded
    · exact .inl (by rwa [hsame] at hkey)
    · rw [hadded, Fields.keys_append, List.mem_append] at hkey
      refine hkey.imp id fun hnew => ⟨name, List.mem_singleton_self name, index, ?_⟩
      rw [← hchosen]
      exact List.mem_singleton.mp hnew
  · refine List.forall_mem_singleton.mpr ⟨index, ?_⟩
    rw [← hchosen]
    exact fst_insert_mem_keys registry name schema

/-- Every run of the computation registers schemas under the wanted names. -/
def Asks {α : Type} (wanted : List String) (x : StateM Registry α) : Prop :=
  ∀ registry : Registry, registry.Gains wanted (x.run registry).2

section Rules

variable {α β : Type} {x : StateM Registry α} {f : α → StateM Registry β}

theorem Asks.pure (value : α) : Asks [] (Pure.pure value : StateM Registry α) := Gains.refl

theorem Asks.bind (hx : Asks wanted x) (hf : ∀ value, Asks wanted' (f value)) :
    Asks (wanted ++ wanted') (x >>= f) :=
  fun registry => (hx registry).trans (hf _ _)

theorem Asks.map {f : α → β} (hx : Asks wanted x) :
    Asks wanted (do let value ← x; Pure.pure (f value)) := hx

theorem asks_register (name : String) (schema : Schema) : Asks [name] (register name schema) :=
  fun registry => gains_insert registry name schema

end Rules

end Registry

open Registry (Asks)

/-! ### Promotion -/

namespace Schema

variable {schema : Schema} {items : List Schema} {fields : Fields Schema}

/-- Lifting the schema registers what is taken out under the names along the paths. -/
def AsksAlong (schema : Schema) : Prop :=
  ∀ name, Asks (schema.places.map (nameAlong name)) (schema.lift name)

/-- Paths that go on below a segment start at the name of this segment. -/
theorem AsksAlong.below (h : schema.AsksAlong) (name : String) (segment : Segment) :
    Asks ((schema.places.map (segment :: ·)).map (nameAlong name))
      (schema.lift (segment.extend name)) := by
  rw [List.map_map]
  exact h (segment.extend name)

theorem asks_liftItems (h : ∀ item ∈ items, item.AsksAlong) (name : String) :
    Asks ((placesItems items).map (nameAlong name)) (liftItems name items) := by
  induction items with
  | nil => exact .pure []
  | cons item items ih =>
    obtain ⟨hitem, hrest⟩ := List.forall_mem_cons.mp h
    rw [placesItems, liftItems, List.map_append]
    exact (hitem name).bind fun lifted => (ih hrest).map

theorem asks_liftTuple (h : ∀ item ∈ items, item.AsksAlong) (name : String) (index : Nat) :
    Asks ((placesTuple index items).map (nameAlong name)) (liftTuple name index items) := by
  induction items generalizing index with
  | nil => exact .pure []
  | cons item items ih =>
    obtain ⟨hitem, hrest⟩ := List.forall_mem_cons.mp h
    rw [placesTuple, liftTuple, List.map_append]
    exact (hitem.below name (.index index)).bind fun lifted =>
      (ih hrest (index + 1)).map

theorem asks_liftProperties (h : ∀ entry ∈ fields, entry.2.AsksAlong) (owner : String) :
    Asks ((placesProperties fields).map (nameAlong owner)) (liftProperties owner fields) := by
  induction fields with
  | nil => exact .pure []
  | cons entry fields ih =>
    obtain ⟨key, schema⟩ := entry
    obtain ⟨hschema, hrest⟩ := List.forall_mem_cons.mp h
    rw [placesProperties, liftProperties, List.map_append]
    exact (hschema.below owner (.name key)).bind fun lifted =>
      (ih hrest).map

theorem asks_liftValues (h : ∀ entry ∈ fields, entry.2.AsksAlong) (owner : String) :
    Asks ((placesValues fields).map (nameAlong owner)) (liftValues owner fields) := by
  induction fields with
  | nil => exact .pure []
  | cons entry fields ih =>
    obtain ⟨pattern, schema⟩ := entry
    obtain ⟨hschema, hrest⟩ := List.forall_mem_cons.mp h
    rw [placesValues, liftValues, List.map_append]
    exact (hschema.below owner (.name "value")).bind fun lifted =>
      (ih hrest).map

end Schema

theorem Additional.asks_promote {additional : Additional}
    (h : ∀ value, additional = .schema value → value.AsksAlong) (owner : String) :
    Asks (additional.places.map (nameAlong owner)) (additional.promote owner) := by
  cases additional with
  | schema value =>
    rw [places, promote]
    exact ((h value rfl).below owner (.name "value")).map
  | unstated => exact .pure _
  | allowed flag => exact .pure _

theorem ObjectSchema.asks_promote {shape : ObjectSchema}
    (h : ∀ part ∈ shape.parts, part.AsksAlong) (owner : String) :
    Asks (shape.places.map (nameAlong owner)) (shape.promote owner) := by
  obtain ⟨properties, required, additional, patterns, names⟩ := shape
  obtain ⟨hproperties, hadditional, hpatterns⟩ := ObjectSchema.forall_parts_iff.mp h
  rw [places, promote, List.map_append, List.map_append]
  refine (Schema.asks_liftProperties hproperties owner).bind fun properties' => ?_
  refine (Additional.asks_promote hadditional owner).bind fun additional' => ?_
  exact (Schema.asks_liftValues hpatterns owner).map

/-- Promoting what a shape holds registers it under the names along the paths. -/
theorem Kind.asks_promote {kind : Kind} (h : ∀ part ∈ kind.parts, part.AsksAlong)
    (owner hint : String) :
    Asks (kind.places.map (nameAlong (kind.root owner hint))) (kind.promote owner hint) := by
  cases kind with
  | object shape =>
    rw [places, promote]
    exact (ObjectSchema.asks_promote h owner).map
  | listOf item =>
    rw [places, promote]
    exact (h item (List.mem_singleton_self _) hint).map
  | tuple items =>
    rw [places, promote]
    exact (Schema.asks_liftTuple h hint 0).map
  | allOf parts =>
    rw [places, promote]
    exact (Schema.asks_liftItems h hint).map
  | anyOf branches =>
    rw [places, promote]
    exact (Schema.asks_liftItems h hint).map
  | _ => exact .pure _

/-- **Lifting registers what is taken out under the names along the paths.**  By induction on the
schema: its parts are lifted first, under names that start with its own. -/
theorem Schema.asksAlong (schema : Schema) : schema.AsksAlong := by
  induction schema using induction_parts with
  | h schema ih =>
    intro name
    obtain ⟨title, description, kind, extra⟩ := schema
    rw [lift, places]
    cases title with
    | some title => exact .pure _
    | none =>
      -- Parts are named after the schema whatever its shape: it has no title of its own.
      have hroot : kind.root name name = name := by cases kind <;> rfl
      have hkind := Kind.asks_promote ih name name
      rw [hroot] at hkind
      simp only [Option.isSome_none, Bool.false_eq_true, if_false, List.map_append]
      refine hkind.bind fun promoted => ?_
      split
      · exact (Registry.asks_register name _).map
      · exact .pure _

namespace Promotion

/-- **Promotion registers what it takes out under the names along the paths.** -/
theorem gains_run (call : Promotion) (registry : Registry) :
    registry.Gains (call.places.map (nameAlong call.root)) (call.run.run registry).2 := by
  cases call with
  | lift name schema => exact schema.asksAlong name registry
  | promote name schema =>
    have hparts : ∀ part ∈ schema.kind.parts, part.AsksAlong := fun part _ => part.asksAlong
    exact (Kind.asks_promote hparts (schema.title.getD name) name).map registry

/-- **The laws of names.**  Every text gives a name in PascalCase, and this name is its own.  A
character other than a letter or digit cuts a text in two, and the names of its parts stand one
after the other.  Nested names can be put together in any way, also along whole paths: nesting the
name along a path as a whole is nesting where the path starts, and what comes out is the names on
the path.  Promotion registers what it takes out under the names along the paths of the schema,
whatever is registered. -/
theorem names_along_paths :
    (∀ text, IsPascalName (pascal text)) ∧
    (∀ text, pascal (pascal text) = pascal text) ∧
    (∀ before after c, Char.isAlphanum c = false →
      pascal (before ++ String.singleton c ++ after) = pascal before ++ pascal after) ∧
    (∀ a b c, nestedName (nestedName a b) c = nestedName a (nestedName b c)) ∧
    (∀ parent child path,
      nestedName parent (nameAlong child path) = nameAlong (nestedName parent child) path ∧
        nameAlong (nestedName parent child) path
          = String.join ((parent :: child :: path.map Segment.text).map pascal)) ∧
    ∀ (call : Promotion) (registry : Registry),
      registry.Gains (call.places.map (nameAlong call.root)) (call.run.run registry).2 := by
  refine ⟨isPascalName_pascal, fun text => (isPascalName_pascal text).pascal_eq,
    fun before after c hc => pascal_append_separator before after hc, nestedName_assoc,
    fun parent child path => ?_, gains_run⟩
  exact ⟨nestedName_nameAlong parent child path, nameAlong_nestedName parent child path⟩

/-- Captions in a tuple of a property, taken out of settings that are lifted themselves. -/
theorem names_along_paths_captions :
    let captions : Schema := .ofKind (.object ⟨[("size", .ofKind (.primitive .integer))], [],
      .unstated, [], none⟩)
    let settings : Schema := .ofKind (.object ⟨[("closed-captions", .ofKind (.tuple [captions]))],
      [], .unstated, [], none⟩)
    let call : Promotion := .lift (nestedName "device" "settings") settings
    Char.isAlphanum '-' = false ∧
      pascal ("closed" ++ String.singleton '-' ++ "captions")
        = pascal "closed" ++ pascal "captions" ∧
      call.places = [[.name "closed-captions", .index 0], []] ∧
      nestedName "device" (nameAlong "settings" [.name "closed-captions", .index 0])
        = "DeviceSettingsClosedCaptions0" ∧
      (Registry.reserving []).Gains ["DeviceSettingsClosedCaptions0", "DeviceSettings"]
        (call.run.run (Registry.reserving [])).2 := by
  intro captions settings call
  obtain ⟨-, -, hcut, -, hnested, hgains⟩ := names_along_paths
  have hbreak : Char.isAlphanum '-' = false := rfl
  have hwanted : call.places.map (nameAlong call.root)
      = ["DeviceSettingsClosedCaptions0", "DeviceSettings"] := by decide
  obtain ⟨hwhole, hwritten⟩ :=
    hnested "device" "settings" [.name "closed-captions", .index 0]
  exact ⟨hbreak, hcut "closed" "captions" '-' hbreak, rfl,
    hwhole.trans (hwritten.trans (by decide)), hwanted ▸ hgains call (Registry.reserving [])⟩

end Promotion

end RpcSchema
