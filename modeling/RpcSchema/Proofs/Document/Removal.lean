import RpcSchema.Document.Method
import RpcSchema.Proofs.Document
import RpcSchema.Store.Basic

/-!
# Documents with something taken out

A method is taken out of the array of methods, and those after it move up.  A named schema is
taken out of the object that holds it, and nothing else changes: the other schemas stay where they
were, and so do the methods and the groups of other modules.

## Main definitions

* `Document.withoutMethod`, `Document.withoutSchema` — a document with a method or a named schema
  taken out.

## Main results

* `Document.methods_withoutMethod`, `Document.named_withoutSchema` — what is left.
* `Document.named_withoutMethod`, `Document.methods_withoutSchema` — what else is in the document.
-/

namespace RpcSchema

/-! ### Members -/

namespace Json

variable {value : Json} {name other : String} {change : Fields Json → Fields Json}
  {path : List String}

/-- A segment that is no index leads to the member of its name. -/
theorem descend?_member (hplain : Pointer.unescape name = name) (hindex : Pointer.index? name = none)
    (value : Json) (rest : List String) :
    (value.descend? (name :: rest)).map Prod.snd
      = (value.field? name).bind fun part => (part.descend? rest).map Prod.snd := by
  cases value with
  | object fields =>
    rw [descend?, step?, Option.bind_some, hplain]
    cases hget : Fields.get? fields name with
    | none => simp [child?, field?, object?, hget]
    | some part =>
      simp only [child?, field?, object?, hget, Option.bind_some, Option.map_map]
      rfl
  | array items =>
    rw [descend?, step?, hplain, hindex]
    rfl
  | _ => rfl

/-- Below a changed member only what it holds is changed. -/
theorem field?_modifyMembers (change : Fields Json → Fields Json) (path : List String)
    (value : Json) (name other : String) :
    (Document.modifyMembers change (name :: path) value).field? other =
      if other = name then (value.field? other).map (Document.modifyMembers change path)
      else value.field? other := by
  cases value with
  | object fields =>
    cases hget : Fields.get? fields name with
    | none =>
      simp only [Document.modifyMembers, hget]
      split
      · next heq => simp [field?, object?, heq, hget]
      · rfl
    | some part =>
      simp only [Document.modifyMembers, hget, field?, object?, Option.bind_some]
      split
      · next heq => rw [heq, Fields.get?_set_self, hget, Option.map_some]
      · next hne => rw [Fields.get?_set_of_ne _ _ hne]
  | _ => simp [Document.modifyMembers, field?, object?]

/-- An array with the item at a position taken out. -/
def withoutItem (index : Nat) : Json → Json
  | .array items => .array (items.eraseIdx index)
  | value => value

end Json

namespace Document

variable {document : Document} {pointer title : String} {index : Nat}

/-! ### Named schemas by container -/

/-- The named schemas that a value holds. -/
def namedIn (container : String) : Option Json → List NamedNode
  | some (.object fields) =>
    fields.map fun entry => ⟨entry.1, Pointer.child container entry.1, entry.2⟩
  | _ => []

theorem navigate?_components (root : Json) : root.navigate? Reference.componentsPointer =
    (root.field? "components").bind fun components => components.field? "schemas" := by
  have hsegments : Pointer.segments Reference.componentsPointer = ["components", "schemas"] :=
    rfl
  rw [Json.navigate?, Json.locate?, hsegments, Json.descend?_member rfl rfl]
  refine congrArg _ (funext fun components => ?_)
  rw [Json.descend?_member rfl rfl]
  simp [Json.descend?]

theorem navigate?_definitions (root : Json) :
    root.navigate? "#/definitions" = root.field? "definitions" := by
  have hsegments : Pointer.segments "#/definitions" = ["definitions"] := rfl
  rw [Json.navigate?, Json.locate?, hsegments, Json.descend?_member rfl rfl]
  simp [Json.descend?]

/-- The named schemas are those of the two containers. -/
theorem named_eq (document : Document) : document.named =
    namedIn Reference.componentsPointer
      ((document.root.field? "components").bind fun components => components.field? "schemas")
        ++ namedIn "#/definitions" (document.root.field? "definitions") := by
  have hall : document.named = namedIn Reference.componentsPointer
      (document.root.navigate? Reference.componentsPointer)
        ++ (namedIn "#/definitions" (document.root.navigate? "#/definitions") ++ []) := rfl
  rw [hall, List.append_nil, navigate?_components, navigate?_definitions]

private theorem nodup_namedIn (hnames : document.root.DistinctNames) (container : String) :
    ((namedIn container (document.root.navigate? container)).map NamedNode.pointer).Nodup := by
  cases hfound : document.root.navigate? container with
  | none => exact List.nodup_nil
  | some value =>
    cases value with
    | object fields =>
      obtain ⟨⟨steps, found⟩, hlocate, rfl⟩ := Option.map_eq_some_iff.mp hfound
      have hkeys := (Json.everyObject_object_iff.mp (hnames.of_locate? hlocate)).1
      have hmap : ((Fields.keys fields).map (Pointer.child container)).Nodup :=
        List.Pairwise.map _ (fun _ _ hne heq => hne (Pointer.child_injective container heq)) hkeys
      rw [namedIn, List.map_map]
      rwa [Fields.keys, List.map_map] at hmap
    | _ => exact List.nodup_nil

private theorem exists_name_of_mem_namedIn {container : String} {value : Option Json}
    (h : pointer ∈ (namedIn container value).map NamedNode.pointer) :
    ∃ name, pointer = Pointer.child container name := by
  obtain ⟨entry, hentry, rfl⟩ := List.mem_map.mp h
  unfold namedIn at hentry
  split at hentry
  · obtain ⟨member, -, rfl⟩ := List.mem_map.mp hentry
    exact ⟨member.1, rfl⟩
  · exact absurd hentry List.not_mem_nil

/-- **No two named schemas stand at one pointer.** -/
theorem nodup_pointers (hnames : document.root.DistinctNames) :
    (document.named.map NamedNode.pointer).Nodup := by
  rw [named_eq, List.map_append, ← navigate?_components, ← navigate?_definitions]
  refine List.nodup_append.mpr ⟨nodup_namedIn hnames _, nodup_namedIn hnames _, ?_⟩
  intro pointer hpointer pointer' hpointer' heq
  obtain ⟨name, rfl⟩ := exists_name_of_mem_namedIn hpointer
  obtain ⟨name', rfl⟩ := exists_name_of_mem_namedIn hpointer'
  -- The two containers differ in the first letter of their names.
  have hletter := congrArg (fun text => text.toList[2]?) heq
  simp [Pointer.child, Reference.componentsPointer] at hletter

/-! ### Without a method -/

/-- The document without the method at a position. -/
def withoutMethod (document : Document) (index : Nat) : Document :=
  { document with root := modifyMembers (fun fields =>
      match Fields.get? fields "methods" with
      | some methods => Fields.set fields "methods" (methods.withoutItem index)
      | none => fields) [] document.root }

theorem field?_withoutMethod (document : Document) (index : Nat) (name : String) :
    (document.withoutMethod index).root.field? name =
      if name = "methods" then (document.root.field? name).map (Json.withoutItem index)
      else document.root.field? name := by
  obtain ⟨id, title, root⟩ := document
  cases root with
  | object fields =>
    cases hget : Fields.get? fields "methods" with
    | none =>
      simp only [withoutMethod, modifyMembers, hget]
      split
      · next heq => simp [Json.field?, Json.object?, heq, hget]
      · rfl
    | some methods =>
      simp only [withoutMethod, modifyMembers, hget, Json.field?, Json.object?, Option.bind_some]
      split
      · next heq => rw [heq, Fields.get?_set_self, hget, Option.map_some]
      · next hne => rw [Fields.get?_set_of_ne _ _ hne]
  | _ => simp [withoutMethod, modifyMembers, Json.field?, Json.object?]

@[simp] theorem named_withoutMethod (document : Document) (index : Nat) :
    (document.withoutMethod index).named = document.named := by
  rw [named_eq, named_eq, field?_withoutMethod, field?_withoutMethod, if_neg (by decide),
    if_neg (by decide)]

@[simp] theorem groups_withoutMethod (document : Document) (index : Nat) :
    (document.withoutMethod index).groups = document.groups := by
  rw [groups, groups, field?_withoutMethod, if_neg (by decide)]

/-- Values are read as methods one by one, wherever the first of them stands. -/
theorem readMethods_iff (document : Document) (first : Nat) (values : List Json)
    (methods : List Method) :
    (∃ placed, document.readMethods first values = .ok placed ∧
        placed.map PlacedMethod.method = methods) ↔
      values.map Method.shape.read = methods.map .ok := by
  induction values generalizing first methods with
  | nil => simp [readMethods, eq_comm]
  | cons value rest ih =>
    rw [readMethods, List.map_cons]
    cases hread : Method.shape.read value with
    | error fault => cases methods <;> simp
    | ok method =>
      cases methods with
      | nil => cases hrest : document.readMethods (first + 1) rest <;> simp [Except.map]
      | cons head tail =>
        rw [List.map_cons, List.cons.injEq, Except.ok.injEq, ← ih (first + 1) tail]
        cases hrest : document.readMethods (first + 1) rest <;> simp [Except.map]

/-- **The methods that are left when one is taken out.** -/
theorem methods_withoutMethod {methods : List PlacedMethod} (h : document.methods = .ok methods)
    (index : Nat) :
    ∃ others, (document.withoutMethod index).methods = .ok others ∧
      others.map PlacedMethod.method = (methods.map PlacedMethod.method).eraseIdx index := by
  unfold Document.methods at h ⊢
  rw [field?_withoutMethod, if_pos rfl]
  split at h
  · next values hvalues =>
    rw [hvalues]
    -- The values that are left are read as they were, some of them at other positions.
    have hread := (readMethods_iff document 0 values _).mp ⟨methods, h, rfl⟩
    refine (readMethods_iff (document.withoutMethod index) 0 (values.eraseIdx index) _).mpr ?_
    rw [← List.eraseIdx_map, hread, List.eraseIdx_map, List.eraseIdx_map]
  · next hvalues =>
    obtain rfl := Except.ok.inj h
    refine ⟨[], ?_, by rw [List.map_nil, List.eraseIdx_nil]⟩
    cases hmethods : document.root.field? "methods" with
    | none => rfl
    | some value =>
      cases value with
      | array values => exact absurd hmethods (hvalues values)
      | _ => rfl

/-! ### Without a named schema -/

/-- The members of an object that do not stand at a pointer. -/
def apart (container pointer : String) (fields : Fields Json) : Fields Json :=
  fields.filter fun entry => Pointer.child container entry.1 ≠ pointer

/-- The document without the named schemas at a pointer. -/
def withoutSchema (document : Document) (pointer : String) : Document :=
  let components := modifyMembers (apart Reference.componentsPointer pointer)
    ["components", "schemas"] document.root
  { document with root := modifyMembers (apart "#/definitions" pointer) ["definitions"] components }

private theorem namedIn_apart (container pointer : String) (value : Option Json) :
    namedIn container (value.map (modifyMembers (apart container pointer) []))
      = (namedIn container value).filter fun entry => entry.pointer ≠ pointer := by
  cases value with
  | none => rfl
  | some value =>
    cases value with
    | object fields =>
      rw [Option.map_some, modifyMembers, namedIn, namedIn, List.filter_map]
      rfl
    | _ => rfl

/-- Another member of a document is what it was. -/
theorem field?_withoutSchema {name : String} (hcomponents : name ≠ "components")
    (hdefinitions : name ≠ "definitions") :
    (document.withoutSchema pointer).root.field? name = document.root.field? name := by
  rw [withoutSchema, Json.field?_modifyMembers, if_neg hdefinitions, Json.field?_modifyMembers,
    if_neg hcomponents]

/-- The named schemas that are left are those at other pointers. -/
theorem named_withoutSchema (document : Document) (pointer : String) :
    (document.withoutSchema pointer).named
      = document.named.filter fun entry => entry.pointer ≠ pointer := by
  have hcomponents : ((document.withoutSchema pointer).root.field? "components").bind
        (fun components => components.field? "schemas")
      = ((document.root.field? "components").bind fun components =>
          components.field? "schemas").map
            (modifyMembers (apart Reference.componentsPointer pointer) []) := by
    rw [withoutSchema, Json.field?_modifyMembers, if_neg (by decide), Json.field?_modifyMembers,
      if_pos rfl, Option.map_bind, Option.bind_map]
    refine congrArg _ (funext fun components => ?_)
    exact (Json.field?_modifyMembers ..).trans (if_pos rfl)
  have hdefinitions : (document.withoutSchema pointer).root.field? "definitions"
      = (document.root.field? "definitions").map
          (modifyMembers (apart "#/definitions" pointer) []) := by
    rw [withoutSchema, Json.field?_modifyMembers, if_pos rfl, Json.field?_modifyMembers,
      if_neg (by decide)]
  rw [named_eq, named_eq, List.filter_append, hcomponents, hdefinitions, namedIn_apart,
    namedIn_apart]

@[simp] theorem groups_withoutSchema (document : Document) (pointer : String) :
    (document.withoutSchema pointer).groups = document.groups := by
  rw [groups, groups, field?_withoutSchema (by decide) (by decide)]

@[simp] theorem methods_withoutSchema (document : Document) (pointer : String) :
    (document.withoutSchema pointer).methods = document.methods := by
  have hread : ∀ (values : List Json) (first : Nat),
      (document.withoutSchema pointer).readMethods first values
        = document.readMethods first values := by
    intro values
    induction values with
    | nil => exact fun _ => rfl
    | cons value rest ih =>
      intro first
      rw [readMethods, readMethods, ih]
      rfl
  unfold methods
  rw [field?_withoutSchema (by decide) (by decide)]
  split
  · exact hread _ 0
  · rfl

/-- **The named schemas that are left when one is taken out.** -/
theorem named_withoutSchema_of_split (hnames : document.root.DistinctNames)
    {before after : List NamedNode} {entry : NamedNode}
    (h : document.named = before ++ entry :: after) :
    (document.withoutSchema entry.pointer).named = before ++ after := by
  have hnodup := nodup_pointers hnames
  rw [h, List.map_append, List.map_cons, List.perm_middle.nodup_iff, List.nodup_cons,
    ← List.map_append] at hnodup
  have hother : ∀ other ∈ before ++ after, other.pointer ≠ entry.pointer := fun other hmem heq =>
    hnodup.1 (heq ▸ List.mem_map_of_mem hmem)
  obtain ⟨hbefore, hafter⟩ := List.forall_mem_append.mp hother
  rw [named_withoutSchema, h, List.filter_append, List.filter_cons_of_neg (by simp),
    List.filter_eq_self.mpr fun other hmem => decide_eq_true (hbefore other hmem),
    List.filter_eq_self.mpr fun other hmem => decide_eq_true (hafter other hmem)]

/-- A name is declared when a named schema goes by it. -/
theorem declares_iff : document.declares title = true ↔
    ∃ entry ∈ document.named, entry.goesBy title = true := by
  rw [declares, find?, List.find?_isSome]

end Document

end RpcSchema
