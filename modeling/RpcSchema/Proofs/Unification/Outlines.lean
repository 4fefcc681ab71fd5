import RpcSchema.Proofs.Distinct
import RpcSchema.Proofs.Outcome
import RpcSchema.Proofs.Schema.Equality
import RpcSchema.Proofs.Unification.Collapse

/-!
# Outlines of objects

Of an object shape the outline is looked at here: the names of its properties, the names it
requires, and what it says of undeclared properties, but none of the schemas within it.  The outline
of a combination of two objects depends on their outlines alone, whatever becomes of the schemas
under the names that both have.

In an intersection a name on one side only goes if the other side is closed; in a union all names
stay.  What is said of undeclared properties has four states, and an object that says nothing of
them takes on what the other says.

## Main definitions

* `Outline` — an object shape without the schemas in it.
* `Outline.meet`, `Outline.join` — the outlines of an intersection and of a union.

## Main results

* `Intersection.keys_properties`, `Union.ensures_keys_properties` — the names of merged properties.
* `Schema.outline?_intersect`, `Schema.ensures_unite_outline` — combining two objects.
-/

namespace RpcSchema

/-! ### Names of merged properties -/

/-- The names that two lists of properties leave: one that stands on one side only goes if the other
side is closed. -/
def metNames (leftClosed rightClosed : Bool) (left right : List String) : List String :=
  (left.filter fun name => !rightClosed || right.contains name) ++
    right.filter fun name => !leftClosed && !left.contains name

section Names

variable {leftClosed rightClosed : Bool} {name : String} {left right : List String}

theorem metNames_nil : metNames leftClosed rightClosed [] right
    = if leftClosed then [] else right := by
  cases leftClosed <;> simp [metNames]

/-- A name on both sides stays. -/
theorem metNames_cons_of_mem (hname : name ∉ left) (hmem : name ∈ right) :
    metNames leftClosed rightClosed (name :: left) right
      = name :: metNames leftClosed rightClosed left (right.filter (· ≠ name)) := by
  have hleft : (left.filter fun other => !rightClosed || right.contains other)
      = left.filter fun other => !rightClosed || (right.filter (· ≠ name)).contains other := by
    apply List.filter_congr
    intro other hother
    have hne : other ≠ name := fun heq => hname (heq ▸ hother)
    simp [List.mem_filter, hne]
  have hright : (right.filter fun other => !leftClosed && !(name :: left).contains other)
      = (right.filter (· ≠ name)).filter fun other => !leftClosed && !left.contains other := by
    rw [List.filter_filter]
    apply List.filter_congr
    intro other _
    by_cases heq : other = name <;> simp [heq]
  rw [metNames, List.filter_cons_of_pos (by simp [hmem]), hleft, hright]
  rfl

/-- A name on the left only stays unless the right is closed. -/
theorem metNames_cons_of_notMem (hmem : name ∉ right) :
    metNames leftClosed rightClosed (name :: left) right
      = (if rightClosed then [] else [name]) ++ metNames leftClosed rightClosed left right := by
  have hright : (right.filter fun other => !leftClosed && !(name :: left).contains other)
      = right.filter fun other => !leftClosed && !left.contains other := by
    apply List.filter_congr
    intro other hother
    have hne : other ≠ name := fun heq => hmem (heq ▸ hother)
    simp [hne]
  rw [metNames, hright]
  cases rightClosed with
  | true => rw [List.filter_cons_of_neg (by simp [hmem])]; rfl
  | false => rw [List.filter_cons_of_pos rfl]; rfl

theorem nodup_metNames (hleft : left.Nodup) (hright : right.Nodup) :
    (metNames leftClosed rightClosed left right).Nodup := by
  refine List.nodup_append.mpr ⟨hleft.filter _, hright.filter _, ?_⟩
  rintro name hname other hother rfl
  have hnew := (List.mem_filter.mp hother).2
  simp [(List.mem_filter.mp hname).1] at hnew

theorem metNames_open (hright : right.Nodup) :
    metNames false false left right = unionOf left right := by
  rw [unionOf_eq_append_filter hright]
  simp [metNames]

end Names

theorem Fields.keys_erase {α : Type} {fields : Fields α} (h : (Fields.keys fields).Nodup)
    (key : String) :
    Fields.keys (Fields.erase fields key) = (Fields.keys fields).filter (· ≠ key) := by
  rw [Fields.erase_eq_filter h, Fields.keys, Fields.keys, List.filter_map]
  rfl

/-- **The names of the properties of an intersection.** -/
theorem Intersection.keys_properties {merge : Schema → Schema → Except Conflict Schema}
    {leftClosed rightClosed : Bool} {left right result : Fields Schema}
    (hleft : (Fields.keys left).Nodup) (hright : (Fields.keys right).Nodup)
    (h : properties merge leftClosed rightClosed left right = .ok result) :
    Fields.keys result
      = metNames leftClosed rightClosed (Fields.keys left) (Fields.keys right) := by
  induction left generalizing right result with
  | nil =>
    rw [properties] at h
    obtain rfl := Except.ok.inj h
    show _ = metNames leftClosed rightClosed [] (Fields.keys right)
    rw [metNames_nil]
    cases leftClosed <;> rfl
  | cons entry left ih =>
    obtain ⟨name, a⟩ := entry
    obtain ⟨(hname : name ∉ Fields.keys left), hleft⟩ := List.nodup_cons.mp hleft
    rw [properties, Fields.extract?_eq] at h
    show _ = metNames leftClosed rightClosed (name :: Fields.keys left) (Fields.keys right)
    -- A shared name is taken out of the right side, so it is not listed a second time.
    cases hb : Fields.get? right name with
    | some b =>
      have hmem : name ∈ Fields.keys right := Fields.mem_keys_of_mem (Fields.mem_of_get? hb)
      simp only [hb, Option.map_some] at h
      obtain ⟨m, -, h⟩ := bind_eq_ok_iff.mp h
      obtain ⟨rest, hrest, h⟩ := bind_eq_ok_iff.mp h
      obtain rfl := Except.ok.inj h
      have hkeys := ih hleft (Fields.nodup_keys_erase hright name) hrest
      rw [Fields.keys_erase hright] at hkeys
      rw [metNames_cons_of_mem hname hmem, ← hkeys]
      rfl
    | none =>
      have hmem : name ∉ Fields.keys right := Fields.get?_eq_none_iff.mp hb
      simp only [hb, Option.map_none] at h
      obtain ⟨rest, hrest, h⟩ := bind_eq_ok_iff.mp h
      obtain rfl := Except.ok.inj h
      rw [metNames_cons_of_notMem hmem, ← ih hleft hright hrest]
      cases rightClosed <;> rfl

/-- **The names of the properties of a union.**  They are those of an intersection of open
objects. -/
theorem Union.ensures_keys_properties {merge : Schema → Schema → Unifying Schema}
    {left right : Fields Schema} (hleft : (Fields.keys left).Nodup)
    (hright : (Fields.keys right).Nodup) :
    (properties merge left right).Ensures fun result =>
      Fields.keys result = metNames false false (Fields.keys left) (Fields.keys right) := by
  induction left generalizing right with
  | nil =>
    rw [properties]
    apply Unifying.Ensures.pure
    show _ = metNames false false [] (Fields.keys right)
    rw [metNames_nil]
    rfl
  | cons entry left ih =>
    obtain ⟨name, a⟩ := entry
    obtain ⟨(hname : name ∉ Fields.keys left), hleft⟩ := List.nodup_cons.mp hleft
    rw [properties, Fields.extract?_eq]
    show Unifying.Ensures (fun result => Fields.keys result
      = metNames false false (name :: Fields.keys left) (Fields.keys right)) _
    cases hb : Fields.get? right name with
    | some b =>
      have hmem : name ∈ Fields.keys right := Fields.mem_keys_of_mem (Fields.mem_of_get? hb)
      simp only [Option.map_some]
      rw [metNames_cons_of_mem hname hmem, ← Fields.keys_erase hright]
      have hmerge : (merge a b).Ensures fun _ => True := fun _ _ _ _ => trivial
      refine hmerge.bind fun m _ => ?_
      refine (ih hleft (Fields.nodup_keys_erase hright name)).bind fun rest hrest => ?_
      exact .pure (congrArg (name :: ·) hrest)
    | none =>
      have hmem : name ∉ Fields.keys right := Fields.get?_eq_none_iff.mp hb
      simp only [Option.map_none]
      rw [metNames_cons_of_notMem hmem]
      refine (ih hleft hright).bind fun rest hrest => ?_
      exact .pure (congrArg (name :: ·) hrest)

/-! ### Outlines -/

/-- What can be said of undeclared properties: nothing, that there are none, that they may be
anything, or a schema. -/
inductive Undeclared
  | unstated
  | forbidden
  | allowed
  | described
  deriving DecidableEq

namespace Undeclared

/-- What an intersection says of undeclared properties. -/
def meet : Undeclared → Undeclared → Undeclared
  | .unstated, other => other
  | other, .unstated => other
  | .forbidden, _ => .forbidden
  | _, .forbidden => .forbidden
  | .described, _ => .described
  | _, .described => .described
  | .allowed, .allowed => .allowed

/-- What a union says of undeclared properties. -/
def join : Undeclared → Undeclared → Undeclared
  | .unstated, other => other
  | other, .unstated => other
  | .allowed, _ => .allowed
  | _, .allowed => .allowed
  | .described, _ => .described
  | _, .described => .described
  | .forbidden, .forbidden => .forbidden

variable {x y : Undeclared}

@[simp] theorem meet_self (x : Undeclared) : x.meet x = x := by cases x <;> rfl

@[simp] theorem join_self (x : Undeclared) : x.join x = x := by cases x <;> rfl

/-- An intersection forbids undeclared properties when one side does. -/
theorem meet_eq_forbidden_iff : x.meet y = .forbidden ↔ x = .forbidden ∨ y = .forbidden := by
  cases x <;> cases y <;> decide

end Undeclared

/-- The outline of what is said of undeclared properties. -/
def Additional.outline : Additional → Undeclared
  | .unstated => .unstated
  | .allowed false => .forbidden
  | .allowed true => .allowed
  | .schema _ => .described

/-- What is said of an object without the schemas in it: the names of its properties, those that it
requires, and what it says of undeclared properties. -/
structure Outline where
  keys : List String
  required : List String
  undeclared : Undeclared

namespace Outline

/-- Whether undeclared properties are forbidden. -/
def closed (outline : Outline) : Bool := outline.undeclared = .forbidden

/-- Whether a name can be that of a property. -/
def lets (outline : Outline) (name : String) : Bool := !outline.closed || outline.keys.contains name

/-- The outline of an intersection. -/
def meet (x y : Outline) : Outline :=
  ⟨metNames x.closed y.closed x.keys y.keys, unionOf x.required y.required,
    x.undeclared.meet y.undeclared⟩

/-- The outline of a union. -/
def join (x y : Outline) : Outline :=
  ⟨metNames false false x.keys y.keys, x.required.filter y.required.contains,
    x.undeclared.join y.undeclared⟩

end Outline

/-- The outline of an object shape. -/
def ObjectSchema.outline (shape : ObjectSchema) : Outline :=
  ⟨Fields.keys shape.properties, shape.required, shape.additional.outline⟩

/-- The outline of a schema, if it is an object. -/
def Schema.outline? (schema : Schema) : Option Outline :=
  match schema.kind with
  | .object shape => some shape.outline
  | _ => none

theorem Schema.outline?_eq_some_iff {schema : Schema} {outline : Outline} :
    schema.outline? = some outline ↔
      ∃ shape, schema.kind = .object shape ∧ shape.outline = outline := by
  obtain ⟨title, description, kind, extra⟩ := schema
  cases kind <;> simp [Schema.outline?]

theorem Additional.isClosed_eq_decide (additional : Additional) :
    additional.isClosed = decide (additional.outline = .forbidden) := by
  cases additional with
  | allowed flag => cases flag <;> rfl
  | _ => rfl

theorem ObjectSchema.closed_outline (shape : ObjectSchema) :
    shape.outline.closed = shape.additional.isClosed := (shape.additional.isClosed_eq_decide).symm

/-! ### Combining two objects -/

theorem Additional.Alike.outline {r : Schema → Schema → Prop} {x y : Additional}
    (h : Additional.Alike r x y) : x.outline = y.outline := by
  cases h with
  | unstated => rfl
  | allowed flag => rfl
  | schema _ => rfl

/-- An object that is rebuilt from other parts has the same outline. -/
theorem ObjectSchema.Rebuilt.outline_eq {r : Schema → Schema → Prop} {x y : ObjectSchema}
    (h : x.Rebuilt r y) : y.outline = x.outline := by
  rw [ObjectSchema.outline, ObjectSchema.outline, h.properties.keys_eq, h.required,
    h.additional.outline]

/-- Equal objects have the same outline, but for the order of their properties. -/
theorem ObjectSchema.Alike.outline {r : Schema → Schema → Prop} {x y : ObjectSchema}
    (h : ObjectSchema.Alike r x y) (hx : x.outline.keys.Nodup) :
    (∀ name, name ∈ x.outline.keys ↔ name ∈ y.outline.keys) ∧
      x.outline.required = y.outline.required ∧ x.outline.undeclared = y.outline.undeclared :=
  ⟨fun _ => (h.properties.keys_perm hx).mem_iff, h.required, h.additional.outline⟩

theorem metNames_eq_left {leftClosed rightClosed : Bool} {left right : List String}
    (h : ∀ name, name ∈ left ↔ name ∈ right) :
    metNames leftClosed rightClosed left right = left := by
  have hleft : left.filter (fun name => !rightClosed || right.contains name) = left := by
    rw [List.filter_eq_self]
    intro name hname
    simp [(h name).mp hname]
  have hright : right.filter (fun name => !leftClosed && !left.contains name) = [] := by
    rw [List.filter_eq_nil_iff]
    intro name hname
    simp [(h name).mpr hname]
  rw [metNames, hleft, hright, List.append_nil]

namespace Outline

variable {x y : Outline}

theorem meet_eq_left (hkeys : ∀ name, name ∈ x.keys ↔ name ∈ y.keys)
    (hrequired : x.required = y.required) (hundeclared : x.undeclared = y.undeclared) :
    x.meet y = x := by
  rw [meet, metNames_eq_left hkeys, ← hrequired, ← hundeclared, Undeclared.meet_self,
    unionOf_eq_left (List.Subset.refl _)]

theorem join_eq_left (hkeys : ∀ name, name ∈ x.keys ↔ name ∈ y.keys)
    (hrequired : x.required = y.required) (hundeclared : x.undeclared = y.undeclared) :
    x.join y = x := by
  have hkeep : x.required.filter x.required.contains = x.required := by
    rw [List.filter_eq_self]
    intro name hname
    exact List.contains_iff_mem.mpr hname
  rw [join, metNames_eq_left hkeys, ← hrequired, ← hundeclared, Undeclared.join_self, hkeep]

end Outline

/-- What an intersection says of undeclared properties depends on what both sides say. -/
theorem Intersection.outline_additional {merge : Schema → Schema → Except Conflict Schema}
    {x y z : Additional} (h : additional merge x y = .ok z) :
    z.outline = x.outline.meet y.outline := by
  cases x with
  | unstated =>
    rw [additional] at h
    cases h
    rfl
  | allowed flag =>
    cases y with
    | unstated => cases h; cases flag <;> rfl
    | allowed other => cases h; cases flag <;> cases other <;> rfl
    | schema b => cases h; cases flag <;> rfl
  | schema a =>
    cases y with
    | unstated => cases h; rfl
    | allowed other => cases h; cases other <;> rfl
    | schema b =>
      obtain ⟨m, -, rfl⟩ := map_eq_ok_iff.mp h
      rfl

theorem Union.ensures_outline_additional {merge : Schema → Schema → Unifying Schema}
    {x y : Additional} :
    (additional merge x y).Ensures fun z => z.outline = x.outline.join y.outline := by
  cases x with
  | unstated => exact .pure rfl
  | allowed flag =>
    cases y with
    | unstated => exact .pure (by cases flag <;> rfl)
    | allowed other => exact .pure (by cases flag <;> cases other <;> rfl)
    | schema b => exact .pure (by cases flag <;> rfl)
  | schema a =>
    cases y with
    | unstated => exact .pure rfl
    | allowed other => exact .pure (by cases other <;> rfl)
    | schema b =>
      have hmerge : (merge a b).Ensures fun _ => True := fun _ _ _ _ => trivial
      exact hmerge.bind fun m _ => .pure rfl

theorem Intersection.outline_objects {merge : Schema → Schema → Except Conflict Schema}
    {x y shape : ObjectSchema} (hx : x.outline.keys.Nodup) (hy : y.outline.keys.Nodup)
    (h : objects merge x y = .ok shape) : shape.outline = x.outline.meet y.outline := by
  rw [objects] at h
  obtain ⟨properties, hproperties, h⟩ := bind_eq_ok_iff.mp h
  obtain ⟨additional, hadditional, h⟩ := bind_eq_ok_iff.mp h
  obtain ⟨patterns, -, h⟩ := bind_eq_ok_iff.mp h
  obtain rfl := Except.ok.inj h
  have hkeys := keys_properties hx hy hproperties
  rw [← x.closed_outline, ← y.closed_outline] at hkeys
  show Outline.mk _ _ _ = Outline.mk _ _ _
  rw [hkeys, outline_additional hadditional]
  rfl

theorem Union.ensures_outline_objects {merge : Schema → Schema → Unifying Schema}
    {x y : ObjectSchema} (hx : x.outline.keys.Nodup) (hy : y.outline.keys.Nodup) :
    (objects merge x y).Ensures fun shape => shape.outline = x.outline.join y.outline := by
  rw [objects]
  refine (ensures_keys_properties hx hy).bind fun properties hproperties => ?_
  refine ensures_outline_additional.bind fun additional hadditional => ?_
  have hpatterns : (mergePatterns merge x.patterns y.patterns).Ensures fun _ => True :=
    fun _ _ _ _ => trivial
  refine hpatterns.bind fun patterns _ => .pure ?_
  show Outline.mk _ _ _ = Outline.mk _ _ _
  rw [hproperties, hadditional]
  rfl

namespace Schema

variable {a b m : Schema} {x y : Outline}

/-- **The outline of the intersection of two objects.** -/
theorem outline?_intersect (ha : a.outline? = some x) (hb : b.outline? = some y)
    (hx : x.keys.Nodup) (hy : y.keys.Nodup) (h : a.intersect b = .ok m) :
    m.outline? = some (x.meet y) := by
  obtain ⟨shape, hkind, rfl⟩ := outline?_eq_some_iff.mp ha
  obtain ⟨shape', hkind', rfl⟩ := outline?_eq_some_iff.mp hb
  rw [intersect] at h
  cases hdepth : a.size + b.size with
  | zero =>
    rw [hdepth] at h
    cases h
  | succ depth =>
    rw [hdepth, intersectWithin] at h
    split at h
    · next heq =>
      -- Equal objects are their own intersection, which is their outlines' too.
      obtain rfl := Except.ok.inj h
      have halike := (Schema.beq_iff.mp heq).2.2.1
      rw [hkind, hkind'] at halike
      cases halike with
      | object halike =>
        obtain ⟨hkeys, hrequired, hundeclared⟩ := halike.outline hx
        rw [Outline.meet_eq_left hkeys hrequired hundeclared, ha]
    · simp only [Intersection.combine, hkind, hkind'] at h
      obtain ⟨merged, hmerged, rfl⟩ := map_eq_ok_iff.mp h
      exact congrArg some (Intersection.outline_objects hx hy hmerged)

/-- **The outline of the union of two objects.** -/
theorem ensures_unite_outline (ha : a.outline? = some x) (hb : b.outline? = some y)
    (hx : x.keys.Nodup) (hy : y.keys.Nodup) :
    (a.unite b).Ensures fun merged => merged.outline? = some (x.join y) := by
  obtain ⟨shape, hkind, rfl⟩ := outline?_eq_some_iff.mp ha
  obtain ⟨shape', hkind', rfl⟩ := outline?_eq_some_iff.mp hb
  rw [unite, uniteWithin]
  split
  · next heq =>
    have halike := (Schema.beq_iff.mp heq).2.2.1
    rw [hkind, hkind'] at halike
    cases halike with
    | object halike =>
      obtain ⟨hkeys, hrequired, hundeclared⟩ := halike.outline hx
      rw [Outline.join_eq_left hkeys hrequired hundeclared]
      exact .pure ha
  · simp only [Union.combine, hkind, hkind']
    refine (Union.ensures_outline_objects hx hy).bind fun merged hmerged => ?_
    exact .pure (congrArg some hmerged)

end Schema

end RpcSchema
