import RpcSchema.Proofs.Json.Objects
import RpcSchema.Proofs.Outcome
import RpcSchema.Schema.OfJson

/-!
# Schemas and their paths

The path of a schema is there for faults only.  Whether a value describes a schema, and which one,
does not depend on where the value stands.

## Main results

* `Schema.toOption_ofJson` — a value describes the same schema at all paths.
-/

namespace RpcSchema

/-! ### Keywords without subschemas -/

theorem toOption_typeName? (path path' : String) (value : Option Json) :
    (typeName? path value).toOption = (typeName? path' value).toOption := by
  unfold typeName?
  split <;> rfl

theorem toOption_requiredNames (path path' : String) (names : List String) (values : List Json) :
    (requiredNames path names values).toOption = (requiredNames path' names values).toOption := by
  induction values generalizing names with
  | nil => rfl
  | cons value rest ih =>
    cases value with
    | string name => exact ih _
    | _ => rfl

theorem toOption_required? (path path' : String) (value : Option Json) :
    (required? path value).toOption = (required? path' value).toOption := by
  unfold required?
  split
  · rfl
  · exact toOption_requiredNames path path' [] _
  · rfl

theorem toOption_scalarKind (path path' : String) (type : Option String) :
    (scalarKind path type).toOption = (scalarKind path' type).toOption := by
  cases type with
  | none => rfl
  | some name =>
    simp only [scalarKind]
    cases Primitive.ofName? name <;> rfl

theorem toOption_enumKind (path path' : String) (type : Option String) (value : Json) :
    (enumKind path type value).toOption = (enumKind path' type value).toOption := by
  cases value <;> rfl

theorem toOption_refKind (path path' : String) (value : Json) :
    (refKind path value).toOption = (refKind path' value).toOption := by
  cases value <;> rfl

namespace Schema

/-! ### Keywords with subschemas -/

theorem readFieldsAt_eq (path : String) (fields : Fields Json) (key : String) :
    readFieldsAt path fields key = match Fields.get? fields key with
      | none => .ok []
      | some (.object entries) => readFields (path ++ "/" ++ key) entries
      | some value => refuse (path ++ "/" ++ key) (.notAnObject value) := by
  rw [readFieldsAt]
  split <;> simp_all

theorem readPartsAt_eq (path : String) (fields : Fields Json) (key : String) :
    readPartsAt path fields key = match Fields.get? fields key with
      | none => .ok none
      | some (.array items) => (readItems (path ++ "/" ++ key) 0 items).map some
      | some value => refuse (path ++ "/" ++ key) (.notAnArray value) := by
  rw [readPartsAt]
  split <;> simp_all

theorem readArray_eq (path : String) (fields : Fields Json) :
    readArray path fields = match Fields.get? fields "items" with
      | none => .ok .list
      | some (.array items) => (readItems (path ++ "/items") 0 items).map .tuple
      | some item => (read (path ++ "/items") item).map .listOf := by
  rw [readArray]
  split <;> simp_all

theorem readAdditional_eq (path : String) (fields : Fields Json) :
    readAdditional path fields = match Fields.get? fields "additionalProperties" with
      | none => .ok .unstated
      | some (.bool flag) => .ok (.allowed flag)
      | some value => (read (path ++ "/additionalProperties") value).map .schema := by
  rw [readAdditional]
  split <;> simp_all

/-- The value describes the same schema at all paths. -/
def PathFree (value : Json) : Prop :=
  ∀ path path', (read path value).toOption = (read path' value).toOption

section Parts

variable {fields : Fields Json}

theorem toOption_readItems {items : List Json} (h : ∀ item ∈ items, PathFree item)
    (path path' : String) (first : Nat) :
    (readItems path first items).toOption = (readItems path' first items).toOption := by
  induction items generalizing first with
  | nil => rw [readItems, readItems]
  | cons item rest ih =>
    obtain ⟨hitem, hrest⟩ := List.forall_mem_cons.mp h
    simp only [readItems, toOption_bind, hitem _ (path' ++ "/" ++ toString first), ih hrest]

theorem toOption_readFields (h : ∀ entry ∈ fields, PathFree entry.2) (path path' : String) :
    (readFields path fields).toOption = (readFields path' fields).toOption := by
  induction fields with
  | nil => rw [readFields, readFields]
  | cons entry rest ih =>
    obtain ⟨name, value⟩ := entry
    obtain ⟨hvalue, hrest⟩ := List.forall_mem_cons.mp h
    simp only [readFields, toOption_bind, hvalue _ (path' ++ "/" ++ name), ih hrest]

-- All that is smaller than the members is read the same at all paths.
variable (h : ∀ value, sizeOf value < sizeOf fields → PathFree value)

include h

theorem toOption_readFieldsAt (path path' key : String) :
    (readFieldsAt path fields key).toOption = (readFieldsAt path' fields key).toOption := by
  rw [readFieldsAt_eq, readFieldsAt_eq]
  cases hget : Fields.get? fields key with
  | none => rfl
  | some value =>
    have hlt := sizeOf_lt_of_get? hget
    cases value with
    | object entries =>
      refine toOption_readFields (fun entry hentry => h _ ?_) _ _
      have hpart := Json.sizeOf_lt_of_hasPart (.member hentry)
      omega
    | _ => rfl

theorem toOption_readPartsAt (path path' key : String) :
    (readPartsAt path fields key).toOption = (readPartsAt path' fields key).toOption := by
  rw [readPartsAt_eq, readPartsAt_eq]
  cases hget : Fields.get? fields key with
  | none => rfl
  | some value =>
    have hlt := sizeOf_lt_of_get? hget
    cases value with
    | array items =>
      simp only [toOption_map]
      refine congrArg _ (toOption_readItems (fun item hitem => h _ ?_) _ _ 0)
      have hpart := Json.sizeOf_lt_of_hasPart (.item hitem)
      omega
    | _ => rfl

theorem toOption_readArray (path path' : String) :
    (readArray path fields).toOption = (readArray path' fields).toOption := by
  rw [readArray_eq, readArray_eq]
  cases hget : Fields.get? fields "items" with
  | none => rfl
  | some value =>
    have hlt := sizeOf_lt_of_get? hget
    cases value with
    | array items =>
      simp only [toOption_map]
      refine congrArg _ (toOption_readItems (fun item hitem => h _ ?_) _ _ 0)
      have hpart := Json.sizeOf_lt_of_hasPart (.item hitem)
      omega
    | _ => simp only [toOption_map, h _ hlt _ (path' ++ "/items")]

theorem toOption_readAdditional (path path' : String) :
    (readAdditional path fields).toOption = (readAdditional path' fields).toOption := by
  rw [readAdditional_eq, readAdditional_eq]
  cases hget : Fields.get? fields "additionalProperties" with
  | none => rfl
  | some value =>
    have hlt := sizeOf_lt_of_get? hget
    cases value with
    | bool flag => rfl
    | _ => simp only [toOption_map, h _ hlt _ (path' ++ "/additionalProperties")]

theorem toOption_readObject (path path' : String) :
    (readObject path fields).toOption = (readObject path' fields).toOption := by
  simp only [readObject, toOption_bind, toOption_readFieldsAt h path path',
    toOption_required? path path', toOption_readAdditional h path path']

theorem toOption_readBody (path path' : String) :
    (readBody path fields).toOption = (readBody path' fields).toOption := by
  rw [readBody, readBody]
  split
  · simp only [toOption_map, toOption_refKind path path']
  · split
    · rfl
    · rw [toOption_bind, toOption_bind, toOption_typeName? path path']
      refine congrArg _ (funext fun type => ?_)
      split
      · simp only [toOption_map, toOption_enumKind path path']
      · split
        · simp only [toOption_bind, toOption_readObject h path path']
        · split
          · simp only [toOption_bind, toOption_readArray h path path']
          · simp only [toOption_map, toOption_scalarKind path path']

end Parts

/-! ### Schemas -/

/-- All values are read the same at all paths, by induction on their size. -/
theorem pathFree (value : Json) : PathFree value := by
  intro path path'
  cases value with
  | object fields =>
    have hparts : ∀ part, sizeOf part < sizeOf fields → PathFree part := fun part hlt => pathFree part
    rw [read, read]
    split
    · rfl
    · simp only [toOption_bind, toOption_readBody hparts path path',
        toOption_readPartsAt hparts path path']
  | bool flag => cases flag <;> simp only [read]
  | null | number _ | string _ | array _ =>
    simp only [read]
    rfl
termination_by sizeOf value
decreasing_by
  simp_wf
  omega

/-- **A value describes the same schema at all paths.** -/
theorem toOption_ofJson (value : Json) (path path' : String) :
    (ofJson value path).toOption = (ofJson value path').toOption :=
  pathFree value path path'

end Schema

end RpcSchema
