import RpcSchema.Projection
import RpcSchema.Proofs.Identifier.Constants
import RpcSchema.Proofs.Schema.Parts

/-!
# Constants of an enumeration

The shape of an enumeration of strings has a constant for each value, in order, whatever the
projector is and whether or not the schema has a title.  What the constants are called is settled
value by value, and the rewriting forgets what does not belong into an identifier: what stands
before the last colon, which separator it was, and case.  So values that have the same words share
the name of their constants, and no others do.

## Main definitions

* `Projector.EnumeratesApart` — the shape has a constant for each value, with names of their own.

## Main results

* `Projector.shape_stringEnum` — the constants of an enumeration, and which of them share a name.
* `Projector.not_enumeratesApart_cased` — values that differ in case only share it.
-/

namespace RpcSchema

namespace Projector

variable {schema : Schema} {type : Option Primitive} {values : List Json}

/-- The constants for the strings among values. -/
def membersOf (values : List Json) : List EnumMember :=
  (values.filterMap Json.string?).map fun value => ⟨enumKey value, value⟩

/-- The shape of the schema is an enumeration with a constant for each value, in order, and the
names of the constants are pairwise distinct. -/
def EnumeratesApart (projector : Projector) (schema : Schema) : Prop :=
  ∃ members, projector.shape schema = .ok (.enumeration members) ∧
    schema.kind.literals = members.map (fun member => Json.string member.value) ∧
    (members.map EnumMember.key).Nodup

/-- The values of an enumeration of strings are strings. -/
theorem isString_of_isStringEnum (h : Kind.isStringEnum (.enum type values) = true) :
    ∀ value ∈ values, value.isString = true := by
  simp only [Kind.isStringEnum, Bool.and_eq_true, List.all_eq_true] at h
  exact h.2

/-- Strings are the values of their constants, one for each and in order. -/
theorem map_value_membersOf (h : ∀ value ∈ values, value.isString = true) :
    (membersOf values).map (fun member => Json.string member.value) = values := by
  induction values with
  | nil => rfl
  | cons value rest ih =>
    obtain ⟨hvalue, hrest⟩ := List.forall_mem_cons.mp h
    cases value with
    | string text => exact congrArg (Json.string text :: ·) (ih hrest)
    | _ => cases hvalue

theorem key_of_mem_membersOf {member : EnumMember} (h : member ∈ membersOf values) :
    member.key = enumKey member.value := by
  obtain ⟨value, -, rfl⟩ := List.mem_map.mp h
  rfl

/-- A title makes no difference to the shape of an enumeration at its declaration. -/
theorem shape_of_isStringEnum (projector : Projector) (hkind : schema.kind = .enum type values)
    (h : schema.isStringEnum = true) :
    projector.shape schema = .ok (.enumeration (membersOf values)) := by
  obtain ⟨title, description, _, extra⟩ := schema
  obtain rfl : _ = Kind.enum type values := hkind
  have henum : projector.enumShape type values = .enumeration (membersOf values) := if_pos h
  cases title with
  | none => exact congrArg Except.ok henum
  | some title => exact congrArg Except.ok henum

/-- **The constants of an enumeration of strings.**  For every projector, the shape of the schema
has one constant for each value, in order.  The name of each is the constant for its value; two of
them have the same name exactly if these have the same words; and so the names are pairwise distinct
if and only if no two of the values have the same words. -/
theorem shape_stringEnum (projector : Projector) (h : schema.isStringEnum = true) :
    ∃ members, projector.shape schema = .ok (.enumeration members) ∧
      schema.kind.literals = members.map (fun member => Json.string member.value) ∧
      (∀ member ∈ members, member.key = enumKey member.value) ∧
      (∀ member ∈ members, ∀ other ∈ members,
        member.key = other.key ↔ constantWords member.value = constantWords other.value) ∧
      ((members.map EnumMember.key).Nodup ↔
        (members.map fun member => constantWords member.value).Nodup) := by
  cases hkind : schema.kind with
  | enum type values =>
    have hstrings : ∀ value ∈ values, value.isString = true :=
      isString_of_isStringEnum (by rwa [Schema.isStringEnum, hkind] at h)
    have hshared : ∀ member ∈ membersOf values, ∀ other ∈ membersOf values,
        member.key = other.key ↔ constantWords member.value = constantWords other.value := by
      intro member hmember other hother
      rw [key_of_mem_membersOf hmember, key_of_mem_membersOf hother]
      exact enumKey_eq_iff
    refine ⟨membersOf values, projector.shape_of_isStringEnum hkind h,
      (map_value_membersOf hstrings).symm, fun member => key_of_mem_membersOf, hshared, ?_⟩
    -- Names that differ are words that differ, pair by pair.
    rw [List.Nodup, List.Nodup, List.pairwise_map, List.pairwise_map]
    exact List.Pairwise.iff_of_mem fun hmember hother =>
      not_congr (hshared _ hmember _ hother)
  | _ => simp [Schema.isStringEnum, hkind, Kind.isStringEnum] at h

/-- A document that declares nothing. -/
def bareDocument : Document := ⟨none, "Captions", .object []⟩

/-- Modes of captions: their names are apart, though some differ in separators and digits only. -/
def captionModes : Schema := ⟨some "CaptionMode", none,
  .enum (some .string) [.string "urn:mode:closed.captions", .string "closed--captions",
    .string "1080p", .string "C+"], []⟩

/-- Separators count where there are more of them. -/
theorem shape_stringEnum_captionModes :
    let projector : Projector := ⟨.typescript, .standard, .empty, bareDocument, "#"⟩
    captionModes.isStringEnum = true ∧
      projector.shape captionModes = .ok (.enumeration
        [⟨"CLOSED_CAPTIONS", "urn:mode:closed.captions"⟩,
          ⟨"CLOSED__CAPTIONS", "closed--captions"⟩, ⟨"V1080P", "1080p"⟩, ⟨"C_PLUS", "C+"⟩]) ∧
      projector.EnumeratesApart captionModes := by
  intro projector
  have hstring : captionModes.isStringEnum = true := rfl
  have hshape : projector.shape captionModes = .ok (.enumeration
      [⟨"CLOSED_CAPTIONS", "urn:mode:closed.captions"⟩,
        ⟨"CLOSED__CAPTIONS", "closed--captions"⟩, ⟨"V1080P", "1080p"⟩, ⟨"C_PLUS", "C+"⟩]) :=
    rfl
  obtain ⟨members, hmembers, hvalues, -, -, hapart⟩ := shape_stringEnum projector hstring
  obtain rfl : _ = members := Shape.enumeration.inj (Except.ok.inj (hshape.symm.trans hmembers))
  exact ⟨hstring, hshape, _, hmembers, hvalues, hapart.mpr (by decide)⟩

/-- **Distinct values can share the name of their constants**: `a` and `A` do. -/
theorem not_enumeratesApart_cased :
    let values := ["a", "A"]
    let schema : Schema := .ofKind (.enum (some .string) (values.map Json.string))
    values.Nodup ∧ schema.isStringEnum = true ∧
      ¬(⟨.typescript, .standard, .empty, bareDocument, "#"⟩ : Projector).EnumeratesApart
        schema := by
  refine ⟨by decide, rfl, fun ⟨members, hshape, _, hapart⟩ => ?_⟩
  obtain rfl : [⟨"A", "a"⟩, ⟨"A", "A"⟩] = members :=
    Shape.enumeration.inj (Except.ok.inj hshape)
  exact absurd hapart (by decide)

end Projector

end RpcSchema
