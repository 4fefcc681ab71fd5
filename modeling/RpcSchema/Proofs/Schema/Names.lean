import Mathlib.Data.Set.Insert
import RpcSchema.Proofs.Json.Pointer
import RpcSchema.Proofs.Reference
import RpcSchema.Proofs.Schema.Parts
import RpcSchema.Registry
import RpcSchema.Unification.Basic

/-!
# Names in schemas

Where a schema is used it goes by its title, and a reference without a title by the last segment
of what it says.  These are the names that declarations mention.  To follow them through
unification one has to know more: a title may be taken off a reference, and then the name behind
it comes to light.

## Main definitions

* `Schema.UsesOnly known` — at every depth, schemas go by known names.
* `Schema.NamesOnly known` — at every depth, titles and referred names are known.

## Main results

* `Reference.name_toComponent` — the name of the reference to a component.
* `Schema.NamesOnly.joined` — what takes the place of two schemas brings no new names.
-/

namespace RpcSchema

/-! ### Names of references -/

/-- **The reference to a component goes by its name**, if that has no slashes. -/
theorem Reference.name_toComponent {name : String} (h : '/' ∉ name.toList) :
    Reference.name (Reference.toComponent name) = name := by
  have htext : (Reference.toComponent name).toList
      = Reference.componentsPointer.toList ++ '/' :: name.toList := by
    simp [Reference.toComponent]
  have hhash : Reference.StartsHash (Reference.toComponent name) := by
    refine ⟨"/components/schemas".toList ++ '/' :: name.toList, ?_⟩
    rw [htext]
    rfl
  have hfragment : Reference.fragment (Reference.toComponent name) = Reference.toComponent name := by
    rw [Reference.fragment, Reference.split_of_startsHash hhash]
  rw [Reference.name, hfragment, htext, lastPiece, splitChars_append, splitChars_of_notMem h,
    List.getLast?_concat, Option.getD_some, String.ofList_toList]

/-- The name of the schema that a shape refers to. -/
def Kind.refName? : Kind → Option String
  | .ref reference => some (Reference.name reference)
  | _ => none

namespace Schema

/-- The name that a schema goes by where it is used. -/
def useName? (schema : Schema) : Option String := schema.title.or schema.kind.refName?

/-- A schema and all schemas within it go by known names. -/
def UsesOnly (known : Set String) (schema : Schema) : Prop :=
  schema.Every fun inner => ∀ name, inner.useName? = some name → name ∈ known

/-- The title of a schema and the name that it refers to are known. -/
structure OwnNames (known : Set String) (schema : Schema) : Prop where
  title : ∀ name, schema.title = some name → name ∈ known
  refers : ∀ name, schema.kind.refName? = some name → name ∈ known

/-- In a schema and all schemas within it, titles and referred names are known. -/
def NamesOnly (known : Set String) (schema : Schema) : Prop := schema.Every (OwnNames known)

variable {known known' : Set String} {schema a b : Schema} {kind : Kind}

theorem OwnNames.useName (h : schema.OwnNames known) :
    ∀ name, schema.useName? = some name → name ∈ known := by
  intro name hname
  rcases Option.or_eq_some_iff.mp hname with htitle | ⟨-, hrefers⟩
  · exact h.title name htitle
  · exact h.refers name hrefers

theorem NamesOnly.usesOnly (h : schema.NamesOnly known) : schema.UsesOnly known :=
  h.mono fun _ hinner => hinner.useName

theorem UsesOnly.mono (h : schema.UsesOnly known) (hsub : known ⊆ known') :
    schema.UsesOnly known' :=
  Every.mono h fun _ hinner name hname => hsub (hinner name hname)

theorem NamesOnly.mono (h : schema.NamesOnly known) (hsub : known ⊆ known') :
    schema.NamesOnly known' :=
  Every.mono h fun _ hinner =>
    ⟨fun name hname => hsub (hinner.title name hname),
      fun name hname => hsub (hinner.refers name hname)⟩

/-- When all names are known, nothing is asked for. -/
theorem namesOnly_univ (schema : Schema) : schema.NamesOnly Set.univ := by
  induction schema using induction_parts with
  | h schema ih => exact .intro ⟨fun _ _ => trivial, fun _ _ => trivial⟩ ih

/-- A shape without a title refers to known names, as do its parts. -/
theorem namesOnly_ofKind (hrefers : ∀ name, kind.refName? = some name → name ∈ known)
    (hparts : ∀ part ∈ kind.parts, part.NamesOnly known) : (Schema.ofKind kind).NamesOnly known :=
  .intro ⟨fun _ h => (by cases h), hrefers⟩ hparts

theorem namesOnly_empty : (Schema.ofKind .empty).NamesOnly known :=
  namesOnly_ofKind (fun _ h => by cases h) (List.forall_mem_nil _)

/-- The schemas side by side. -/
theorem namesOnly_anyOf {branches : List Schema} (h : ∀ branch ∈ branches, branch.NamesOnly known) :
    (Schema.ofKind (.anyOf branches)).NamesOnly known :=
  namesOnly_ofKind (fun _ h => by cases h) h

/-- A bare reference. -/
theorem namesOnly_reference {reference : String} (h : Reference.name reference ∈ known) :
    (Schema.reference reference).NamesOnly known :=
  namesOnly_ofKind (fun _ hname => Option.some.inj hname ▸ h)
    (List.forall_mem_nil _)

/-- The reference to a registered schema. -/
theorem namesOnly_registered {name : String} (hslash : '/' ∉ name.toList) (h : name ∈ known) :
    (Schema.registered name).NamesOnly known := by
  refine .intro ⟨fun _ htitle => Option.some.inj htitle ▸ h, fun _ hrefers => ?_⟩
    (List.forall_mem_nil _)
  rw [← Option.some.inj hrefers, Reference.name_toComponent hslash]
  exact h

theorem usesOnly_registered {name : String} (h : name ∈ known) :
    (Schema.registered name).UsesOnly known :=
  .intro (fun _ hname => Option.some.inj hname ▸ h) (List.forall_mem_nil _)

theorem OwnNames.joined (ha : a.OwnNames known) (hb : b.OwnNames known) (extra : Fields Json)
    (hrefers : ∀ name, kind.refName? = some name → name ∈ known) :
    (a.joined b extra kind).OwnNames known := by
  refine ⟨fun name hname => ?_, hrefers⟩
  rcases Option.or_eq_some_iff.mp hname with htitle | ⟨-, htitle⟩
  · exact hb.title name htitle
  · exact ha.title name htitle

/-- **What takes the place of two schemas brings no new names**, if its shape brings none. -/
theorem NamesOnly.joined (ha : a.NamesOnly known) (hb : b.NamesOnly known) (extra : Fields Json)
    (hrefers : ∀ name, kind.refName? = some name → name ∈ known)
    (hparts : ∀ part ∈ kind.parts, part.NamesOnly known) :
    (a.joined b extra kind).NamesOnly known :=
  .intro (ha.own.joined hb.own extra hrefers) hparts

end Schema

end RpcSchema
