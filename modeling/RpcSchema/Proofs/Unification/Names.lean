import RpcSchema.Proofs.Identifier.Pascal
import RpcSchema.Proofs.Outcome
import RpcSchema.Proofs.Registration
import RpcSchema.Proofs.Unification.Intersection
import RpcSchema.Unification.Composition

/-!
# Unification brings no names

The titles and the referred names in a unified schema are those of the schema that was unified,
and the names of wrappers.  A wrapper is registered where two references make one schema, and
its name has no slashes, so the reference to it goes by that name.

What an intersection or a union gives is made of parts of both sides and of merges of such.
That is all that has to be known of them here: which parts meet which does not matter.

## Main definitions

* `Union.Naming` — merging two schemas is a script that brings no names but registered ones.

## Main results

* `Schema.namesOnly_intersectAll` — intersections bring no names.
* `Schema.naming_uniteWithin` — unions bring no names but registered ones.
* `Schema.tries_unify` — neither does unification.
-/

namespace RpcSchema

open Registry (Scripted Tries candidate)

variable {known : Set String} {a b m : Schema}

/-- The schemas in fields have known names only. -/
def FieldsKnown (known : Set String) (fields : Fields Schema) : Prop :=
  ∀ entry ∈ fields, entry.2.NamesOnly known

/-- The schemas in a list have known names only. -/
def ItemsKnown (known : Set String) (items : List Schema) : Prop :=
  ∀ item ∈ items, item.NamesOnly known

section Known

variable {known' : Set String} {fields : Fields Schema} {items : List Schema}

theorem FieldsKnown.mono (h : FieldsKnown known fields) (hsub : known ⊆ known') :
    FieldsKnown known' fields :=
  fun entry hentry => (h entry hentry).mono hsub

theorem ItemsKnown.mono (h : ItemsKnown known items) (hsub : known ⊆ known') :
    ItemsKnown known' items :=
  fun item hitem => (h item hitem).mono hsub

end Known

/-! ### Intersections -/

/-- What two schemas meet in goes by their names. -/
private theorem Intersection.Meets.ownNames {merge : Schema → Schema → Except Conflict Schema}
    {kind : Kind} (h : Meets merge a.kind b.kind kind) (ha : a.OwnNames known)
    (hb : b.OwnNames known) : (a.joined b (a.sharedExtra b) kind).OwnNames known := by
  refine ha.joined hb _ ?_
  generalize hk : a.kind = k at h
  generalize hl : b.kind = l at h
  cases h with
  | left _ => exact hk ▸ ha.refers
  | right _ => exact hl ▸ hb.refers
  | enums _ _ _ _ | objects _ | items _ => exact fun _ hname => by cases hname

/-- **Intersections bring no names.** -/
theorem Schema.namesOnly_intersectAll {schemas : List Schema}
    (hschemas : ∀ schema ∈ schemas, schema.NamesOnly known) (h : intersectAll schemas = .ok m) :
    m.NamesOnly known :=
  Intersection.every_intersectAll
    (fun _ _ _ _ _ _ _ => ⟨fun _ htitle => (by cases htitle), fun _ hname => (by cases hname)⟩)
    (fun _ _ _ _ ha hb hmeets => hmeets.ownNames ha hb) namesOnly_empty hschemas h

/-! ### Wrappers -/

/-- Names in PascalCase have no slashes. -/
theorem slash_notMem_pascal (text : String) : '/' ∉ (pascal text).toList := by
  intro hslash
  exact absurd ((isPascalName_pascal text).chars _ hslash) (by decide)

/-- The names of wrappers have no slashes. -/
theorem slash_notMem_wrapperName (left right : String) : '/' ∉ (wrapperName left right).toList := by
  unfold wrapperName
  dsimp only
  split
  · simp only [String.toList_append, List.mem_append, not_or]
    exact ⟨⟨slash_notMem_pascal _, by decide⟩, slash_notMem_pascal _⟩
  · simp only [String.toList_append, List.mem_append, not_or]
    exact ⟨slash_notMem_pascal _, by decide⟩

/-- Numbers bring no slashes. -/
theorem slash_notMem_candidate {name : String} (h : '/' ∉ name.toList) (index : Nat) :
    '/' ∉ (candidate name index).toList := by
  rcases Registry.candidate_form name index with heq | ⟨number, -, heq⟩
  · rw [heq]
    exact h
  · rw [heq, String.toList_append, List.mem_append, not_or]
    refine ⟨h, fun hdigit => ?_⟩
    rw [Nat.toString_eq_repr, Nat.toList_repr] at hdigit
    exact absurd (Nat.isDigit_of_mem_toDigits (by decide) (by decide) hdigit) (by decide)

/-- **Hiding two references** brings no name but a registered one. -/
theorem tries_wrapReferences {x y : String} (hx : Reference.name x ∈ known)
    (hy : Reference.name y ∈ known) :
    Tries (fun known m => m.NamesOnly known) known (wrapReferences x y) := by
  have hparts : ∀ part ∈ [Schema.reference x, Schema.reference y], part.UsesOnly known :=
    List.forall_mem_cons.mpr ⟨(Schema.namesOnly_reference hx).usesOnly,
      List.forall_mem_singleton.mpr (Schema.namesOnly_reference hy).usesOnly⟩
  refine (Tries.lift (Registry.scripted_register _ (.ofKind (.anyOf _)) hparts)).bind ?_
  rintro known' - chosen ⟨hchosen, index, rfl⟩
  exact .pure (Schema.namesOnly_registered
    (slash_notMem_candidate (slash_notMem_wrapperName x y) index) hchosen)

/-! ### Unions -/

namespace Union

/-- Merging two schemas is a script that brings no names but registered ones. -/
def Naming (merge : Schema → Schema → Unifying Schema) : Prop :=
  ∀ {known : Set String} {a b : Schema}, a.NamesOnly known → b.NamesOnly known →
    Tries (fun known m => m.NamesOnly known) known (merge a b)

variable {left right : Fields Schema} {items branches : List Schema}

section Naming

variable {merge : Schema → Schema → Unifying Schema} (hmerge : Naming merge)
include hmerge

theorem tries_properties (hleft : FieldsKnown known left) (hright : FieldsKnown known right) :
    Tries FieldsKnown known (properties merge left right) := by
  induction left generalizing known right with
  | nil => exact .pure hright
  | cons entry left ih =>
    obtain ⟨name, a⟩ := entry
    obtain ⟨ha, hleft⟩ := List.forall_mem_cons.mp hleft
    rw [properties]
    split
    · next b others hextract =>
      obtain ⟨hb, hothers⟩ := Fields.forall_extract hextract hright
      refine (hmerge ha hb).bind fun known' hsub merged hmerged => ?_
      refine (ih (FieldsKnown.mono hleft hsub) (FieldsKnown.mono hothers hsub)).bind
        fun known'' hsub' rest hrest => .pure ?_
      exact List.forall_mem_cons.mpr ⟨hmerged.mono hsub', hrest⟩
    · refine (ih hleft hright).bind fun known' hsub rest hrest => .pure ?_
      exact List.forall_mem_cons.mpr ⟨ha.mono hsub, hrest⟩

theorem tries_mergePatterns (hleft : FieldsKnown known left) (hright : FieldsKnown known right) :
    Tries FieldsKnown known (mergePatterns merge left right) := by
  induction right generalizing known left with
  | nil => exact .pure hleft
  | cons entry right ih =>
    obtain ⟨name, b⟩ := entry
    obtain ⟨hb, hright⟩ := List.forall_mem_cons.mp hright
    rw [mergePatterns]
    split
    · next a others hextract =>
      obtain ⟨ha, hothers⟩ := Fields.forall_extract hextract hleft
      refine (hmerge ha hb).bind fun known' hsub merged hmerged => ?_
      refine ih (List.forall_mem_append.mpr ⟨?_, List.forall_mem_singleton.mpr hmerged⟩)
        (FieldsKnown.mono hright hsub)
      exact FieldsKnown.mono hothers hsub
    · exact ih (List.forall_mem_append.mpr ⟨hleft, List.forall_mem_singleton.mpr hb⟩) hright

theorem tries_additional {x y : Additional} (hx : ∀ a, x = .schema a → a.NamesOnly known)
    (hy : ∀ b, y = .schema b → b.NamesOnly known) :
    Tries (fun known z => ∀ m, z = .schema m → m.NamesOnly known) known (additional merge x y) := by
  unfold additional
  split
  · exact .pure hy
  · exact .pure hx
  · exact .pure fun _ heq => by cases heq
  · next a b =>
    exact (hmerge (hx a rfl) (hy b rfl)).bind fun _ _ merged hmerged =>
      .pure fun _ heq => Additional.schema.inj heq ▸ hmerged
  · refine .pure fun m heq => hx m ?_
    split at heq
    · cases heq
    · exact heq
  · refine .pure fun m heq => hy m ?_
    split at heq
    · cases heq
    · exact heq

theorem tries_objects {x y : ObjectSchema} (hx : ItemsKnown known x.parts)
    (hy : ItemsKnown known y.parts) :
    Tries (fun known shape => ItemsKnown known shape.parts) known (objects merge x y) := by
  obtain ⟨hproperties, hadditional, hpatterns⟩ := ObjectSchema.forall_parts_iff.mp hx
  obtain ⟨hproperties', hadditional', hpatterns'⟩ := ObjectSchema.forall_parts_iff.mp hy
  refine (tries_properties hmerge hproperties hproperties').bind
    fun known₁ hsub₁ merged hmerged => ?_
  refine (tries_additional hmerge (fun a ha => (hadditional a ha).mono hsub₁)
    (fun b hb => (hadditional' b hb).mono hsub₁)).bind fun known₂ hsub₂ undeclared hundeclared => ?_
  have hsub := hsub₁.trans hsub₂
  refine (tries_mergePatterns hmerge (FieldsKnown.mono hpatterns hsub)
    (FieldsKnown.mono hpatterns' hsub)).bind fun known₃ hsub₃ patterns hmergedPatterns => .pure ?_
  exact ObjectSchema.forall_parts_iff.mpr ⟨FieldsKnown.mono hmerged (hsub₂.trans hsub₃),
    fun m hm => (hundeclared m hm).mono hsub₃, hmergedPatterns⟩

theorem tries_joinBranch (hschema : a.NamesOnly known) (hbranches : ItemsKnown known branches) :
    Tries ItemsKnown known (joinBranch merge a branches) := by
  induction branches generalizing known with
  | nil => exact .pure (List.forall_mem_singleton.mpr hschema)
  | cons branch branches ih =>
    obtain ⟨hbranch, hbranches⟩ := List.forall_mem_cons.mp hbranches
    rw [joinBranch]
    split
    · exact (hmerge hbranch hschema).bind fun known' hsub merged hmerged =>
        .pure (List.forall_mem_cons.mpr ⟨hmerged, ItemsKnown.mono hbranches hsub⟩)
    · exact (ih hschema hbranches).bind fun known' hsub rest hrest =>
        .pure (List.forall_mem_cons.mpr ⟨hbranch.mono hsub, hrest⟩)

omit hmerge in
theorem namesOnly_ofBranches (h : ItemsKnown known branches) :
    (ofBranches branches).NamesOnly known := by
  unfold ofBranches
  split
  · exact h _ (List.mem_singleton_self _)
  · exact Schema.namesOnly_anyOf h

theorem tries_joinBranches (hbranches : ItemsKnown known branches) (hitems : ItemsKnown known items) :
    Tries (fun known m => m.NamesOnly known) known (joinBranches merge branches items) := by
  have hfold : Tries ItemsKnown known
      (items.foldlM (fun branches schema => joinBranch merge schema branches) branches) := by
    induction items generalizing known branches with
    | nil => exact .pure hbranches
    | cons item items ih =>
      obtain ⟨hitem, hitems⟩ := List.forall_mem_cons.mp hitems
      rw [List.foldlM_cons]
      exact (tries_joinBranch hmerge hitem hbranches).bind fun known' hsub joined hjoined =>
        ih hjoined (ItemsKnown.mono hitems hsub)
  exact hfold.bind fun _ _ joined hjoined => .pure (namesOnly_ofBranches hjoined)

/-- **The union of two schemas brings no names but registered ones**, if merging parts brings
none. -/
theorem naming_combine : Naming (combine merge) := by
  intro known a b ha hb
  have hkeep : ∀ {kind : Kind}, (∀ name, kind.refName? = some name → name ∈ known) →
      ItemsKnown known kind.parts → Tries (fun known m => m.NamesOnly known) known
        (pure (a.joined b (a.agreedExtra b) kind) : Unifying Schema) :=
    fun hrefers hparts => .pure (ha.joined hb _ hrefers hparts)
  have hleft := hkeep ha.own.refers ha.parts
  have hright := hkeep hb.own.refers hb.parts
  have hplain : ∀ {kind : Kind}, kind.refName? = none → kind.parts = [] →
      Tries (fun known m => m.NamesOnly known) known
        (pure (a.joined b (a.agreedExtra b) kind) : Unifying Schema) :=
    fun hrefers hparts => hkeep (fun _ hname => by rw [hrefers] at hname; cases hname)
      fun _ hmem => by rw [hparts] at hmem; exact absurd hmem List.not_mem_nil
  have hapart : Tries (fun known m => m.NamesOnly known) known
      (pure (.ofKind (.anyOf [a, b])) : Unifying Schema) :=
    .pure (Schema.namesOnly_anyOf (List.forall_mem_cons.mpr ⟨ha, List.forall_mem_singleton.mpr hb⟩))
  -- The cases of the definition, in its order.
  unfold combine
  dsimp only
  split
  · exact hright
  · exact hleft
  · exact hright
  · exact hleft
  · next hk hl => exact tries_joinBranches hmerge (ha.parts_of_kind_eq hk) (hb.parts_of_kind_eq hl)
  · next hk _ _ _ =>
    exact tries_joinBranches hmerge (ha.parts_of_kind_eq hk) (List.forall_mem_singleton.mpr hb)
  · next hl _ _ _ =>
    exact tries_joinBranches hmerge (hb.parts_of_kind_eq hl) (List.forall_mem_singleton.mpr ha)
  · next x y hk hl =>
    split
    · exact hk ▸ hleft
    · exact tries_wrapReferences (ha.own.refers _ (by rw [hk]; rfl))
        (hb.own.refers _ (by rw [hl]; rfl))
  -- Scalars become a scalar, or stand side by side.
  · split
    · exact hplain rfl rfl
    · exact hplain rfl rfl
  · exact hplain rfl rfl
  · exact hplain rfl rfl
  · exact hplain rfl rfl
  · split
    · exact hplain rfl rfl
    · exact hapart
  iterate 4
    split
    · exact hplain rfl rfl
    · exact hapart
  · next x y hk hl =>
    have hobjects := tries_objects hmerge (ha.parts_of_kind_eq hk) (hb.parts_of_kind_eq hl)
    exact hobjects.bind fun _ hsub shape hshape =>
      .pure ((ha.mono hsub).joined (hb.mono hsub) _ (fun _ hname => by cases hname) hshape)
  · exact hplain rfl rfl
  · next hk hl => exact hl ▸ hright
  · next hk hl => exact hl ▸ hright
  · next hk hl => exact hk ▸ hleft
  · next hk hl => exact hk ▸ hleft
  · next x y hk hl =>
    exact (hmerge (ha.item hk) (hb.item hl)).bind fun _ hsub item hitem =>
      .pure ((ha.mono hsub).joined (hb.mono hsub) _ (fun _ hname => by cases hname)
        (List.forall_mem_singleton.mpr hitem))
  · exact .throw _
  · exact .throw _
  · exact .throw _
  · exact hapart

end Naming

end Union

namespace Schema

variable {schema merged first : Schema} {items rest : List Schema} {fields : Fields Schema}
  {preserveUnions : Bool}

/-- **Unions bring no names but registered ones**, at whatever depth they stop. -/
theorem naming_uniteWithin (depth : Nat) : Union.Naming (uniteWithin depth) := by
  induction depth with
  | zero =>
    intro known a b ha hb
    exact .pure (namesOnly_anyOf (List.forall_mem_cons.mpr ⟨ha, List.forall_mem_singleton.mpr hb⟩))
  | succ depth ih =>
    intro known a b ha hb
    rw [uniteWithin]
    split
    · exact .pure ha
    · exact Union.naming_combine ih ha hb

theorem tries_uniteAll (hfirst : first.NamesOnly known) (hrest : ItemsKnown known rest) :
    Tries (fun known m => m.NamesOnly known) known (uniteAll first rest) := by
  induction rest generalizing known first with
  | nil => exact .pure hfirst
  | cons next rest ih =>
    obtain ⟨hnext, hrest⟩ := List.forall_mem_cons.mp hrest
    rw [uniteAll, List.foldlM_cons]
    exact (naming_uniteWithin _ hfirst hnext).bind fun _ hsub united hunited =>
      ih hunited (ItemsKnown.mono hrest hsub)

theorem tries_unitePayloads {schemas : List Schema} (hschemas : ItemsKnown known schemas)
    (hitems : ItemsKnown known items) :
    Tries (fun known m => m.NamesOnly known) known (unitePayloads schemas items) := by
  cases items with
  | nil =>
    refine .pure ?_
    cases schemas with
    | nil => exact namesOnly_empty
    | cons schema schemas => exact hschemas schema List.mem_cons_self
  | cons first rest =>
    obtain ⟨hfirst, hrest⟩ := List.forall_mem_cons.mp hitems
    exact tries_uniteAll hfirst hrest

/-- What a composition says about itself brings no name but its title. -/
theorem NamesOnly.overlay (h : merged.NamesOnly known) {title description : Option String}
    {extra : Fields Json} {composite : Bool} (htitle : ∀ name, title = some name → name ∈ known) :
    (merged.overlay title description extra composite).NamesOnly known := by
  refine h.of_kind_eq rfl ⟨fun name hname => ?_, h.own.refers⟩
  replace hname : (if title.isSome || composite then title else merged.title) = some name := hname
  split at hname
  · exact htitle name hname
  · exact h.own.title name hname

/-! ### Unification -/

/-- Unifying the schema is a script that brings no names but registered ones, and leaves the
schema its title. -/
def UnifyNaming (preserveUnions : Bool) (schema : Schema) : Prop :=
  ∀ {known : Set String}, schema.NamesOnly known →
    Tries (fun known m => m.NamesOnly known ∧ ∀ name, schema.title = some name → m.title = some name)
      known (schema.unify preserveUnions)

theorem tries_unifyItems (h : ∀ item ∈ items, item.UnifyNaming preserveUnions)
    (hitems : ItemsKnown known items) :
    Tries ItemsKnown known (unifyItems preserveUnions items) := by
  induction items generalizing known with
  | nil => exact .pure hitems
  | cons item items ih =>
    obtain ⟨hitem, hitems⟩ := List.forall_mem_cons.mp hitems
    obtain ⟨hunify, hrest⟩ := List.forall_mem_cons.mp h
    rw [unifyItems]
    refine (hunify hitem).bind fun known' hsub unified ⟨hunified, _⟩ => ?_
    refine (ih hrest (ItemsKnown.mono hitems hsub)).bind fun known'' hsub' others hothers => .pure ?_
    exact List.forall_mem_cons.mpr ⟨hunified.mono hsub', hothers⟩

theorem tries_unifyPayloads (h : ∀ item ∈ items, item.UnifyNaming preserveUnions)
    (hitems : ItemsKnown known items) :
    Tries ItemsKnown known (unifyPayloads preserveUnions items) := by
  induction items generalizing known with
  | nil => exact .pure hitems
  | cons item items ih =>
    obtain ⟨hitem, hitems⟩ := List.forall_mem_cons.mp hitems
    obtain ⟨hunify, hrest⟩ := List.forall_mem_cons.mp h
    rw [unifyPayloads]
    split
    · exact ih hrest hitems
    · refine (hunify hitem).bind fun known' hsub unified ⟨hunified, _⟩ => ?_
      refine (ih hrest (ItemsKnown.mono hitems hsub)).bind fun known'' hsub' others hothers => .pure ?_
      exact List.forall_mem_cons.mpr ⟨hunified.mono hsub', hothers⟩

theorem tries_unifyFields (h : ∀ entry ∈ fields, entry.2.UnifyNaming preserveUnions)
    (hfields : FieldsKnown known fields) :
    Tries FieldsKnown known (unifyFields preserveUnions fields) := by
  induction fields generalizing known with
  | nil => exact .pure hfields
  | cons entry fields ih =>
    obtain ⟨name, schema⟩ := entry
    obtain ⟨hschema, hfields⟩ := List.forall_mem_cons.mp hfields
    obtain ⟨hunify, hrest⟩ := List.forall_mem_cons.mp h
    rw [unifyFields]
    refine (hunify hschema).bind fun known' hsub unified ⟨hunified, _⟩ => ?_
    refine (ih hrest (FieldsKnown.mono hfields hsub)).bind fun known'' hsub' others hothers => .pure ?_
    exact List.forall_mem_cons.mpr ⟨hunified.mono hsub', hothers⟩

theorem tries_unifyShape {shape : ObjectSchema}
    (h : ∀ part ∈ shape.parts, part.UnifyNaming preserveUnions)
    (hparts : ItemsKnown known shape.parts) :
    Tries (fun known unified => ItemsKnown known unified.parts) known
      (shape.unify preserveUnions) := by
  obtain ⟨properties, required, additional, patterns, names⟩ := shape
  obtain ⟨hproperties, hadditional, hpatterns⟩ := ObjectSchema.forall_parts_iff.mp hparts
  obtain ⟨huproperties, huadditional, hupatterns⟩ := ObjectSchema.forall_parts_iff.mp h
  have hundeclared : ∀ {known'}, known ⊆ known' →
      Tries (fun known unified => ∀ value, unified = .schema value → value.NamesOnly known) known'
        (additional.unify preserveUnions) := by
    intro known' hsub
    cases additional with
    | schema value =>
      rw [Additional.unify]
      exact (huadditional value rfl ((hadditional value rfl).mono hsub)).bind
        fun _ _ unified ⟨hunified, _⟩ => .pure fun _ heq => Additional.schema.inj heq ▸ hunified
    | unstated => exact .pure fun _ heq => by cases heq
    | allowed flag => exact .pure fun _ heq => by cases heq
  rw [ObjectSchema.unify]
  refine (tries_unifyFields huproperties hproperties).bind fun known₁ hsub₁ properties' h₁ => ?_
  refine (hundeclared hsub₁).bind fun known₂ hsub₂ additional' h₂ => ?_
  refine (tries_unifyFields hupatterns (FieldsKnown.mono hpatterns (hsub₁.trans hsub₂))).bind
    fun known₃ hsub₃ patterns' h₃ => .pure ?_
  exact ObjectSchema.forall_parts_iff.mpr ⟨FieldsKnown.mono h₁ (hsub₂.trans hsub₃),
    fun value hvalue => (h₂ value hvalue).mono hsub₃, h₃⟩

/-- **Unification is a script, and brings no names but registered ones.**  By induction on the
schema: its parts are unified before they are combined. -/
theorem tries_unify (preserveUnions : Bool) (schema : Schema) :
    schema.UnifyNaming preserveUnions := by
  induction schema using induction_parts with
  | h schema ih =>
    intro known hschema
    obtain ⟨title, description, kind, extra⟩ := schema
    have hparts : ItemsKnown known kind.parts := hschema.parts
    have htitle : ∀ {known' : Set String}, known ⊆ known' → ∀ name, title = some name →
        name ∈ known' := fun hsub name hname => hsub (hschema.own.title name hname)
    -- The title stays, whether the shape is rebuilt or the schema is laid over what it merged to.
    have hkeep : ∀ {known' : Set String} {unified : Kind}, known ⊆ known' →
        unified.refName? = none → ItemsKnown known' unified.parts →
        (⟨title, description, unified, extra⟩ : Schema).NamesOnly known' ∧
          ∀ name, title = some name → title = some name :=
      fun hsub hrefers hunified => ⟨.intro ⟨htitle hsub,
        fun name hname => by rw [hrefers] at hname; cases hname⟩ hunified, fun _ => id⟩
    have hoverlay : ∀ {known' : Set String} {merged : Schema} (composite : Bool), known ⊆ known' →
        merged.NamesOnly known' → (merged.overlay title description extra composite).NamesOnly known' ∧
          ∀ name, title = some name →
            (merged.overlay title description extra composite).title = some name := by
      rintro known' merged composite hsub hmerged
      refine ⟨hmerged.overlay (htitle hsub), ?_⟩
      rintro name rfl
      rfl
    cases kind with
    | allOf parts =>
      rw [unify]
      refine (tries_unifyItems ih hparts).bind fun known' hsub unified hunified => ?_
      refine (Tries.of_outcome fun merged hmerged => namesOnly_intersectAll hunified hmerged).bind
        fun known'' hsub' merged hmerged => .pure (hoverlay _ (hsub.trans hsub') hmerged)
    | anyOf branches =>
      rw [unify]
      split
      · refine (tries_unifyItems ih hparts).bind fun known' hsub unified hunified => .pure ?_
        refine hoverlay _ hsub (Union.namesOnly_ofBranches fun branch hbranch => ?_)
        exact hunified branch (mem_of_mem_distinct hbranch)
      · refine (tries_unifyPayloads ih hparts).bind fun known' hsub unified hunified => ?_
        exact (tries_unitePayloads (ItemsKnown.mono hparts hsub) hunified).bind
          fun known'' hsub' merged hmerged => .pure (hoverlay _ (hsub.trans hsub') hmerged)
    | object shape =>
      rw [unify]
      exact (tries_unifyShape ih hparts).bind fun known' hsub unified hunified =>
        .pure (hkeep hsub rfl hunified)
    | listOf item =>
      rw [unify]
      exact (ih item (List.mem_singleton_self _) (hparts item (List.mem_singleton_self _))).bind
        fun known' hsub unified ⟨hunified, _⟩ =>
          .pure (hkeep hsub rfl (List.forall_mem_singleton.mpr hunified))
    | tuple items =>
      rw [unify]
      exact (tries_unifyItems ih hparts).bind fun known' hsub unified hunified =>
        .pure (hkeep hsub rfl hunified)
    | _ => exact .pure ⟨hschema, fun _ => id⟩

end Schema

end RpcSchema
