import RpcSchema.Proofs.Unification.Classes
import RpcSchema.Proofs.Unification.Elimination
import RpcSchema.Proofs.Unification.Names
import RpcSchema.Proofs.Unification.Wrappers

/-!
# Branches of collapsed unions

A collapse merges what is of one class and puts everything else side by side, so that a union that
it makes has one branch for each class and no union among its branches.  Collapsing the union again
finds the first two branches apart and the others of new classes, and changes nothing.

All of this rests on what meets at a place.  An enumeration that states a type that its values do
not have is not of their class; a primitive type that does not admit a value of its family is put
beside it although both are of one class; and an acknowledgment would be left out the second time.
The invariant of a collapse remembers for each place which schemas stand there, and that what was
merged so far still gets along with all of them.

## Main definitions

* `Kind.Place`, `Schema.placed` — the places of schemas, and what stands there.
* `Schema.Accord` — schemas that get along with each other.
* `Union.Listed` — branches of which no two are of one class.
* `Schema.Tidy` — what a collapse makes of schemas that accord at every place.

## Main results

* `Schema.keepsTidy_unite` — one schema more.
* `Schema.Tidy.unify_eq` — there is nothing to collapse in a tidy schema.
* `combine_any_normalForm` — collapsed unions are in normal form.
-/

namespace RpcSchema

/-! ### Places -/

/-- A place below a shape. -/
inductive Kind.Place
  | property (name : String)
  | pattern (name : String)
  /-- What holds for undeclared properties. -/
  | undeclared
  | items

/-- What stands at a place.  The positions of an array count as none: what stands there is never
merged with anything. -/
def Kind.at? : Kind → Kind.Place → Option Schema
  | .object shape, .property name => Fields.get? shape.properties name
  | .object shape, .pattern name => Fields.get? shape.patterns name
  | .object shape, .undeclared => shape.additional.schema?
  | .listOf item, .items => some item
  | _, _ => none

/-- What stands at a place of some schemas. -/
def Schema.standing (schemas : List Schema) (place : Kind.Place) : List Schema :=
  schemas.filterMap fun schema => schema.kind.at? place

/-- What stands at the end of a path, from place to place. -/
def Schema.placed (schemas : List Schema) (path : List Kind.Place) : List Schema :=
  path.foldl Schema.standing schemas

theorem Additional.eq_schema_of_schema? {additional : Additional} {value : Schema}
    (h : additional.schema? = some value) : additional = .schema value := by
  cases additional with
  | schema _ => exact congrArg _ (Option.some.inj h)
  | _ => cases h

namespace Kind

variable {kind : Kind} {place : Place} {part : Schema}

theorem mem_parts_of_at? (h : kind.at? place = some part) : part ∈ kind.parts := by
  cases kind with
  | object shape =>
    cases place with
    | property name => exact ObjectSchema.mem_parts_of_property (Fields.mem_of_get? h)
    | pattern name => exact ObjectSchema.mem_parts_of_pattern (Fields.mem_of_get? h)
    | undeclared => exact ObjectSchema.mem_parts_of_additional (Additional.eq_schema_of_schema? h)
    | items => cases h
  | listOf item =>
    cases place with
    | items => exact List.mem_singleton.mpr (Option.some.inj h).symm
    | _ => cases h
  | _ => cases place <;> cases h

/-- Parts stand at places, in shapes with distinct names that are neither compositions nor arrays
by position. -/
theorem exists_at?_of_mem_parts (hplain : kind.isComposition = false)
    (htuple : ∀ items, kind ≠ .tuple items)
    (hmaps : ∀ fields ∈ kind.maps, (Fields.keys fields).Nodup) (h : part ∈ kind.parts) :
    ∃ place, kind.at? place = some part := by
  cases kind with
  | object shape =>
    simp only [maps, List.forall_mem_cons] at hmaps
    have hplaces : ∀ part ∈ shape.parts, ∃ place, (Kind.object shape).at? place = some part := by
      refine ObjectSchema.forall_parts_iff.mpr ⟨?_, ?_, ?_⟩
      · rintro ⟨name, part⟩ hmem
        exact ⟨.property name, Fields.get?_of_mem hmaps.1 hmem⟩
      · rintro part hvalue
        exact ⟨.undeclared, by rw [at?, hvalue, Additional.schema?]⟩
      · rintro ⟨name, part⟩ hmem
        exact ⟨.pattern name, Fields.get?_of_mem hmaps.2.1 hmem⟩
    exact hplaces part h
  | listOf item => exact ⟨.items, congrArg some (List.mem_singleton.mp h).symm⟩
  | tuple items => exact absurd rfl (htuple items)
  | allOf _ | anyOf _ => cases hplain
  | _ => exact absurd h List.not_mem_nil

end Kind

/-! ### Schemas that get along with each other -/

namespace Schema

/-- A schema that gets along with some others: it is no acknowledgment, its enumeration is honest,
and primitive types on either side admit what is spelled out of their families on the other. -/
structure Fits (pool : List Schema) (schema : Schema) : Prop where
  payload : schema.isAcknowledgment = false
  honest : schema.kind.isHonest = true
  covers : ∀ other ∈ pool, schema.kind.covers other.kind = true
  covered : ∀ other ∈ pool, other.kind.covers schema.kind = true

/-- Each of some schemas gets along with the others. -/
def Accord (schemas : List Schema) : Prop := ∀ schema ∈ schemas, schema.Fits schemas

instance (pool : List Schema) (schema : Schema) : Decidable (schema.Fits pool) :=
  decidable_of_iff (schema.isAcknowledgment = false ∧ schema.kind.isHonest = true ∧
      (∀ other ∈ pool, schema.kind.covers other.kind = true) ∧
        ∀ other ∈ pool, other.kind.covers schema.kind = true)
    ⟨fun ⟨payload, honest, covers, covered⟩ => ⟨payload, honest, covers, covered⟩,
      fun h => ⟨h.payload, h.honest, h.covers, h.covered⟩⟩

instance : DecidablePred Accord := fun schemas =>
  inferInstanceAs (Decidable (∀ schema ∈ schemas, schema.Fits schemas))

variable {schemas others pool : List Schema} {a b schema part : Schema} {kind : Kind}
  {place : Kind.Place}

theorem Accord.of_subset (h : Accord others) (hsubset : schemas ⊆ others) : Accord schemas := by
  intro schema hschema
  have hfits := h schema (hsubset hschema)
  exact ⟨hfits.payload, hfits.honest, fun other hother => hfits.covers other (hsubset hother),
    fun other hother => hfits.covered other (hsubset hother)⟩

theorem mem_standing : part ∈ standing schemas place ↔
    ∃ schema ∈ schemas, schema.kind.at? place = some part :=
  List.mem_filterMap

theorem all_standing_subset (schemas : List Schema) (place : Kind.Place) :
    (standing schemas place).flatMap all ⊆ schemas.flatMap all := by
  intro inner hinner
  obtain ⟨part, hpart, hinner⟩ := List.mem_flatMap.mp hinner
  obtain ⟨schema, hschema, hat⟩ := mem_standing.mp hpart
  refine List.mem_flatMap.mpr ⟨schema, hschema, ?_⟩
  have hbelow : inner ∈ schema.kind.all := by
    rw [Kind.all_eq]
    exact List.mem_flatMap.mpr ⟨part, Kind.mem_parts_of_at? hat, hinner⟩
  obtain ⟨title, description, kind, extra⟩ := schema
  exact List.mem_cons_of_mem _ hbelow

theorem self_mem_all (schema : Schema) : schema ∈ schema.all := by
  obtain ⟨title, description, kind, extra⟩ := schema
  exact List.mem_cons_self ..

/-- What accords without regard to places accords at every place. -/
theorem Accord.placed (h : Accord (schemas.flatMap all)) (path : List Kind.Place) :
    Accord (placed schemas path) := by
  induction path generalizing schemas with
  | nil =>
    exact h.of_subset fun schema hschema => List.mem_flatMap.mpr ⟨schema, hschema, schema.self_mem_all⟩
  | cons place path ih => exact ih (h.of_subset (all_standing_subset schemas place))

/-! ### What fits after a merge -/

theorem isAcknowledgment_eq_false_iff : schema.isAcknowledgment = false ↔
    schema.title ≠ some acknowledgmentName ∧
      ∀ reference, schema.kind = .ref reference → Reference.name reference ≠ acknowledgmentName := by
  obtain ⟨title, description, kind, extra⟩ := schema
  cases kind <;> simp [isAcknowledgment]

/-- Merging makes no acknowledgment. -/
theorem isAcknowledgment_joined (ha : a.isAcknowledgment = false) (hb : b.isAcknowledgment = false)
    (extra : Fields Json) (hkind : ∀ reference, kind = .ref reference →
      a.kind = .ref reference ∨ b.kind = .ref reference) :
    (a.joined b extra kind).isAcknowledgment = false := by
  rw [isAcknowledgment_eq_false_iff] at ha hb ⊢
  refine ⟨fun htitle => ?_, fun reference heq => ?_⟩
  · rcases Option.or_eq_some_iff.mp htitle with htitle | ⟨-, htitle⟩
    · exact hb.1 htitle
    · exact ha.1 htitle
  · exact (hkind reference heq).elim (ha.2 reference) (hb.2 reference)

/-- A shape that is no scalar gets along with everything. -/
theorem Fits.of_form? (hpayload : schema.isAcknowledgment = false)
    (hscalar : schema.kind.form? ≠ some .scalar) : schema.Fits pool where
  payload := hpayload
  honest := Kind.isHonest_of_form? hscalar
  covers other _ := Kind.covers_of_form? hscalar other.kind
  covered other _ := Kind.covers_of_family? other.kind (Kind.family?_eq_none hscalar)

/-- What is kept of two shapes fits where both do. -/
theorem Fits.joined (ha : a.Fits pool) (hb : b.Fits pool) (hnames : b.NamesApart)
    (h : Kind.Keeps a.kind b.kind kind) (extra : Fields Json) : (a.joined b extra kind).Fits pool := by
  have hpayload : (a.joined b extra kind).isAcknowledgment = false := by
    refine isAcknowledgment_joined ha.payload hb.payload extra fun reference heq => ?_
    cases h with
    | left => exact .inl heq
    | right => exact .inr heq
    | literals _ _ => cases heq
  cases h with
  | left => exact ⟨hpayload, ha.honest, ha.covers, ha.covered⟩
  | right => exact ⟨hpayload, hb.honest, hb.covers, hb.covered⟩
  | literals hk hl =>
    refine ⟨hpayload, Kind.isHonest_enumOf _, fun _ _ => rfl, fun other hother => ?_⟩
    exact Kind.covers_enumOf hk hl ha.honest hb.honest hnames.literals (ha.covered other hother)
      (hb.covered other hother)

end Schema

/-! ### References that are hidden -/

/-- No wrapper goes by the name of the acknowledgment: it would need a letter that is not in
there. -/
theorem candidate_wrapperName_ne (x y : String) (index : Nat) :
    Registry.candidate (wrapperName x y) index ≠ acknowledgmentName := by
  have hletter : 'O' ∈ (wrapperName x y).toList ∨ 'U' ∈ (wrapperName x y).toList := by
    unfold wrapperName
    dsimp only
    split
    · left
      simp only [String.toList_append, List.mem_append]
      exact .inl (.inr (by decide))
    · right
      rw [String.toList_append, List.mem_append]
      exact .inr (by decide)
  have hsubset : (wrapperName x y).toList ⊆ (Registry.candidate (wrapperName x y) index).toList := by
    rcases Registry.candidate_form (wrapperName x y) index with heq | ⟨number, -, heq⟩
    · rw [heq]
      exact List.Subset.refl _
    · rw [heq, String.toList_append]
      exact List.subset_append_left _ _
  intro heq
  rw [heq] at hsubset
  exact hletter.elim (fun h => absurd (hsubset h) (by decide)) fun h => absurd (hsubset h) (by decide)

/-- Hiding two references makes no acknowledgment. -/
theorem ensures_wrapReferences (x y : String) :
    (wrapReferences x y).Ensures fun m => ∃ name, m = Schema.registered name ∧
      m.isAcknowledgment = false := by
  intro registry m registry' hrun
  rw [run_wrapReferences] at hrun
  obtain ⟨index, hslot, -⟩ := registry.settles_slot (wrapperName x y) (Schema.wrapper x y)
  have hname : (registry.insert (wrapperName x y) (Schema.wrapper x y)).1 =
      Registry.candidate (wrapperName x y) index := (Registry.insert_fst ..).trans hslot
  obtain rfl := Except.ok.inj (Prod.mk.inj hrun).1
  refine ⟨_, rfl, ?_⟩
  have hne := candidate_wrapperName_ne x y index
  rw [hname, Schema.isAcknowledgment_eq_false_iff]
  refine ⟨fun htitle => hne (Option.some.inj htitle), fun reference href => ?_⟩
  obtain rfl := Kind.ref.inj href
  rw [Reference.name_toComponent (slash_notMem_candidate (slash_notMem_wrapperName x y) index)]
  exact hne

/-! ### Branches of different classes -/

namespace Union

/-- Branches of a union in normal form: the first two are apart, no one is a union itself, and no
two are of one class. -/
structure Listed (branches : List Schema) : Prop where
  apart : ∃ first second rest, branches = first :: second :: rest ∧ first.kind.Apart second.kind
  formed : ∀ branch ∈ branches, ∃ form, branch.kind.form? = some form
  classes : branches.Pairwise fun a b => a.sameClass b = false

namespace Listed

variable {branches before after : List Schema} {a b branch schema m : Schema}

theorem pair (h : a.kind.Apart b.kind) (hclass : a.sameClass b = false) : Listed [a, b] where
  apart := ⟨a, b, [], rfl, h⟩
  formed := List.forall_mem_cons.mpr ⟨h.form?, List.forall_mem_singleton.mpr h.symm.form?⟩
  classes := List.pairwise_pair.mpr hclass

/-- A branch of a new class. -/
theorem append (h : Listed branches) (hform : ∃ form, schema.kind.form? = some form)
    (hclass : ∀ branch ∈ branches, branch.sameClass schema = false) :
    Listed (branches ++ [schema]) where
  apart := by
    obtain ⟨first, second, rest, rfl, hapart⟩ := h.apart
    exact ⟨first, second, rest ++ [schema], rfl, hapart⟩
  formed := List.forall_mem_append.mpr ⟨h.formed, List.forall_mem_singleton.mpr hform⟩
  classes := by
    refine List.pairwise_append.mpr ⟨h.classes, List.pairwise_singleton _ _, fun branch hbranch => ?_⟩
    exact List.forall_mem_singleton.mpr (hclass branch hbranch)

theorem isComposition_eq_false (h : Listed branches) (hbranch : branch ∈ branches) :
    branch.kind.isComposition = false := by
  obtain ⟨form, hform⟩ := h.formed branch hbranch
  exact Kind.isComposition_of_form? hform

/-- A branch that takes the place of another one. -/
theorem replace (h : Listed (before ++ branch :: after)) (hclass : branch.sameClass schema = true)
    (hsucceeds : branch.kind.Succeeds m.kind)
    (hhonest : ∀ other ∈ before ++ branch :: after, other.kind.isHonest = true) :
    Listed (before ++ m :: after) := by
  obtain ⟨hbefore, hlater, hacross⟩ := List.pairwise_append.mp h.classes
  obtain ⟨hbranch, hafter⟩ := List.pairwise_cons.mp hlater
  -- The others were compared with the old branch; its successor is in no other class.
  have hdiffers : ∀ other : Schema, branch.sameClass other = false → m.sameClass other = false := by
    intro other hother
    rw [Bool.eq_false_iff, ne_eq, Schema.sameClass_iff] at hother ⊢
    rintro ⟨c, hm, hc⟩
    exact hother ⟨c, hsucceeds.sameClass c hm, hc⟩
  have hapart : ∀ other ∈ before ++ branch :: after, branch.sameClass other = false →
      branch.kind.Apart other.kind → m.kind.Apart other.kind := by
    intro other hother hclass' happart
    obtain ⟨c, hc, -⟩ := Schema.sameClass_iff.mp hclass
    refine hsucceeds.apart other.kind (hhonest other hother) happart fun heq => ?_
    exact Bool.eq_false_iff.mp hclass' (Schema.sameClass_iff.mpr ⟨c, hc, heq.trans hc⟩)
  obtain ⟨hformed, hformed'⟩ := List.forall_mem_append.mp h.formed
  obtain ⟨⟨form, hform⟩, hformed'⟩ := List.forall_mem_cons.mp hformed'
  refine ⟨?_, ?_, ?_⟩
  · obtain ⟨first, second, rest, heq, hfirst⟩ := h.apart
    cases before with
    | nil =>
      obtain ⟨rfl, rfl⟩ := List.cons.inj heq
      refine ⟨m, second, rest, rfl, hapart second ?_ (hbranch second (List.mem_cons_self ..)) hfirst⟩
      exact List.mem_cons_of_mem _ (List.mem_cons_self ..)
    | cons other before =>
      obtain ⟨rfl, htail⟩ := List.cons.inj heq
      cases before with
      | nil =>
        obtain ⟨rfl, rfl⟩ := List.cons.inj htail
        have hclass' : branch.sameClass other = false := by
          rw [Schema.sameClass_comm]
          exact hacross other (List.mem_singleton_self _) branch (List.mem_cons_self ..)
        exact ⟨other, m, _, rfl, (hapart other (List.mem_cons_self ..) hclass' hfirst.symm).symm⟩
      | cons next before =>
        obtain ⟨rfl, -⟩ := List.cons.inj htail
        exact ⟨other, next, before ++ m :: after, rfl, hfirst⟩
  · exact List.forall_mem_append.mpr ⟨hformed,
      List.forall_mem_cons.mpr ⟨⟨form, hsucceeds.sameForm.trans hform⟩, hformed'⟩⟩
  · refine List.pairwise_append.mpr ⟨hbefore, List.pairwise_cons.mpr
      ⟨fun other hother => hdiffers other (hbranch other hother), hafter⟩, fun other hother => ?_⟩
    obtain ⟨hlast, hrest⟩ := List.forall_mem_cons.mp (hacross other hother)
    rw [Schema.sameClass_comm] at hlast
    refine List.forall_mem_cons.mpr ⟨?_, hrest⟩
    rw [Schema.sameClass_comm]
    exact hdiffers other hlast

theorem ofBranches_eq (h : Listed branches) : ofBranches branches = .ofKind (.anyOf branches) := by
  obtain ⟨first, second, rest, rfl, -⟩ := h.apart
  rfl

end Listed

/-! ### What stands at the places of a merged shape -/

/-- What stands at a place of the third shape stands there in one of the other two, or was merged
from both. -/
def PlacedBy (r : Schema → Schema → Schema → Prop) (k l kind : Kind) : Prop :=
  ∀ place m, kind.at? place = some m → k.at? place = some m ∨ l.at? place = some m ∨
    ∃ a b, k.at? place = some a ∧ l.at? place = some b ∧ r a b m

variable {r : Schema → Schema → Schema → Prop} {k l kind : Kind}

theorem placedBy_keeps (h : Kind.Keeps k l kind) : PlacedBy r k l kind := by
  intro place m hm
  cases h with
  | left => exact .inl hm
  | right => exact .inr (.inl hm)
  | literals _ _ => cases place <;> cases hm

theorem placedBy_items {a b m : Schema} (h : r a b m) :
    PlacedBy r (.listOf a) (.listOf b) (.listOf m) := by
  intro place item hitem
  cases place with
  | items =>
    obtain rfl := Option.some.inj hitem
    exact .inr (.inr ⟨a, b, rfl, rfl, h⟩)
  | _ => cases hitem

theorem placedBy_objects {x y shape : ObjectSchema} (h : ObjectOf r x y shape) :
    PlacedBy r (.object x) (.object y) (.object shape) := by
  have hblend : ∀ {left right result : Fields Schema} {name : String} {m : Schema},
      Blended r left right result → Fields.get? result name = some m →
        Fields.get? left name = some m ∨ Fields.get? right name = some m ∨
          ∃ a b, Fields.get? left name = some a ∧ Fields.get? right name = some b ∧ r a b m := by
    intro left right result name m h hm
    have hname := h.blend name
    rw [hm] at hname
    exact hname.cases_some
  intro place m hm
  cases place with
  | property name => exact hblend h.properties hm
  | pattern name => exact hblend h.patterns hm
  | items => cases hm
  | undeclared =>
    have hvalue : ∀ {additional : Additional} {value : Schema}, additional = .schema value →
        additional.schema? = some value := by
      rintro _ value rfl
      rfl
    rcases h.additional m (Additional.eq_schema_of_schema? hm) with hx | hy | ⟨a, b, hx, hy, hr⟩
    · exact .inl (hvalue hx)
    · exact .inr (.inl (hvalue hy))
    · exact .inr (.inr ⟨a, b, hvalue hx, hvalue hy, hr⟩)

end Union

/-! ### Tidy schemas -/

namespace Schema

/-- What a collapse makes of schemas without compositions.  The list holds all schemas that stand
where this one stands.  Nothing is said of the places at which they do not accord. -/
inductive Tidy : List Schema → Schema → Prop
  | plain {pool : List Schema} {schema : Schema} (hplain : schema.kind.isComposition = false)
      (hfits : schema.Fits pool)
      (hplaces : ∀ place part, schema.kind.at? place = some part → Accord (standing pool place) →
        Tidy (standing pool place) part)
      (hitems : ∀ items, schema.kind = .tuple items → ∀ item ∈ items, item.unify false = pure item) :
      Tidy pool schema
  | union {pool : List Schema} {schema : Schema} {branches : List Schema}
      (hkind : schema.kind = .anyOf branches) (hlisted : Union.Listed branches)
      (hbranches : ∀ branch ∈ branches, Tidy pool branch) : Tidy pool schema

/-- Schemas without compositions that accord. -/
structure Mergeable (pool : List Schema) : Prop where
  names : ∀ schema ∈ pool, schema.DistinctNames
  plain : ∀ schema ∈ pool, schema.Every fun inner => inner.kind.isComposition = false
  accord : Accord pool

variable {pool branches : List Schema} {a b schema : Schema} {kind : Kind} {place : Kind.Place}

/-- A tidy schema that is no union. -/
theorem Tidy.of_plain (h : schema.Tidy pool) (hplain : schema.kind.isComposition = false) :
    schema.Fits pool ∧ (∀ place part, schema.kind.at? place = some part →
        Accord (standing pool place) → part.Tidy (standing pool place)) ∧
      ∀ items, schema.kind = .tuple items → ∀ item ∈ items, item.unify false = pure item := by
  cases h with
  | plain _ hfits hplaces hitems => exact ⟨hfits, hplaces, hitems⟩
  | union hkind _ _ =>
    rw [hkind] at hplain
    cases hplain

/-- What stands below mergeable schemas is mergeable, if it accords. -/
theorem Mergeable.standing (h : Mergeable pool) (haccord : Accord (standing pool place)) :
    Mergeable (standing pool place) where
  names part hpart := by
    obtain ⟨schema, hschema, hat⟩ := mem_standing.mp hpart
    exact (h.names schema hschema).parts part (Kind.mem_parts_of_at? hat)
  plain part hpart := by
    obtain ⟨schema, hschema, hat⟩ := mem_standing.mp hpart
    exact (h.plain schema hschema).parts part (Kind.mem_parts_of_at? hat)
  accord := haccord

/-- Without compositions there is nothing to work out. -/
theorem unify_eq_pure_of_plain (hnames : schema.DistinctNames)
    (hplain : schema.Every fun inner => inner.kind.isComposition = false) :
    schema.unify false = pure schema := by
  refine unify_eq_pure hnames (hplain.mono fun inner hinner => ?_)
  obtain ⟨title, description, kind, extra⟩ := inner
  cases kind with
  | allOf _ | anyOf _ => cases hinner
  | _ => exact trivial

/-- Each of the schemas is tidy to begin with. -/
theorem Mergeable.tidy (h : Mergeable pool) (hmem : schema ∈ pool) : schema.Tidy pool := by
  induction schema using Schema.induction_parts generalizing pool with
  | h schema ih =>
    have hnames := h.names schema hmem
    have hplain := h.plain schema hmem
    refine .plain hplain.own (h.accord schema hmem) (fun place part hat haccord => ?_)
      fun items hkind item hitem => ?_
    · exact ih part (Kind.mem_parts_of_at? hat) (h.standing haccord)
        (mem_standing.mpr ⟨schema, hmem, hat⟩)
    · have hpart : item ∈ schema.kind.parts := by
        rw [hkind]
        exact hitem
      exact unify_eq_pure_of_plain (hnames.parts item hpart) (hplain.parts item hpart)

end Schema

/-! ### Merging one schema more -/

namespace Union

open Schema (Mergeable Tidy Accord standing)

variable {pool branches : List Schema} {a b : Schema} {kind : Kind}
  {merge : Schema → Schema → Unifying Schema}

/-- Merging with one of several schemas that accord leaves what is tidy tidy. -/
def KeepsTidy (merge : Schema → Schema → Unifying Schema) (b : Schema) : Prop :=
  ∀ (a : Schema) (pool : List Schema), a.DistinctNames → Mergeable pool → b ∈ pool → a.Tidy pool →
    (merge a b).Ensures (Tidy pool)

/-- A merge is tidy wherever both schemas stand. -/
theorem KeepsTidy.ensures (h : KeepsTidy merge b) (ha : a.DistinctNames) :
    (merge a b).Ensures fun m => ∀ pool, Mergeable pool → b ∈ pool → a.Tidy pool → m.Tidy pool :=
  fun registry m registry' hrun pool hpool hb htidy =>
    h a pool ha hpool hb htidy registry m registry' hrun

/-- What stands below a tidy schema and one that is merged with it, and what was merged there. -/
theorem PlacedBy.tidy (h : PlacedBy (fun a b m => ∀ pool, Mergeable pool → b ∈ pool →
      a.Tidy pool → m.Tidy pool) a.kind b.kind kind)
    (hpool : Mergeable pool) (hb : b ∈ pool) (ha : a.Tidy pool)
    (hplain : a.kind.isComposition = false) :
    ∀ place part, kind.at? place = some part → Accord (standing pool place) →
      part.Tidy (standing pool place) := by
  obtain ⟨-, hleft, -⟩ := ha.of_plain hplain
  intro place part hpart haccord
  have hright : ∀ other, b.kind.at? place = some other → other ∈ standing pool place :=
    fun other hat => Schema.mem_standing.mpr ⟨b, hb, hat⟩
  have hbelow := hpool.standing haccord
  rcases h place part hpart with hx | hy | ⟨x, y, hx, hy, hmerged⟩
  · exact hleft place part hx haccord
  · exact hbelow.tidy (hright part hy)
  · exact hmerged _ hbelow (hright y hy) (hleft place x hx haccord)

/-- **Merging what is no union** with one of several schemas that accord. -/
theorem ensures_tidy_combine (hpool : Mergeable pool) (hb : b ∈ pool) (ha : a.Tidy pool)
    (hnames : a.DistinctNames) (hplain : a.kind.isComposition = false)
    (hmerge : ∀ part ∈ b.kind.parts, KeepsTidy merge part) :
    (combine merge a b).Ensures (Tidy pool) := by
  have hnames' := hpool.names b hb
  have hplain' : b.kind.isComposition = false := (hpool.plain b hb).own
  obtain ⟨hfits, -, hitems⟩ := ha.of_plain hplain
  obtain ⟨hfits', -, hitems'⟩ := (hpool.tidy hb).of_plain hplain'
  have hpayload : ∀ {kind : Kind}, (∀ reference, kind ≠ .ref reference) →
      (a.joined b (a.agreedExtra b) kind).isAcknowledgment = false := fun hkind =>
    Schema.isAcknowledgment_joined hfits.payload hfits'.payload _ fun reference heq =>
      absurd heq (hkind reference)
  have hunion : ∀ {schema : Schema} {branches : List Schema},
      schema.kind.isComposition = false → schema.kind ≠ .anyOf branches := by
    rintro schema branches hplain heq
    rw [heq] at hplain
    cases hplain
  -- Neither side is a union, so there are no branches to join.
  cases course hnames.own hnames'.own with
  | @keep kind hkeeps heq =>
    rw [heq]
    refine .pure (.plain (hkeeps.isComposition hplain hplain')
      (hfits.joined hfits' hnames'.own hkeeps _)
      ((placedBy_keeps hkeeps).tidy hpool hb ha hplain) fun items hkind => ?_)
    replace hkind : kind = .tuple items := hkind
    cases hkeeps with
    | left => exact hitems items hkind
    | right => exact hitems' items hkind
    | literals _ _ => cases hkind
  | apart heq =>
    have hapart := apart_of_combine_eq hplain hplain' heq
    have hclass : a.sameClass b = false := by
      rw [Bool.eq_false_iff, ne_eq, Schema.sameClass_iff]
      rintro ⟨c, hc, hc'⟩
      exact hapart.class?_ne (hfits.covers b hb) (hfits.covered b hb) hc hc'
    rw [heq]
    refine .pure (.union rfl (.pair hapart hclass) ?_)
    exact List.forall_mem_cons.mpr ⟨ha, List.forall_mem_singleton.mpr (hpool.tidy hb)⟩
  | branches hsides heq =>
    cases hsides with
    | both ha' _ | left ha' => exact absurd ha' (hunion hplain)
    | right hb' => exact absurd hb' (hunion hplain')
  | references _ _ heq =>
    rw [heq]
    refine (ensures_wrapReferences _ _).mono ?_
    rintro _ ⟨name, rfl, hpayload⟩
    refine .plain rfl (.of_form? hpayload (by rintro ⟨⟩)) (fun place part hat => ?_) (by rintro _ ⟨⟩)
    cases place <;> cases hat
  | @objects x y hx hy heq =>
    have hmaps := hnames.own.maps
    have hmaps' := hnames'.own.maps
    have hparts := hnames.parts_of_kind_eq hx
    rw [hx] at hmaps
    rw [hy] at hmaps' hmerge
    rw [heq]
    refine .bind (Unifying.judgement_ensures.objects hmaps hmaps' fun s hs t ht =>
      (hmerge t ht).ensures (hparts s hs)) fun shape hshape => .pure ?_
    exact .plain rfl (.of_form? (hpayload (by rintro _ ⟨⟩)) (by rintro ⟨⟩))
      (PlacedBy.tidy (hx ▸ hy ▸ placedBy_objects hshape) hpool hb ha hplain)
      (by rintro _ ⟨⟩)
  | @items x y hx hy heq =>
    have hitem : y ∈ b.kind.parts := by
      rw [hy]
      exact List.mem_singleton_self _
    rw [heq]
    refine .bind ((hmerge y hitem).ensures (hnames.item hx)) fun item hitem => .pure ?_
    exact .plain rfl (.of_form? (hpayload (by rintro _ ⟨⟩)) (by rintro ⟨⟩))
      (PlacedBy.tidy (hx ▸ hy ▸ placedBy_items hitem) hpool hb ha hplain)
      (by rintro _ ⟨⟩)
  | tuples _ heq =>
    rw [heq]
    exact .throw _

/-- A shape that can be a branch goes into the branches of a union. -/
theorem combine_anyOf_of_form? {form : Kind.Form} (ha : a.kind = .anyOf branches)
    (hb : b.kind.form? = some form) : combine merge a b =
      joinBranch merge b branches >>= fun joined => pure (ofBranches joined) := by
  have hcombine : combine merge a b = joinBranches merge branches [b] := by
    obtain ⟨title, description, k, extra⟩ := a
    obtain ⟨title', description', l, extra'⟩ := b
    obtain rfl : k = .anyOf branches := ha
    cases l with
    | anyOf _ | allOf _ | empty | never => cases hb
    | _ => rfl
  rw [hcombine, joinBranches, List.foldlM_cons]
  simp only [List.foldlM_nil, bind_pure]

/-- Any other shape drops out of a union. -/
theorem combine_anyOf_of_form?_eq_none (ha : a.kind = .anyOf branches)
    (hplain : b.kind.isComposition = false) (hb : b.kind.form? = none) :
    combine merge a b = pure (a.joined b (a.agreedExtra b) a.kind) := by
  obtain ⟨title, description, k, extra⟩ := a
  obtain ⟨title', description', l, extra'⟩ := b
  obtain rfl : k = .anyOf branches := ha
  cases l with
  | never | empty => rfl
  | anyOf _ | allOf _ => cases hplain
  | _ => cases hb

end Union

namespace Schema

variable {pool : List Schema} {a b first schema : Schema} {rest : List Schema}

/-- What a schema of the class of a branch makes of the branch takes its place. -/
theorem ensures_succeeds_unite (hclass : a.sameClass b = true) (hnames : a.DistinctNames)
    (hnames' : b.DistinctNames) (hfits : a.Fits pool) (hb : b ∈ pool) (hfits' : b.Fits pool) :
    (a.unite b).Ensures fun m => a.kind.Succeeds m.kind := by
  rw [unite_eq hnames hnames']
  split
  · exact .pure (.refl _)
  · exact ensures_succeeds hclass hnames.own hnames'.own hfits.honest hfits'.honest
      (hfits.covers b hb) (hfits.covered b hb) unite

/-- **One schema more** leaves a collapse tidy, if all of its schemas accord. -/
theorem keepsTidy_unite (b : Schema) : Union.KeepsTidy unite b := by
  induction b using Schema.induction_parts with
  | h b ih =>
    -- This serves for a schema that is no union, and for the branch of a union that is merged.
    have hplain : ∀ (a : Schema) (pool : List Schema), a.kind.isComposition = false →
        a.DistinctNames → Mergeable pool → b ∈ pool → a.Tidy pool →
          (a.unite b).Ensures (Tidy pool) := by
      intro a pool hplain hnames hpool hb ha
      rw [unite_eq hnames (hpool.names b hb)]
      split
      · exact .pure ha
      · exact Union.ensures_tidy_combine hpool hb ha hnames hplain ih
    intro a pool hnames hpool hb ha
    cases ha with
    | plain hplain' hfits hplaces hitems =>
      exact hplain a pool hplain' hnames hpool hb (.plain hplain' hfits hplaces hitems)
    | @union _ _ branches hkind hlisted hbranches =>
      have hnames' := hpool.names b hb
      have hinner : ∀ branch ∈ branches, branch.DistinctNames ∧ branch.kind.isComposition = false ∧
          branch.Fits pool := by
        intro branch hbranch
        have hcomposition := hlisted.isComposition_eq_false hbranch
        refine ⟨hnames.parts_of_kind_eq hkind branch hbranch, hcomposition, ?_⟩
        exact ((hbranches branch hbranch).of_plain hcomposition).1
      rw [unite_eq hnames hnames']
      split
      · exact .pure (.union hkind hlisted hbranches)
      cases hform : b.kind.form? with
      | none =>
        rw [Union.combine_anyOf_of_form?_eq_none hkind (hpool.plain b hb).own hform]
        exact .pure (.union hkind hlisted hbranches)
      | some form =>
        rw [Union.combine_anyOf_of_form? hkind hform]
        refine .bind (Unifying.judgement_ensures.joinBranch (r := fun branch _ m =>
          branch.kind.Succeeds m.kind ∧ m.Tidy pool) fun branch hbranch hclass => ?_)
            fun joined hjoined => .pure ?_
        · obtain ⟨hdistinct, hcomposition, hfits⟩ := hinner branch hbranch
          have hsucceeds := ensures_succeeds_unite hclass hdistinct hnames' hfits hb
            (hpool.accord b hb)
          have htidy := hplain branch pool hcomposition hdistinct hpool hb (hbranches branch hbranch)
          exact hsucceeds.and htidy
        · have hall : ∀ branch ∈ joined, branch.Tidy pool :=
            hjoined.forall_mem hbranches (hpool.tidy hb) fun _ _ _ _ _ hm => hm.2
          have hlisted' : Union.Listed joined := by
            cases hjoined with
            | appended hclass => exact hlisted.append ⟨form, hform⟩ hclass
            | merged _ hclass hm =>
              exact hlisted.replace hclass hm.1 fun other hother => (hinner other hother).2.2.honest
          rw [hlisted'.ofBranches_eq]
          exact .union rfl hlisted' hall

/-- **A collapse is tidy.** -/
theorem ensures_tidy_uniteAll (hpool : Mergeable pool) (hnames : first.DistinctNames)
    (hfirst : first.Tidy pool) (hrest : ∀ schema ∈ rest, schema ∈ pool) :
    (uniteAll first rest).Ensures fun m => m.DistinctNames ∧ m.Tidy pool := by
  induction rest generalizing first with
  | nil => exact .pure ⟨hnames, hfirst⟩
  | cons next rest ih =>
    obtain ⟨hnext, hrest⟩ := List.forall_mem_cons.mp hrest
    have hkept : (first.unite next).Ensures fun m => m.DistinctNames :=
      Unifying.Ensures.mono (frugal_uniteWithin Union.closed_namesApart (first.atoms + next.atoms + 2)
        first next hnames (hpool.names next hnext)) fun _ hm => hm.1
    have htidy := keepsTidy_unite next first pool hnames hpool hnext hfirst
    exact (hkept.and htidy).bind fun m hm => ih hm.1 hm.2 hrest

/-! ### Collapsing again -/

/-- Schemas that are apart make a union. -/
theorem unite_of_apart (hnames : a.DistinctNames) (hnames' : b.DistinctNames)
    (h : a.kind.Apart b.kind) : a.unite b = pure (ofKind (.anyOf [a, b])) := by
  have hne : ¬(a == b) = true := fun heq => h.not_alike (beq_iff.mp heq).2.2.1
  rw [unite_eq hnames hnames', if_neg hne, Union.combine_of_apart h]

/-- A branch of a new class is put behind the others. -/
theorem unite_listed {branches : List Schema} {branch : Schema} (hlisted : Union.Listed branches)
    (hnames : ∀ branch ∈ branches, branch.DistinctNames) (hnames' : branch.DistinctNames)
    (hform : ∃ form, branch.kind.form? = some form)
    (hclass : ∀ other ∈ branches, other.sameClass branch = false) :
    (ofKind (.anyOf branches)).unite branch = pure (ofKind (.anyOf (branches ++ [branch]))) := by
  have hunion : (ofKind (.anyOf branches)).DistinctNames := .intro (.ofKind rfl rfl) hnames
  have hne : ¬(ofKind (.anyOf branches) == branch) = true := by
    intro heq
    obtain ⟨form, hform⟩ := hform
    obtain ⟨title, description, kind, extra⟩ := branch
    cases (beq_iff.mp heq).2.2.1 with
    | anyOf _ => cases hform
  have hjoined : ∀ others : List Schema, (∀ other ∈ others, other.sameClass branch = false) →
      Union.joinBranch unite branch others = pure (others ++ [branch]) := by
    intro others hothers
    induction others with
    | nil => rfl
    | cons other others ih =>
      obtain ⟨hother, hothers⟩ := List.forall_mem_cons.mp hothers
      rw [Union.joinBranch, hother, if_neg Bool.false_ne_true, ih hothers, pure_bind, List.cons_append]
  obtain ⟨form, hform'⟩ := hform
  rw [unite_eq hunion hnames', if_neg hne, Union.combine_anyOf_of_form? rfl hform',
    hjoined branches hclass, pure_bind, (hlisted.append ⟨form, hform'⟩ hclass).ofBranches_eq]

/-- Branches in normal form are put behind each other. -/
theorem foldlM_unite_listed {done : List Schema} (hdone : Union.Listed done)
    (hlisted : Union.Listed (done ++ rest))
    (hnames : ∀ branch ∈ done ++ rest, branch.DistinctNames) :
    rest.foldlM unite (ofKind (.anyOf done)) = pure (ofKind (.anyOf (done ++ rest))) := by
  induction rest generalizing done with
  | nil => rw [List.foldlM_nil, List.append_nil]
  | cons branch rest ih =>
    obtain ⟨hdone', hrest⟩ := List.forall_mem_append.mp hnames
    have hform := hlisted.formed branch (List.mem_append_right _ (List.mem_cons_self ..))
    have hclass : ∀ other ∈ done, other.sameClass branch = false := fun other hother =>
      (List.pairwise_append.mp hlisted.classes).2.2 other hother branch (List.mem_cons_self ..)
    have hassoc : done ++ branch :: rest = (done ++ [branch]) ++ rest := by
      rw [List.append_assoc, List.singleton_append]
    rw [List.foldlM_cons, unite_listed hdone hdone' (hrest branch (List.mem_cons_self ..)) hform hclass,
      pure_bind, hassoc]
    exact ih (hdone.append hform hclass) (hassoc ▸ hlisted) (hassoc ▸ hnames)

/-- **Branches in normal form make the same union again.** -/
theorem uniteAll_listed (hlisted : Union.Listed (first :: rest))
    (hnames : ∀ branch ∈ first :: rest, branch.DistinctNames) :
    uniteAll first rest = pure (ofKind (.anyOf (first :: rest))) := by
  obtain ⟨a, b, others, heq, hapart⟩ := hlisted.apart
  obtain ⟨rfl, rfl⟩ := List.cons.inj heq
  obtain ⟨hfirst, hrest⟩ := List.forall_mem_cons.mp hnames
  have hclass : first.sameClass b = false :=
    (List.pairwise_cons.mp hlisted.classes).1 b (List.mem_cons_self ..)
  rw [uniteAll, List.foldlM_cons, unite_of_apart hfirst (hrest b (List.mem_cons_self ..)) hapart,
    pure_bind]
  have hpair : Union.Listed [first, b] := .pair hapart hclass
  exact foldlM_unite_listed hpair hlisted hnames

/-- **There is nothing to collapse in a tidy schema**, if what it was made of accords at every
place. -/
theorem Tidy.unify_eq (h : schema.Tidy pool) (hnames : schema.DistinctNames)
    (haccord : ∀ path, Accord (placed pool path)) : schema.unify false = pure schema := by
  induction h with
  | @plain pool schema hplain hfits hplaces hitems ih =>
    refine unify_eq_pure_of_parts hplain fun part hpart => ?_
    by_cases htuple : ∃ items, schema.kind = .tuple items
    · obtain ⟨items, hkind⟩ := htuple
      rw [hkind] at hpart
      exact hitems items hkind part hpart
    · obtain ⟨place, hat⟩ := Kind.exists_at?_of_mem_parts hplain
        (fun items hkind => htuple ⟨items, hkind⟩) hnames.own.maps hpart
      exact ih place part hat (haccord [place]) (hnames.parts part hpart)
        fun path => haccord (place :: path)
  | @union pool schema branches hkind hlisted hbranches ih =>
    have hnames' : ∀ branch ∈ branches, branch.DistinctNames := hnames.parts_of_kind_eq hkind
    have hpayload : ∀ branch ∈ branches, branch.isAcknowledgment = false := fun branch hbranch =>
      ((hbranches branch hbranch).of_plain (hlisted.isComposition_eq_false hbranch)).1.payload
    have hunify : ∀ branch ∈ branches, branch.unify false = pure branch := fun branch hbranch =>
      ih branch hbranch (hnames' branch hbranch) haccord
    have hextra := hnames.own.nodup_extra
    obtain ⟨title, description, kind, extra⟩ := schema
    obtain rfl : kind = .anyOf branches := hkind
    rw [unify_anyOf, RpcSchema.combine, unifyPayloads_eq_pure hpayload hunify, pure_bind]
    cases branches with
    | nil =>
      obtain ⟨_, _, _, heq, -⟩ := hlisted.apart
      cases heq
    | cons first rest =>
      rw [unitePayloads, uniteAll_listed hlisted hnames', pure_bind]
      exact congrArg pure (overlay_ofKind hextra _)

end Schema

/-- **Collapsed unions are in normal form** where the schemas accord: no branch is a union and no
two branches are of one class.  If they accord at every place, collapsing the result again changes
nothing. -/
theorem combine_any_normalForm {schemas : List Schema} {merged : Schema}
    {registry registry' : Registry} (hnames : ∀ schema ∈ schemas, schema.DistinctNames)
    (hplain : ∀ schema ∈ schemas, schema.Every fun inner => inner.kind.isComposition = false)
    (haccord : Schema.Accord schemas)
    (hrun : (combine false .any schemas).run.run registry = (.ok merged, registry')) :
    (∀ branches, merged.kind = .anyOf branches →
        (∀ branch ∈ branches, branch.kind.isUnion = false) ∧
          branches.Pairwise fun a b => a.sameClass b = false) ∧
      ((∀ path, Schema.Accord (Schema.placed schemas path)) → merged.unify false = pure merged) := by
  have hpool : Schema.Mergeable schemas := ⟨hnames, hplain, haccord⟩
  have hpayload : ∀ schema ∈ schemas, schema.isAcknowledgment = false := fun schema hschema =>
    (haccord schema hschema).payload
  have hunify : ∀ schema ∈ schemas, schema.unify false = pure schema := fun schema hschema =>
    Schema.unify_eq_pure_of_plain (hnames schema hschema) (hplain schema hschema)
  rw [combine, Schema.unifyPayloads_eq_pure hpayload hunify, pure_bind] at hrun
  cases schemas with
  | nil =>
    obtain rfl := Except.ok.inj (Prod.mk.inj hrun).1
    exact ⟨by rintro _ ⟨⟩, fun _ => rfl⟩
  | cons first rest =>
    have hfirst : first ∈ first :: rest := List.mem_cons_self ..
    obtain ⟨hmerged, htidy⟩ := Schema.ensures_tidy_uniteAll hpool (hnames first hfirst)
      (hpool.tidy hfirst) (fun schema hschema => List.mem_cons_of_mem _ hschema) registry merged
      registry' hrun
    refine ⟨fun branches hkind => ?_, htidy.unify_eq hmerged⟩
    cases htidy with
    | plain hcomposition _ _ _ =>
      rw [hkind] at hcomposition
      cases hcomposition
    | union hkind' hlisted _ =>
      obtain rfl := Kind.anyOf.inj (hkind.symm.trans hkind')
      exact ⟨fun branch hbranch => Kind.isUnion_of_isComposition
        (hlisted.isComposition_eq_false hbranch), hlisted.classes⟩

/-- Two words and two types of numbers become one branch each; the sizes of two records become a
union of their own. -/
theorem combine_any_normalForm_sizes :
    let word (text : String) : Schema := .ofKind (.const (.string text))
    let sized (size : Schema) : Schema :=
      .ofKind (.object ⟨[("size", size)], [], .unstated, [], none⟩)
    let integer : Schema := .ofKind (.primitive .integer)
    let string : Schema := .ofKind (.primitive .string)
    let schemas := [word "s", integer, sized integer, sized string, word "m",
      .ofKind (.listOf string), .ofKind (.primitive .number)]
    let merged : Schema := .ofKind (.anyOf
      [.ofKind (.enum (some .string) [.string "s", .string "m"]), .ofKind (.primitive .number),
        sized (.ofKind (.anyOf [integer, string])), .ofKind (.listOf string)])
    (∀ schema ∈ schemas, schema.DistinctNames) ∧
      (∀ schema ∈ schemas, schema.Every fun inner => inner.kind.isComposition = false) ∧
      (∀ path, Schema.Accord (Schema.placed schemas path)) ∧
      (combine false .any schemas).run.run ⟨[], []⟩ = (.ok merged, ⟨[], []⟩) ∧
      merged.unify false = pure merged := by
  intro word sized integer string schemas merged
  have hnames : ∀ schema ∈ schemas, schema.DistinctNames := by decide
  have hplain : ∀ schema ∈ schemas, schema.Every fun inner => inner.kind.isComposition = false := by
    decide
  have haccord : ∀ path, Schema.Accord (Schema.placed schemas path) :=
    Schema.Accord.placed (by decide)
  have hrun : (combine false .any schemas).run.run ⟨[], []⟩ = (.ok merged, ⟨[], []⟩) := by rfl
  exact ⟨hnames, hplain, haccord, hrun,
    (combine_any_normalForm hnames hplain (haccord []) hrun).2 haccord⟩

/-- What has to be assumed for that.  An integer is put beside a number with a fraction, and a
string beside a number that an enumeration calls a string, although they are of one class.  An
acknowledgment under a name stays there and is left out the next time. -/
theorem not_normalForm_combine_any :
    let integer : Schema := .ofKind (.primitive .integer)
    let half : Schema := .ofKind (.const (.number (.float ⟨false, 4503599627370496, -53⟩)))
    let string : Schema := .ofKind (.primitive .string)
    let one : Schema := .ofKind (.enum (some .string) [.number (.int 1)])
    let entry (value : Schema) : Schema :=
      .ofKind (.object ⟨[("entry", value)], [], .unstated, [], none⟩)
    let listening : Schema := string.withTitle "ListenResponse"
    let again : Schema := entry (.ofKind (.anyOf [listening, integer]))
    (∀ schema ∈ [integer, half, string, one, entry listening, entry integer],
      schema.DistinctNames ∧ (schema.Every fun inner => inner.kind.isComposition = false) ∧
        schema.isAcknowledgment = false) ∧
      (combine false .any [integer, half]).run.run ⟨[], []⟩ =
        (.ok (.ofKind (.anyOf [integer, half])), ⟨[], []⟩) ∧ integer.sameClass half = true ∧
      (combine false .any [string, one]).run.run ⟨[], []⟩ =
        (.ok (.ofKind (.anyOf [string, one])), ⟨[], []⟩) ∧ string.sameClass one = true ∧
      (combine false .any [entry listening, entry integer]).run.run ⟨[], []⟩ =
        (.ok again, ⟨[], []⟩) ∧
      (again.unify false).run.run ⟨[], []⟩ = (.ok (entry integer), ⟨[], []⟩) := by
  intro integer half string one entry listening again
  have hassumed : ∀ schema ∈ [integer, half, string, one, entry listening, entry integer],
      schema.DistinctNames ∧ (schema.Every fun inner => inner.kind.isComposition = false) ∧
        schema.isAcknowledgment = false := by decide
  exact ⟨hassumed, rfl, rfl, rfl, rfl, rfl, rfl⟩

end RpcSchema
