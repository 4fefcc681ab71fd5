import RpcSchema.Proofs.Schema.Rebuilding
import RpcSchema.Proofs.Unification.Intersection
import RpcSchema.Unification.Composition

/-!
# Unified schemas

Unification works out the compositions in a schema.  Where unions are preserved it registers
nothing, and what it leaves has no intersection at any depth; the unions in it have
different branches and are not made of one branch only.  In such a schema there is nothing
left to work out, so that unifying it again changes nothing.

What is said here of computations goes from the parts of a schema to the schema through every
shape but the two compositions, whatever exactly is said of them.  So this is proved once, for
all such judgements.

## Main definitions

* `Unifying.Gives p x` — the computation registers nothing and what it gives satisfies `p`.
* `Unifying.Judgement` — what is said of computations goes through sequences of them.
* `Schema.Unified` — there is nothing to work out in the schema itself.

## Main results

* `Schema.unify_eq_pure` — where there is nothing to work out, unification changes nothing.
* `Unifying.Judgement.every_unify` — what is left by unification at every depth, from what is
  left of the compositions.
* `Schema.gives_unify` — where unions are preserved, unification leaves nothing to work out.
* `Schema.unify_normalForm` — both for one run.
-/

namespace RpcSchema

/-! ### Computations that register nothing -/

/-- The computation registers nothing, and what it gives satisfies `p`. -/
def Unifying.Gives {α : Type} (p : α → Prop) (x : Unifying α) : Prop :=
  ∃ outcome : Except Conflict α, x = ExceptT.mk (pure outcome) ∧ ∀ value, outcome = .ok value → p value

namespace Unifying

variable {α β : Type} {p : α → Prop} {q : β → Prop} {x : Unifying α} {f : α → Unifying β}

theorem Gives.pure {value : α} (h : p value) : Gives p (Pure.pure value) :=
  ⟨.ok value, rfl, fun _ heq => Except.ok.inj heq ▸ h⟩

theorem Gives.of_outcome {outcome : Except Conflict α} (h : ∀ value, outcome = .ok value → p value) :
    Gives p (ExceptT.mk (Pure.pure outcome)) :=
  ⟨outcome, rfl, h⟩

theorem Gives.bind (hx : Gives p x) (hf : ∀ value, p value → Gives q (f value)) :
    Gives q (x >>= f) := by
  obtain ⟨outcome, rfl, houtcome⟩ := hx
  cases outcome with
  | error conflict => exact ⟨.error conflict, rfl, fun _ heq => by cases heq⟩
  | ok value => exact hf value (houtcome value rfl)

/-- A way to speak of what computations give, if it goes through computations one after the
other. -/
structure Judgement (T : ∀ {α : Type}, (α → Prop) → Unifying α → Prop) : Prop where
  pure : ∀ {α : Type} {p : α → Prop} {value : α}, p value → T p (Pure.pure value)
  bind : ∀ {α β : Type} {p : α → Prop} {q : β → Prop} {x : Unifying α} {f : α → Unifying β},
    T p x → (∀ value, p value → T q (f value)) → T q (x >>= f)

theorem judgement_gives : Judgement Gives := ⟨.pure, .bind⟩

/-- A run ends with the registry it started with. -/
theorem Gives.run (h : Gives p x) {registry registry' : Registry} {value : α}
    (hrun : x.run.run registry = (.ok value, registry')) : p value ∧ registry' = registry := by
  obtain ⟨outcome, rfl, houtcome⟩ := h
  obtain ⟨hvalue, hregistry⟩ := Prod.mk.inj hrun
  exact ⟨houtcome value hvalue, hregistry.symm⟩

end Unifying

/-! ### Nothing to work out -/

/-- Whether the shape is an intersection or a union. -/
def Kind.isComposition : Kind → Bool
  | .allOf _ | .anyOf _ => true
  | _ => false

/-- There is nothing to work out in the shape itself: it is no intersection, and if it is a
union, then one that is preserved, of different branches and not of one only. -/
def Kind.Unified (preserveUnions : Bool) : Kind → Prop
  | .allOf _ => False
  | .anyOf branches => preserveUnions = true ∧ Distinct branches ∧ branches.length ≠ 1
  | _ => True

/-- There is nothing to work out in the schema itself. -/
def Schema.Unified (preserveUnions : Bool) (schema : Schema) : Prop :=
  schema.kind.Unified preserveUnions

namespace Schema

variable {preserveUnions : Bool}

theorem unifyItems_eq_pure {items : List Schema}
    (h : ∀ item ∈ items, item.unify preserveUnions = pure item) :
    unifyItems preserveUnions items = pure items := by
  induction items with
  | nil => rw [unifyItems]
  | cons item rest ih =>
    obtain ⟨hitem, hrest⟩ := List.forall_mem_cons.mp h
    rw [unifyItems, hitem, pure_bind, ih hrest, pure_bind]

theorem unifyFields_eq_pure {fields : Fields Schema}
    (h : ∀ entry ∈ fields, entry.2.unify preserveUnions = pure entry.2) :
    unifyFields preserveUnions fields = pure fields := by
  induction fields with
  | nil => rw [unifyFields]
  | cons entry rest ih =>
    obtain ⟨name, schema⟩ := entry
    obtain ⟨hschema, hrest⟩ := List.forall_mem_cons.mp h
    rw [unifyFields, hschema, pure_bind, ih hrest, pure_bind]

/-- In a union the acknowledgments are left out. -/
theorem unifyPayloads_eq (preserveUnions : Bool) (schemas : List Schema) :
    unifyPayloads preserveUnions schemas =
      unifyItems preserveUnions (schemas.filter fun schema => !schema.isAcknowledgment) := by
  induction schemas with
  | nil => rfl
  | cons schema rest ih =>
    rw [unifyPayloads, List.filter_cons]
    cases schema.isAcknowledgment with
    | true => exact ih
    | false => rw [Bool.not_false, if_pos rfl, unifyItems, ← ih, if_neg Bool.false_ne_true]

theorem unifyPayloads_eq_unifyItems {schemas : List Schema}
    (h : ∀ schema ∈ schemas, schema.isAcknowledgment = false) :
    unifyPayloads preserveUnions schemas = unifyItems preserveUnions schemas := by
  have hall : (schemas.filter fun schema => !schema.isAcknowledgment) = schemas :=
    List.filter_eq_self.mpr fun schema hmem => by rw [h schema hmem, Bool.not_false]
  rw [unifyPayloads_eq, hall]

end Schema

theorem ObjectSchema.unify_eq_pure {preserveUnions : Bool} {shape : ObjectSchema}
    (h : ∀ part ∈ shape.parts, part.unify preserveUnions = pure part) :
    shape.unify preserveUnions = pure shape := by
  obtain ⟨properties, required, additional, patterns, names⟩ := shape
  obtain ⟨hproperties, hadditional, hpatterns⟩ := ObjectSchema.forall_parts_iff.mp h
  have hundeclared : additional.unify preserveUnions = pure additional := by
    cases additional with
    | schema value => rw [Additional.unify, hadditional value rfl, pure_bind]
    | _ => rfl
  rw [ObjectSchema.unify, Schema.unifyFields_eq_pure hproperties, pure_bind, hundeclared, pure_bind,
    Schema.unifyFields_eq_pure hpatterns, pure_bind]

namespace Schema

variable {preserveUnions : Bool}

/-- Laying over a shape what it says about itself. -/
theorem overlay_ofKind {schema : Schema} (hextra : (Fields.keys schema.extra).Nodup)
    (composite : Bool) :
    (ofKind schema.kind).overlay schema.title schema.description schema.extra composite = schema := by
  obtain ⟨title, description, kind, extra⟩ := schema
  have htitle : (if title.isSome || composite then title else none) = title := by
    cases title with
    | none => exact ite_self _
    | some title => rfl
  have hkept : extra.foldl (fun extra entry => Fields.set extra entry.1 entry.2) [] = extra :=
    Fields.foldl_set_eq_append hextra fun _ _ => List.not_mem_nil
  rw [overlay, ofKind, htitle, hkept, Option.or_none]

/-- Where there is nothing to work out in the parts of a shape that is no composition, there is
nothing to work out at all. -/
theorem unify_eq_pure_of_parts {schema : Schema} (hplain : schema.kind.isComposition = false)
    (hparts : ∀ part ∈ schema.kind.parts, part.unify preserveUnions = pure part) :
    schema.unify preserveUnions = pure schema := by
  obtain ⟨title, description, kind, extra⟩ := schema
  cases kind with
  | allOf _ | anyOf _ => cases hplain
  | object shape => rw [unify, ObjectSchema.unify_eq_pure hparts, pure_bind]
  | listOf item => rw [unify, hparts item (List.mem_singleton_self _), pure_bind]
  | tuple items =>
    have hitems : unifyItems preserveUnions items = pure items := unifyItems_eq_pure hparts
    rw [unify, hitems, pure_bind]
  | _ => rfl

/-- **Where there is nothing to work out, unification changes nothing.** -/
theorem unify_eq_pure {schema : Schema} (hnames : schema.DistinctNames)
    (h : schema.Every (Unified preserveUnions)) : schema.unify preserveUnions = pure schema := by
  induction hnames with
  | @intro schema own _ ih =>
    have hparts : ∀ part ∈ schema.kind.parts, part.unify preserveUnions = pure part :=
      fun part hpart => ih part hpart (h.parts part hpart)
    have hown := h.own
    by_cases hplain : schema.kind.isComposition = false
    · exact unify_eq_pure_of_parts hplain hparts
    obtain ⟨title, description, kind, extra⟩ := schema
    cases kind with
    | allOf parts => exact hown.elim
    | anyOf branches =>
      obtain ⟨rfl, hdistinct, hlength⟩ := hown
      have hunion : Union.ofBranches branches = ofKind (.anyOf branches) := by
        unfold Union.ofBranches
        split
        · exact absurd rfl hlength
        · rfl
      have hbranches : unifyItems true branches = pure branches := unifyItems_eq_pure hparts
      rw [unify, if_pos rfl, hbranches, pure_bind, distinct_of_distinct hdistinct, hunion]
      exact congrArg pure (overlay_ofKind own.nodup_extra false)
    | _ => exact absurd rfl hplain

end Schema

/-! ### What unification leaves -/

/-- Names are apart, and there is nothing to work out. -/
abbrev Schema.NormalForm (schema : Schema) : Prop := schema.NamesApart ∧ schema.Unified true

theorem Intersection.Meets.unified {merge : Schema → Schema → Except Conflict Schema}
    {preserveUnions : Bool} {k l kind : Kind} (h : Intersection.Meets merge k l kind)
    (hk : k.Unified preserveUnions) (hl : l.Unified preserveUnions) :
    kind.Unified preserveUnions := by
  cases h with
  | left _ => exact hk
  | right _ => exact hl
  | enums p q xs ys => exact trivial
  | objects _ => exact trivial
  | items _ => exact trivial

/-- Intersections leave nothing to work out. -/
theorem Intersection.closed_normalForm : Intersection.Closed Schema.NormalForm :=
  Intersection.Closed.namesApart_and
    (fun _ _ _ _ ha hb h _ _ => h.unified ha hb)
    (fun _ _ _ _ _ hkept hlength => ⟨rfl, hkept, hlength⟩)

theorem Kind.Rebuilt.isComposition_eq {r : Schema → Schema → Prop} {k l : Kind}
    (h : k.Rebuilt r l) : l.isComposition = k.isComposition := by
  cases h with
  | leaf _ => rfl
  | _ => rfl

namespace Unifying.Judgement

variable {T : ∀ {α : Type}, (α → Prop) → Unifying α → Prop} (hT : Judgement T)
  {preserveUnions : Bool} {r : Schema → Schema → Prop}
include hT

theorem mono {α : Type} {p q : α → Prop} {computation : Unifying α} (h : T p computation)
    (himp : ∀ value, p value → q value) : T q computation := by
  have hbind : T q (computation >>= fun value => Pure.pure value) :=
    hT.bind h fun value hvalue => hT.pure (himp value hvalue)
  rwa [bind_pure] at hbind

theorem unifyItems_forall₂ {items : List Schema}
    (h : ∀ item ∈ items, T (r item) (item.unify preserveUnions)) :
    T (List.Forall₂ r items) (Schema.unifyItems preserveUnions items) := by
  induction items with
  | nil =>
    rw [Schema.unifyItems]
    exact hT.pure .nil
  | cons item rest ih =>
    obtain ⟨hitem, hrest⟩ := List.forall_mem_cons.mp h
    rw [Schema.unifyItems]
    exact hT.bind hitem fun unified hunified => hT.bind (ih hrest) fun others hothers =>
      hT.pure (.cons hunified hothers)

theorem unifyItems {p : Schema → Prop} {items : List Schema}
    (h : ∀ item ∈ items, T p (item.unify preserveUnions)) :
    T (fun unified => ∀ item ∈ unified, p item) (Schema.unifyItems preserveUnions items) := by
  refine hT.mono (hT.unifyItems_forall₂ (r := fun _ unified => p unified) h)
    fun unified hunified item hitem => ?_
  obtain ⟨_, _, hp⟩ := exists_mem_of_forall₂_right hunified hitem
  exact hp

theorem unifyFields_rebuilt {fields : Fields Schema}
    (h : ∀ entry ∈ fields, T (r entry.2) (entry.2.unify preserveUnions)) :
    T (Fields.Rebuilt r fields) (Schema.unifyFields preserveUnions fields) := by
  induction fields with
  | nil =>
    rw [Schema.unifyFields]
    exact hT.pure .nil
  | cons entry rest ih =>
    obtain ⟨name, schema⟩ := entry
    obtain ⟨hschema, hrest⟩ := List.forall_mem_cons.mp h
    rw [Schema.unifyFields]
    exact hT.bind hschema fun unified hunified => hT.bind (ih hrest) fun others hothers =>
      hT.pure (.cons ⟨rfl, hunified⟩ hothers)

theorem unifyShape_rebuilt {shape : ObjectSchema}
    (h : ∀ part ∈ shape.parts, T (r part) (part.unify preserveUnions)) :
    T (ObjectSchema.Rebuilt r shape) (shape.unify preserveUnions) := by
  obtain ⟨properties, required, additional, patterns, names⟩ := shape
  obtain ⟨hproperties, hadditional, hpatterns⟩ := ObjectSchema.forall_parts_iff.mp h
  have hundeclared : T (Additional.Alike r additional) (additional.unify preserveUnions) := by
    cases additional with
    | schema value =>
      rw [Additional.unify]
      exact hT.bind (hadditional value rfl) fun unified hunified => hT.pure (.schema hunified)
    | unstated => exact hT.pure .unstated
    | allowed flag => exact hT.pure (.allowed flag)
  rw [ObjectSchema.unify]
  refine hT.bind (hT.unifyFields_rebuilt hproperties) fun properties' hproperties' => ?_
  refine hT.bind hundeclared fun additional' hadditional' => ?_
  refine hT.bind (hT.unifyFields_rebuilt hpatterns) fun patterns' hpatterns' => ?_
  exact hT.pure ⟨hproperties', rfl, hadditional', hpatterns', rfl⟩

/-- A shape that is no composition is rebuilt from its unified parts. -/
theorem unify_rebuilt {schema : Schema} (hplain : schema.kind.isComposition = false)
    (h : ∀ part ∈ schema.kind.parts, T (r part) (part.unify preserveUnions)) :
    T (fun unified => ∃ kind, schema.kind.Rebuilt r kind ∧
        unified = ⟨schema.title, schema.description, kind, schema.extra⟩)
      (schema.unify preserveUnions) := by
  obtain ⟨title, description, kind, extra⟩ := schema
  cases kind with
  | allOf parts => cases hplain
  | anyOf branches => cases hplain
  | object shape =>
    rw [Schema.unify]
    exact hT.bind (hT.unifyShape_rebuilt h) fun unified hunified =>
      hT.pure ⟨_, .object hunified, rfl⟩
  | listOf item =>
    rw [Schema.unify]
    exact hT.bind (h item (List.mem_singleton_self _)) fun unified hunified =>
      hT.pure ⟨_, .listOf hunified, rfl⟩
  | tuple items =>
    rw [Schema.unify]
    exact hT.bind (hT.unifyItems_forall₂ h) fun unified hunified =>
      hT.pure ⟨_, .tuple hunified, rfl⟩
  | _ => exact hT.pure ⟨_, .leaf rfl, rfl⟩

/-- **What unification leaves at every depth**, from what it leaves of the compositions: names
stay apart, and the shapes are as they should be if those of other shapes are. -/
theorem every_unify {w : Schema → Prop} {r : Kind → Prop}
    (hnames : ∀ schema, w schema → schema.NamesApart)
    (hparts : ∀ schema, w schema → schema.kind.isComposition = false →
      ∀ part ∈ schema.kind.parts, w part)
    (hplain : ∀ kind : Kind, kind.isComposition = false → r kind)
    (hcomposed : ∀ schema, w schema → schema.kind.isComposition = true →
      (∀ part ∈ schema.kind.parts, w part →
        T (Schema.Every fun schema => schema.NamesApart ∧ r schema.kind)
          (part.unify preserveUnions)) →
      T (Schema.Every fun schema => schema.NamesApart ∧ r schema.kind)
        (schema.unify preserveUnions))
    {schema : Schema} (h : w schema) :
    T (Schema.Every fun schema => schema.NamesApart ∧ r schema.kind)
      (schema.unify preserveUnions) := by
  induction schema using Schema.induction_parts with
  | h schema ih =>
    have hown := hnames schema h
    by_cases hcomposition : schema.kind.isComposition = true
    · exact hcomposed schema h hcomposition ih
    replace hcomposition := Bool.eq_false_iff.mpr hcomposition
    replace ih : ∀ part ∈ schema.kind.parts, T _ (part.unify preserveUnions) :=
      fun part hpart => ih part hpart (hparts schema h hcomposition part hpart)
    refine hT.mono (hT.unify_rebuilt (r := fun _ unified => unified.Every fun schema =>
      schema.NamesApart ∧ r schema.kind) hcomposition ih) ?_
    rintro _ ⟨kind, hkind, rfl⟩
    refine .intro ⟨hkind.namesApart hown _, hplain kind (hkind.isComposition_eq.trans hcomposition)⟩
      fun part hpart => ?_
    obtain ⟨_, _, hunified⟩ := exists_mem_of_forall₂_right hkind.parts hpart
    exact hunified

end Unifying.Judgement

namespace Schema

/-- What is said over a schema does not count. -/
theorem every_overlay {r : Kind → Prop} {schema : Schema}
    (h : schema.Every fun schema => schema.NamesApart ∧ r schema.kind)
    {title description : Option String} {extra : Fields Json}
    (hextra : (Json.object extra).DistinctNames) (composite : Bool) :
    (schema.overlay title description extra composite).Every fun schema =>
      schema.NamesApart ∧ r schema.kind :=
  h.of_kind_eq rfl ⟨⟨Intersection.distinctNames_foldl_set h.own.1.extra hextra,
    h.own.1.literals, h.own.1.maps⟩, h.own.2⟩

end Schema

namespace Schema

/-- A union of different branches, or its only branch. -/
theorem every_ofBranches {branches : List Schema} (h : ∀ branch ∈ branches, branch.Every NormalForm)
    (hdistinct : Distinct branches) : (Union.ofBranches branches).Every NormalForm := by
  unfold Union.ofBranches
  split
  · exact h _ (List.mem_singleton_self _)
  · next hlone =>
    have hlength : branches.length ≠ 1 := by
      intro hlength
      obtain ⟨branch, hbranch⟩ := List.length_eq_one_iff.mp hlength
      exact hlone branch hbranch
    exact .intro ⟨.ofKind rfl rfl, rfl, hdistinct, hlength⟩ h

/-- **Where unions are preserved, unification registers nothing and leaves nothing to work
out**, at any depth. -/
theorem gives_unify {schema : Schema} (hnames : schema.DistinctNames) :
    (schema.unify true).Gives fun unified => unified.Every NormalForm := by
  have hT := Unifying.judgement_gives
  refine hT.every_unify (w := DistinctNames) (r := Kind.Unified true) (fun _ h => h.own)
    (fun _ h _ => h.parts) (fun kind h => ?_) (fun schema h hcomposition ih => ?_) hnames
  · cases kind with
    | allOf _ | anyOf _ => cases h
    | _ => exact trivial
  · obtain ⟨title, description, kind, extra⟩ := schema
    replace ih : ∀ part ∈ kind.parts, (part.unify true).Gives fun unified =>
        unified.Every NormalForm := fun part hpart => ih part hpart (h.parts part hpart)
    cases kind with
    | allOf parts =>
      rw [unify]
      refine (hT.unifyItems ih).bind fun unified hunified => ?_
      refine (Unifying.Gives.of_outcome (p := fun merged => merged.Every NormalForm) fun merged h =>
        Intersection.closed_normalForm.every_intersectAll ?_ hunified h).bind fun merged hmerged =>
          .pure (every_overlay hmerged h.own.extra _)
      exact .intro ⟨.ofKind rfl rfl, trivial⟩ (List.forall_mem_nil _)
    | anyOf branches =>
      rw [unify, if_pos rfl]
      refine (hT.unifyItems ih).bind fun unified hunified =>
        .pure (every_overlay ?_ h.own.extra _)
      exact every_ofBranches (fun branch hmem => hunified branch (mem_of_mem_distinct hmem))
        (distinct_distinct unified)
    | _ => cases hcomposition

/-- **Unification with preserved unions leads to a normal form**: no intersection is left at
any depth, unions have different branches and are not made of one, nothing is registered,
and unifying the result again gives the result. -/
theorem unify_normalForm {schema unified : Schema} {registry registry' : Registry}
    (hnames : schema.DistinctNames)
    (h : (schema.unify true).run.run registry = (.ok unified, registry')) :
    unified.Every (Unified true) ∧ registry' = registry ∧
      (unified.unify true).run.run registry = (.ok unified, registry) := by
  obtain ⟨hnormal, hregistry⟩ := (gives_unify hnames).run h
  have hunified := hnormal.mono fun _ h => h.2
  refine ⟨hunified, hregistry, ?_⟩
  rw [unify_eq_pure (hnormal.mono fun _ h => h.1) hunified]
  rfl

/-- Two unions of words and numbers: of four combinations of branches two are in conflict,
and the union of the other two is left. -/
theorem unify_normalForm_size :
    let size : Schema := ⟨some "Size", none, .allOf
      [.ofKind (.anyOf [.ofKind (.enum none [.string "s", .string "m"]),
        .ofKind (.primitive .integer)]),
       .ofKind (.anyOf [.ofKind (.enum none [.string "m", .string "l"]),
        .ofKind (.primitive .number)])], []⟩
    let unified : Schema := ⟨some "Size", none, .anyOf
      [.ofKind (.enum (some .string) [.string "m"]), .ofKind (.primitive .integer)], []⟩
    size.DistinctNames ∧ (size.unify true).run.run ⟨[], []⟩ = (.ok unified, ⟨[], []⟩) ∧
      unified.Every (Unified true) ∧
        (unified.unify true).run.run ⟨[], []⟩ = (.ok unified, ⟨[], []⟩) := by
  intro size unified
  have hnames : size.DistinctNames := by decide
  have hrun : (size.unify true).run.run ⟨[], []⟩ = (.ok unified, ⟨[], []⟩) := by rfl
  obtain ⟨hnormal, -, hagain⟩ := unify_normalForm hnames hrun
  exact ⟨hnames, hrun, hnormal, hagain⟩

end Schema

end RpcSchema
