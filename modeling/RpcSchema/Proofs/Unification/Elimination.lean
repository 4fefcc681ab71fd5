import RpcSchema.Proofs.Unification.Collapse

/-!
# Intersections are worked out

Unification without preserved unions leaves no intersection at any depth, with one exception.  A
union of nothing but acknowledgments comes down to the first of them as it stands, and whatever
that one holds is left as it is.  An acknowledgment beside other branches is dropped, so that it
does no harm there.

Everything else that unification leaves is made by intersections and unions of schemas that are
worked out already, and neither of these makes an intersection.

## Main definitions

* `Kind.payloads` — the schemas below a shape that unification goes into.
* `Kind.lone?` — the acknowledgment that a union of nothing else comes down to.
* `Schema.Collapsible` — no such acknowledgment that unification meets holds an intersection.

## Main results

* `Schema.noIntersection_unify` — what unification leaves of a collapsible schema.
* `Schema.not_noIntersection_acknowledged` — of other schemas an intersection can be left.
-/

namespace RpcSchema

/-! ### Where unification goes -/

/-- Whether the shape is an intersection. -/
def Kind.isIntersection : Kind → Bool
  | .allOf _ => true
  | _ => false

/-- The schemas directly below a shape that unification without preserved unions goes into: in a
union the acknowledgments are left out. -/
def Kind.payloads : Kind → List Schema
  | .anyOf branches => branches.filter fun branch => !branch.isAcknowledgment
  | kind => kind.parts

/-- What a union of nothing but acknowledgments comes down to: the first of them. -/
def Kind.lone? : Kind → Option Schema
  | .anyOf branches => if branches.all Schema.isAcknowledgment then branches.head? else none
  | _ => none

namespace Schema

/-- The schema itself is no intersection. -/
def NoIntersection (schema : Schema) : Prop := schema.kind.isIntersection = false

instance : DecidablePred NoIntersection := fun schema =>
  inferInstanceAs (Decidable (schema.kind.isIntersection = false))

/-- Where unification goes, a union of nothing but acknowledgments starts with one in which
there is no intersection. -/
inductive Collapsible : Schema → Prop
  | intro {schema : Schema} (payloads : ∀ part ∈ schema.kind.payloads, Collapsible part)
      (lone : ∀ part ∈ schema.kind.lone?, part.Every NoIntersection) : Collapsible schema

variable {schema : Schema}

theorem Collapsible.payloads (h : schema.Collapsible) :
    ∀ part ∈ schema.kind.payloads, part.Collapsible := by
  cases h with
  | intro payloads _ => exact payloads

theorem Collapsible.lone (h : schema.Collapsible) :
    ∀ part ∈ schema.kind.lone?, part.Every NoIntersection := by
  cases h with
  | intro _ lone => exact lone

end Schema

theorem Kind.payloads_eq_parts {kind : Kind} (h : kind.isComposition = false) :
    kind.payloads = kind.parts := by
  cases kind with
  | anyOf branches => cases h
  | _ => rfl

theorem Kind.mem_payloads_anyOf {branches : List Schema} {branch : Schema} (h : branch ∈ branches)
    (hpayload : branch.isAcknowledgment = false) : branch ∈ (Kind.anyOf branches).payloads := by
  refine List.mem_filter.mpr ⟨h, ?_⟩
  rw [hpayload]
  rfl

theorem Kind.payloads_subset_parts (kind : Kind) : kind.payloads ⊆ kind.parts := by
  cases kind with
  | anyOf branches => exact List.filter_sublist.subset
  | _ => exact List.Subset.refl _

/-- What is asked where unification goes can be asked everywhere, which is decidable. -/
theorem Schema.Collapsible.of_every {schema : Schema}
    (h : schema.Every fun schema => ∀ part ∈ schema.kind.lone?, part.Every NoIntersection) :
    schema.Collapsible := by
  induction h with
  | @intro schema own _ ih =>
    exact .intro (fun part hpart => ih part (schema.kind.payloads_subset_parts hpart)) own

/-! ### No intersection is made -/

/-- Names are apart, and the schema itself is no intersection. -/
abbrev Schema.Dissolved (schema : Schema) : Prop :=
  schema.NamesApart ∧ schema.NoIntersection

theorem Intersection.Meets.isIntersection {merge : Schema → Schema → Except Conflict Schema}
    {k l kind : Kind} (h : Intersection.Meets merge k l kind) (hk : k.isIntersection = false)
    (hl : l.isIntersection = false) : kind.isIntersection = false := by
  cases h with
  | left _ => exact hk
  | right _ => exact hl
  | enums p q xs ys => rfl
  | objects _ => rfl
  | items _ => rfl

theorem Union.Merges.isIntersection {k l kind : Kind} (h : Union.Merges k l kind)
    (hk : k.isIntersection = false) (hl : l.isIntersection = false) :
    kind.isIntersection = false := by
  cases h with
  | objects _ _ _ => rfl
  | items _ _ _ => rfl
  | keep h =>
    cases h with
    | left => exact hk
    | right => exact hl
    | literals _ _ => rfl

/-- Intersections that are worked out are no intersections. -/
theorem Intersection.closed_dissolved : Intersection.Closed Schema.Dissolved := by
  apply Intersection.Closed.namesApart_and
  · intro merge a b kind ha hb h _ _
    exact h.isIntersection ha hb
  · intro a branches kept _ _ _ _
    rfl

/-- Collapsed unions are no intersections. -/
theorem Union.closed_dissolved : Union.Closed Schema.Dissolved := by
  apply Union.Closed.namesApart_and
  · intro a b kind ha hb h
    exact h.isIntersection ha hb
  · exact fun _ => rfl
  · exact fun _ => rfl

/-- What unions keep holds at every depth of the union of a list. -/
theorem Union.Closed.ensures_uniteAll {q : Schema → Prop} (hq : Union.Closed q) {first : Schema}
    {rest : List Schema} (hfirst : first.Every q) (hrest : ∀ schema ∈ rest, schema.Every q) :
    (Schema.uniteAll first rest).Ensures fun merged => merged.Every q := by
  have haccounting := Union.accounting_ensures hq Union.counts_ownAtoms
    (first.tally Kind.ownAtoms + Schema.tallyAll Kind.ownAtoms rest)
  exact (haccounting.uniteAll hfirst hrest (Nat.le_refl _)).mono fun _ h => h.1

namespace Schema

/-- A union is collapsed first, and then says of the result what it says about itself. -/
theorem unify_anyOf (title description : Option String) (branches : List Schema)
    (extra : Fields Json) : (⟨title, description, .anyOf branches, extra⟩ : Schema).unify false =
      combine false .any branches >>= fun merged =>
        pure (merged.overlay title description extra (1 < branches.length)) := by
  rw [unify, if_neg Bool.false_ne_true, combine, bind_assoc]

end Schema

/-! ### What unification leaves -/

section Unify

variable {T : ∀ {α : Type}, (α → Prop) → Unifying α → Prop} {p : Schema → Prop}

/-- The unified payloads; when there are none, every branch is an acknowledgment. -/
theorem Unifying.Judgement.unifyPayloads (hT : Unifying.Judgement T) {preserveUnions : Bool}
    {branches : List Schema}
    (h : ∀ branch ∈ branches, branch.isAcknowledgment = false →
      T p (branch.unify preserveUnions)) :
    T (fun unified => (∀ payload ∈ unified, p payload) ∧
        (unified = [] → branches.all Schema.isAcknowledgment = true))
      (Schema.unifyPayloads preserveUnions branches) := by
  have hpayloads : ∀ branch ∈ branches.filter fun branch => !branch.isAcknowledgment,
      T p (branch.unify preserveUnions) := by
    intro branch hbranch
    obtain ⟨hmem, hpayload⟩ := List.mem_filter.mp hbranch
    exact h branch hmem (by simpa using hpayload)
  rw [Schema.unifyPayloads_eq]
  refine hT.mono (hT.unifyItems_forall₂ (r := fun _ unified => p unified) hpayloads)
    fun unified hunified => ⟨fun payload hpayload => ?_, ?_⟩
  · obtain ⟨_, _, hp⟩ := exists_mem_of_forall₂_right hunified hpayload
    exact hp
  · rintro rfl
    have hnone := List.filter_eq_nil_iff.mp (List.forall₂_nil_right_iff.mp hunified)
    rw [List.all_eq_true]
    intro branch hbranch
    simpa using hnone branch hbranch

end Unify

/-- A union of unified payloads, or the acknowledgment that stands for a union of nothing else. -/
theorem ensures_unitePayloads {branches unified : List Schema}
    (hunified : ∀ payload ∈ unified, payload.Every Schema.Dissolved)
    (hlone : unified = [] → ∀ first, branches.head? = some first → first.Every Schema.Dissolved) :
    (unitePayloads branches unified).Ensures fun merged => merged.Every Schema.Dissolved := by
  cases unified with
  | cons first rest =>
    obtain ⟨hfirst, hrest⟩ := List.forall_mem_cons.mp hunified
    exact Union.closed_dissolved.ensures_uniteAll hfirst hrest
  | nil =>
    apply Unifying.Ensures.pure
    cases branches with
    | nil => exact .intro ⟨.ofKind rfl rfl, rfl⟩ (List.forall_mem_nil _)
    | cons first rest => exact hlone rfl first rfl

namespace Schema

/-- **Unification without preserved unions leaves no intersection** at any depth of a
collapsible schema. -/
theorem ensures_unify {schema : Schema} (hnames : schema.DistinctNames)
    (hcollapsible : schema.Collapsible) :
    (schema.unify false).Ensures fun unified => unified.Every Dissolved := by
  have hT := Unifying.judgement_ensures
  refine hT.every_unify (w := fun schema => schema.DistinctNames ∧ schema.Collapsible)
    (r := fun kind => kind.isIntersection = false) (fun _ h => h.1.own) ?_ ?_ ?_
    ⟨hnames, hcollapsible⟩
  · intro schema h hplain part hpart
    have hpayload : part ∈ schema.kind.payloads := Kind.payloads_eq_parts hplain ▸ hpart
    exact ⟨h.1.parts part hpart, h.2.payloads part hpayload⟩
  · intro kind hplain
    cases kind with
    | allOf parts => cases hplain
    | _ => rfl
  · rintro schema ⟨hnames, hcollapsible⟩ hcomposition ih
    obtain ⟨title, description, kind, extra⟩ := schema
    cases kind with
    | allOf parts =>
      have hparts : ∀ part ∈ parts, (part.unify false).Ensures fun unified =>
          unified.Every Dissolved := by
        intro part hpart
        exact ih part hpart ⟨hnames.parts part hpart, hcollapsible.payloads part hpart⟩
      have hempty : (ofKind .empty).Every Dissolved :=
        .intro ⟨.ofKind rfl rfl, rfl⟩ (List.forall_mem_nil _)
      rw [unify]
      refine (hT.unifyItems hparts).bind fun unified hunified => ?_
      refine (Unifying.Ensures.of_outcome (p := fun merged => merged.Every Dissolved)
        fun merged hmerged => ?_).bind fun merged hmerged =>
          .pure (every_overlay (r := fun kind => kind.isIntersection = false) hmerged
            hnames.own.extra _)
      exact Intersection.closed_dissolved.every_intersectAll hempty hunified hmerged
    | anyOf branches =>
      have hbranches : ∀ branch ∈ branches, branch.isAcknowledgment = false →
          (branch.unify false).Ensures fun unified => unified.Every Dissolved := by
        intro branch hbranch hpayload
        exact ih branch hbranch ⟨hnames.parts branch hbranch,
          hcollapsible.payloads branch (Kind.mem_payloads_anyOf hbranch hpayload)⟩
      rw [unify, if_neg Bool.false_ne_true]
      refine (hT.unifyPayloads hbranches).bind fun unified hpayloads => ?_
      obtain ⟨hunified, hnone⟩ := hpayloads
      refine (ensures_unitePayloads hunified ?_).bind fun merged hmerged =>
        .pure (every_overlay (r := fun kind => kind.isIntersection = false) hmerged
          hnames.own.extra _)
      intro hnil first hfirst
      -- Nothing was left to unify, so the first acknowledgment stands as it is.
      have hlone : (Kind.anyOf branches).lone? = some first := by
        rw [Kind.lone?, if_pos (hnone hnil), hfirst]
      exact (hnames.parts first (List.mem_of_mem_head? hfirst)).and (hcollapsible.lone first hlone)
    | _ => cases hcomposition

/-- **Without preserved unions no intersection is left** at any depth, whatever is registered
already, unless unification meets a union of nothing but acknowledgments of which the first
holds an intersection. -/
theorem noIntersection_unify {schema unified : Schema} {registry registry' : Registry}
    (hnames : schema.DistinctNames) (hcollapsible : schema.Collapsible)
    (h : (schema.unify false).run.run registry = (.ok unified, registry')) :
    unified.Every NoIntersection := by
  have hunified : unified.Every Dissolved :=
    ensures_unify hnames hcollapsible registry unified registry' h
  exact hunified.mono fun _ hdissolved => hdissolved.2

/-- The result of an event: an acknowledgment that is an intersection is dropped, and the levels
beside it are worked out. -/
theorem noIntersection_unify_levels :
    let acknowledgment : Schema := ⟨some "ListenResponse", none, .allOf
      [.ofKind (.primitive .boolean), .ofKind (.const (.bool true))], []⟩
    let level : Schema := .ofKind (.allOf
      [.ofKind (.primitive .number), .ofKind (.primitive .integer)])
    let result : Schema := .ofKind (.anyOf [acknowledgment, level, .ofKind (.listOf level)])
    let unified : Schema := .ofKind (.anyOf
      [.ofKind (.primitive .integer), .ofKind (.listOf (.ofKind (.primitive .integer)))])
    result.DistinctNames ∧ result.Collapsible ∧
      (result.unify false).run.run ⟨[], []⟩ = (.ok unified, ⟨[], []⟩) ∧
        unified.Every NoIntersection := by
  intro acknowledgment level result unified
  have hnames : result.DistinctNames := by decide
  have hcollapsible : result.Collapsible := .of_every (by decide)
  have hrun : (result.unify false).run.run ⟨[], []⟩ = (.ok unified, ⟨[], []⟩) := by rfl
  exact ⟨hnames, hcollapsible, hrun, noIntersection_unify hnames hcollapsible hrun⟩

/-- An event that delivers nothing but its acknowledgment: the acknowledgment stands as it is, an
intersection. -/
theorem not_noIntersection_acknowledged :
    ¬∀ (schema unified : Schema) (registry registry' : Registry), schema.DistinctNames →
      (schema.unify false).run.run registry = (.ok unified, registry') →
        unified.Every NoIntersection := by
  intro hclaim
  let listening : Schema := .ofKind (.object
    ⟨[("listening", .ofKind (.primitive .boolean))], [], .unstated, [], none⟩)
  let event : Schema := .ofKind (.object
    ⟨[("event", .ofKind (.primitive .string))], [], .unstated, [], none⟩)
  let acknowledgment : Schema := ⟨some "ListenResponse", none, .allOf [listening, event], []⟩
  have hrun : ((ofKind (.anyOf [acknowledgment])).unify false).run.run ⟨[], []⟩ =
      (.ok acknowledgment, ⟨[], []⟩) := by rfl
  have hunified := hclaim (ofKind (.anyOf [acknowledgment])) acknowledgment _ _ (by decide) hrun
  exact absurd hunified.own (by decide)

end Schema

end RpcSchema
