import RpcSchema.Proofs.Distinct
import RpcSchema.Proofs.Unification.Congruence

/-!
# Distributing over a union

The intersection of a preserved union with another schema is made of the intersections of its
branches with that schema, and branches that are in conflict with it are dropped.  A value that the
other schema and a branch accept is accepted by the intersection of the two, if there is one.  If
there is none, it is lost, but that can only be where the conflict does not rule out common values.

Of branches that are equal only the first one is left when the union is worked out.  It accepts what
the others accept, and is in conflict with the other schema if they are.  A union that comes down to
one branch does not distribute; there nothing is lost, for a conflict is one of the intersection
then.

## Main definitions

* `Schema.Offers` — a union of branches, or what is left of one that comes down to one branch.

## Main results

* `Intersection.accepts_of_distribute` — what a branch that is left accepts.
* `Schema.accepts_intersect_union`, `Schema.accepts_union_intersect` — a union on either side.
* `combine_all_distributes` — what is accepted by the intersection of a union and another schema.
-/

namespace RpcSchema

variable {ρ : Interpretation} {value : Json}

/-- **What a branch that is left accepts is accepted by the whole.** -/
theorem Intersection.accepts_of_distribute {merge : Schema → Except Conflict Schema}
    {other branch kept m : Schema} {branches : List Schema} (hbranch : branch ∈ branches)
    (hkept : merge branch = .ok kept) (hnames : kept.DistinctNames)
    (haccepts : kept.Accepts ρ value) (h : distribute merge other branches = .ok m) :
    m.Accepts ρ value := by
  have hmem : kept ∈ (branches.map merge).filterMap Except.toOption := by
    apply List.mem_filterMap.mpr
    exact ⟨.ok kept, List.mem_map.mpr ⟨branch, hbranch, hkept⟩, rfl⟩
  obtain ⟨left, hleft, hequal⟩ := exists_mem_distinct hmem (Schema.beq_self hnames)
  have hlefts : left.Accepts ρ value := haccepts.of_beq hnames hequal
  unfold distribute at h
  simp only at h
  generalize distinct ((branches.map merge).filterMap Except.toOption) = lefts at hleft h
  split at h
  · cases h
  · exact absurd hleft List.not_mem_nil
  · obtain rfl := Except.ok.inj h
    rwa [← List.mem_singleton.mp hleft]
  · obtain rfl := Except.ok.inj h
    exact Kind.accepts_anyOf_iff.mpr ⟨left, hleft, hlefts⟩

namespace Schema

open Intersection

variable {union operand m : Schema} {branches : List Schema} {branch : Schema}

/-- The schema offers the branches: it is a union of them, or has the shape of the only one. -/
def Offers (schema : Schema) (branches : List Schema) : Prop :=
  schema.kind = .anyOf branches ∨ ∃ lone, branches = [lone] ∧ schema.kind = lone.kind

/-- What a branch accepts is accepted by a schema that offers it. -/
theorem Offers.accepts (h : union.Offers branches) (hbranch : branch ∈ branches)
    (haccepts : branch.Accepts ρ value) : union.Accepts ρ value := by
  rcases h with h | ⟨lone, rfl, h⟩
  · rw [Accepts, h]
    exact Kind.accepts_anyOf_iff.mpr ⟨branch, hbranch, haccepts⟩
  · rw [Accepts, h, ← List.mem_singleton.mp hbranch]
    exact haccepts

/-- A schema that offers branches without compositions is a union, or has no compositions either. -/
theorem Offers.union_or_operand (h : union.Offers branches) (hnames : union.DistinctNames)
    (hbranches : ∀ branch ∈ branches, branch.Every Operand) :
    union.kind = .anyOf branches ∨ union.Every Operand := by
  rcases h with h | ⟨lone, rfl, h⟩
  · exact .inl h
  · have hlone := hbranches lone (List.mem_singleton_self _)
    refine .inr (hlone.of_kind_eq h ⟨hnames.own, ?_⟩)
    rw [Uncomposed, h]
    exact hlone.own.2

/-- A branch and the other schema, where they are not in conflict. -/
private theorem exists_accepts_intersect {a b : Schema} (ha : a.Every Operand)
    (hb : b.Every Operand) (hvalue : value.DistinctNames) (hleft : a.Accepts ρ value)
    (hright : b.Accepts ρ value) (h : ¬a.Conflicts b) :
    ∃ kept, a.intersect b = .ok kept ∧ kept.DistinctNames ∧ kept.Accepts ρ value := by
  cases hkept : a.intersect b with
  | error conflict => exact absurd ⟨conflict, hkept⟩ h
  | ok kept =>
    refine ⟨kept, rfl, ?_, intersectWithin_accepts ha hb hkept hvalue hleft hright⟩
    exact closed_namesApart.every_intersectWithin (ha.mono fun _ h => h.1) (hb.mono fun _ h => h.1)
      hkept

section Union

variable (hoffers : union.Offers branches) (hnames : union.DistinctNames)
  (hbranches : ∀ branch ∈ branches, branch.Every Operand) (hoperand : operand.Every Operand)
  (hvalue : value.DistinctNames) (hbranch : branch ∈ branches) (hleft : branch.Accepts ρ value)
  (hright : operand.Accepts ρ value)
include hoffers hnames hbranches hoperand hvalue hbranch hleft hright

/-- **A union on the left.** -/
theorem accepts_union_intersect (hconflicts : ¬branch.Conflicts operand)
    (h : union.intersect operand = .ok m) : m.Accepts ρ value := by
  have haccepts := hoffers.accepts hbranch hleft
  rcases hoffers.union_or_operand hnames hbranches with hunion | hunion
  · rw [intersect_eq hnames (hoperand.mono fun _ h => h.1)] at h
    split at h
    · obtain rfl := Except.ok.inj h
      exact haccepts
    rcases combine_cases h with ⟨kind, hmeets, rfl⟩ | ⟨others, hkind, hm⟩ | ⟨others, hkind, -⟩
    · rw [hunion] at hmeets
      show kind.Accepts ρ value
      -- A union is not enumerated and has no properties or items, so one side stands.
      generalize hl : operand.kind = l at hmeets
      cases hmeets with
      | left _ => rwa [← hunion]
      | right _ => rwa [← hl]
    · obtain rfl := Kind.anyOf.inj (hunion.symm.trans hkind)
      obtain ⟨kept, hkept, hdistinct, hall⟩ :=
        exists_accepts_intersect (hbranches branch hbranch) hoperand hvalue hleft hright hconflicts
      exact accepts_of_distribute hbranch hkept hdistinct hall hm
    · have huncomposed := hoperand.own.2
      rw [Uncomposed, hkind] at huncomposed
      cases huncomposed
  · exact intersectWithin_accepts hunion hoperand h hvalue haccepts hright

/-- **A union on the right.** -/
theorem accepts_intersect_union (hconflicts : ¬operand.Conflicts branch)
    (h : operand.intersect union = .ok m) : m.Accepts ρ value := by
  have haccepts := hoffers.accepts hbranch hleft
  rcases hoffers.union_or_operand hnames hbranches with hunion | hunion
  · rw [intersect_eq (hoperand.mono fun _ h => h.1) hnames] at h
    split at h
    · obtain rfl := Except.ok.inj h
      exact hright
    rcases combine_cases h with ⟨kind, hmeets, rfl⟩ | ⟨others, hkind, -⟩ | ⟨others, hkind, hm⟩
    · rw [hunion] at hmeets
      show kind.Accepts ρ value
      generalize hk : operand.kind = k at hmeets
      cases hmeets with
      | left _ => rwa [← hk]
      | right _ => rwa [← hunion]
    · have huncomposed := hoperand.own.2
      rw [Uncomposed, hkind] at huncomposed
      cases huncomposed
    · obtain rfl := Kind.anyOf.inj (hunion.symm.trans hkind)
      obtain ⟨kept, hkept, hdistinct, hall⟩ :=
        exists_accepts_intersect hoperand (hbranches branch hbranch) hvalue hright hleft hconflicts
      exact accepts_of_distribute hbranch hkept hdistinct hall hm
  · exact intersectWithin_accepts hoperand hunion h hvalue hright haccepts

end Union

/-! ### Unions that are worked out -/

/-- A union whose branches are worked out already offers the different ones of them. -/
theorem exists_unify_union (hunion : union.kind = .anyOf branches) (hnames : union.DistinctNames)
    (hbranches : ∀ branch ∈ branches, branch.Every Uncomposed) :
    ∃ unified, union.unify true = pure unified ∧ unified.DistinctNames ∧
      unified.Offers (distinct branches) := by
  obtain ⟨title, description, kind, extra⟩ := union
  obtain rfl : kind = .anyOf branches := hunion
  have hbranchNames : ∀ branch ∈ branches, branch.DistinctNames := hnames.parts
  have hitems : unifyItems true branches = pure branches := by
    apply unifyItems_eq_pure
    intro branch hmem
    exact unify_eq_pure (hbranchNames branch hmem)
      ((hbranches branch hmem).mono fun _ h => h.unified true)
  have hdistinct : ∀ branch ∈ distinct branches, branch.DistinctNames :=
    fun branch hmem => hbranchNames branch (mem_of_mem_distinct hmem)
  have hleft : (Union.ofBranches (distinct branches)).DistinctNames ∧
      (Union.ofBranches (distinct branches)).Offers (distinct branches) := by
    generalize distinct branches = lefts at hdistinct
    unfold Union.ofBranches
    split
    · next lone => exact ⟨hdistinct lone (List.mem_singleton_self _), .inr ⟨lone, rfl, rfl⟩⟩
    · exact ⟨.intro (.ofKind rfl rfl) hdistinct, .inl rfl⟩
  refine ⟨(Union.ofBranches (distinct branches)).overlay title description extra false, ?_, ?_,
    hleft.2⟩
  · rw [unify, if_pos rfl, hitems, pure_bind]
  · have hextra := distinctNames_foldl_set hleft.1.own.extra hnames.own.extra
    exact Every.of_kind_eq hleft.1 rfl ⟨hextra, hleft.1.own.literals, hleft.1.own.maps⟩

/-- A branch has an equal one among the different ones, which accepts the same values and has the
same conflicts. -/
theorem exists_left (hbranches : ∀ branch ∈ branches, branch.Every Operand)
    (hoperand : operand.Every Operand) (hmem : branch ∈ branches)
    (haccepts : branch.Accepts ρ value) :
    ∃ left ∈ distinct branches, left.Accepts ρ value ∧
      (left.Conflicts operand → branch.Conflicts operand) ∧
        (operand.Conflicts left → operand.Conflicts branch) := by
  have hnames : branch.DistinctNames := (hbranches branch hmem).mono fun _ h => h.1
  have hoperandNames : operand.DistinctNames := hoperand.mono fun _ h => h.1
  obtain ⟨left, hleft, hequal⟩ := exists_mem_distinct hmem (beq_self hnames)
  have hbranch := hbranches left (mem_of_mem_distinct hleft)
  have hequal' := beq_symm hnames hequal
  have hsame := beq_self hoperandNames
  refine ⟨left, hleft, haccepts.of_beq hnames hequal, ?_, ?_⟩
  · exact .of_beq hbranch hoperand hnames hoperandNames hequal' hsame
  · exact .of_beq hoperand hbranch hoperandNames hnames hsame hequal'

/-- The combination of two schemas is the intersection of what they are worked out to. -/
theorem intersect_of_combine {a b a' b' : Schema} {registry registry' : Registry}
    (ha : a.unify true = pure a') (hb : b.unify true = pure b')
    (h : (combine true .all [a, b]).run.run registry = (.ok m, registry')) :
    a'.intersect b' = .ok m := by
  simp only [combine, unifyItems, ha, hb, pure_bind, intersectAll, List.foldlM_cons,
    List.foldlM_nil, bind_pure] at h
  exact (Prod.mk.inj h).1

end Schema

/-- **What is accepted by the intersection of a union and another schema**: all values that the
schema and a branch accept which do not dispute what they have in common. -/
theorem combine_all_distributes (ρ : Interpretation) {union operand merged : Schema}
    {branches : List Schema} {registry registry' : Registry} {value : Json}
    (hunion : union.kind = .anyOf branches) (hnames : union.DistinctNames)
    (hbranches : ∀ branch ∈ branches, branch.Every Schema.Uncomposed)
    (hoperand : operand.DistinctNames) (huncomposed : operand.Every Schema.Uncomposed)
    (hvalue : value.DistinctNames) (haccepts : operand.Accepts ρ value) :
    ((combine true .all [union, operand]).run.run registry = (.ok merged, registry') →
      ∀ branch ∈ branches, branch.Accepts ρ value → ¬branch.Disputes operand →
        merged.Accepts ρ value) ∧
    ((combine true .all [operand, union]).run.run registry = (.ok merged, registry') →
      ∀ branch ∈ branches, branch.Accepts ρ value → ¬operand.Disputes branch →
        merged.Accepts ρ value) := by
  obtain ⟨unified, hunify, hunified, hoffers⟩ := Schema.exists_unify_union hunion hnames hbranches
  have hstands : operand.unify true = pure operand :=
    Schema.unify_eq_pure hoperand (huncomposed.mono fun _ h => h.unified true)
  have hright : operand.Every Schema.Operand := hoperand.and huncomposed
  have hoperands : ∀ branch ∈ branches, branch.Every Schema.Operand := by
    intro branch hmem
    have hdistinct : branch.DistinctNames := hnames.parts_of_kind_eq hunion branch hmem
    exact hdistinct.and (hbranches branch hmem)
  have hlefts : ∀ left ∈ distinct branches, left.Every Schema.Operand :=
    fun left hmem => hoperands left (mem_of_mem_distinct hmem)
  -- The branch may be a repetition; a branch equal to it is left, and accepts the same.
  constructor
  · intro h branch hmem hbranch hdisputes
    obtain ⟨left, hleft, hleftAccepts, hconflicts, -⟩ :=
      Schema.exists_left hoperands hright hmem hbranch
    have hmerged := Schema.intersect_of_combine hunify hstands h
    refine Schema.accepts_union_intersect hoffers hunified hlefts hright hvalue hleft hleftAccepts
      haccepts (fun h => hdisputes ⟨hconflicts h, ?_⟩) hmerged
    exact Schema.unsettled_of_conflicts (hoperands branch hmem) hright hvalue hbranch haccepts
      (hconflicts h)
  · intro h branch hmem hbranch hdisputes
    obtain ⟨left, hleft, hleftAccepts, -, hconflicts⟩ :=
      Schema.exists_left hoperands hright hmem hbranch
    have hmerged := Schema.intersect_of_combine hstands hunify h
    refine Schema.accepts_intersect_union hoffers hunified hlefts hright hvalue hleft hleftAccepts
      haccepts (fun h => hdisputes ⟨hconflicts h, ?_⟩) hmerged
    exact Schema.unsettled_of_conflicts hright (hoperands branch hmem) hvalue haccepts hbranch
      (hconflicts h)

/-- Of a text or a number only the text can be a colour: the branch that is dropped has no value in
common with the colours. -/
theorem combine_all_distributes_colors :
    let text : Schema := .ofKind (.primitive .string)
    let union : Schema := .ofKind (.anyOf [text, .ofKind (.primitive .number)])
    let colors : Schema := .ofKind (.enum (some .string) [.string "red", .string "green"])
    ∃ merged, (combine true .all [union, colors]).run.run ⟨[], []⟩ = (.ok merged, ⟨[], []⟩) ∧
      (combine true .all [colors, union]).run.run ⟨[], []⟩ = (.ok merged, ⟨[], []⟩) ∧
        ∀ ρ : Interpretation, merged.Accepts ρ (.string "red") := by
  intro text union colors
  have hrun : (combine true .all [union, colors]).run.run ⟨[], []⟩ = (.ok colors, ⟨[], []⟩) := by
    rfl
  have hrun' : (combine true .all [colors, union]).run.run ⟨[], []⟩ = (.ok colors, ⟨[], []⟩) := by
    rfl
  have hmeet : text.intersect colors = .ok colors := by rfl
  refine ⟨colors, hrun, hrun', fun ρ => ?_⟩
  have hcolors : colors.Accepts ρ (.string "red") := Kind.accepts_enum_iff.mpr (by decide)
  have htext : text.Accepts ρ (.string "red") := Kind.Accepts.primitive rfl
  refine (combine_all_distributes ρ (by rfl : union.kind = .anyOf _) (by decide) (by decide)
    (by decide) (by decide) (by decide) hcolors).1 hrun text List.mem_cons_self htext ?_
  rintro ⟨⟨conflict, h⟩, -⟩
  cases hmeet.symm.trans h

/-- The empty object is accepted where nothing is required. -/
theorem Kind.accepts_object_nil_iff {shape : ObjectSchema} :
    (Kind.object shape).Accepts ρ (.object []) ↔ shape.required = [] := by
  constructor
  · intro h
    obtain ⟨_, heq, hadmits⟩ := Kind.accepts_object_iff.mp h
    obtain rfl := Json.object.inj heq
    exact List.eq_nil_iff_forall_not_mem.mpr fun name hname =>
      absurd (hadmits.required name hname) List.not_mem_nil
  · intro h
    refine .object (by simp [h]) ?_ ?_ ?_ ?_ ?_
    · intro name schema value _ hvalue
      cases hvalue
    · intro pattern schema name value _ _ hvalue
      cases hvalue
    · intro _ name hname
      cases hname
    · intro schema _ name value _ hvalue
      cases hvalue
    · intro name hname
      cases hname

/-- A union of objects with a text `v` and of objects that require `w` meets objects with a flag
`v`.  The objects without `v` are lost, for the first branch is dropped. -/
theorem not_accepts_optionalProperty :
    ¬∀ (ρ : Interpretation) (union operand merged : Schema) (branches : List Schema)
      (registry registry' : Registry) (value : Json), union.kind = .anyOf branches →
      union.DistinctNames → (∀ branch ∈ branches, branch.Every Schema.Uncomposed) →
      operand.DistinctNames → operand.Every Schema.Uncomposed → value.DistinctNames →
      (combine true .all [union, operand]).run.run registry = (.ok merged, registry') →
      (∃ branch ∈ branches, branch.Accepts ρ value) → operand.Accepts ρ value →
        merged.Accepts ρ value := by
  intro hclaim
  let described (type : Primitive) : Schema :=
    .ofKind (.object ⟨[("v", .ofKind (.primitive type))], [], .unstated, [], none⟩)
  let requiring : Schema := .ofKind (.object ⟨[], ["w"], .unstated, [], none⟩)
  let merged : ObjectSchema :=
    ⟨[("v", .ofKind (.primitive .boolean))], ["w"], .unstated, [], none⟩
  have hrun : (combine true .all [.ofKind (.anyOf [described .string, requiring]),
      described .boolean]).run.run ⟨[], []⟩ = (.ok (.ofKind (.object merged)), ⟨[], []⟩) := by rfl
  have hdescribed : ∀ type, (described type).Accepts ⟨fun _ _ => True, fun _ _ => True, (· = ·)⟩
      (.object []) := fun type => Kind.accepts_object_nil_iff.mpr rfl
  have haccepts := hclaim _ _ _ _ _ _ _ _ rfl (by decide) (by decide) (by decide) (by decide)
    (by decide) hrun ⟨described .string, List.mem_cons_self, hdescribed .string⟩
    (hdescribed .boolean)
  cases Kind.accepts_object_nil_iff.mp haccepts

end RpcSchema
