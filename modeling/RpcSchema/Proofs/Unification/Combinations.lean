import RpcSchema.Proofs.Unification.Outlines

/-!
# Combinations of objects

The combination of a list of objects has the outline that the fold of their outlines has, and what
that is can be told of the list as a whole.

An intersection goes by the closed objects: a name of a property stays if all of them declare it,
whether it comes before or behind the closed object that would drop it.  In a union all names stay.
The lists grow at their ends, as the fold goes, so the induction is on the list from its end.

That an object which says nothing of undeclared properties takes on what the other says is harmless
in an intersection.  A union, however, is closed beside closed objects by an object that was open
for it said nothing.

## Main results

* `ensures_combine_outline` — the outline of a combination is the fold of the outlines.
* `Outline.keys_foldl_meet`, `Outline.keys_foldl_join` — the names of a list of objects.
* `combine_objects` — the outline of a combination of objects.
* `combine_any_isClosed_iff` — when a union of objects is closed.
-/

namespace RpcSchema

/-! ### Combining a list of objects -/

/-- The outline of a combination of two objects. -/
def Outline.merge : Mode → Outline → Outline → Outline
  | .all => meet
  | .any => join

theorem Outline.nodup_keys_merge {mode : Mode} {x y : Outline} (hx : x.keys.Nodup)
    (hy : y.keys.Nodup) : (Outline.merge mode x y).keys.Nodup := by
  cases mode <;> exact nodup_metNames hx hy

namespace Schema

variable {schemas : List Schema} {first : Schema} {x : Outline} {outlines : List Outline}

theorem outline?_foldlM_intersect {merged : Schema} (hfirst : first.outline? = some x)
    (hx : x.keys.Nodup) (hrest : schemas.map outline? = outlines.map some)
    (houtlines : ∀ y ∈ outlines, y.keys.Nodup) (h : schemas.foldlM intersect first = .ok merged) :
    merged.outline? = some (outlines.foldl (Outline.merge .all) x) := by
  induction schemas generalizing first x outlines with
  | nil =>
    obtain rfl := List.map_eq_nil_iff.mp hrest.symm
    obtain rfl := Except.ok.inj h
    exact hfirst
  | cons next rest ih =>
    obtain ⟨y, others, rfl, hnext, hothers⟩ := List.map_eq_cons_iff.mp hrest.symm
    obtain ⟨hy, hnodup⟩ := List.forall_mem_cons.mp houtlines
    obtain ⟨m, hm, h⟩ := bind_eq_ok_iff.mp h
    have hmeet := outline?_intersect hfirst hnext.symm hx hy hm
    rw [List.foldl_cons]
    exact ih hmeet (Outline.nodup_keys_merge hx hy) hothers.symm hnodup h

theorem ensures_uniteAll_outline (hfirst : first.outline? = some x) (hx : x.keys.Nodup)
    (hrest : schemas.map outline? = outlines.map some) (houtlines : ∀ y ∈ outlines, y.keys.Nodup) :
    (uniteAll first schemas).Ensures fun merged =>
      merged.outline? = some (outlines.foldl (Outline.merge .any) x) := by
  induction schemas generalizing first x outlines with
  | nil =>
    obtain rfl := List.map_eq_nil_iff.mp hrest.symm
    exact .pure hfirst
  | cons next rest ih =>
    obtain ⟨y, others, rfl, hnext, hothers⟩ := List.map_eq_cons_iff.mp hrest.symm
    obtain ⟨hy, hnodup⟩ := List.forall_mem_cons.mp houtlines
    rw [List.foldl_cons]
    refine (ensures_unite_outline hfirst hnext.symm hx hy).bind fun merged hmerged => ?_
    exact ih hmerged (Outline.nodup_keys_merge hx hy) hothers.symm hnodup

/-- Unification goes into the schemas of an object and leaves its outline. -/
theorem ensures_unify_outline {schema : Schema} (preserveUnions : Bool)
    (h : schema.outline? = some x) :
    (schema.unify preserveUnions).Ensures fun unified => unified.outline? = some x := by
  obtain ⟨shape, hkind, rfl⟩ := outline?_eq_some_iff.mp h
  have hparts : ∀ part ∈ schema.kind.parts, (part.unify preserveUnions).Ensures fun _ => True :=
    fun _ _ _ _ _ _ => trivial
  have hplain : schema.kind.isComposition = false := by
    rw [hkind]
    rfl
  refine (Unifying.judgement_ensures.unify_rebuilt (r := fun _ _ => True) hplain hparts).mono ?_
  rintro _ ⟨kind, hrebuilt, rfl⟩
  rw [hkind] at hrebuilt
  cases hrebuilt with
  | object hshape => exact congrArg some hshape.outline_eq
  | leaf hleaf => cases hleaf

theorem ensures_unifyItems_outline (preserveUnions : Bool)
    (h : schemas.map outline? = outlines.map some) :
    (unifyItems preserveUnions schemas).Ensures fun unified =>
      unified.map outline? = outlines.map some := by
  induction schemas generalizing outlines with
  | nil =>
    rw [unifyItems]
    exact .pure h
  | cons schema rest ih =>
    obtain ⟨y, others, rfl, hschema, hothers⟩ := List.map_eq_cons_iff.mp h.symm
    rw [unifyItems]
    refine (ensures_unify_outline preserveUnions hschema.symm).bind fun unified hunified => ?_
    refine (ih hothers.symm).bind fun unifieds hunifieds => .pure ?_
    rw [List.map_cons, List.map_cons, hunified, hunifieds]

end Schema

/-- **The outline of a combination of objects** is the fold of their outlines. -/
theorem ensures_combine_outline {preserveUnions : Bool} {mode : Mode} {schemas : List Schema}
    {x : Outline} {outlines : List Outline}
    (h : schemas.map Schema.outline? = (x :: outlines).map some)
    (hpayload : ∀ schema ∈ schemas, schema.isAcknowledgment = false)
    (hkeys : ∀ y ∈ x :: outlines, y.keys.Nodup) :
    (combine preserveUnions mode schemas).Ensures fun merged =>
      merged.outline? = some (outlines.foldl (Outline.merge mode) x) := by
  obtain ⟨hx, houtlines⟩ := List.forall_mem_cons.mp hkeys
  cases mode with
  | all =>
    rw [combine]
    refine (Schema.ensures_unifyItems_outline preserveUnions h).bind fun unified hunified => ?_
    obtain ⟨first, rest, rfl, hfirst, hrest⟩ := List.map_eq_cons_iff.mp hunified
    apply Unifying.Ensures.of_outcome
    intro merged hmerged
    exact Schema.outline?_foldlM_intersect hfirst hx hrest houtlines hmerged
  | any =>
    rw [combine, Schema.unifyPayloads_eq_unifyItems hpayload]
    refine (Schema.ensures_unifyItems_outline preserveUnions h).bind fun unified hunified => ?_
    obtain ⟨first, rest, rfl, hfirst, hrest⟩ := List.map_eq_cons_iff.mp hunified
    exact Schema.ensures_uniteAll_outline hfirst hx hrest houtlines

/-! ### Folds of outlines -/

namespace Undeclared

variable {x : Undeclared} {others : List Undeclared}

theorem foldl_meet_eq_forbidden_iff :
    others.foldl meet x = .forbidden ↔ .forbidden ∈ x :: others := by
  induction others generalizing x with
  | nil => simp [eq_comm]
  | cons y others ih =>
    rw [List.foldl_cons, ih, List.mem_cons, List.mem_cons, List.mem_cons, eq_comm,
      meet_eq_forbidden_iff, or_assoc]
    simp [eq_comm]

theorem foldl_join_eq_forbidden_iff :
    others.foldl join x = .forbidden ↔
      .forbidden ∈ x :: others ∧ ∀ y ∈ x :: others, y = .forbidden ∨ y = .unstated := by
  induction others generalizing x with
  | nil => cases x <;> simp
  | cons y others ih =>
    have hjoin : x.join y = .forbidden ∨ x.join y = .unstated ↔
        (x = .forbidden ∨ x = .unstated) ∧ (y = .forbidden ∨ y = .unstated) := by
      cases x <;> cases y <;> decide
    -- The first two states of the list, taken together.
    have hmem : .forbidden ∈ x.join y :: others ∧ (x.join y = .forbidden ∨ x.join y = .unstated) ↔
        .forbidden ∈ x :: y :: others ∧ (x = .forbidden ∨ x = .unstated) ∧
          (y = .forbidden ∨ y = .unstated) := by
      rw [hjoin, List.mem_cons, List.mem_cons, List.mem_cons]
      cases x <;> cases y <;> simp [join]
    rw [List.foldl_cons, ih, List.forall_mem_cons, List.forall_mem_cons, List.forall_mem_cons,
      ← and_assoc, hmem, and_assoc, and_assoc]

end Undeclared

namespace Outline

variable {x : Outline} {outlines : List Outline}

theorem undeclared_foldl_meet :
    (outlines.foldl meet x).undeclared
      = (outlines.map undeclared).foldl Undeclared.meet x.undeclared := by
  rw [List.foldl_map]
  exact (List.foldl_hom undeclared fun _ _ => rfl).symm

theorem undeclared_foldl_join :
    (outlines.foldl join x).undeclared
      = (outlines.map undeclared).foldl Undeclared.join x.undeclared := by
  rw [List.foldl_map]
  exact (List.foldl_hom undeclared fun _ _ => rfl).symm

theorem closed_iff : x.closed = true ↔ x.undeclared = .forbidden := decide_eq_true_iff

/-- An intersection is closed when one of the objects is. -/
theorem closed_foldl_meet :
    (outlines.foldl meet x).closed = true ↔ ∃ y ∈ x :: outlines, y.closed = true := by
  rw [closed_iff, undeclared_foldl_meet, Undeclared.foldl_meet_eq_forbidden_iff, ← List.map_cons,
    List.mem_map]
  simp only [closed_iff]

/-- **A union is closed** when one of the objects is, and the others are closed or say nothing. -/
theorem closed_foldl_join :
    (outlines.foldl join x).closed = true ↔ (∃ y ∈ x :: outlines, y.closed = true) ∧
      ∀ y ∈ x :: outlines, y.closed = true ∨ y.undeclared = .unstated := by
  rw [closed_iff, undeclared_foldl_join, Undeclared.foldl_join_eq_forbidden_iff, ← List.map_cons,
    List.mem_map, List.forall_mem_map]
  simp only [closed_iff]

/-- One object more in an intersection.  The names so far are those of `seen` that are allowed,
which are all of them unless an object was closed; and if one was, no others are allowed. -/
private theorem metNames_filter {leftClosed rightClosed : Bool} {seen ys : List String}
    {allows : String → Bool} (hopen : leftClosed = false → ∀ name, allows name = true)
    (hclosed : leftClosed = true → ∀ name, allows name = true → name ∈ seen) :
    metNames leftClosed rightClosed (seen.filter allows) ys
      = (seen ++ ys.filter fun name => !seen.contains name).filter fun name =>
          allows name && (!rightClosed || ys.contains name) := by
  have hold : (seen.filter allows).filter (fun name => !rightClosed || ys.contains name)
      = seen.filter fun name => allows name && (!rightClosed || ys.contains name) := by
    rw [List.filter_filter]
    apply List.filter_congr
    intro name _
    rw [Bool.and_comm]
  have hnew : ys.filter (fun name => !leftClosed && !(seen.filter allows).contains name)
      = (ys.filter fun name => !seen.contains name).filter fun name =>
          allows name && (!rightClosed || ys.contains name) := by
    rw [List.filter_filter]
    apply List.filter_congr
    intro name hname
    cases leftClosed with
    | false =>
      have hallows := hopen rfl name
      simp [hallows, hname]
    | true =>
      have hseen := hclosed rfl name
      cases hallows : allows name with
      | false => rfl
      | true => simp [hseen hallows]
  rw [metNames, hold, hnew, List.filter_append]

/-- **The names of an intersection** are those that no closed object drops, as they are first
seen.  The list grows at its end, as the fold goes. -/
theorem keys_foldl_meet (h : ∀ y ∈ x :: outlines, y.keys.Nodup) :
    (outlines.foldl meet x).keys = (distinct ((x :: outlines).flatMap keys)).filter fun name =>
      (x :: outlines).all fun y => y.lets name := by
  induction outlines using List.reverseRecOn with
  | nil =>
    have hx := h x List.mem_cons_self
    rw [List.foldl_nil, List.flatMap_singleton, distinct_of_nodup hx, eq_comm, List.filter_eq_self]
    intro name hname
    simp [lets, hname]
  | append_singleton done y ih =>
    rw [← List.cons_append] at h ⊢
    obtain ⟨hdone, hy⟩ := List.forall_mem_append.mp h
    replace hy := hy y (List.mem_singleton_self y)
    replace ih := ih hdone
    rw [List.foldl_append, List.foldl_cons, List.foldl_nil, meet, ih, List.flatMap_append,
      List.flatMap_singleton, distinct_append_of_nodup hy, metNames_filter]
    · simp only [List.all_append, List.all_cons, List.all_nil, Bool.and_true]
      rfl
    -- No object so far is closed, so every name is let through.
    · intro hopen name
      rw [List.all_eq_true]
      intro z hz
      have hzopen : z.closed = false := by
        apply Bool.eq_false_iff.mpr
        intro hzclosed
        have hclosed := closed_foldl_meet.mpr ⟨z, hz, hzclosed⟩
        rw [hopen] at hclosed
        cases hclosed
      rw [lets, hzopen]
      rfl
    -- What a closed object so far lets through it declares.
    · intro hclosed name hallows
      obtain ⟨z, hz, hzclosed⟩ := closed_foldl_meet.mp hclosed
      have hlets := List.all_eq_true.mp hallows z hz
      rw [lets, hzclosed] at hlets
      rw [mem_distinct, List.mem_flatMap]
      exact ⟨z, hz, List.contains_iff_mem.mp hlets⟩

/-- The names required by an intersection are those that one of the objects requires. -/
theorem required_foldl_meet (hx : x.required.Nodup) :
    (outlines.foldl meet x).required = distinct ((x :: outlines).flatMap required) := by
  induction outlines using List.reverseRecOn with
  | nil => rw [List.foldl_nil, List.flatMap_singleton, distinct_of_nodup hx]
  | append_singleton done y ih =>
    rw [List.foldl_append, List.foldl_cons, List.foldl_nil, meet, ih, ← List.cons_append,
      List.flatMap_append, List.flatMap_singleton, distinct_append]

/-- **The names of a union** are those of all objects, as they are first seen. -/
theorem keys_foldl_join (h : ∀ y ∈ x :: outlines, y.keys.Nodup) :
    (outlines.foldl join x).keys = distinct ((x :: outlines).flatMap keys) := by
  induction outlines using List.reverseRecOn with
  | nil =>
    rw [List.foldl_nil, List.flatMap_singleton, distinct_of_nodup (h x List.mem_cons_self)]
  | append_singleton done y ih =>
    rw [← List.cons_append] at h ⊢
    obtain ⟨hdone, hy⟩ := List.forall_mem_append.mp h
    rw [List.foldl_append, List.foldl_cons, List.foldl_nil, join, ih hdone,
      metNames_open (hy y (List.mem_singleton_self y)), List.flatMap_append,
      List.flatMap_singleton, distinct_append]

/-- The names required by a union are those that all objects require. -/
theorem required_foldl_join (h : ∀ y ∈ x :: outlines, y.required.Nodup) :
    (outlines.foldl join x).required
      = (distinct ((x :: outlines).flatMap required)).filter fun name =>
          (x :: outlines).all fun y => y.required.contains name := by
  induction outlines using List.reverseRecOn with
  | nil =>
    have hx := h x List.mem_cons_self
    rw [List.foldl_nil, List.flatMap_singleton, distinct_of_nodup hx, eq_comm, List.filter_eq_self]
    intro name hname
    simp [hname]
  | append_singleton done y ih =>
    rw [← List.cons_append] at h ⊢
    obtain ⟨hdone, hy⟩ := List.forall_mem_append.mp h
    -- A name that is new with the last object is not required by the first.
    have hnew : (y.required.filter fun name =>
        !(distinct ((x :: done).flatMap required)).contains name).filter (fun name =>
          ((x :: done) ++ [y]).all fun y => y.required.contains name) = [] := by
      rw [List.filter_eq_nil_iff]
      intro name hname hall
      have hmissing := (List.mem_filter.mp hname).2
      have hx := List.all_eq_true.mp hall x List.mem_cons_self
      have hmem : name ∈ distinct ((x :: done).flatMap required) :=
        mem_distinct.mpr (List.mem_flatMap.mpr ⟨x, List.mem_cons_self, List.contains_iff_mem.mp hx⟩)
      rw [List.contains_iff_mem.mpr hmem] at hmissing
      cases hmissing
    rw [List.foldl_append, List.foldl_cons, List.foldl_nil, join, ih hdone, List.flatMap_append,
      List.flatMap_singleton, distinct_append_of_nodup (hy y (List.mem_singleton_self y)),
      List.filter_append, hnew, List.append_nil, List.filter_filter]
    apply List.filter_congr
    intro name _
    have hlast : ([y].all fun z => z.required.contains name) = y.required.contains name := by simp
    rw [List.all_append, hlast, Bool.and_comm]

end Outline

/-! ### Combinations of objects -/

section Combine

variable {preserveUnions : Bool} {mode : Mode} {schemas : List Schema} {shapes : List ObjectSchema}
  {registry registry' : Registry} {merged : Schema}

/-- What a combination of objects comes to, with the outline that the fold of theirs has. -/
private theorem exists_outline_combine (hne : schemas ≠ [])
    (hkinds : schemas.map Schema.kind = shapes.map Kind.object)
    (hkeys : ∀ shape ∈ shapes, (Fields.keys shape.properties).Nodup)
    (hpayload : ∀ schema ∈ schemas, schema.isAcknowledgment = false)
    (h : (combine preserveUnions mode schemas).run.run registry = (.ok merged, registry')) :
    ∃ shape first rest, merged.kind = .object shape ∧ shapes = first :: rest ∧
      shape.outline = (rest.map ObjectSchema.outline).foldl (Outline.merge mode) first.outline := by
  have houtlines : schemas.map Schema.outline? = shapes.map fun shape => some shape.outline := by
    have hmap := congrArg (List.map fun kind => (Schema.ofKind kind).outline?) hkinds
    rwa [List.map_map, List.map_map] at hmap
  cases shapes with
  | nil => exact absurd (List.map_eq_nil_iff.mp hkinds) hne
  | cons first rest =>
    have hnodup : ∀ outline ∈ (first :: rest).map ObjectSchema.outline, outline.keys.Nodup :=
      List.forall_mem_map.mpr hkeys
    have hfold : schemas.map Schema.outline?
        = (first.outline :: rest.map ObjectSchema.outline).map some := by
      rw [houtlines, ← List.map_cons, List.map_map]
      rfl
    have houtline := ensures_combine_outline hfold hpayload hnodup registry merged registry' h
    obtain ⟨shape, hkind, hshape⟩ := Schema.outline?_eq_some_iff.mp houtline
    exact ⟨shape, first, rest, hkind, rfl, hshape⟩

/-- What an object has whose outline is that of an intersection of objects. -/
theorem ObjectSchema.of_foldl_meet {shape first : ObjectSchema} {rest : List ObjectSchema}
    (hkeys : ∀ operand ∈ first :: rest, (Fields.keys operand.properties).Nodup)
    (hrequired : first.required.Nodup)
    (h : shape.outline = (rest.map outline).foldl Outline.meet first.outline) :
    Fields.keys shape.properties
        = ((distinct ((first :: rest).flatMap fun operand => Fields.keys operand.properties)).filter
          fun name => (first :: rest).all fun operand =>
            !operand.additional.isClosed || (Fields.keys operand.properties).contains name) ∧
      shape.required = distinct ((first :: rest).flatMap ObjectSchema.required) ∧
      (shape.additional.isClosed = true ↔
        ∃ operand ∈ first :: rest, operand.additional.isClosed = true) := by
  have hnodup : ∀ x ∈ (first :: rest).map outline, x.keys.Nodup :=
    List.forall_mem_map.mpr hkeys
  refine ⟨?_, ?_, ?_⟩
  · show shape.outline.keys = _
    rw [h, Outline.keys_foldl_meet hnodup, ← List.map_cons, List.flatMap_map]
    apply List.filter_congr
    intro name _
    rw [List.all_map]
    congr 1
    funext operand
    rw [Function.comp_apply, Outline.lets, operand.closed_outline]
    rfl
  · show shape.outline.required = _
    rw [h, Outline.required_foldl_meet hrequired, ← List.map_cons, List.flatMap_map]
    rfl
  · rw [← shape.closed_outline, h, Outline.closed_foldl_meet, ← List.map_cons]
    simp only [List.mem_map, exists_exists_and_eq_and, closed_outline]

/-- What an object has whose outline is that of a union of objects. -/
theorem ObjectSchema.of_foldl_join {shape first : ObjectSchema} {rest : List ObjectSchema}
    (hkeys : ∀ operand ∈ first :: rest, (Fields.keys operand.properties).Nodup)
    (hrequired : ∀ operand ∈ first :: rest, operand.required.Nodup)
    (h : shape.outline = (rest.map outline).foldl Outline.join first.outline) :
    Fields.keys shape.properties
        = distinct ((first :: rest).flatMap fun operand => Fields.keys operand.properties) ∧
      shape.required = (distinct ((first :: rest).flatMap ObjectSchema.required)).filter fun name =>
        (first :: rest).all fun operand => operand.required.contains name := by
  have hnodup : ∀ x ∈ (first :: rest).map outline, x.keys.Nodup :=
    List.forall_mem_map.mpr hkeys
  have hnodup' : ∀ x ∈ (first :: rest).map outline, x.required.Nodup :=
    List.forall_mem_map.mpr hrequired
  constructor
  · show shape.outline.keys = _
    rw [h, Outline.keys_foldl_join hnodup, ← List.map_cons, List.flatMap_map]
    rfl
  · show shape.outline.required = _
    rw [h, Outline.required_foldl_join hnodup', ← List.map_cons, List.flatMap_map]
    apply List.filter_congr
    intro name _
    rw [List.all_map]
    rfl

/-- **The outline of a combination of objects.**  The names of the properties of an intersection are
those that some object declares and every closed one does; it requires what one of them requires,
and is closed when one of them is.  A union has the names of all objects, and requires what all of
them require.  Names stand in the order in which they are first seen, and once. -/
theorem combine_objects (hne : schemas ≠ [])
    (hkinds : schemas.map Schema.kind = shapes.map Kind.object)
    (hkeys : ∀ shape ∈ shapes, (Fields.keys shape.properties).Nodup)
    (hrequired : ∀ shape ∈ shapes, shape.required.Nodup)
    (hpayload : ∀ schema ∈ schemas, schema.isAcknowledgment = false)
    (h : (combine preserveUnions mode schemas).run.run registry = (.ok merged, registry')) :
    let declared := distinct (shapes.flatMap fun shape => Fields.keys shape.properties)
    let required := distinct (shapes.flatMap ObjectSchema.required)
    ∃ shape, merged.kind = .object shape ∧
      (mode = .all →
        Fields.keys shape.properties = (declared.filter fun name => shapes.all fun operand =>
            !operand.additional.isClosed || (Fields.keys operand.properties).contains name) ∧
          shape.required = required ∧
          (shape.additional.isClosed = true ↔
            ∃ operand ∈ shapes, operand.additional.isClosed = true)) ∧
      (mode = .any → Fields.keys shape.properties = declared ∧
        shape.required = required.filter fun name =>
          shapes.all fun operand => operand.required.contains name) := by
  intro declared required
  obtain ⟨shape, first, rest, hkind, rfl, hshape⟩ :=
    exists_outline_combine hne hkinds hkeys hpayload h
  refine ⟨shape, hkind, ?_, ?_⟩
  · rintro rfl
    exact ObjectSchema.of_foldl_meet hkeys (hrequired first List.mem_cons_self) hshape
  · rintro rfl
    exact ObjectSchema.of_foldl_join hkeys hrequired hshape

/-- A closed page of entries beside an open entry: the note, which the page does not declare, is
dropped, but the page itself stays. -/
theorem combine_objects_page :
    let text := Schema.ofKind (.primitive .string)
    let entry : ObjectSchema := ⟨[("note", text), ("id", text)], ["id"], .unstated, [], none⟩
    let page : ObjectSchema := ⟨[("page", text), ("id", text)], ["page", "id"], .allowed false, [],
      none⟩
    let schemas := [Schema.ofKind (.object entry), Schema.ofKind (.object page)]
    ∃ merged shape, (combine true .all schemas).run.run ⟨[], []⟩ = (.ok merged, ⟨[], []⟩) ∧
      merged.kind = .object shape ∧ Fields.keys shape.properties = ["id", "page"] ∧
      shape.required = ["id", "page"] ∧ shape.additional.isClosed = true := by
  intro text entry page schemas
  let merged : Schema := .ofKind (.object
    ⟨[("id", text), ("page", text)], ["id", "page"], .allowed false, [], none⟩)
  have hrun : (combine true .all schemas).run.run ⟨[], []⟩ = (.ok merged, ⟨[], []⟩) := by rfl
  have hkinds : schemas.map Schema.kind = [entry, page].map Kind.object := rfl
  obtain ⟨shape, hkind, hall, -⟩ := combine_objects (List.cons_ne_nil _ _) hkinds (by decide)
    (by decide) (by decide) hrun
  obtain ⟨hkeys, hrequired, hclosed⟩ := hall rfl
  refine ⟨merged, shape, hrun, hkind, ?_, ?_, hclosed.mpr ⟨page, by simp, rfl⟩⟩
  · rw [hkeys]
    decide
  · rw [hrequired]
    decide

/-- **When a union of objects is closed**: one of the objects is closed, and the others are closed
or say nothing of undeclared properties, though that leaves them open.  Where all say something of
them, it is closed only if all objects are. -/
theorem combine_any_isClosed_iff (hne : schemas ≠ [])
    (hkinds : schemas.map Schema.kind = shapes.map Kind.object)
    (hkeys : ∀ shape ∈ shapes, (Fields.keys shape.properties).Nodup)
    (hpayload : ∀ schema ∈ schemas, schema.isAcknowledgment = false)
    (h : (combine preserveUnions .any schemas).run.run registry = (.ok merged, registry')) :
    ∃ shape, merged.kind = .object shape ∧
      (shape.additional.isClosed = true ↔
        (∃ operand ∈ shapes, operand.additional.isClosed = true) ∧
          ∀ operand ∈ shapes,
            operand.additional.isClosed = true ∨ operand.additional = .unstated) ∧
      ((∀ operand ∈ shapes, operand.additional ≠ .unstated) → shape.additional.isClosed = true →
        ∀ operand ∈ shapes, operand.additional.isClosed = true) := by
  obtain ⟨shape, first, rest, hkind, rfl, hshape⟩ :=
    exists_outline_combine hne hkinds hkeys hpayload h
  have hjoin : shape.outline = (rest.map ObjectSchema.outline).foldl Outline.join first.outline :=
    hshape
  -- Whether a union is closed is read off the outlines of its operands, joined in their order.
  have hunstated : ∀ operand : ObjectSchema,
      operand.outline.undeclared = .unstated ↔ operand.additional = .unstated := by
    intro operand
    show operand.additional.outline = .unstated ↔ _
    cases operand.additional with
    | allowed flag => cases flag <;> simp [Additional.outline]
    | _ => simp [Additional.outline]
  have hclosed : shape.additional.isClosed = true ↔
      (∃ operand ∈ first :: rest, operand.additional.isClosed = true) ∧
        ∀ operand ∈ first :: rest,
          operand.additional.isClosed = true ∨ operand.additional = .unstated := by
    rw [← shape.closed_outline, hjoin, Outline.closed_foldl_join, ← List.map_cons,
      List.forall_mem_map]
    simp only [List.mem_map, exists_exists_and_eq_and, ObjectSchema.closed_outline, hunstated]
  refine ⟨shape, hkind, hclosed, ?_⟩
  intro hstated hshut operand hmem
  rcases (hclosed.mp hshut).2 operand hmem with hoperand | hoperand
  · exact hoperand
  · exact absurd hoperand (hstated operand hmem)

/-- Two closed objects: their union is closed only because both are. -/
theorem combine_any_isClosed_iff_closedPair :
    let text := Schema.ofKind (.primitive .string)
    let created : ObjectSchema := ⟨[("created", text)], [], .allowed false, [], none⟩
    let deleted : ObjectSchema := ⟨[("deleted", text)], [], .allowed false, [], none⟩
    let schemas := [Schema.ofKind (.object created), Schema.ofKind (.object deleted)]
    ∃ merged shape, (combine false .any schemas).run.run ⟨[], []⟩ = (.ok merged, ⟨[], []⟩) ∧
      merged.kind = .object shape ∧ (shape.additional.isClosed = true →
        ∀ operand ∈ [created, deleted], operand.additional.isClosed = true) := by
  intro text created deleted schemas
  let merged : Schema := .ofKind (.object
    ⟨[("created", text), ("deleted", text)], [], .allowed false, [], none⟩)
  have hrun : (combine false .any schemas).run.run ⟨[], []⟩ = (.ok merged, ⟨[], []⟩) := by rfl
  have hkinds : schemas.map Schema.kind = [created, deleted].map Kind.object := rfl
  obtain ⟨shape, hkind, -, hstated⟩ := combine_any_isClosed_iff (List.cons_ne_nil _ _) hkinds
    (by decide) (by decide) hrun
  refine ⟨merged, shape, hrun, hkind, hstated ?_⟩
  simp [created, deleted]

/-- An object that says nothing of undeclared properties is open, and is closed in a union with a
closed one. -/
theorem not_isClosed_unstated :
    ¬∀ (schemas : List Schema) (shapes : List ObjectSchema) (registry registry' : Registry)
      (merged : Schema) (shape : ObjectSchema), schemas.map Schema.kind = shapes.map Kind.object →
      (∀ schema ∈ schemas, schema.isAcknowledgment = false) →
      (combine false .any schemas).run.run registry = (.ok merged, registry') →
      merged.kind = .object shape → shape.additional.isClosed = true →
        ∀ operand ∈ shapes, operand.additional.isClosed = true := by
  intro hclaim
  let open' : ObjectSchema := ⟨[], [], .unstated, [], none⟩
  let closed : ObjectSchema := ⟨[], [], .allowed false, [], none⟩
  have hrun : (combine false .any [.ofKind (.object open'), .ofKind (.object closed)]).run.run
      ⟨[], []⟩ = (.ok (.ofKind (.object closed)), ⟨[], []⟩) := by rfl
  have hopen := hclaim _ [open', closed] _ _ _ closed rfl (by decide) hrun rfl rfl open'
    List.mem_cons_self
  exact absurd hopen (by decide)

end Combine

end RpcSchema
