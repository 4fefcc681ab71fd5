import Mathlib.Data.List.Induction
import RpcSchema.Proofs.Distinct
import RpcSchema.Proofs.Unification.Objects

/-!
# How two schemas intersect

The intersection of two schemas is told here without its algorithm.  Of two shapes either
the narrower one stands, or they are both enumerations, objects or arrays of items, whose
parts meet; a union distributes.

From this it follows once for all properties of schemas what intersections keep: a property
that passes to the shape in which two shapes meet, and to unions of what is left of the
branches of a union, holds at every depth of an intersection.

## Main definitions

* `Intersection.Meets` — the shape in which two shapes meet.
* `Intersection.Closed` — the properties of schemas that intersections keep.

## Main results

* `Intersection.combine_cases` — everything an intersection can be.
* `Intersection.every_intersectAll`, `Intersection.Closed.every_intersectAll` — what holds at
  every depth of all schemas holds at every depth of their intersection.
-/

namespace RpcSchema

/-! ### Shapes that meet -/

/-- Of two types that meet, one is the narrower. -/
theorem Primitive.meet?_cases {p q type : Primitive} (h : p.meet? q = some type) :
    (type = p ∧ (Kind.primitive p).Narrower (.primitive q)) ∨
      (type = q ∧ (Kind.primitive q).Narrower (.primitive p)) := by
  unfold Primitive.meet? at h
  split at h
  · exact .inl ⟨(Option.some.inj h).symm, .integer⟩
  · exact .inr ⟨(Option.some.inj h).symm, .integer⟩
  · split at h
    · next heq =>
      subst heq
      exact .inl ⟨(Option.some.inj h).symm, .primitive p⟩
    · cases h

namespace Intersection

variable {merge : Schema → Schema → Except Conflict Schema} {a b m : Schema}

/-- The shape in which two shapes meet. -/
inductive Meets (merge : Schema → Schema → Except Conflict Schema) : Kind → Kind → Kind → Prop
  | left {k l : Kind} (h : k.Narrower l) : Meets merge k l k
  | right {k l : Kind} (h : l.Narrower k) : Meets merge k l l
  | enums (p q : Option Primitive) (xs ys : List Json) :
      Meets merge (.enum p xs) (.enum q ys) (.enumOf (xs.filter ys.contains))
  | objects {x y shape : ObjectSchema} (h : objects merge x y = .ok shape) :
      Meets merge (.object x) (.object y) (.object shape)
  | items {x y item : Schema} (h : merge x y = .ok item) :
      Meets merge (.listOf x) (.listOf y) (.listOf item)

private theorem of_ite_eq_ok {c : Prop} [Decidable c] {conflict : Conflict}
    (h : (if c then .ok a else .error conflict : Except Conflict Schema) = .ok m) :
    c ∧ (.ok a : Except Conflict Schema) = .ok m := by
  split at h
  · next hc => exact ⟨hc, h⟩
  · cases h

/-- **Everything that an intersection can be**: both shapes meet in one, which takes the
titles, descriptions and kept keywords of both schemas, or a union on one side
distributes. -/
theorem combine_cases (h : combine merge a b = .ok m) :
    (∃ kind, Meets merge a.kind b.kind kind ∧ m = a.joined b (a.sharedExtra b) kind) ∨
      (∃ branches, a.kind = .anyOf branches ∧
        distribute (fun branch => merge branch b) b branches = .ok m) ∨
      ∃ branches, b.kind = .anyOf branches ∧
        distribute (fun branch => merge a branch) a branches = .ok m := by
  have hkeep : ∀ {k l kind}, a.kind = k → b.kind = l → Meets merge k l kind →
      (.ok (a.joined b (a.sharedExtra b) kind) : Except Conflict Schema) = .ok m →
      ∃ kind, Meets merge a.kind b.kind kind ∧ m = a.joined b (a.sharedExtra b) kind := by
    rintro k l kind rfl rfl hmeets heq
    exact ⟨kind, hmeets, (Except.ok.inj heq).symm⟩
  unfold combine at h
  simp only at h
  split at h
  · next hk => exact .inl (hkeep hk rfl (.left (.never _)) h)
  · next hl _ => exact .inl (hkeep rfl hl (.right (.never _)) h)
  · next hk _ => exact .inl (hkeep hk rfl (.right (.empty _)) h)
  · next hl _ _ => exact .inl (hkeep rfl hl (.left (.empty _)) h)
  · next branches hk _ _ => exact .inr (.inl ⟨branches, hk, h⟩)
  · next branches hl _ _ _ => exact .inr (.inr ⟨branches, hl, h⟩)
  · next x y hk hl =>
    obtain ⟨hxy, hok⟩ := of_ite_eq_ok h
    subst hxy
    exact .inl (hkeep hk hl (.left (.ref x)) hok)
  · next hk hl =>
    obtain ⟨hxy, h⟩ := of_ite_eq_ok h
    exact .inl (hkeep hk hl (.left (.const hxy)) h)
  · next p xs q ys hk hl =>
    split at h
    · cases h
    · exact .inl (hkeep hk hl (.enums p q xs ys) h)
  · next q ys hk hl =>
    obtain ⟨hx, h⟩ := of_ite_eq_ok h
    exact .inl (hkeep hk hl (.left (.constOfEnum q hx)) h)
  · next p xs y hk hl =>
    obtain ⟨hy, h⟩ := of_ite_eq_ok h
    exact .inl (hkeep hk hl (.right (.constOfEnum p hy)) h)
  · next p q hk hl =>
    split at h
    · next type hmeet =>
      rcases Primitive.meet?_cases hmeet with ⟨rfl, hnarrower⟩ | ⟨rfl, hnarrower⟩
      · exact .inl (hkeep hk hl (.left hnarrower) h)
      · exact .inl (hkeep hk hl (.right hnarrower) h)
    · cases h
  · next hk hl =>
    obtain ⟨hx, h⟩ := of_ite_eq_ok h
    exact .inl (hkeep hk hl (.left (.constOfPrimitive hx)) h)
  · next hk hl =>
    obtain ⟨hy, h⟩ := of_ite_eq_ok h
    exact .inl (hkeep hk hl (.right (.constOfPrimitive hy)) h)
  · next p xs q hk hl =>
    obtain ⟨hxs, h⟩ := of_ite_eq_ok h
    exact .inl (hkeep hk hl (.left (.enumOfPrimitive p hxs)) h)
  · next p q ys hk hl =>
    obtain ⟨hys, h⟩ := of_ite_eq_ok h
    exact .inl (hkeep hk hl (.right (.enumOfPrimitive q hys)) h)
  · next x y hk hl =>
    obtain ⟨shape, hshape, heq⟩ := map_eq_ok_iff.mp h
    exact .inl (hkeep hk hl (.objects hshape) (congrArg Except.ok heq))
  · next hk hl => exact .inl (hkeep hk hl (.left .list) h)
  · next y hk hl => exact .inl (hkeep hk hl (.right (.listOf y)) h)
  · next ys hk hl => exact .inl (hkeep hk hl (.right (.tuple ys)) h)
  · next x hk hl => exact .inl (hkeep hk hl (.left (.listOf x)) h)
  · next xs hk hl => exact .inl (hkeep hk hl (.left (.tuple xs)) h)
  · next x y hk hl =>
    obtain ⟨item, hitem, heq⟩ := map_eq_ok_iff.mp h
    exact .inl (hkeep hk hl (.items hitem) (congrArg Except.ok heq))
  -- A tuple and other items, and shapes of different types, are in conflict.
  all_goals cases h

/-- What distributing over the branches of a union can leave: the other operand when there
are no branches, one merged branch, or the union of different merged branches. -/
theorem distribute_cases {merge : Schema → Except Conflict Schema} {other : Schema}
    {branches : List Schema} (h : distribute merge other branches = .ok m) :
    branches = [] ∧ m = other ∨ (∃ branch ∈ branches, merge branch = .ok m) ∨
      ∃ kept, m = .ofKind (.anyOf kept) ∧ Distinct kept ∧ kept.length ≠ 1 ∧ kept ≠ [] ∧
        ∀ part ∈ kept, ∃ branch ∈ branches, merge branch = .ok part := by
  have hkept : ∀ part ∈ distinct ((branches.map merge).filterMap Except.toOption),
      ∃ branch ∈ branches, merge branch = .ok part := by
    intro part hpart
    obtain ⟨outcome, houtcome, hok⟩ := List.mem_filterMap.mp (mem_of_mem_distinct hpart)
    obtain ⟨branch, hbranch, rfl⟩ := List.mem_map.mp houtcome
    exact ⟨branch, hbranch, toOption_eq_some_iff.mp hok⟩
  have hdistinct := distinct_distinct ((branches.map merge).filterMap Except.toOption)
  unfold distribute at h
  simp only at h
  split at h
  · cases h
  · next hnone hconflict =>
    -- No branch is merged and none is in conflict.
    refine .inl ⟨?_, (Except.ok.inj h).symm⟩
    cases branches with
    | nil => rfl
    | cons branch rest =>
      rw [List.map_cons] at hnone hconflict
      cases hmerge : merge branch with
      | error conflict => rw [hmerge, List.findSome?_cons] at hconflict; cases hconflict
      | ok found =>
        rw [hmerge] at hnone
        exact absurd hnone (distinct_ne_nil (by simp [Except.toOption]))
  · next schema heq =>
    obtain rfl := Except.ok.inj h
    exact .inr (.inl (hkept schema (by rw [heq]; exact List.mem_singleton_self _)))
  · next hsingle hconflict hnothing =>
    refine .inr (.inr ⟨_, (Except.ok.inj h).symm, hdistinct, ?_, ?_, hkept⟩)
    · intro hlength
      obtain ⟨schema, hschema⟩ := List.length_eq_one_iff.mp hlength
      exact hsingle schema hschema
    · intro hempty
      exact hnothing hempty
        (Option.eq_none_iff_forall_ne_some.mpr fun conflict => hconflict conflict hempty)

/-! ### What intersections keep -/

section Keep

variable {k l kind : Kind} (h : Meets merge k l kind)
include h

/-- The values spelled out by a shape in which two shapes meet are spelled out by these. -/
theorem Meets.literals_subset : kind.literals ⊆ k.literals ++ l.literals := by
  cases h with
  | left _ => exact List.subset_append_left _ _
  | right _ => exact List.subset_append_right _ _
  | enums p q xs ys => exact List.subset_append_of_subset_left _ List.filter_sublist.subset
  | objects _ => exact List.nil_subset _
  | items _ => exact List.nil_subset _

/-- The parts of a shape in which two shapes meet are parts of these, or merged of such. -/
theorem Meets.forall_parts {p : Schema → Prop}
    (hmerge : ∀ a b m, p a → p b → merge a b = .ok m → p m)
    (hleft : ∀ part ∈ k.parts, p part) (hright : ∀ part ∈ l.parts, p part) :
    ∀ part ∈ kind.parts, p part := by
  cases h with
  | left _ => exact hleft
  | right _ => exact hright
  | enums p q xs ys => exact List.forall_mem_nil _
  | objects hshape => exact forall_objects hmerge hleft hright hshape
  | @items x y item hitem =>
    intro part hpart
    rw [List.mem_singleton.mp hpart]
    exact hmerge x y item (hleft x (List.mem_singleton_self _))
      (hright y (List.mem_singleton_self _)) hitem

variable (hk : ∀ fields ∈ k.maps, (Fields.keys fields).Nodup)
  (hl : ∀ fields ∈ l.maps, (Fields.keys fields).Nodup)
include hk hl

theorem Meets.nodup_maps : ∀ fields ∈ kind.maps, (Fields.keys fields).Nodup := by
  cases h with
  | left _ => exact hk
  | right _ => exact hl
  | enums p q xs ys => exact List.forall_mem_nil _
  | objects hshape =>
    have hspec := objects_spec hk hl hshape
    simp only [Kind.maps, List.forall_mem_cons]
    exact ⟨hspec.properties.nodup, hspec.patterns.nodup,
      List.forall_mem_nil _⟩
  | items _ => exact List.forall_mem_nil _

end Keep

end Intersection

theorem Schema.intersectAll_append {done : List Schema} (h : done ≠ []) (b : Schema) :
    Schema.intersectAll (done ++ [b]) = Schema.intersectAll done >>= fun a => a.intersect b := by
  cases done with
  | nil => exact absurd rfl h
  | cons first rest =>
    change (rest ++ [b]).foldlM Schema.intersect first = _
    simp only [List.foldlM_append, List.foldlM_cons, List.foldlM_nil, bind_pure]
    rfl

/-- What holds of the intersection of one schema, and passes on when one more is
intersected, holds of the intersection of a list. -/
theorem Schema.intersectAll_induction {motive : List Schema → Schema → Prop}
    (single : ∀ schema, motive [schema] schema)
    (next : ∀ done a b m, Schema.intersectAll done = .ok a → motive done a →
      a.intersect b = .ok m → motive (done ++ [b]) m)
    {schemas : List Schema} {m : Schema} (hne : schemas ≠ [])
    (h : Schema.intersectAll schemas = .ok m) : motive schemas m := by
  -- The list grows at its end, as the fold goes.
  induction schemas using List.reverseRecOn generalizing m with
  | nil => exact absurd rfl hne
  | append_singleton done b ih =>
    by_cases hdone : done = []
    · subst hdone
      obtain rfl := Except.ok.inj h
      exact single b
    · rw [Schema.intersectAll_append hdone] at h
      obtain ⟨a, ha, hm⟩ := bind_eq_ok_iff.mp h
      exact next done a b m ha (ih hdone ha) hm

namespace Intersection

/-! ### What intersections keep at every depth -/

section Every

variable {q : Schema → Prop} {a b m : Schema}
  (hunion : ∀ a branches kept, q a → a.kind = .anyOf branches → Distinct kept →
    kept.length ≠ 1 → q (.ofKind (.anyOf kept)))
include hunion

/-- What is left of a union whose branches are merged with another schema. -/
theorem every_distribute {merge : Schema → Except Conflict Schema} {other : Schema}
    {branches : List Schema} (ha : a.Every q) (hkind : a.kind = .anyOf branches)
    (hother : other.Every q)
    (hmerge : ∀ branch m, branch.Every q → merge branch = .ok m → m.Every q)
    (h : distribute merge other branches = .ok m) : m.Every q := by
  have hbranches : ∀ branch ∈ branches, branch.Every q := ha.parts_of_kind_eq hkind
  rcases distribute_cases h with ⟨-, rfl⟩ | ⟨branch, hbranch, hm⟩ |
    ⟨kept, rfl, hkept, hlength, -, hall⟩
  · exact hother
  · exact hmerge branch m (hbranches branch hbranch) hm
  · refine .intro (hunion a branches kept ha.own hkind hkept hlength) fun part hpart => ?_
    obtain ⟨branch, hbranch, hm⟩ := hall part hpart
    exact hmerge branch part (hbranches branch hbranch) hm

variable (hjoined : ∀ merge a b kind, q a → q b → Meets merge a.kind b.kind kind →
  q (a.joined b (a.sharedExtra b) kind))
include hjoined

/-- **What passes to the shape in which two schemas meet, and to unions of what is left of
branches**, passes to intersections, at every depth. -/
theorem every_intersectWithin {depth : Nat} (ha : a.Every q) (hb : b.Every q)
    (h : Schema.intersectWithin depth a b = .ok m) : m.Every q := by
  induction depth generalizing a b m with
  | zero => cases h
  | succ depth ih =>
    rw [Schema.intersectWithin] at h
    split at h
    · obtain rfl := Except.ok.inj h
      exact ha
    · rcases combine_cases h with ⟨kind, hmeets, rfl⟩ | ⟨branches, hkind, hm⟩ | ⟨branches, hkind, hm⟩
      · exact .intro (hjoined _ a b kind ha.own hb.own hmeets)
          (hmeets.forall_parts (fun _ _ _ => ih) ha.parts hb.parts)
      · exact every_distribute hunion ha hkind hb (fun branch _ hbranch => ih hbranch hb) hm
      · exact every_distribute hunion hb hkind ha (fun branch _ hbranch => ih ha hbranch) hm

/-- What holds at every depth of all schemas holds at every depth of their intersection. -/
theorem every_intersectAll (hempty : (Schema.ofKind .empty).Every q) {schemas : List Schema}
    (hschemas : ∀ schema ∈ schemas, schema.Every q)
    (h : Schema.intersectAll schemas = .ok m) : m.Every q := by
  by_cases hnil : schemas = []
  · subst hnil
    obtain rfl := Except.ok.inj h
    exact hempty
  · refine Schema.intersectAll_induction (motive := fun done m =>
      (∀ schema ∈ done, schema.Every q) → m.Every q) ?_ ?_ hnil h hschemas
    · exact fun schema hdone => hdone schema (List.mem_singleton_self _)
    · intro done a b m _ ih hmerged hall
      obtain ⟨hdone, hb⟩ := List.forall_mem_append.mp hall
      exact every_intersectWithin hunion hjoined (ih hdone) (hb b (List.mem_singleton_self _))
        hmerged

end Every

/-- A property of schemas that intersections keep: it holds of the schema in which two
schemas meet, and of the union of what is left of the branches of a union. -/
structure Closed (q : Schema → Prop) : Prop where
  namesApart : ∀ schema, q schema → schema.NamesApart
  joined : ∀ merge a b kind, q a → q b → Meets merge a.kind b.kind kind →
    q (a.joined b (a.sharedExtra b) kind)
  union : ∀ a branches kept, q a → a.kind = .anyOf branches → Distinct kept → kept.length ≠ 1 →
    q (.ofKind (.anyOf kept))

section Closed

variable {q : Schema → Prop} {a b m : Schema}

theorem Closed.every_intersectWithin (hq : Closed q) {depth : Nat} (ha : a.Every q)
    (hb : b.Every q) (h : Schema.intersectWithin depth a b = .ok m) : m.Every q :=
  Intersection.every_intersectWithin hq.union hq.joined ha hb h

/-- **What holds at every depth of all schemas holds at every depth of their
intersection.** -/
theorem Closed.every_intersectAll (hq : Closed q) (hempty : (Schema.ofKind .empty).Every q)
    {schemas : List Schema} (hschemas : ∀ schema ∈ schemas, schema.Every q)
    (h : Schema.intersectAll schemas = .ok m) : m.Every q :=
  Intersection.every_intersectAll hq.union hq.joined hempty hschemas h

end Closed

/-! ### Names stay apart -/

theorem distinctNames_foldl_set {fields added : Fields Json}
    (hfields : (Json.object fields).DistinctNames) (hadded : (Json.object added).DistinctNames) :
    (Json.object (added.foldl (fun extra entry => Fields.set extra entry.1 entry.2)
      fields)).DistinctNames := by
  obtain ⟨hnames, hvalues⟩ := Json.everyObject_object_iff.mp hfields
  replace hadded := (Json.everyObject_object_iff.mp hadded).2
  refine Json.everyObject_object_iff.mpr ⟨Fields.nodup_keys_foldl_set hnames added, ?_⟩
  clear hfields hnames
  induction added generalizing fields with
  | nil => exact hvalues
  | cons entry rest ih =>
    obtain ⟨key, value⟩ := entry
    refine ih ?_ fun name part hmem => hadded name part (List.mem_cons_of_mem _ hmem)
    intro name part hmem
    rcases Fields.mem_set hmem with heq | hmem
    · obtain ⟨rfl, rfl⟩ := Prod.mk.inj heq
      exact hadded _ _ (List.mem_cons_self ..)
    · exact hvalues name part hmem

/-- **Intersections keep names apart.** -/
theorem closed_namesApart : Closed Schema.NamesApart where
  namesApart _ h := h
  joined merge a b kind ha hb h := by
    refine ⟨distinctNames_foldl_set ha.extra hb.extra, fun value hvalue => ?_,
      h.nodup_maps ha.maps hb.maps⟩
    exact (List.mem_append.mp (h.literals_subset hvalue)).elim (ha.literals value)
      (hb.literals value)
  union _ _ _ _ _ _ _ := .ofKind rfl rfl

/-- With another property that intersections keep. -/
theorem Closed.namesApart_and {q : Schema → Prop}
    (hjoined : ∀ merge a b kind, q a → q b → Meets merge a.kind b.kind kind →
      a.NamesApart → b.NamesApart → q (a.joined b (a.sharedExtra b) kind))
    (hunion : ∀ a branches kept, q a → a.kind = .anyOf branches → Distinct kept →
      kept.length ≠ 1 → q (.ofKind (.anyOf kept))) :
    Closed fun schema => schema.NamesApart ∧ q schema where
  namesApart _ h := h.1
  joined merge a b kind ha hb h := ⟨closed_namesApart.joined merge a b kind ha.1 hb.1 h,
    hjoined merge a b kind ha.2 hb.2 h ha.1 hb.1⟩
  union a branches kept ha hkind hkept hlength :=
    ⟨closed_namesApart.union a branches kept ha.1 hkind hkept hlength,
      hunion a branches kept ha.2 hkind hkept hlength⟩

end Intersection

end RpcSchema
