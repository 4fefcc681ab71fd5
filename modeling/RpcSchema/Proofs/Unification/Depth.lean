import RpcSchema.Proofs.Unification.Collapse

/-!
# The depth of intersections and unions

Every step down in an intersection goes to parts on both sides, or from a union to one of its
branches with the other side as it stands.  Either way fewer schemas are left on both sides
together, and so the bound on the depth, which is the number of these, is never met.

Patterns need a word, since a joined pattern goes back among those on the left.  It stands
under a name that no later pattern on the right has, and is not merged again.

The branches of a collapsed union, on the other hand, are merged again and again.  What is
merged has no more atoms than what it was merged from, so it is these that count: two parts
have at least two atoms less than the schemas that they are parts of.  From a union to its
branches no atom is used up, but the branches that are merged are no unions themselves.

## Main definitions

* `Union.rank` — what grows smaller with every step down in a union.

## Main results

* `Intersection.combine_congr` — an intersection only asks for those of smaller schemas.
* `Union.combine_congr` — a union only asks for those of smaller rank.
* `Schema.intersectWithin_eq`, `Schema.uniteWithin_eq` — all depths that are large enough agree.
* `Schema.intersect_eq`, `Schema.unite_eq` — the intersection and the union without a bound.
-/

namespace RpcSchema

/-! ### Sizes of parts -/

variable {part : Schema}

theorem Schema.size_le_sizeItems {items : List Schema} (h : part ∈ items) :
    part.size ≤ Schema.sizeItems items := by
  induction items with
  | nil => exact absurd h List.not_mem_nil
  | cons first rest ih =>
    rw [Schema.sizeItems]
    rcases List.mem_cons.mp h with rfl | h
    · exact Nat.le_add_right _ _
    · exact Nat.le_trans (ih h) (Nat.le_add_left _ _)

theorem Schema.size_le_sizeFields {fields : List (String × Schema)} {entry : String × Schema}
    (h : entry ∈ fields) : entry.2.size ≤ Schema.sizeFields fields := by
  induction fields with
  | nil => exact absurd h List.not_mem_nil
  | cons first rest ih =>
    obtain ⟨name, schema⟩ := first
    rw [Schema.sizeFields]
    rcases List.mem_cons.mp h with rfl | h
    · exact Nat.le_add_right _ _
    · exact Nat.le_trans (ih h) (Nat.le_add_left _ _)

theorem ObjectSchema.size_le_of_mem_parts {shape : ObjectSchema} (h : part ∈ shape.parts) :
    part.size ≤ shape.size := by
  revert h part
  rw [ObjectSchema.forall_parts_iff]
  obtain ⟨properties, required, additional, patterns, names⟩ := shape
  rw [ObjectSchema.size]
  refine ⟨fun entry hmem => ?_, fun value hvalue => ?_, fun entry hmem => ?_⟩
  · have hle : entry.2.size ≤ Schema.sizeFields properties := Schema.size_le_sizeFields hmem
    omega
  · obtain rfl : additional = .schema value := hvalue
    rw [Additional.size]
    omega
  · have hle : entry.2.size ≤ Schema.sizeFields patterns := Schema.size_le_sizeFields hmem
    omega

theorem Kind.size_le_of_mem_parts {kind : Kind} (h : part ∈ kind.parts) :
    part.size ≤ kind.size := by
  cases kind with
  | object shape => exact ObjectSchema.size_le_of_mem_parts h
  | listOf item =>
    obtain rfl := List.mem_singleton.mp h
    exact Nat.le_refl _
  | tuple items => exact Schema.size_le_sizeItems h
  | allOf parts => exact Schema.size_le_sizeItems h
  | anyOf branches => exact Schema.size_le_sizeItems h
  | _ => exact absurd h List.not_mem_nil

theorem Schema.size_pos (schema : Schema) : 0 < schema.size := by
  obtain ⟨title, description, kind, extra⟩ := schema
  exact Nat.succ_pos _

/-- **A part is smaller than the schema.** -/
theorem Schema.size_lt_of_mem_parts {schema : Schema} (h : part ∈ schema.kind.parts) :
    part.size < schema.size := by
  obtain ⟨title, description, kind, extra⟩ := schema
  exact Nat.lt_succ_of_le (Kind.size_le_of_mem_parts h)

/-! ### What an intersection asks for -/

/-- What relates all parts of two object shapes relates those that meet. -/
theorem ObjectSchema.pairs_of_parts {r : Schema → Schema → Prop} {x y : ObjectSchema}
    (h : ∀ a ∈ x.parts, ∀ b ∈ y.parts, r a b) :
    (∀ a ∈ x.properties, ∀ b ∈ y.properties, r a.2 b.2) ∧
      (∀ a b, x.additional = .schema a → y.additional = .schema b → r a b) ∧
        ∀ name a b, Fields.get? x.patterns name = some a → (name, b) ∈ y.patterns → r a b := by
  refine ⟨fun a ha b hb => ?_, fun a b ha hb => ?_, fun name a b ha hb => ?_⟩
  · exact h _ (ObjectSchema.mem_parts_of_property ha) _ (ObjectSchema.mem_parts_of_property hb)
  · exact h a (ObjectSchema.mem_parts_of_additional ha) b (ObjectSchema.mem_parts_of_additional hb)
  · exact h a (ObjectSchema.mem_parts_of_pattern (Fields.mem_of_get? ha)) b
      (ObjectSchema.mem_parts_of_pattern hb)

/-- Joined patterns only ask for merges of values that stand under one name, if the names on
the right are distinct. -/
theorem mergePatterns_congr {m : Type → Type} [Monad m] {merge merge' : Schema → Schema → m Schema}
    {left right : Fields Schema} (hright : (Fields.keys right).Nodup)
    (h : ∀ name a b, Fields.get? left name = some a → (name, b) ∈ right → merge a b = merge' a b) :
    mergePatterns merge left right = mergePatterns merge' left right := by
  induction right generalizing left with
  | nil => rfl
  | cons entry right ih =>
    obtain ⟨pattern, b⟩ := entry
    obtain ⟨hpattern, hright⟩ := List.nodup_cons.mp hright
    -- The pattern that goes to the end of the left side is not met again on the right.
    have hrest : ∀ (others : Fields Schema) (joined : Schema),
        (∀ other ≠ pattern, Fields.get? others other = Fields.get? left other) →
        mergePatterns merge (others ++ [(pattern, joined)]) right =
          mergePatterns merge' (others ++ [(pattern, joined)]) right := by
      intro others joined hsame
      refine ih hright fun name a b' ha hb => h name a b' ?_ (List.mem_cons_of_mem _ hb)
      have hne : pattern ≠ name := fun heq => hpattern (heq ▸ Fields.mem_keys_of_mem hb)
      rwa [Fields.get?_append, Fields.get?_cons, if_neg hne, Fields.get?_nil, Option.or_none,
        hsame name (Ne.symm hne)] at ha
    rw [mergePatterns, mergePatterns, Fields.extract?_eq]
    cases ha : Fields.get? left pattern with
    | some a =>
      simp only [Option.map_some]
      rw [h pattern a b ha (List.mem_cons_self ..)]
      exact congrArg _ (funext fun joined =>
        hrest _ joined fun other hother => Fields.get?_erase_of_ne _ hother)
    | none => exact hrest left b fun _ _ => rfl

namespace Intersection

variable {merge merge' : Schema → Schema → Except Conflict Schema}

theorem properties_congr {leftClosed rightClosed : Bool} {left right : Fields Schema}
    (h : ∀ a ∈ left, ∀ b ∈ right, merge a.2 b.2 = merge' a.2 b.2) :
    properties merge leftClosed rightClosed left right =
      properties merge' leftClosed rightClosed left right := by
  induction left generalizing right with
  | nil => rfl
  | cons entry left ih =>
    obtain ⟨name, a⟩ := entry
    obtain ⟨hfirst, hleft⟩ := List.forall_mem_cons.mp h
    rw [properties, properties, Fields.extract?_eq]
    cases hb : Fields.get? right name with
    | some b =>
      simp only [Option.map_some]
      rw [hfirst (name, b) (Fields.mem_of_get? hb), ih fun a ha b hb =>
        hleft a ha b ((Fields.erase_sublist right name).mem hb)]
    | none =>
      simp only [Option.map_none]
      rw [ih hleft]

theorem additional_congr {x y : Additional}
    (h : ∀ a b, x = .schema a → y = .schema b → merge a b = merge' a b) :
    additional merge x y = additional merge' x y := by
  cases x with
  | schema a =>
    cases y with
    | schema b => rw [additional, additional, h a b rfl rfl]
    | _ => rfl
  | _ => cases y <;> rfl

theorem objects_congr {x y : ObjectSchema} (hy : (Fields.keys y.patterns).Nodup)
    (h : ∀ a ∈ x.parts, ∀ b ∈ y.parts, merge a b = merge' a b) :
    objects merge x y = objects merge' x y := by
  obtain ⟨hproperties, hadditional, hpatterns⟩ := ObjectSchema.pairs_of_parts h
  rw [objects, objects, properties_congr hproperties, additional_congr hadditional,
    mergePatterns_congr hy hpatterns]

theorem distribute_congr {merge merge' : Schema → Except Conflict Schema} {other : Schema}
    {branches : List Schema} (h : ∀ branch ∈ branches, merge branch = merge' branch) :
    distribute merge other branches = distribute merge' other branches := by
  rw [distribute, distribute, List.map_congr_left h]

/-- **An intersection only asks for intersections of smaller schemas**: of parts on both
sides, or of a branch and the other side. -/
theorem combine_congr {a b : Schema} (ha : a.DistinctNames) (hb : b.DistinctNames)
    (h : ∀ x y : Schema, x.DistinctNames → y.DistinctNames → x.size + y.size < a.size + b.size →
      merge x y = merge' x y) : combine merge a b = combine merge' a b := by
  have hparts : ∀ x ∈ a.kind.parts, ∀ y ∈ b.kind.parts, merge x y = merge' x y :=
    fun x hx y hy => h x y (ha.parts x hx) (hb.parts y hy)
      (Nat.add_lt_add (Schema.size_lt_of_mem_parts hx) (Schema.size_lt_of_mem_parts hy))
  have hleft : ∀ x ∈ a.kind.parts, merge x b = merge' x b := fun x hx =>
    h x b (ha.parts x hx) hb (Nat.add_lt_add_right (Schema.size_lt_of_mem_parts hx) _)
  have hright : ∀ y ∈ b.kind.parts, merge a y = merge' a y := fun y hy =>
    h a y ha (hb.parts y hy) (Nat.add_lt_add_left (Schema.size_lt_of_mem_parts hy) _)
  have hmaps := hb.own
  obtain ⟨title, description, k, extra⟩ := a
  obtain ⟨title', description', l, extra'⟩ := b
  cases k with
  | never => rfl
  | empty => cases l <;> rfl
  | anyOf branches =>
    cases l with
    | never | empty => rfl
    | _ => exact distribute_congr hleft
  | object x =>
    cases l with
    | object y => simp only [combine, objects_congr (hmaps.nodup_patterns rfl) hparts]
    | anyOf branches => exact distribute_congr hright
    | _ => rfl
  | listOf x =>
    cases l with
    | listOf y =>
      simp only [combine, hparts x (List.mem_singleton_self _) y (List.mem_singleton_self _)]
    | anyOf branches => exact distribute_congr hright
    | _ => rfl
  | _ =>
    cases l with
    | anyOf branches => exact distribute_congr hright
    | _ => rfl

end Intersection

/-! ### What a union asks for -/

/-- Whether the shape is a union. -/
def Kind.isUnion : Kind → Bool
  | .anyOf _ => true
  | _ => false

/-- Schemas of one class are no unions. -/
theorem Schema.isUnion_of_sameClass {a b : Schema} (h : a.sameClass b = true) :
    a.kind.isUnion = false ∧ b.kind.isUnion = false := by
  obtain ⟨title, description, k, extra⟩ := a
  obtain ⟨title', description', l, extra'⟩ := b
  cases k with
  | const _ | enum _ _ | primitive _ =>
    refine ⟨rfl, ?_⟩
    cases l with
    | anyOf incoming =>
      simp only [Schema.sameClass, Kind.family?, Kind.scalarType?, Option.map_none] at h
      split at h
      · next hfamily => cases hfamily
      · cases h
    | _ => rfl
  | anyOf branches => cases h
  | _ =>
    cases l with
    | anyOf incoming => cases h
    | _ => exact ⟨rfl, rfl⟩

namespace Union

/-- The atoms of two schemas, and one more if one of them is a union.  Merging the branches
of a union uses up no atom, but the branches that are merged are no unions. -/
def rank (a b : Schema) : Nat :=
  a.atoms + b.atoms + if a.kind.isUnion || b.kind.isUnion then 1 else 0

theorem rank_le (a b : Schema) : rank a b ≤ a.atoms + b.atoms + 1 := by
  unfold rank
  split <;> omega

theorem rank_of_sameClass {a b : Schema} (h : a.sameClass b = true) :
    rank a b = a.atoms + b.atoms := by
  obtain ⟨ha, hb⟩ := Schema.isUnion_of_sameClass h
  rw [rank, ha, hb]
  rfl

theorem Sides.lt_rank {a b : Schema} {branches incoming : List Schema}
    (h : Sides a b branches incoming) :
    Schema.atomsItems branches + Schema.atomsItems incoming < rank a b := by
  have hunion : (a.kind.isUnion || b.kind.isUnion) = true := by
    cases h with
    | both ha hb => rw [ha]; rfl
    | left ha => rw [ha]; rfl
    | right hb => rw [hb]; exact Bool.or_true _
  rw [h.atoms_eq, rank, hunion]
  exact Nat.lt_succ_self _

variable {merge merge' : Schema → Schema → Unifying Schema} {left right : Fields Schema}
  {branches incoming : List Schema}

theorem properties_congr (h : ∀ a ∈ left, ∀ b ∈ right, merge a.2 b.2 = merge' a.2 b.2) :
    properties merge left right = properties merge' left right := by
  induction left generalizing right with
  | nil => rfl
  | cons entry left ih =>
    obtain ⟨name, a⟩ := entry
    obtain ⟨hfirst, hleft⟩ := List.forall_mem_cons.mp h
    rw [properties, properties, Fields.extract?_eq]
    cases hb : Fields.get? right name with
    | some b =>
      simp only [Option.map_some]
      rw [hfirst (name, b) (Fields.mem_of_get? hb), ih fun a ha b hb =>
        hleft a ha b ((Fields.erase_sublist right name).mem hb)]
    | none =>
      simp only [Option.map_none]
      rw [ih hleft]

theorem additional_congr {x y : Additional}
    (h : ∀ a b, x = .schema a → y = .schema b → merge a b = merge' a b) :
    additional merge x y = additional merge' x y := by
  cases x with
  | schema a =>
    cases y with
    | schema b => rw [additional, additional, h a b rfl rfl]
    | _ => rfl
  | _ => cases y <;> rfl

theorem objects_congr {x y : ObjectSchema} (hy : (Fields.keys y.patterns).Nodup)
    (h : ∀ a ∈ x.parts, ∀ b ∈ y.parts, merge a b = merge' a b) :
    objects merge x y = objects merge' x y := by
  obtain ⟨hproperties, hadditional, hpatterns⟩ := ObjectSchema.pairs_of_parts h
  rw [objects, objects, properties_congr hproperties, additional_congr hadditional,
    mergePatterns_congr hy hpatterns]

theorem joinBranch_congr {schema : Schema} (h : ∀ branch ∈ branches,
    branch.sameClass schema = true → merge branch schema = merge' branch schema) :
    joinBranch merge schema branches = joinBranch merge' schema branches := by
  induction branches with
  | nil => rfl
  | cons branch rest ih =>
    obtain ⟨hfirst, hrest⟩ := List.forall_mem_cons.mp h
    rw [joinBranch, joinBranch]
    split
    · next hclass => rw [hfirst hclass]
    · rw [ih hrest]

/-- Merging into branches only asks for merges of schemas of one class, with no more atoms
than there are in all. -/
theorem joinBranches_congr (hmerge : Frugal Schema.NamesApart merge)
    (hbranches : ∀ branch ∈ branches, branch.DistinctNames)
    (hincoming : ∀ schema ∈ incoming, schema.DistinctNames)
    (h : ∀ x y : Schema, x.DistinctNames → y.DistinctNames → x.sameClass y = true →
      x.atoms + y.atoms ≤ Schema.atomsItems branches + Schema.atomsItems incoming →
        merge x y = merge' x y) :
    joinBranches merge branches incoming = joinBranches merge' branches incoming := by
  have hfold : incoming.foldlM (fun branches schema => joinBranch merge schema branches) branches =
      incoming.foldlM (fun branches schema => joinBranch merge' schema branches) branches := by
    induction incoming generalizing branches with
    | nil => rfl
    | cons schema rest ih =>
      obtain ⟨hschema, hrest⟩ := List.forall_mem_cons.mp hincoming
      rw [Schema.atomsItems] at h
      have hfirst : joinBranch merge schema branches = joinBranch merge' schema branches := by
        refine joinBranch_congr fun branch hbranch hclass => ?_
        have hle := Schema.atoms_le_atomsItems hbranch
        exact h branch schema (hbranches branch hbranch) hschema hclass (by omega)
      rw [List.foldlM_cons, List.foldlM_cons, ← hfirst]
      refine (ensures_joinBranch hmerge hschema hbranches).bind_congr ?_
      rintro joined ⟨hjoined, hatoms⟩
      refine ih hjoined hrest fun x y hx hy hclass hle => ?_
      exact h x y hx hy hclass (by omega)
  rw [joinBranches, joinBranches, hfold]

/-- **A union only asks for unions of smaller rank.** -/
theorem combine_congr {a b : Schema} (hmerge : Frugal Schema.NamesApart merge) (ha : a.DistinctNames)
    (hb : b.DistinctNames) (h : ∀ x y : Schema, x.DistinctNames → y.DistinctNames →
      rank x y < rank a b → merge x y = merge' x y) : combine merge a b = combine merge' a b := by
  -- Parts have fewer atoms than what they are parts of, on both sides.
  have hparts : ∀ x y : Schema, x.atoms + 1 ≤ a.atoms → y.atoms + 1 ≤ b.atoms →
      rank x y < rank a b := by
    intro x y hx hy
    have hle := rank_le x y
    unfold rank at hle ⊢
    omega
  cases course ha.own hb.own with
  | keep _ heq => rw [heq, heq]
  | apart heq => rw [heq, heq]
  | branches hsides heq =>
    obtain ⟨hbranches, hincoming⟩ := hsides.every ha hb
    rw [heq, heq]
    refine joinBranches_congr hmerge hbranches hincoming fun x y hx hy hclass hle => h x y hx hy ?_
    rw [rank_of_sameClass hclass]
    exact Nat.lt_of_le_of_lt hle hsides.lt_rank
  | references _ _ heq => rw [heq, heq]
  | @objects x y hka hkb heq =>
    have hall : ∀ s ∈ x.parts, ∀ t ∈ y.parts, merge s t = merge' s t := by
      intro s hs t ht
      have hle := ObjectSchema.atoms_le_of_mem_parts hs
      have hle' := ObjectSchema.atoms_le_of_mem_parts ht
      refine h s t (ha.parts_of_kind_eq hka s hs) (hb.parts_of_kind_eq hkb t ht) (hparts s t ?_ ?_)
      · rw [a.atoms_eq, hka, Kind.atoms]
        omega
      · rw [b.atoms_eq, hkb, Kind.atoms]
        omega
    rw [heq, heq, objects_congr (hb.own.nodup_patterns hkb) hall]
  | @items x y hka hkb heq =>
    have hitem : merge x y = merge' x y := by
      refine h x y (ha.item hka) (hb.item hkb) (hparts x y ?_ ?_)
      · exact Nat.le_of_eq (by rw [a.atoms_eq, hka, Kind.atoms])
      · exact Nat.le_of_eq (by rw [b.atoms_eq, hkb, Kind.atoms])
    rw [heq, heq, hitem]
  | tuples _ heq => rw [heq, heq]

end Union

/-! ### Depths -/

namespace Schema

variable {a b : Schema}

/-- **All depths that are large enough agree.** -/
theorem intersectWithin_eq {depth depth' : Nat} (ha : a.DistinctNames) (hb : b.DistinctNames)
    (h : a.size + b.size ≤ depth) (h' : a.size + b.size ≤ depth') :
    intersectWithin depth a b = intersectWithin depth' a b := by
  induction depth generalizing depth' a b with
  | zero => exact absurd a.size_pos (by omega)
  | succ depth ih =>
    have hpos := a.size_pos
    obtain ⟨depth', rfl⟩ : ∃ n, depth' = n + 1 := ⟨depth' - 1, by omega⟩
    rw [intersectWithin, intersectWithin]
    refine if_congr Iff.rfl rfl (Intersection.combine_congr ha hb fun x y hx hy hlt => ?_)
    exact ih hx hy (by omega) (by omega)

/-- **The bound on the depth is never met**: the intersection is made of intersections of
parts, without a bound. -/
theorem intersect_eq (ha : a.DistinctNames) (hb : b.DistinctNames) :
    a.intersect b = if a == b then .ok a else Intersection.combine intersect a b := by
  have hpos := a.size_pos
  obtain ⟨depth, hdepth⟩ : ∃ n, a.size + b.size = n + 1 := ⟨a.size + b.size - 1, by omega⟩
  rw [intersect, hdepth, intersectWithin]
  refine if_congr Iff.rfl rfl (Intersection.combine_congr ha hb fun x y hx hy hlt => ?_)
  exact intersectWithin_eq hx hy (by omega) (Nat.le_refl _)

/-- All depths above the rank agree. -/
theorem uniteWithin_eq {depth depth' : Nat} (ha : a.DistinctNames) (hb : b.DistinctNames)
    (h : Union.rank a b < depth) (h' : Union.rank a b < depth') :
    uniteWithin depth a b = uniteWithin depth' a b := by
  induction depth generalizing depth' a b with
  | zero => exact absurd h (Nat.not_lt_zero _)
  | succ depth ih =>
    obtain ⟨depth', rfl⟩ : ∃ n, depth' = n + 1 := ⟨depth' - 1, by omega⟩
    rw [uniteWithin, uniteWithin]
    refine if_congr Iff.rfl rfl (Union.combine_congr (frugal_uniteWithin Union.closed_namesApart depth) ha hb
      fun x y hx hy hlt => ?_)
    exact ih hx hy (by omega) (by omega)

/-- **The bound on the depth of unions is never met**: the union is made of unions of parts,
without a bound. -/
theorem unite_eq (ha : a.DistinctNames) (hb : b.DistinctNames) :
    a.unite b = if a == b then pure a else Union.combine unite a b := by
  have hrank := Union.rank_le a b
  rw [unite, uniteWithin]
  refine if_congr Iff.rfl rfl (Union.combine_congr (frugal_uniteWithin Union.closed_namesApart _) ha hb
    fun x y hx hy hlt => ?_)
  have hrank' := Union.rank_le x y
  exact uniteWithin_eq hx hy (by omega) (by omega)

end Schema

end RpcSchema
