import RpcSchema.Proofs.Outcome
import RpcSchema.Proofs.Schema.Acceptance
import RpcSchema.Unification.Intersection

/-!
# How object shapes intersect

What is said of an object in the intersection of two shapes depends, name by name, on what
both shapes say: values on both sides are merged, a value on one side is kept unless the
other side is closed.  Here this is told name by name, without the order in which the
algorithm goes through the maps and without its rearranging them.

## Main definitions

* `Intersection.Meeting`, `Intersection.Meeting.Map` — what becomes of one name, and of all.
* `Intersection.ObjectsMeet` — two object shapes meet in a third.

## Main results

* `Intersection.properties_spec`, `Intersection.mergePatterns_spec` — the members of merged
  maps.
* `Intersection.objects_spec` — object shapes meet in their intersection.
* `Intersection.forall_objects` — what holds of the parts of both shapes and of merged parts
  holds of the parts of their intersection.
-/

namespace RpcSchema

theorem Additional.isClosed_iff {additional : Additional} :
    additional.isClosed = true ↔ additional = .allowed false := by
  cases additional with
  | allowed flag => cases flag <;> simp [Additional.isClosed]
  | _ => simp [Additional.isClosed]

/-- What is taken out of fields and what is left were there. -/
theorem Fields.forall_extract {p : Schema → Prop} {fields others : Fields Schema} {name : String}
    {schema : Schema} (h : Fields.extract? fields name = some (schema, others))
    (hall : ∀ entry ∈ fields, p entry.2) : p schema ∧ ∀ entry ∈ others, p entry.2 := by
  rw [Fields.extract?_eq, Option.map_eq_some_iff] at h
  obtain ⟨value, hvalue, heq⟩ := h
  obtain ⟨rfl, rfl⟩ := Prod.mk.inj heq
  exact ⟨hall (name, value) (Fields.mem_of_get? hvalue),
    fun entry hentry => hall entry ((Fields.erase_sublist fields name).subset hentry)⟩

namespace Intersection

variable {merge : Schema → Schema → Except Conflict Schema} {leftClosed rightClosed : Bool}

/-! ### Merged maps -/

/-- What becomes of one name: values on both sides are merged, and a value on one side is
kept unless the other side is closed. -/
inductive Meeting (merge : Schema → Schema → Except Conflict Schema)
    (leftClosed rightClosed : Bool) : Option Schema → Option Schema → Option Schema → Prop
  | both {a b m : Schema} (h : merge a b = .ok m) :
      Meeting merge leftClosed rightClosed (some a) (some b) (some m)
  | left {a : Schema} (h : rightClosed = false) :
      Meeting merge leftClosed rightClosed (some a) none (some a)
  | right {b : Schema} (h : leftClosed = false) :
      Meeting merge leftClosed rightClosed none (some b) (some b)
  | leftDropped {a : Schema} (h : rightClosed = true) :
      Meeting merge leftClosed rightClosed (some a) none none
  | rightDropped {b : Schema} (h : leftClosed = true) :
      Meeting merge leftClosed rightClosed none (some b) none
  | neither : Meeting merge leftClosed rightClosed none none none

/-- The sides of a meeting can be told in either order. -/
theorem Meeting.symm {a b m : Option Schema} (h : Meeting merge leftClosed rightClosed a b m) :
    Meeting (fun b a => merge a b) rightClosed leftClosed b a m := by
  cases h with
  | both h => exact .both h
  | left h => exact .right h
  | right h => exact .left h
  | leftDropped h => exact .rightDropped h
  | rightDropped h => exact .leftDropped h
  | neither => exact .neither

/-- What stands under a name on the left stands there in the end, alone or merged, or was
dropped because the right is closed. -/
theorem Meeting.of_left {a : Schema} {b m : Option Schema}
    (h : Meeting merge leftClosed rightClosed (some a) b m) :
    m = some a ∨ (∃ b' m', b = some b' ∧ m = some m' ∧ merge a b' = .ok m') ∨
      (m = none ∧ rightClosed = true) := by
  cases h with
  | both hm => exact .inr (.inl ⟨_, _, rfl, rfl, hm⟩)
  | left _ => exact .inl rfl
  | leftDropped hclosed => exact .inr (.inr ⟨rfl, hclosed⟩)

/-- A closed side lets no name in that it has not itself. -/
theorem Meeting.eq_none_of_closed {b m : Option Schema}
    (h : Meeting merge true rightClosed none b m) : m = none := by
  cases h with
  | right hopen => cases hopen
  | rightDropped _ => rfl
  | neither => rfl

/-- Names meet in a map: its names are distinct, and under each one stands what becomes of
it. -/
structure Meeting.Map (merge : Schema → Schema → Except Conflict Schema)
    (leftClosed rightClosed : Bool) (left right result : Fields Schema) : Prop where
  nodup : (Fields.keys result).Nodup
  meeting : ∀ name, Meeting merge leftClosed rightClosed (Fields.get? left name)
    (Fields.get? right name) (Fields.get? result name)

theorem Meeting.Map.symm {left right result : Fields Schema}
    (h : Meeting.Map merge leftClosed rightClosed left right result) :
    Meeting.Map (fun b a => merge a b) rightClosed leftClosed right left result :=
  ⟨h.nodup, fun name => (h.meeting name).symm⟩

/-- One name more, about which the rest of the maps says nothing. -/
theorem Meeting.Map.cons {left right others rest : Fields Schema} {name : String} {a : Schema}
    (found : Option Schema) (h : Meeting.Map merge leftClosed rightClosed left others rest)
    (hleft : Fields.get? left name = none) (hothers : Fields.get? others name = none)
    (hright : ∀ other ≠ name, Fields.get? others other = Fields.get? right other)
    (hname : Meeting merge leftClosed rightClosed (some a) (Fields.get? right name) found) :
    Meeting.Map merge leftClosed rightClosed ((name, a) :: left) right
      ((found.map fun m => (name, m)).toList ++ rest) := by
  have hrest : Fields.get? rest name = none := by
    have hmeeting := h.meeting name
    rw [hleft, hothers] at hmeeting
    generalize hget : Fields.get? rest name = result at hmeeting
    cases hmeeting
    rfl
  constructor
  · cases found with
    | none => exact h.nodup
    | some m => exact List.nodup_cons.mpr ⟨Fields.get?_eq_none_iff.mp hrest, h.nodup⟩
  · intro other
    by_cases hother : name = other
    · subst hother
      have hfound : Fields.get? ((found.map fun m => (name, m)).toList ++ rest) name = found := by
        cases found with
        | none => exact hrest
        | some m => exact if_pos rfl
      rwa [Fields.get?_cons, if_pos rfl, hfound]
    · have hfound : Fields.get? ((found.map fun m => (name, m)).toList ++ rest) other =
          Fields.get? rest other := by
        cases found with
        | none => rfl
        | some m => exact if_neg hother
      rw [Fields.get?_cons, if_neg hother, hfound, ← hright other (Ne.symm hother)]
      exact h.meeting other

/-- **The members of merged properties.** -/
theorem properties_spec {left right result : Fields Schema} (hleft : (Fields.keys left).Nodup)
    (hright : (Fields.keys right).Nodup)
    (h : properties merge leftClosed rightClosed left right = .ok result) :
    Meeting.Map merge leftClosed rightClosed left right result := by
  induction left generalizing right result with
  | nil =>
    rw [properties] at h
    obtain rfl := Except.ok.inj h
    cases hclosed : leftClosed with
    | true =>
      refine ⟨List.nodup_nil, fun name => ?_⟩
      rw [if_pos rfl, Fields.get?_nil]
      cases Fields.get? right name with
      | none => exact .neither
      | some b => exact .rightDropped rfl
    | false =>
      refine ⟨hright, fun name => ?_⟩
      rw [if_neg Bool.false_ne_true, Fields.get?_nil]
      cases Fields.get? right name with
      | none => exact .neither
      | some b => exact .right rfl
  | cons entry left ih =>
    obtain ⟨name, a⟩ := entry
    obtain ⟨hname, hleft⟩ := List.nodup_cons.mp hleft
    have hmissing : Fields.get? left name = none := Fields.get?_eq_none_iff.mpr hname
    rw [properties, Fields.extract?_eq] at h
    cases hb : Fields.get? right name with
    | some b =>
      simp only [hb, Option.map_some] at h
      obtain ⟨m, hm, h⟩ := bind_eq_ok_iff.mp h
      obtain ⟨rest, hrest, h⟩ := bind_eq_ok_iff.mp h
      obtain rfl := Except.ok.inj h
      -- The name is met on both sides, and is no longer on the right when the rest is merged.
      exact (ih hleft (Fields.nodup_keys_erase hright name) hrest).cons (some m) hmissing
        (Fields.get?_erase_self hright name)
        (fun other hother => Fields.get?_erase_of_ne _ hother) (by rw [hb]; exact .both hm)
    | none =>
      simp only [hb, Option.map_none] at h
      obtain ⟨rest, hrest, h⟩ := bind_eq_ok_iff.mp h
      have hmap := ih hleft hright hrest
      cases hclosed : rightClosed with
      | true =>
        rw [hclosed] at h hmap
        obtain rfl := Except.ok.inj h
        exact hmap.cons none hmissing hb (fun _ _ => rfl) (by rw [hb]; exact .leftDropped rfl)
      | false =>
        rw [hclosed] at h hmap
        obtain rfl := Except.ok.inj h
        exact hmap.cons (some a) hmissing hb (fun _ _ => rfl) (by rw [hb]; exact .left rfl)

/-- **The members of joined patterns.**  No pattern is dropped. -/
theorem mergePatterns_spec {left right result : Fields Schema} (hleft : (Fields.keys left).Nodup)
    (hright : (Fields.keys right).Nodup) (h : mergePatterns merge left right = .ok result) :
    Meeting.Map merge false false left right result := by
  induction right generalizing left result with
  | nil =>
    rw [mergePatterns] at h
    obtain rfl := Except.ok.inj h
    refine ⟨hleft, fun name => ?_⟩
    rw [Fields.get?_nil]
    cases Fields.get? left name with
    | none => exact .neither
    | some a => exact .left rfl
  | cons entry right ih =>
    obtain ⟨pattern, b⟩ := entry
    obtain ⟨hpattern, hright⟩ := List.nodup_cons.mp hright
    have hmissing : Fields.get? right pattern = none := Fields.get?_eq_none_iff.mpr hpattern
    -- The pattern moves to the end of the left side, where the rest of the right meets it alone.
    have hmoved : ∀ (others : Fields Schema) (m : Schema), (Fields.keys others).Nodup →
        Fields.get? others pattern = none →
        (∀ other ≠ pattern, Fields.get? others other = Fields.get? left other) →
        Meeting merge false false (Fields.get? left pattern) (some b) (some m) →
        mergePatterns merge (others ++ [(pattern, m)]) right = .ok result →
        Meeting.Map merge false false left ((pattern, b) :: right) result := by
      intro others m hothers hfree hsame hname hrest
      have hkeys : (Fields.keys (others ++ [(pattern, m)])).Nodup := by
        rw [← Fields.set_of_notMem (Fields.get?_eq_none_iff.mp hfree) m]
        exact Fields.nodup_keys_set hothers pattern m
      have hmap := ih hkeys hright hrest
      refine ⟨hmap.nodup, fun name => ?_⟩
      have hmeeting := hmap.meeting name
      by_cases heq : pattern = name
      · subst heq
        rw [Fields.get?_append, hfree, Option.none_or, Fields.get?_cons, if_pos rfl, hmissing]
          at hmeeting
        rw [Fields.get?_cons, if_pos rfl]
        generalize Fields.get? result pattern = found at hmeeting ⊢
        cases hmeeting with
        | left _ => exact hname
        | leftDropped h => cases h
      · rw [Fields.get?_append, hsame name (Ne.symm heq), Fields.get?_cons, if_neg heq,
          Fields.get?_nil, Option.or_none] at hmeeting
        rwa [Fields.get?_cons, if_neg heq]
    rw [mergePatterns, Fields.extract?_eq] at h
    cases ha : Fields.get? left pattern with
    | some a =>
      simp only [ha, Option.map_some] at h
      obtain ⟨m, hm, h⟩ := bind_eq_ok_iff.mp h
      exact hmoved (Fields.erase left pattern) m (Fields.nodup_keys_erase hleft pattern)
        (Fields.get?_erase_self hleft pattern)
        (fun other hother => Fields.get?_erase_of_ne _ hother) (by rw [ha]; exact .both hm) h
    | none =>
      simp only [ha, Option.map_none] at h
      exact hmoved left b hleft ha (fun _ _ => rfl) (by rw [ha]; exact .right rfl) h

/-! ### Object shapes -/

/-- Undeclared properties are forbidden when one side forbids them. -/
theorem isClosed_of_additional {x y z : Additional} (h : additional merge x y = .ok z) :
    z.isClosed = (x.isClosed || y.isClosed) := by
  unfold additional at h
  split at h
  · obtain rfl := Except.ok.inj h
    rfl
  · obtain rfl := Except.ok.inj h
    exact (Bool.or_false _).symm
  · next p q =>
    obtain rfl := Except.ok.inj h
    cases p <;> cases q <;> rfl
  · next a b =>
    obtain ⟨m, -, rfl⟩ := map_eq_ok_iff.mp h
    rfl
  · next a flag =>
    obtain rfl := Except.ok.inj h
    cases flag <;> rfl
  · next flag b =>
    obtain rfl := Except.ok.inj h
    cases flag <;> rfl

/-- A schema of undeclared properties stands on one side, or is merged of both. -/
theorem schema_of_additional {x y : Additional} {m : Schema}
    (h : additional merge x y = .ok (.schema m)) :
    x = .schema m ∨ y = .schema m ∨
      ∃ a b, x = .schema a ∧ y = .schema b ∧ merge a b = .ok m := by
  unfold additional at h
  split at h
  · exact .inr (.inl (Except.ok.inj h))
  · exact .inl (Except.ok.inj h)
  · cases h
  · next a b =>
    obtain ⟨found, hm, heq⟩ := map_eq_ok_iff.mp h
    obtain rfl := Additional.schema.inj heq
    exact .inr (.inr ⟨a, b, rfl, rfl, hm⟩)
  · next a flag =>
    cases flag with
    | false => cases h
    | true => exact .inl (Except.ok.inj h)
  · next flag b =>
    cases flag with
    | false => cases h
    | true => exact .inr (.inl (Except.ok.inj h))

/-! ### What holds of all schemas in a shape -/

section Maps

variable {p : Schema → Prop} {left right result : Fields Schema}
  (hmerge : ∀ a b m, p a → p b → merge a b = .ok m → p m)
  (hleft : ∀ entry ∈ left, p entry.2) (hright : ∀ entry ∈ right, p entry.2)
include hmerge hleft hright

theorem forall_properties (h : properties merge leftClosed rightClosed left right = .ok result) :
    ∀ entry ∈ result, p entry.2 := by
  induction left generalizing right result with
  | nil =>
    rw [properties] at h
    obtain rfl := Except.ok.inj h
    split
    · exact List.forall_mem_nil _
    · exact hright
  | cons entry left ih =>
    obtain ⟨name, a⟩ := entry
    obtain ⟨ha, hleft⟩ := List.forall_mem_cons.mp hleft
    rw [properties] at h
    split at h
    · next b others hextract =>
      obtain ⟨hb, hothers⟩ := Fields.forall_extract hextract hright
      obtain ⟨merged, hmerged, h⟩ := bind_eq_ok_iff.mp h
      obtain ⟨rest, hrest, h⟩ := bind_eq_ok_iff.mp h
      obtain rfl := Except.ok.inj h
      exact List.forall_mem_cons.mpr ⟨hmerge a b merged ha hb hmerged, ih hleft hothers hrest⟩
    · obtain ⟨rest, hrest, h⟩ := bind_eq_ok_iff.mp h
      obtain rfl := Except.ok.inj h
      split
      · exact ih hleft hright hrest
      · exact List.forall_mem_cons.mpr ⟨ha, ih hleft hright hrest⟩

theorem forall_mergePatterns (h : mergePatterns merge left right = .ok result) :
    ∀ entry ∈ result, p entry.2 := by
  induction right generalizing left with
  | nil =>
    obtain rfl := Except.ok.inj h
    exact hleft
  | cons entry right ih =>
    obtain ⟨name, b⟩ := entry
    obtain ⟨hb, hright⟩ := List.forall_mem_cons.mp hright
    rw [mergePatterns] at h
    split at h
    · next a others hextract =>
      obtain ⟨ha, hothers⟩ := Fields.forall_extract hextract hleft
      obtain ⟨merged, hmerged, h⟩ := bind_eq_ok_iff.mp h
      refine ih (List.forall_mem_append.mpr ⟨hothers, ?_⟩) hright h
      exact List.forall_mem_singleton.mpr (hmerge a b merged ha hb hmerged)
    · exact ih (List.forall_mem_append.mpr ⟨hleft, List.forall_mem_singleton.mpr hb⟩) hright h

end Maps

/-- The parts of intersected object shapes are parts of these, or merged of such. -/
theorem forall_objects {p : Schema → Prop} {x y shape : ObjectSchema}
    (hmerge : ∀ a b m, p a → p b → merge a b = .ok m → p m)
    (hx : ∀ part ∈ x.parts, p part) (hy : ∀ part ∈ y.parts, p part)
    (h : objects merge x y = .ok shape) : ∀ part ∈ shape.parts, p part := by
  obtain ⟨hproperties, hadditional, hpatterns⟩ := ObjectSchema.forall_parts_iff.mp hx
  obtain ⟨hproperties', hadditional', hpatterns'⟩ := ObjectSchema.forall_parts_iff.mp hy
  obtain ⟨merged, hmerged, h⟩ := bind_eq_ok_iff.mp h
  obtain ⟨undeclared, hundeclared, h⟩ := bind_eq_ok_iff.mp h
  obtain ⟨patterns, hmergedPatterns, h⟩ := bind_eq_ok_iff.mp h
  obtain rfl := Except.ok.inj h
  refine ObjectSchema.forall_parts_iff.mpr ⟨forall_properties hmerge hproperties hproperties' hmerged,
    fun m hm => ?_, forall_mergePatterns hmerge hpatterns hpatterns' hmergedPatterns⟩
  obtain rfl : undeclared = .schema m := hm
  rcases schema_of_additional hundeclared with hxm | hym | ⟨a, b, hxa, hyb, hab⟩
  · exact hadditional m hxm
  · exact hadditional' m hym
  · exact hmerge a b m (hadditional a hxa) (hadditional' b hyb) hab

/-! ### Object shapes that meet -/

/-- The names that both sides allow. -/
theorem allowsName_names_iff {x y shape : ObjectSchema}
    (h : shape.names = Intersection.names x.names y.names) (name : String) :
    shape.AllowsName name ↔ x.AllowsName name ∧ y.AllowsName name := by
  rw [ObjectSchema.AllowsName, ObjectSchema.AllowsName, ObjectSchema.AllowsName, h]
  cases x.names with
  | none =>
    cases y.names with
    | none => simp [Intersection.names]
    | some right => simp [Intersection.names]
  | some left =>
    cases y.names with
    | none => simp [Intersection.names]
    | some right => simp [Intersection.names]

/-- Two object shapes meet in a third: it requires what either requires, is closed when
either is, and allows the names that both allow; the schemas in it stand on one side, or are
merged of both. -/
structure ObjectsMeet (merge : Schema → Schema → Except Conflict Schema)
    (x y shape : ObjectSchema) : Prop where
  properties : Meeting.Map merge x.additional.isClosed y.additional.isClosed x.properties
    y.properties shape.properties
  required : ∀ name, name ∈ shape.required ↔ name ∈ x.required ∨ name ∈ y.required
  closed : shape.additional.isClosed = (x.additional.isClosed || y.additional.isClosed)
  additional : ∀ m, shape.additional = .schema m → x.additional = .schema m ∨
    y.additional = .schema m ∨
      ∃ a b, x.additional = .schema a ∧ y.additional = .schema b ∧ merge a b = .ok m
  patterns : Meeting.Map merge false false x.patterns y.patterns shape.patterns
  names : ∀ name, shape.AllowsName name ↔ x.AllowsName name ∧ y.AllowsName name

/-- **Object shapes meet in their intersection.** -/
theorem objects_spec {x y shape : ObjectSchema}
    (hx : ∀ fields ∈ (Kind.object x).maps, (Fields.keys fields).Nodup)
    (hy : ∀ fields ∈ (Kind.object y).maps, (Fields.keys fields).Nodup)
    (h : objects merge x y = .ok shape) : ObjectsMeet merge x y shape := by
  simp only [Kind.maps, List.forall_mem_cons] at hx hy
  rw [objects] at h
  obtain ⟨properties, hproperties, h⟩ := bind_eq_ok_iff.mp h
  obtain ⟨additional, hadditional, h⟩ := bind_eq_ok_iff.mp h
  obtain ⟨patterns, hpatterns, h⟩ := bind_eq_ok_iff.mp h
  obtain rfl := Except.ok.inj h
  refine ⟨properties_spec hx.1 hy.1 hproperties, fun name => mem_unionOf,
    isClosed_of_additional hadditional, fun m hm => ?_,
    mergePatterns_spec hx.2.1 hy.2.1 hpatterns, allowsName_names_iff rfl⟩
  obtain rfl : additional = .schema m := hm
  exact schema_of_additional hadditional

/-- The sides of a meeting can be told in either order. -/
theorem ObjectsMeet.symm {x y shape : ObjectSchema} (h : ObjectsMeet merge x y shape) :
    ObjectsMeet (fun b a => merge a b) y x shape where
  properties := h.properties.symm
  required name := (h.required name).trans or_comm
  closed := h.closed.trans (Bool.or_comm _ _)
  additional m hm := by
    rcases h.additional m hm with hx | hy | ⟨a, b, hx, hy, hab⟩
    · exact .inr (.inl hx)
    · exact .inl hy
    · exact .inr (.inr ⟨b, a, hy, hx, hab⟩)
  patterns := h.patterns.symm
  names name := (h.names name).trans and_comm

end Intersection

end RpcSchema
