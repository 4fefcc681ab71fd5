import RpcSchema.Proofs.Unification.Conflicts

/-!
# Conflicts of equal schemas

Equal schemas are in conflict with the same schemas.  For most shapes this is so because equal
values are of the same types and in the same lists.  Two objects are in conflict where schemas in the
same place are, and equal objects have equal schemas there, so the induction is on the left schema.

Equality does not count the order of properties, so the conflict that is reported may be another
one.

## Main results

* `Intersection.exists_objects_eq_error_iff` — when two object shapes are in conflict.
* `Schema.Conflicts.of_beq` — equal schemas are in conflict with equal schemas.
-/

namespace RpcSchema

/-! ### Lists of equal values -/

namespace Json

variable {values values' : List Json} {x y x' y' : Json}

theorem beq_congr (hx : x.DistinctNames) (hy : y.DistinctNames) (hxx : (x == x') = true)
    (hyy : (y == y') = true) : (x == y) = (x' == y') := by
  apply Bool.eq_iff_iff.mpr
  constructor
  · intro h
    exact beq_trans (beq_symm hx hxx) (beq_trans h hyy)
  · intro h
    exact beq_trans hxx (beq_trans h (beq_symm hy hyy))

theorem contains_congr (hvalues : ∀ value ∈ values, value.DistinctNames) (hx : x.DistinctNames)
    (h : List.Forall₂ (fun x y => (x == y) = true) values values') (hxx : (x == x') = true) :
    values.contains x = values'.contains x' := by
  apply Bool.eq_iff_iff.mpr
  constructor
  · intro hcontains
    exact contains_of_forall₂ h (contains_of_beq (beq_symm hx hxx) hcontains)
  · intro hcontains
    have hflip := forall₂_flip h fun value hmem _ heq => beq_symm (hvalues value hmem) heq
    exact contains_of_beq hxx (contains_of_forall₂ hflip hcontains)

end Json

section Related

variable {α β : Type} {r : α → β → Prop} {xs : List α} {ys : List β} {p : α → Bool} {q : β → Bool}

theorem all_congr_of_forall₂ (h : List.Forall₂ r xs ys) (hr : ∀ x ∈ xs, ∀ y, r x y → p x = q y) :
    xs.all p = ys.all q := by
  induction h with
  | nil => rfl
  | cons hxy _ ih =>
    obtain ⟨hfirst, hr⟩ := List.forall_mem_cons.mp hr
    rw [List.all_cons, List.all_cons, hfirst _ hxy, ih hr]

theorem isEmpty_filter_congr_of_forall₂ (h : List.Forall₂ r xs ys)
    (hr : ∀ x ∈ xs, ∀ y, r x y → p x = q y) : (xs.filter p).isEmpty = (ys.filter q).isEmpty := by
  induction h with
  | nil => rfl
  | @cons x y xs ys hxy _ ih =>
    obtain ⟨hfirst, hr⟩ := List.forall_mem_cons.mp hr
    rw [List.filter_cons, List.filter_cons, hfirst _ hxy]
    cases q y with
    | false => exact ih hr
    | true => rfl

end Related

/-! ### Conflicts of equal shapes -/

namespace Intersection

variable {merge : Schema → Schema → Except Conflict Schema} {conflict : Conflict}

/-- **When two object shapes are in conflict.** -/
theorem exists_objects_eq_error_iff {x y : ObjectSchema}
    (hx : ∀ fields ∈ (Kind.object x).maps, (Fields.keys fields).Nodup)
    (hy : ∀ fields ∈ (Kind.object y).maps, (Fields.keys fields).Nodup) :
    (∃ conflict, objects merge x y = .error conflict) ↔
      ∃ a b, Counterparts x y a b ∧ ∃ conflict, merge a b = .error conflict := by
  constructor
  · rintro ⟨conflict, h⟩
    obtain ⟨a, b, hplace, hab⟩ := objects_eq_error (hx _ (by simp [Kind.maps]))
      (hy _ (by simp [Kind.maps])) h
    exact ⟨a, b, hplace, conflict, hab⟩
  · rintro ⟨a, b, hplace, conflict, hab⟩
    cases h : objects merge x y with
    | error conflict => exact ⟨conflict, rfl⟩
    | ok shape =>
      exfalso
      have hmeet := objects_spec hx hy h
      cases hplace with
      | @property name ha hb =>
        have hmeeting := hmeet.properties.meeting name
        rw [ha, hb] at hmeeting
        generalize Fields.get? shape.properties name = found at hmeeting
        cases hmeeting with
        | both hm => cases hab.symm.trans hm
      | additional ha hb =>
        rw [objects, ha, hb] at h
        obtain ⟨_, -, h⟩ := bind_eq_ok_iff.mp h
        obtain ⟨other, hother, -⟩ := bind_eq_ok_iff.mp h
        rw [additional, hab] at hother
        cases hother
      | @pattern pattern ha hb =>
        have hmeeting := hmeet.patterns.meeting pattern
        rw [ha, hb] at hmeeting
        generalize Fields.get? shape.patterns pattern = found at hmeeting
        cases hmeeting with
        | both hm => cases hab.symm.trans hm

/-- Where schemas of two objects stand, related schemas stand in related objects. -/
theorem Counterparts.alike {r : Schema → Schema → Prop} {x y x' y' : ObjectSchema} {a b : Schema}
    (h : Counterparts x y a b) (hx : x.Alike r x') (hy : y.Alike r y') :
    ∃ a' b', Counterparts x' y' a' b' ∧ r a a' ∧ r b b' := by
  cases h with
  | property ha hb =>
    obtain ⟨a', ha', haa⟩ := hx.properties.get? ha
    obtain ⟨b', hb', hbb⟩ := hy.properties.get? hb
    exact ⟨a', b', .property ha' hb', haa, hbb⟩
  | additional ha hb =>
    have hxother := hx.additional
    have hyother := hy.additional
    rw [ha] at hxother
    rw [hb] at hyother
    generalize ha' : x'.additional = other at hxother
    generalize hb' : y'.additional = other' at hyother
    cases hxother with
    | schema haa =>
      cases hyother with
      | schema hbb => exact ⟨_, _, .additional ha' hb', haa, hbb⟩
  | pattern ha hb =>
    obtain ⟨a', ha', haa⟩ := hx.patterns.get? ha
    obtain ⟨b', hb', hbb⟩ := hy.patterns.get? hb
    exact ⟨a', b', .pattern ha' hb', haa, hbb⟩

theorem Counterparts.mem_parts {x y : ObjectSchema} {a b : Schema} (h : Counterparts x y a b) :
    a ∈ x.parts ∧ b ∈ y.parts := by
  cases h with
  | property ha hb =>
    exact ⟨ObjectSchema.mem_parts_of_property (Fields.mem_of_get? ha),
      ObjectSchema.mem_parts_of_property (Fields.mem_of_get? hb)⟩
  | additional ha hb =>
    exact ⟨ObjectSchema.mem_parts_of_additional ha, ObjectSchema.mem_parts_of_additional hb⟩
  | pattern ha hb =>
    exact ⟨ObjectSchema.mem_parts_of_pattern (Fields.mem_of_get? ha),
      ObjectSchema.mem_parts_of_pattern (Fields.mem_of_get? hb)⟩

/-- A condition decides over the conflict. -/
private theorem exists_ite_eq_error {c c' : Prop} [Decidable c] [Decidable c'] {m m' : Schema}
    {found found' : Conflict} (hc : c' → c)
    (h : (if c then Except.ok m else .error found) = .error conflict) :
    ∃ conflict : Conflict, (if c' then Except.ok m' else .error found') = .error conflict := by
  have hnot : ¬c := by
    intro hc
    rw [if_pos hc] at h
    cases h
  exact ⟨found', if_neg fun hc' => hnot (hc hc')⟩

/-- **Equal shapes are in conflict with equal shapes**, if this holds of their parts. -/
theorem exists_combine_eq_error_congr {a b a' b' : Schema} (ha : a.Operand) (hb : b.Operand)
    (ha' : a'.NamesApart) (hb' : b'.NamesApart)
    (hk : a.kind.Alike (fun x y => (x == y) = true) a'.kind)
    (hl : b.kind.Alike (fun x y => (x == y) = true) b'.kind)
    (hparts : ∀ x ∈ a.kind.parts, ∀ y ∈ b.kind.parts, ∀ x' ∈ a'.kind.parts, ∀ y' ∈ b'.kind.parts,
      (x == x') = true → (y == y') = true → (∃ conflict, merge x y = .error conflict) →
        ∃ conflict, merge x' y' = .error conflict)
    (h : combine merge a b = .error conflict) :
    ∃ conflict, combine merge a' b' = .error conflict := by
  obtain ⟨⟨-, hxs, hmaps⟩, huncomposed⟩ := ha
  obtain ⟨⟨-, hys, hmaps'⟩, huncomposed'⟩ := hb
  obtain ⟨_, _, k, _⟩ := a
  obtain ⟨_, _, l, _⟩ := b
  obtain ⟨_, _, k', _⟩ := a'
  obtain ⟨_, _, l', _⟩ := b'
  dsimp only at hk hl hxs hys hmaps hmaps'
  -- Most pairs of shapes are in conflict, or are not, whatever is in them.
  cases hk <;> cases hl <;> try first
    | exact ⟨_, rfl⟩
    | exact absurd huncomposed Bool.noConfusion
    | exact absurd huncomposed' Bool.noConfusion
    | cases h
  case ref.ref =>
    simp only [combine] at h ⊢
    exact exists_ite_eq_error id h
  case const.const hxx _ _ hyy =>
    simp only [combine] at h ⊢
    refine exists_ite_eq_error (fun hxy => ?_) h
    rwa [Json.beq_congr (hxs _ List.mem_cons_self) (hys _ List.mem_cons_self) hxx hyy]
  case const.enum hxx _ _ _ hyy =>
    simp only [combine] at h ⊢
    refine exists_ite_eq_error (fun hxy => ?_) h
    exact (Json.contains_congr hys (hxs _ List.mem_cons_self) hyy hxx).trans hxy
  case const.primitive hxx _ =>
    simp only [combine] at h ⊢
    refine exists_ite_eq_error (fun hxy => ?_) h
    rwa [Primitive.admits_of_beq _ hxx]
  case enum.const hxx _ _ hyy =>
    simp only [combine] at h ⊢
    refine exists_ite_eq_error (fun hxy => ?_) h
    exact (Json.contains_congr hxs (hys _ List.mem_cons_self) hxx hyy).trans hxy
  case enum.enum xs xs' hxx _ ys ys' hyy =>
    simp only [combine] at h ⊢
    have hempty : (xs.filter ys.contains).isEmpty = (xs'.filter ys'.contains).isEmpty :=
      isEmpty_filter_congr_of_forall₂ hxx fun x hx y hxy =>
        Json.contains_congr hys (hxs x hx) hyy hxy
    rw [← hempty]
    split at h
    · next hnone => exact ⟨_, if_pos hnone⟩
    · cases h
  case enum.primitive hxx type =>
    simp only [combine] at h ⊢
    refine exists_ite_eq_error (fun hxy => ?_) h
    rwa [all_congr_of_forall₂ hxx fun _ _ _ heq => type.admits_of_beq heq]
  case primitive.const type _ _ hyy =>
    simp only [combine] at h ⊢
    refine exists_ite_eq_error (fun hxy => ?_) h
    rwa [type.admits_of_beq hyy]
  case primitive.enum type _ _ _ hyy =>
    simp only [combine] at h ⊢
    refine exists_ite_eq_error (fun hxy => ?_) h
    rwa [all_congr_of_forall₂ hyy fun _ _ _ heq => type.admits_of_beq heq]
  case primitive.primitive p q =>
    simp only [combine] at h ⊢
    cases hmeet : p.meet? q with
    | none => exact ⟨_, rfl⟩
    | some type =>
      rw [hmeet] at h
      cases h
  case object.object x x' hx y y' hy =>
    obtain ⟨a, b, hplace, hab⟩ := (exists_objects_eq_error_iff hmaps hmaps').mp
      ⟨conflict, map_eq_error_iff.mp h⟩
    obtain ⟨a', b', hplace', haa, hbb⟩ := hplace.alike hx hy
    obtain ⟨conflict, hconflict⟩ := (exists_objects_eq_error_iff ha'.maps hb'.maps).mpr
      ⟨a', b', hplace', hparts a hplace.mem_parts.1 b hplace.mem_parts.2 a' hplace'.mem_parts.1 b'
        hplace'.mem_parts.2 haa hbb hab⟩
    exact ⟨conflict, map_eq_error_iff.mpr hconflict⟩
  case listOf.listOf x x' hx y y' hy =>
    obtain ⟨conflict, hconflict⟩ := hparts x List.mem_cons_self y List.mem_cons_self x'
      List.mem_cons_self y' List.mem_cons_self hx hy ⟨conflict, map_eq_error_iff.mp h⟩
    exact ⟨conflict, map_eq_error_iff.mpr hconflict⟩

end Intersection

/-- **Equal schemas are in conflict with equal schemas.** -/
theorem Schema.Conflicts.of_beq {a b a' b' : Schema} (ha : a.Every Schema.Operand)
    (hb : b.Every Schema.Operand) (ha' : a'.DistinctNames) (hb' : b'.DistinctNames)
    (haa : (a == a') = true) (hbb : (b == b') = true) (h : a.Conflicts b) : a'.Conflicts b' := by
  induction a using Schema.induction_parts generalizing b a' b' with
  | h a ih =>
  have hanames : a.DistinctNames := ha.mono fun _ h => h.1
  have hbnames : b.DistinctNames := hb.mono fun _ h => h.1
  obtain ⟨conflict, h⟩ := h
  rw [Schema.intersect_eq hanames hbnames] at h
  rw [Schema.Conflicts, Schema.intersect_eq ha' hb']
  split at h
  · cases h
  · next hne =>
    have hne' : ¬(a' == b') = true := by
      intro heq
      exact hne (Schema.beq_trans haa (Schema.beq_trans heq (Schema.beq_symm hbnames hbb)))
    rw [if_neg hne']
    obtain ⟨-, -, hk, -⟩ := Schema.beq_iff.mp haa
    obtain ⟨-, -, hl, -⟩ := Schema.beq_iff.mp hbb
    refine Intersection.exists_combine_eq_error_congr ha.own hb.own ha'.own hb'.own hk hl ?_ h
    intro x hx y hy x' hx' y' hy' hxx hyy hxy
    exact ih x hx (ha.parts x hx) (hb.parts y hy) (ha'.parts x' hx') (hb'.parts y' hy') hxx hyy hxy

end RpcSchema
