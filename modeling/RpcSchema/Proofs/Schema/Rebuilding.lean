import Mathlib.Data.List.Forall2
import RpcSchema.Proofs.Schema.Equality

/-!
# Shapes rebuilt from other parts

Passes over schemas often replace the parts of a shape and keep everything else: the names of
properties and patterns with their order, the values that are spelled out, and what an object
requires.  Such a shape is rebuilt from the other one, part by part.

What is rebuilt from related parts is alike up to that relation.  So two passes are compared by
comparing what they do to one part.

## Main definitions

* `Kind.Rebuilt r` — a shape in which each part was replaced by one that `r` relates to it.

## Main results

* `Kind.Rebuilt.parts`, `Kind.Rebuilt.namesApart` — what a rebuilt shape has of the other one.
* `Kind.Rebuilt.alike` — it is alike up to the relation of parts.
* `Kind.Rebuilt.eq` — it is determined by what the parts are replaced by.
-/

namespace RpcSchema

/-- The same names in the same order, and related schemas under them. -/
def Fields.Rebuilt (r : Schema → Schema → Prop) (xs ys : Fields Schema) : Prop :=
  List.Forall₂ (fun x y => x.1 = y.1 ∧ r x.2 y.2) xs ys

/-- Object shapes that differ in their parts only. -/
structure ObjectSchema.Rebuilt (r : Schema → Schema → Prop) (a b : ObjectSchema) : Prop where
  properties : Fields.Rebuilt r a.properties b.properties
  required : a.required = b.required
  additional : Additional.Alike r a.additional b.additional
  patterns : Fields.Rebuilt r a.patterns b.patterns
  names : a.names = b.names

/-- Whether the shape is of a kind that is made of no other schemas. -/
def Kind.isLeaf : Kind → Bool
  | .object _ | .listOf _ | .tuple _ | .allOf _ | .anyOf _ => false
  | _ => true

/-- The second shape is the first one with its parts replaced by related ones. -/
inductive Kind.Rebuilt (r : Schema → Schema → Prop) : Kind → Kind → Prop
  | object {a b : ObjectSchema} (h : a.Rebuilt r b) : Rebuilt r (.object a) (.object b)
  | listOf {a b : Schema} (h : r a b) : Rebuilt r (.listOf a) (.listOf b)
  | tuple {as bs : List Schema} (h : List.Forall₂ r as bs) : Rebuilt r (.tuple as) (.tuple bs)
  | allOf {as bs : List Schema} (h : List.Forall₂ r as bs) : Rebuilt r (.allOf as) (.allOf bs)
  | anyOf {as bs : List Schema} (h : List.Forall₂ r as bs) : Rebuilt r (.anyOf as) (.anyOf bs)
  /-- A shape without parts stays. -/
  | leaf {kind : Kind} (h : kind.isLeaf = true) : Rebuilt r kind kind

variable {r s : Schema → Schema → Prop} {k l : Kind} {xs ys : Fields Schema}

/-! ### Maps -/

theorem Fields.Rebuilt.keys_eq (h : Fields.Rebuilt r xs ys) : Fields.keys ys = Fields.keys xs := by
  induction h with
  | nil => rfl
  | cons hxy _ ih => rw [Fields.keys_cons, Fields.keys_cons, hxy.1, ih]

theorem Fields.Rebuilt.values (h : Fields.Rebuilt r xs ys) :
    List.Forall₂ r (Fields.values xs) (Fields.values ys) := by
  rw [Fields.values, Fields.values, List.forall₂_map_left_iff, List.forall₂_map_right_iff]
  exact h.imp fun _ _ hxy => hxy.2

theorem Fields.Rebuilt.flip (h : Fields.Rebuilt r xs ys) :
    Fields.Rebuilt (fun b a => r a b) ys xs :=
  (List.Forall₂.flip h).imp fun _ _ hxy => ⟨hxy.1.symm, hxy.2⟩

theorem Fields.Rebuilt.imp (h : Fields.Rebuilt r xs ys)
    (hr : ∀ entry ∈ xs, ∀ b, r entry.2 b → s entry.2 b) : Fields.Rebuilt s xs ys :=
  forall₂_imp h fun entry hmem y hxy => ⟨hxy.1, hr entry hmem y.2 hxy.2⟩

theorem Fields.Rebuilt.alike (h : Fields.Rebuilt r xs ys) (hx : (Fields.keys xs).Nodup) :
    Fields.Alike r xs ys := by
  have hy : (Fields.keys ys).Nodup := h.keys_eq ▸ hx
  refine ⟨h.length_eq, fun name x hmem => ?_⟩
  obtain ⟨⟨other, y⟩, hentry, hname, hr⟩ := exists_mem_of_forall₂ h hmem
  obtain rfl : name = other := hname
  exact ⟨y, Fields.get?_of_mem hy hentry, hr⟩

/-- What is determined part by part is determined for the whole map. -/
theorem Fields.Rebuilt.eq {zs : Fields Schema} (h : Fields.Rebuilt r xs ys)
    (h' : Fields.Rebuilt s xs zs) (hr : ∀ entry ∈ xs, ∀ b c, r entry.2 b → s entry.2 c → b = c) :
    ys = zs := by
  induction h generalizing zs with
  | nil => cases h' with
    | nil => rfl
  | cons hxy _ ih => cases h' with
    | cons hxz hrest =>
      obtain ⟨hfirst, hr⟩ := List.forall_mem_cons.mp hr
      rw [ih hrest hr, Prod.ext (hxy.1.symm.trans hxz.1) (hfirst _ _ hxy.2 hxz.2)]

/-! ### Shapes -/

theorem Kind.parts_of_isLeaf {kind : Kind} (h : kind.isLeaf = true) : kind.parts = [] := by
  cases kind with
  | object _ | listOf _ | tuple _ | allOf _ | anyOf _ => cases h
  | _ => rfl

theorem Additional.Alike.schema? {x y : Additional} (h : Additional.Alike r x y) :
    List.Forall₂ r x.schema?.toList y.schema?.toList := by
  cases h with
  | unstated => exact .nil
  | allowed flag => exact .nil
  | schema h => exact .cons h .nil

theorem ObjectSchema.Rebuilt.parts {a b : ObjectSchema} (h : a.Rebuilt r b) :
    List.Forall₂ r a.parts b.parts :=
  List.rel_append h.properties.values (List.rel_append h.additional.schema? h.patterns.values)

namespace Kind.Rebuilt

/-- The parts are replaced one by one. -/
theorem parts (h : k.Rebuilt r l) : List.Forall₂ r k.parts l.parts := by
  cases h with
  | object h => exact h.parts
  | listOf h => exact .cons h .nil
  | tuple h => exact h
  | allOf h => exact h
  | anyOf h => exact h
  | leaf h =>
    rw [Kind.parts_of_isLeaf h]
    exact .nil

theorem literals_eq (h : k.Rebuilt r l) : l.literals = k.literals := by
  cases h with
  | leaf _ => rfl
  | _ => rfl

/-- The maps keep their names. -/
theorem nodup_maps (h : k.Rebuilt r l) (hmaps : ∀ fields ∈ k.maps, (Fields.keys fields).Nodup) :
    ∀ fields ∈ l.maps, (Fields.keys fields).Nodup := by
  cases h with
  | object h =>
    simp only [Kind.maps, List.forall_mem_cons] at hmaps ⊢
    rw [h.properties.keys_eq, h.patterns.keys_eq]
    exact hmaps
  | leaf _ => exact hmaps
  | _ => exact List.forall_mem_nil _

/-- Names stay apart in a schema whose shape is rebuilt. -/
theorem namesApart {schema : Schema} (h : schema.kind.Rebuilt r l) (hnames : schema.NamesApart)
    (title : Option String) :
    (⟨title, schema.description, l, schema.extra⟩ : Schema).NamesApart where
  extra := hnames.extra
  literals := by
    change ∀ value ∈ l.literals, _
    rw [h.literals_eq]
    exact hnames.literals
  maps := h.nodup_maps hnames.maps

/-- Each part may stand for itself. -/
theorem refl {kind : Kind} (hr : ∀ part ∈ kind.parts, r part part) : kind.Rebuilt r kind := by
  cases kind with
  | object shape =>
    obtain ⟨hproperties, hadditional, hpatterns⟩ := ObjectSchema.forall_parts_iff.mp hr
    refine .object ⟨List.forall₂_same.mpr fun entry hmem => ⟨rfl, hproperties entry hmem⟩, rfl, ?_,
      List.forall₂_same.mpr fun entry hmem => ⟨rfl, hpatterns entry hmem⟩, rfl⟩
    cases hx : shape.additional with
    | unstated => exact .unstated
    | allowed flag => exact .allowed flag
    | schema value => exact .schema (hadditional value hx)
  | listOf item => exact .listOf (hr item (List.mem_singleton_self _))
  | tuple items => exact .tuple (List.forall₂_same.mpr hr)
  | allOf parts => exact .allOf (List.forall₂_same.mpr hr)
  | anyOf branches => exact .anyOf (List.forall₂_same.mpr hr)
  | _ => exact .leaf rfl

/-- The relation of the parts may be replaced, knowing that they are parts. -/
theorem imp (h : k.Rebuilt r l) (hr : ∀ a ∈ k.parts, ∀ b, r a b → s a b) : k.Rebuilt s l := by
  cases h with
  | object h =>
    obtain ⟨hproperties, hadditional, hpatterns⟩ := ObjectSchema.forall_parts_iff.mp hr
    exact .object ⟨h.properties.imp hproperties, h.required, h.additional.imp hadditional,
      h.patterns.imp hpatterns, h.names⟩
  | listOf h => exact .listOf (hr _ (List.mem_singleton_self _) _ h)
  | tuple h => exact .tuple (forall₂_imp h hr)
  | allOf h => exact .allOf (forall₂_imp h hr)
  | anyOf h => exact .anyOf (forall₂_imp h hr)
  | leaf h => exact .leaf h

theorem flip (h : k.Rebuilt r l) : l.Rebuilt (fun b a => r a b) k := by
  cases h with
  | object h =>
    exact .object ⟨h.properties.flip, h.required.symm, h.additional.flip fun _ _ _ hab => hab,
      h.patterns.flip, h.names.symm⟩
  | listOf h => exact .listOf h
  | tuple h => exact .tuple (List.Forall₂.flip h)
  | allOf h => exact .allOf (List.Forall₂.flip h)
  | anyOf h => exact .anyOf (List.Forall₂.flip h)
  | leaf h => exact .leaf h

/-- **A rebuilt shape is alike** up to the relation of parts. -/
theorem alike (h : k.Rebuilt r l) (hliterals : ∀ value ∈ k.literals, value.DistinctNames)
    (hmaps : ∀ fields ∈ k.maps, (Fields.keys fields).Nodup) : k.Alike r l := by
  cases h with
  | object h =>
    simp only [Kind.maps, List.forall_mem_cons] at hmaps
    exact .object ⟨h.properties.alike hmaps.1, h.required, h.additional,
      h.patterns.alike hmaps.2.1, h.names⟩
  | listOf h => exact .listOf h
  | tuple h => exact .tuple h
  | allOf h => exact .allOf h
  | anyOf h => exact .anyOf h
  | leaf h =>
    refine .refl hliterals hmaps fun part hpart => ?_
    rw [Kind.parts_of_isLeaf h] at hpart
    exact absurd hpart List.not_mem_nil

/-- **A rebuilt shape is determined** by what the parts are replaced by. -/
theorem eq {m : Kind} (h : k.Rebuilt r l) (h' : k.Rebuilt s m)
    (hr : ∀ part ∈ k.parts, ∀ b c, r part b → s part c → b = c) : l = m := by
  have hlist : ∀ {as bs cs : List Schema}, List.Forall₂ r as bs → List.Forall₂ s as cs →
      (∀ a ∈ as, ∀ b c, r a b → s a c → b = c) → bs = cs := by
    intro as bs cs hab hac hr
    have hback : List.Forall₂ (fun b a => a ∈ as ∧ r a b) bs as :=
      forall₂_flip hab fun _ ha _ h => ⟨ha, h⟩
    have heq : List.Forall₂ (fun b c => b = c) bs cs :=
      forall₂_trans hback hac fun b _ a c hb hc => hr a hb.1 b c hb.2 hc
    rwa [List.forall₂_eq_eq_eq] at heq
  -- Both are rebuilt of the same shape, so the same constructor made them.
  cases h with
  | @object a b h => cases h' with
    | @object _ c h' =>
      obtain ⟨hproperties, hadditional, hpatterns⟩ := ObjectSchema.forall_parts_iff.mp hr
      obtain ⟨properties, required, x, patterns, names⟩ := a
      obtain ⟨properties', required', y, patterns', names'⟩ := b
      obtain ⟨properties'', required'', z, patterns'', names''⟩ := c
      have hundeclared : y = z := by
        have hxy : Additional.Alike r x y := h.additional
        have hxz : Additional.Alike s x z := h'.additional
        cases hxy with
        | unstated => cases hxz with
          | unstated => rfl
        | allowed flag => cases hxz with
          | allowed _ => rfl
        | schema hab => cases hxz with
          | schema hac => rw [hadditional _ rfl _ _ hab hac]
      have hrequired : required' = required'' := h.required.symm.trans h'.required
      have hnames : names' = names'' := h.names.symm.trans h'.names
      have hdeclared : properties' = properties'' := h.properties.eq h'.properties hproperties
      have hmatched : patterns' = patterns'' := h.patterns.eq h'.patterns hpatterns
      rw [hdeclared, hmatched, hundeclared, hrequired, hnames]
    | leaf hleaf => cases hleaf
  | listOf h => cases h' with
    | listOf h' => rw [hr _ (List.mem_singleton_self _) _ _ h h']
    | leaf hleaf => cases hleaf
  | tuple h => cases h' with
    | tuple h' => rw [hlist h h' hr]
    | leaf hleaf => cases hleaf
  | allOf h => cases h' with
    | allOf h' => rw [hlist h h' hr]
    | leaf hleaf => cases hleaf
  | anyOf h => cases h' with
    | anyOf h' => rw [hlist h h' hr]
    | leaf hleaf => cases hleaf
  | leaf hleaf => cases h' with
    | leaf _ => rfl
    | _ => cases hleaf

end Kind.Rebuilt

end RpcSchema
