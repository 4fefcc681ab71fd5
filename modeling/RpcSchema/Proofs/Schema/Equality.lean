import RpcSchema.Proofs.Json.Equality
import RpcSchema.Proofs.Schema.Parts

/-!
# Equality of schemas

Equality of schemas does not count the order of properties, patterns and kept keywords.
It is taken apart one level at a time: two schemas are equal when they say the same about
themselves and their shapes are made of equal parts in the same way.

## Main definitions

* `Kind.Alike r` — shapes made in the same way of parts that `r` relates.

## Main results

* `Schema.beq_iff` — equality one level at a time.
* `Schema.beq_self`, `Schema.beq_symm`, `Schema.beq_trans` — equality is an equivalence.
-/

namespace RpcSchema

/-! ### Shapes made in the same way -/

/-- Related schemas, or the same flag, for undeclared properties. -/
inductive Additional.Alike (r : Schema → Schema → Prop) : Additional → Additional → Prop
  | unstated : Alike r .unstated .unstated
  | allowed (flag : Bool) : Alike r (.allowed flag) (.allowed flag)
  | schema {a b : Schema} (h : r a b) : Alike r (.schema a) (.schema b)

namespace Additional.Alike

variable {r : Schema → Schema → Prop} {x y z : Additional}

theorem imp {s : Schema → Schema → Prop} (h : Additional.Alike r x y)
    (hr : ∀ a, x = .schema a → ∀ b, r a b → s a b) : Additional.Alike s x y := by
  cases h with
  | unstated => exact .unstated
  | allowed flag => exact .allowed flag
  | schema h => exact .schema (hr _ rfl _ h)

theorem flip {r' : Schema → Schema → Prop} (h : Additional.Alike r x y)
    (hr : ∀ a, x = .schema a → ∀ b, r a b → r' b a) : Additional.Alike r' y x := by
  cases h with
  | unstated => exact .unstated
  | allowed flag => exact .allowed flag
  | schema h => exact .schema (hr _ rfl _ h)

theorem trans {s t : Schema → Schema → Prop} (h : Additional.Alike r x y)
    (h' : Additional.Alike s y z) (hr : ∀ a, x = .schema a → ∀ b c, r a b → s b c → t a c) :
    Additional.Alike t x z := by
  cases h with
  | unstated => cases h' with
    | unstated => exact .unstated
  | allowed flag => cases h' with
    | allowed _ => exact .allowed flag
  | schema h => cases h' with
    | schema h' => exact .schema (hr _ rfl _ _ h h')

end Additional.Alike

/-- Object shapes with the same names and related schemas under them. -/
structure ObjectSchema.Alike (r : Schema → Schema → Prop) (a b : ObjectSchema) : Prop where
  properties : Fields.Alike r a.properties b.properties
  required : a.required = b.required
  additional : Additional.Alike r a.additional b.additional
  patterns : Fields.Alike r a.patterns b.patterns
  names : a.names = b.names

/-- Shapes made in the same way of parts that `r` relates. -/
inductive Kind.Alike (r : Schema → Schema → Prop) : Kind → Kind → Prop
  | ref (reference : String) : Alike r (.ref reference) (.ref reference)
  | const {x y : Json} (h : (x == y) = true) : Alike r (.const x) (.const y)
  | enum (type : Option Primitive) {xs ys : List Json}
      (h : List.Forall₂ (fun x y => (x == y) = true) xs ys) :
      Alike r (.enum type xs) (.enum type ys)
  | object {a b : ObjectSchema} (h : a.Alike r b) : Alike r (.object a) (.object b)
  | list : Alike r .list .list
  | listOf {a b : Schema} (h : r a b) : Alike r (.listOf a) (.listOf b)
  | tuple {as bs : List Schema} (h : List.Forall₂ r as bs) : Alike r (.tuple as) (.tuple bs)
  | allOf {as bs : List Schema} (h : List.Forall₂ r as bs) : Alike r (.allOf as) (.allOf bs)
  | anyOf {as bs : List Schema} (h : List.Forall₂ r as bs) : Alike r (.anyOf as) (.anyOf bs)
  | primitive (type : Primitive) : Alike r (.primitive type) (.primitive type)
  | empty : Alike r .empty .empty
  | never : Alike r .never .never

/-! ### Equality one level at a time -/

theorem Schema.beqItems_iff {as bs : List Schema} :
    Schema.beqItems as bs = true ↔ List.Forall₂ (fun a b => (a == b) = true) as bs := by
  induction as generalizing bs with
  | nil => cases bs <;> simp [Schema.beqItems]
  | cons a as ih =>
    cases bs with
    | nil => simp [Schema.beqItems]
    | cons b bs =>
      rw [Schema.beqItems, Bool.and_eq_true, List.forall₂_cons, ih]
      rfl

theorem Schema.beqFields_iff {as bs : Fields Schema} : Schema.beqFields as bs = true ↔
    ∀ name a, (name, a) ∈ as → ∃ b, Fields.get? bs name = some b ∧ (a == b) = true := by
  induction as with
  | nil => exact ⟨fun _ _ _ hmem => absurd hmem List.not_mem_nil, fun _ => rfl⟩
  | cons entry rest ih =>
    obtain ⟨name, a⟩ := entry
    rw [Schema.beqFields, Bool.and_eq_true, ih]
    constructor
    · rintro ⟨hfirst, hrest⟩ other c hmem
      rcases List.mem_cons.mp hmem with heq | hmem
      · obtain ⟨rfl, rfl⟩ := Prod.mk.inj heq
        split at hfirst
        · next b hb => exact ⟨b, hb, hfirst⟩
        · cases hfirst
      · exact hrest other c hmem
    · intro h
      obtain ⟨b, hb, hab⟩ := h name a (List.mem_cons_self ..)
      exact ⟨by rw [hb]; exact hab, fun other c hmem => h other c (List.mem_cons_of_mem _ hmem)⟩

theorem Additional.beq_iff {a b : Additional} :
    Additional.beq a b = true ↔ a.Alike (fun x y => (x == y) = true) b := by
  constructor
  · intro h
    cases a <;> cases b <;> try (cases h; done)
    case mp.unstated.unstated => exact .unstated
    case mp.allowed.allowed x y =>
      obtain rfl : x = y := of_decide_eq_true h
      exact .allowed x
    case mp.schema.schema => exact .schema h
  · rintro (_ | flag | h)
    · rfl
    · exact decide_eq_true rfl
    · exact h

theorem ObjectSchema.beq_iff {a b : ObjectSchema} :
    ObjectSchema.beq a b = true ↔ a.Alike (fun x y => (x == y) = true) b := by
  obtain ⟨properties, required, additional, patterns, names⟩ := a
  simp only [ObjectSchema.beq, Bool.and_eq_true, decide_eq_true_iff, Schema.beqFields_iff,
    Additional.beq_iff]
  constructor
  · rintro ⟨⟨⟨⟨⟨⟨hlength, hprops⟩, hrequired⟩, hadditional⟩, hlength'⟩, hpatterns⟩, hnames⟩
    exact ⟨⟨hlength, hprops⟩, hrequired, hadditional, ⟨hlength', hpatterns⟩, hnames⟩
  · rintro ⟨⟨hlength, hprops⟩, hrequired, hadditional, ⟨hlength', hpatterns⟩, hnames⟩
    exact ⟨⟨⟨⟨⟨⟨hlength, hprops⟩, hrequired⟩, hadditional⟩, hlength'⟩, hpatterns⟩, hnames⟩

/-- Two shapes are equal when they are made of equal parts in the same way. -/
theorem Kind.beq_iff {k l : Kind} :
    (k == l) = true ↔ k.Alike (fun x y => (x == y) = true) l := by
  constructor
  · intro h
    change Kind.beq k l = true at h
    -- Shapes of two constructors are unequal by definition; twelve pairs are left.
    cases k <;> cases l <;> try (cases h; done)
    case mp.ref.ref r s =>
      obtain rfl : r = s := of_decide_eq_true h
      exact .ref r
    case mp.const.const => exact .const h
    case mp.enum.enum p xs q ys =>
      rw [Kind.beq, Bool.and_eq_true, decide_eq_true_iff] at h
      obtain ⟨rfl, h⟩ := h
      exact .enum p (Json.array_beq_iff.mp h)
    case mp.object.object => exact .object (ObjectSchema.beq_iff.mp h)
    case mp.list.list => exact .list
    case mp.listOf.listOf => exact .listOf h
    case mp.tuple.tuple => exact .tuple (Schema.beqItems_iff.mp h)
    case mp.allOf.allOf => exact .allOf (Schema.beqItems_iff.mp h)
    case mp.anyOf.anyOf => exact .anyOf (Schema.beqItems_iff.mp h)
    case mp.primitive.primitive p q =>
      obtain rfl : p = q := of_decide_eq_true h
      exact .primitive p
    case mp.empty.empty => exact .empty
    case mp.never.never => exact .never
  · intro h
    change Kind.beq k l = true
    cases h with
    | ref reference => exact decide_eq_true rfl
    | const h => exact h
    | enum type h =>
      rw [Kind.beq, Bool.and_eq_true]
      exact ⟨decide_eq_true rfl, Json.array_beq_iff.mpr h⟩
    | object h => exact ObjectSchema.beq_iff.mpr h
    | list => rfl
    | listOf h => exact h
    | tuple h => exact Schema.beqItems_iff.mpr h
    | allOf h => exact Schema.beqItems_iff.mpr h
    | anyOf h => exact Schema.beqItems_iff.mpr h
    | primitive type => exact decide_eq_true rfl
    | empty => rfl
    | never => rfl

/-- **Two schemas are equal** when they say the same about themselves and their shapes are
made of equal parts in the same way. -/
theorem Schema.beq_iff {a b : Schema} :
    (a == b) = true ↔ a.title = b.title ∧ a.description = b.description ∧
      a.kind.Alike (fun x y => (x == y) = true) b.kind ∧
        (Json.object a.extra == Json.object b.extra) = true := by
  obtain ⟨title, description, kind, extra⟩ := a
  change Schema.beq _ b = true ↔ _
  rw [Schema.beq, Bool.and_eq_true, Bool.and_eq_true, Bool.and_eq_true, decide_eq_true_iff,
    decide_eq_true_iff, ← Kind.beq_iff, and_assoc, and_assoc]
  rfl

/-- Equal schemas are equal under another title. -/
theorem Schema.retitled_beq {a b : Schema} (h : (a == b) = true) (title : Option String) :
    ((⟨title, a.description, a.kind, a.extra⟩ : Schema) ==
      ⟨title, b.description, b.kind, b.extra⟩) = true := by
  obtain ⟨-, hdescription, hkind, hextra⟩ := Schema.beq_iff.mp h
  exact Schema.beq_iff.mpr ⟨rfl, hdescription, hkind, hextra⟩

/-! ### Equality is an equivalence -/

theorem Kind.Alike.refl {r : Schema → Schema → Prop} {kind : Kind}
    (hliterals : ∀ value ∈ kind.literals, value.DistinctNames)
    (hmaps : ∀ fields ∈ kind.maps, (Fields.keys fields).Nodup)
    (hr : ∀ part ∈ kind.parts, r part part) : kind.Alike r kind := by
  cases kind with
  | ref reference => exact .ref reference
  | const value => exact .const (Json.beq_self (hliterals value (List.mem_singleton_self _)))
  | enum type values =>
    exact .enum type (List.forall₂_same.mpr fun value hmem => Json.beq_self (hliterals value hmem))
  | object shape =>
    simp only [Kind.maps, List.forall_mem_cons] at hmaps
    obtain ⟨hproperties, hadditional, hpatterns⟩ := ObjectSchema.forall_parts_iff.mp hr
    refine .object ⟨.refl hmaps.1 fun name x hmem => hproperties (name, x) hmem, rfl, ?_,
      .refl hmaps.2.1 fun name x hmem => hpatterns (name, x) hmem, rfl⟩
    cases hx : shape.additional with
    | unstated => exact .unstated
    | allowed flag => exact .allowed flag
    | schema value => exact .schema (hadditional value hx)
  | list => exact .list
  | listOf item => exact .listOf (hr item (List.mem_singleton_self _))
  | tuple items => exact .tuple (List.forall₂_same.mpr hr)
  | allOf parts => exact .allOf (List.forall₂_same.mpr hr)
  | anyOf branches => exact .anyOf (List.forall₂_same.mpr hr)
  | primitive type => exact .primitive type
  | empty => exact .empty
  | never => exact .never

/-- **A schema is equal to itself.** -/
theorem Schema.beq_self {schema : Schema} (h : schema.DistinctNames) :
    (schema == schema) = true := by
  induction h with
  | intro own _ ih =>
    exact Schema.beq_iff.mpr ⟨rfl, rfl, .refl own.literals own.maps ih, Json.beq_self own.extra⟩

theorem Kind.Alike.symm {r r' : Schema → Schema → Prop} {k l : Kind} (h : k.Alike r l)
    (hliterals : ∀ value ∈ k.literals, value.DistinctNames)
    (hmaps : ∀ fields ∈ k.maps, (Fields.keys fields).Nodup)
    (hr : ∀ a ∈ k.parts, ∀ b, r a b → r' b a) : l.Alike r' k := by
  cases h with
  | ref reference => exact .ref reference
  | const h => exact .const (Json.beq_symm (hliterals _ (List.mem_singleton_self _)) h)
  | enum type h =>
    exact .enum type (forall₂_flip h fun x hmem _ heq => Json.beq_symm (hliterals x hmem) heq)
  | @object a b h =>
    obtain ⟨hprops, hpatterns⟩ : (Fields.keys a.properties).Nodup ∧ (Fields.keys a.patterns).Nodup :=
      ⟨hmaps _ (List.mem_cons_self ..), hmaps _ (List.mem_cons_of_mem _ (List.mem_cons_self ..))⟩
    exact .object ⟨h.properties.symm hprops fun name x y hmem =>
        hr x (ObjectSchema.mem_parts_of_property hmem) y, h.required.symm,
      h.additional.flip fun x hx => hr x (ObjectSchema.mem_parts_of_additional hx),
      h.patterns.symm hpatterns fun name x y hmem =>
        hr x (ObjectSchema.mem_parts_of_pattern hmem) y, h.names.symm⟩
  | list => exact .list
  | listOf h => exact .listOf (hr _ (List.mem_singleton_self _) _ h)
  | tuple h => exact .tuple (forall₂_flip h hr)
  | allOf h => exact .allOf (forall₂_flip h hr)
  | anyOf h => exact .anyOf (forall₂_flip h hr)
  | primitive type => exact .primitive type
  | empty => exact .empty
  | never => exact .never

/-- **Equality of schemas goes both ways.** -/
theorem Schema.beq_symm {a b : Schema} (ha : a.DistinctNames) (h : (a == b) = true) :
    (b == a) = true := by
  induction ha generalizing b with
  | intro own _ ih =>
    rw [Schema.beq_iff] at h ⊢
    obtain ⟨htitle, hdescription, hkind, hextra⟩ := h
    exact ⟨htitle.symm, hdescription.symm,
      hkind.symm own.literals own.maps fun part hpart _ heq => ih part hpart heq,
      Json.beq_symm own.extra hextra⟩

theorem Kind.Alike.trans {r s t : Schema → Schema → Prop} {k l m : Kind} (h : k.Alike r l)
    (h' : l.Alike s m) (hr : ∀ a ∈ k.parts, ∀ b c, r a b → s b c → t a c) : k.Alike t m := by
  cases h with
  | ref reference => cases h' with
    | ref _ => exact .ref reference
  | const h => cases h' with
    | const h' => exact .const (Json.beq_trans h h')
  | enum type h => cases h' with
    | enum _ h' => exact .enum type (forall₂_trans h h' fun _ _ _ _ => Json.beq_trans)
  | @object a b h => cases h' with
    | @object _ c h' =>
      exact .object ⟨h.properties.trans h'.properties fun name x y z hmem =>
          hr x (ObjectSchema.mem_parts_of_property hmem) y z, h.required.trans h'.required,
        h.additional.trans h'.additional fun x hx => hr x (ObjectSchema.mem_parts_of_additional hx),
        h.patterns.trans h'.patterns fun name x y z hmem =>
          hr x (ObjectSchema.mem_parts_of_pattern hmem) y z, h.names.trans h'.names⟩
  | list => cases h' with
    | list => exact .list
  | listOf h => cases h' with
    | listOf h' => exact .listOf (hr _ (List.mem_singleton_self _) _ _ h h')
  | tuple h => cases h' with
    | tuple h' => exact .tuple (forall₂_trans h h' hr)
  | allOf h => cases h' with
    | allOf h' => exact .allOf (forall₂_trans h h' hr)
  | anyOf h => cases h' with
    | anyOf h' => exact .anyOf (forall₂_trans h h' hr)
  | primitive type => cases h' with
    | primitive _ => exact .primitive type
  | empty => cases h' with
    | empty => exact .empty
  | never => cases h' with
    | never => exact .never

/-- **Equality passes on.** -/
theorem Schema.beq_trans {a b c : Schema} (h : (a == b) = true) (h' : (b == c) = true) :
    (a == c) = true := by
  induction a using Schema.induction_parts generalizing b c with
  | h a ih =>
    rw [Schema.beq_iff] at h h' ⊢
    obtain ⟨htitle, hdescription, hkind, hextra⟩ := h
    obtain ⟨htitle', hdescription', hkind', hextra'⟩ := h'
    exact ⟨htitle.trans htitle', hdescription.trans hdescription',
      hkind.trans hkind' fun part hpart _ _ hab hbc => ih part hpart hab hbc,
      Json.beq_trans hextra hextra'⟩

end RpcSchema
