import RpcSchema.Proofs.Distinct
import RpcSchema.Proofs.Primitive
import RpcSchema.Proofs.Unification.Depth

/-!
# Classes of branches

A schema joins the first branch of its class.  Here it is looked at what the classes are, which
schemas are put side by side, and what becomes of a branch that a schema joins.

A branch that a schema joins gets into no other class, and it stays apart from everything of other
classes that it was apart from.  That takes two assumptions: the stated type of an enumeration is
that of its values, and a primitive type admits all values of its family that are spelled out by a
schema it meets.  An integer does not admit all numbers, so that an integer and a number with a
fraction are of one class and are put side by side all the same.

## Main definitions

* `Kind.class?` — the class of a shape, if it has one.
* `Kind.isHonest`, `Kind.covers` — the two assumptions.
* `Kind.Apart` — shapes that are put side by side.
* `Kind.Succeeds` — a shape that takes the place of another one.

## Main results

* `Schema.sameClass_iff` — schemas of the same class.
* `Union.combine_of_apart`, `Union.apart_or_merges` — shapes that are apart, and all others.
* `Schema.ensures_succeeds` — a branch that a schema joined takes the place of the branch before.
-/

namespace RpcSchema

/-! ### Classes and forms -/

/-- The classes of branches. -/
inductive Kind.Class
  | reference (text : String)
  | object
  | array
  | scalar (family : Primitive)

/-- The class of a shape, if it has one. -/
def Kind.class? : Kind → Option Kind.Class
  | .ref text => some (.reference text)
  | .object _ => some .object
  | .list | .listOf _ => some .array
  | kind => kind.family?.map .scalar

/-- What a shape that can be a branch describes, roughly. -/
inductive Kind.Form
  | reference
  | object
  | array
  | scalar
  deriving DecidableEq

/-- The form of a shape, if it can be a branch. -/
def Kind.form? : Kind → Option Kind.Form
  | .ref _ => some .reference
  | .object _ => some .object
  | .list | .listOf _ | .tuple _ => some .array
  | .const _ | .enum _ _ | .primitive _ => some .scalar
  | _ => none

/-- The form that the shapes of a class have. -/
def Kind.Class.form : Kind.Class → Kind.Form
  | .reference _ => .reference
  | .object => .object
  | .array => .array
  | .scalar _ => .scalar

namespace Kind

variable {k l kind : Kind} {family : Primitive}

theorem form?_of_class? {c : Kind.Class} (h : k.class? = some c) : k.form? = some c.form := by
  cases k with
  | ref _ | object _ | list | listOf _ | primitive _ =>
    obtain rfl := Option.some.inj h
    rfl
  | const _ | enum _ _ =>
    obtain ⟨family, -, rfl⟩ := Option.map_eq_some_iff.mp h
    rfl
  | _ => cases h

theorem class?_eq_family? (h : k.form? = some .scalar) : k.class? = k.family?.map .scalar := by
  cases k with
  | const _ | enum _ _ | primitive _ => rfl
  | _ => cases h

theorem family?_eq_none (h : k.form? ≠ some .scalar) : k.family? = none := by
  cases k with
  | const _ | enum _ _ | primitive _ => exact absurd rfl h
  | _ => rfl

theorem isUnion_of_isComposition (h : k.isComposition = false) : k.isUnion = false := by
  cases k with
  | anyOf branches => cases h
  | _ => rfl

theorem isComposition_of_form? {f : Kind.Form} (h : k.form? = some f) : k.isComposition = false := by
  cases k with
  | anyOf _ | allOf _ => cases h
  | _ => rfl

theorem Keeps.isComposition (h : Keeps k l kind) (hk : k.isComposition = false)
    (hl : l.isComposition = false) : kind.isComposition = false := by
  cases h with
  | left => exact hk
  | right => exact hl
  | literals _ _ => rfl

theorem form?_of_isLiteral (h : k.isLiteral = true) : k.form? = some .scalar := by
  cases k with
  | const _ | enum _ _ => rfl
  | _ => cases h

end Kind

/-- **Schemas are of the same class** if they have one in common. -/
theorem Schema.sameClass_iff {a b : Schema} :
    a.sameClass b = true ↔ ∃ c, a.kind.class? = some c ∧ b.kind.class? = some c := by
  obtain ⟨title, description, k, extra⟩ := a
  obtain ⟨title', description', l, extra'⟩ := b
  cases k with
  | ref x => cases l <;> simp [sameClass, Kind.class?, Kind.family?, Kind.scalarType?, eq_comm]
  | object x => cases l <;> simp [sameClass, Kind.class?, Kind.family?, Kind.scalarType?]
  | list => cases l <;> simp [sameClass, Kind.class?, Kind.family?, Kind.scalarType?]
  | listOf x => cases l <;> simp [sameClass, Kind.class?, Kind.family?, Kind.scalarType?]
  | const _ | enum _ _ | primitive _ =>
    cases l with
    | ref _ | object _ | list | listOf _ =>
      simp [sameClass, Kind.class?, Kind.family?, Kind.scalarType?]
    | _ =>
      -- Both classes are those of the families.
      simp only [sameClass, Kind.class?]
      split
      · next p q hp hq => simp [hp, hq, eq_comm]
      · next hnone =>
        simp only [Bool.false_eq_true, false_iff, Option.map_eq_some_iff]
        rintro ⟨c, ⟨p, hp, -⟩, q, hq, -⟩
        exact hnone p q hp hq
  | _ => cases l <;> simp [sameClass, Kind.class?, Kind.family?, Kind.scalarType?]

theorem Schema.sameClass_comm (a b : Schema) : a.sameClass b = b.sameClass a := by
  rw [Bool.eq_iff_iff, sameClass_iff, sameClass_iff]
  exact exists_congr fun _ => and_comm

/-! ### Values that are spelled out -/

namespace Kind

variable {k l kind : Kind} {family : Primitive}

/-- The stated type of an enumeration is that of its values, integers being numbers. -/
def isHonest : Kind → Bool
  | .enum (some p) values => values.all fun value => value.family? = some p.family
  | _ => true

/-- A primitive type admits the values of its family that the other shape spells out. -/
def covers : Kind → Kind → Bool
  | .primitive p, l => l.family? ≠ some p.family || l.literals.all p.admits
  | _, _ => true

theorem isHonest_of_form? (h : k.form? ≠ some .scalar) : k.isHonest = true := by
  cases k with
  | enum _ _ => exact absurd rfl h
  | _ => rfl

theorem covers_of_form? (h : k.form? ≠ some .scalar) (l : Kind) : k.covers l = true := by
  cases k with
  | primitive _ => exact absurd rfl h
  | _ => rfl

theorem covers_of_family? (k : Kind) (h : l.family? = none) : k.covers l = true := by
  cases k with
  | primitive p => rw [covers, h]; rfl
  | _ => rfl

/-- The family of values that are spelled out is that of each of them. -/
theorem family?_iff_of_isLiteral (hliteral : k.isLiteral = true) (hhonest : k.isHonest = true)
    (hne : k.literals ≠ []) :
    k.family? = some family ↔ ∀ value ∈ k.literals, value.family? = some family := by
  cases k with
  | const value => simp [literals, family?, scalarType?, Json.family?]
  | enum type values =>
    cases type with
    | none => exact Primitive.infer?_family_iff.trans (and_iff_right hne)
    | some p =>
      replace hhonest : ∀ value ∈ values, value.family? = some p.family := by
        simpa [isHonest] using hhonest
      constructor
      · intro h value hvalue
        exact (hhonest value hvalue).trans h
      · intro h
        obtain ⟨value, hvalue⟩ := List.exists_mem_of_ne_nil values hne
        exact (hhonest value hvalue).symm.trans (h value hvalue)
  | _ => cases hliteral

/-- A primitive type that covers values of its family admits them. -/
theorem admits_of_covers {p : Primitive} (h : (Kind.primitive p).covers k = true)
    (hliteral : k.isLiteral = true) (hhonest : k.isHonest = true)
    (hall : ∀ value ∈ k.literals, value.family? = some p.family) :
    ∀ value ∈ k.literals, p.admits value = true := by
  intro value hvalue
  have hfamily : k.family? = some p.family :=
    (family?_iff_of_isLiteral hliteral hhonest (List.ne_nil_of_mem hvalue)).mpr hall
  have hcovers : ∀ value ∈ k.literals, p.admits value = true := by simpa [covers, hfamily] using h
  exact hcovers value hvalue

/-- **Only integers can fail to cover** what an honest shape spells out. -/
theorem covers_of_ne_integer {p : Primitive} (hp : p ≠ .integer) (hhonest : k.isHonest = true) :
    (Kind.primitive p).covers k = true := by
  by_cases hfamily : k.family? = some p.family
  · have hadmits : ∀ value ∈ k.literals, p.admits value = true := by
      intro value hvalue
      have hliteral : k.isLiteral = true := by
        cases k with
        | const _ | enum _ _ => rfl
        | _ => cases hvalue
      have hne : k.literals ≠ [] := List.ne_nil_of_mem hvalue
      exact Primitive.admits_of_family? hp
        ((family?_iff_of_isLiteral hliteral hhonest hne).mp hfamily value hvalue)
    simpa [covers, hfamily] using hadmits
  · simp [covers, hfamily]

/-- An enumeration that was put together states the type of its values. -/
theorem isHonest_enumOf (values : List Json) : (enumOf values).isHonest = true := by
  unfold enumOf
  cases htype : Primitive.infer? values with
  | none => rfl
  | some p =>
    have hfamily : (Primitive.infer? values).map Primitive.family = some p.family := by rw [htype]; rfl
    simpa [isHonest] using (Primitive.infer?_family_iff.mp hfamily).2

/-- A scalar that is a primitive type or spells out some value. -/
def Solid (k : Kind) : Prop := (∃ p, k = .primitive p) ∨ k.isLiteral = true ∧ k.literals ≠ []

theorem Solid.form? (h : k.Solid) : k.form? = some .scalar := by
  rcases h with ⟨p, rfl⟩ | ⟨hliteral, -⟩
  · rfl
  · exact form?_of_isLiteral hliteral

/-! ### Shapes that are put side by side -/

/-- Shapes that are put side by side: they have different forms, or they are scalars of which none
admits what the other one describes. -/
inductive Apart : Kind → Kind → Prop
  | forms {k l : Kind} {f g : Form} (hk : k.form? = some f) (hl : l.form? = some g) (hne : f ≠ g) :
      Apart k l
  | types {p q : Primitive} (h : p.widen? q = none) : Apart (.primitive p) (.primitive q)
  | literalsType {k : Kind} {q : Primitive} (hk : k.isLiteral = true)
      (h : ¬k.literals.all q.admits = true) : Apart k (.primitive q)
  | typeLiterals {p : Primitive} {l : Kind} (hl : l.isLiteral = true)
      (h : ¬l.literals.all p.admits = true) : Apart (.primitive p) l

namespace Apart

theorem symm (h : k.Apart l) : l.Apart k := by
  cases h with
  | forms hk hl hne => exact .forms hl hk hne.symm
  | types h =>
    exact .types (Primitive.widen?_eq_none_iff.mpr (Primitive.widen?_eq_none_iff.mp h).symm)
  | literalsType hk h => exact .typeLiterals hk h
  | typeLiterals hl h => exact .literalsType hl h

theorem form? (h : k.Apart l) : ∃ f, k.form? = some f := by
  cases h with
  | forms hk _ _ => exact ⟨_, hk⟩
  | literalsType hk _ => exact ⟨_, form?_of_isLiteral hk⟩
  | _ => exact ⟨_, rfl⟩

/-- What scalars that are apart have. -/
theorem solid (h : k.Apart l) (hk : k.form? = some .scalar) (hl : l.form? = some .scalar) :
    k.Solid ∧ l.Solid ∧ ¬(k.isLiteral = true ∧ l.isLiteral = true) := by
  have hne : ∀ {literals : List Json} {p : Primitive}, ¬literals.all p.admits = true →
      literals ≠ [] := by
    rintro literals p h rfl
    exact h rfl
  cases h with
  | forms hk' hl' hne =>
    exact absurd (Option.some.inj (hk'.symm.trans (hk.trans (hl.symm.trans hl')))) hne
  | types h => exact ⟨.inl ⟨_, rfl⟩, .inl ⟨_, rfl⟩, fun h => by cases h.1⟩
  | literalsType hk h => exact ⟨.inr ⟨hk, hne h⟩, .inl ⟨_, rfl⟩, fun h => by cases h.2⟩
  | typeLiterals hl h => exact ⟨.inl ⟨_, rfl⟩, .inr ⟨hl, hne h⟩, fun h => by cases h.1⟩

/-- Scalars of different families are apart, unless both spell values out. -/
theorem of_families (hk : k.Solid) (hl : l.Solid)
    (hliterals : ¬(k.isLiteral = true ∧ l.isLiteral = true)) (hhonest : k.isHonest = true)
    (hhonest' : l.isHonest = true) (hfamily : k.family? = some family)
    (hother : l.family? ≠ some family) : k.Apart l := by
  rcases hk with ⟨p, rfl⟩ | ⟨hk, hne⟩
  · obtain rfl : p.family = family := Option.some.inj hfamily
    rcases hl with ⟨q, rfl⟩ | ⟨hl, hne⟩
    · exact .types (Primitive.widen?_eq_none_iff.mpr fun h => hother (congrArg some h.symm))
    · refine .typeLiterals hl fun hadmits => hother ?_
      exact (family?_iff_of_isLiteral hl hhonest' hne).mpr fun value hvalue =>
        Primitive.family?_of_admits (List.all_eq_true.mp hadmits value hvalue)
  · rcases hl with ⟨q, rfl⟩ | ⟨hl, -⟩
    · refine .literalsType hk fun hadmits => hother ?_
      obtain ⟨value, hvalue⟩ := List.exists_mem_of_ne_nil k.literals hne
      have hq := Primitive.family?_of_admits (List.all_eq_true.mp hadmits value hvalue)
      exact hq.symm.trans ((family?_iff_of_isLiteral hk hhonest hne).mp hfamily value hvalue)
    · exact absurd ⟨hk, hl⟩ hliterals

/-- **Shapes that are apart are of different classes**, if one covers the other. -/
theorem class?_ne (h : k.Apart l) (hcovers : k.covers l = true) (hcovers' : l.covers k = true)
    {c : Class} (hk : k.class? = some c) : l.class? ≠ some c := by
  intro hl
  have hform := (form?_of_class? hk).trans (form?_of_class? hl).symm
  cases h with
  | forms hk' hl' hne => exact hne (Option.some.inj (hk'.symm.trans (hform.trans hl')))
  | types h =>
    obtain rfl := Option.some.inj hk
    exact Primitive.widen?_eq_none_iff.mp h (Class.scalar.inj (Option.some.inj hl)).symm
  | @literalsType _ q hliteral h =>
    obtain rfl := Option.some.inj hl
    rw [class?_eq_family? (form?_of_isLiteral hliteral), Option.map_eq_some_iff] at hk
    obtain ⟨family, hfamily, heq⟩ := hk
    obtain rfl := Class.scalar.inj heq
    exact h (by simpa [covers, hfamily] using hcovers')
  | @typeLiterals p _ hliteral h =>
    obtain rfl := Option.some.inj hk
    rw [class?_eq_family? (form?_of_isLiteral hliteral), Option.map_eq_some_iff] at hl
    obtain ⟨family, hfamily, heq⟩ := hl
    obtain rfl := Class.scalar.inj heq
    exact h (by simpa [covers, hfamily] using hcovers)

/-- Shapes that are apart are not made in the same way. -/
theorem not_alike {r : Schema → Schema → Prop} (h : k.Apart l) : ¬k.Alike r l := by
  intro halike
  have hform : l.form? = k.form? := by cases halike <;> rfl
  cases h with
  | forms hk hl hne => exact hne (Option.some.inj (hk.symm.trans (hform.symm.trans hl)))
  | types h =>
    cases halike
    exact Primitive.widen?_eq_none_iff.mp h rfl
  | literalsType hk _ =>
    cases halike
    cases hk
  | typeLiterals hl _ =>
    cases halike
    cases hl

end Apart

end Kind

namespace Union

variable {a b : Schema} {merge : Schema → Schema → Unifying Schema}

/-- **Shapes that are apart** are put side by side. -/
theorem combine_of_apart (h : a.kind.Apart b.kind) :
    combine merge a b = pure (.ofKind (.anyOf [a, b])) := by
  obtain ⟨title, description, k, extra⟩ := a
  obtain ⟨title', description', l, extra'⟩ := b
  replace h : k.Apart l := h
  cases h with
  | forms hk hl hne =>
    cases k with
    | anyOf _ | allOf _ | empty | never => cases hk
    | _ =>
      cases l with
      | anyOf _ | allOf _ | empty | never => cases hl
      | _ => first | rfl | exact absurd (Option.some.inj (hk.symm.trans hl)) hne
  | types h => simp only [combine, h]
  | literalsType hk h => rw [combine_literals_type hk rfl, if_neg h]
  | typeLiterals hl h => rw [combine_type_literals rfl hl, if_neg h]

/-- A merge that may fail, or register something, and that comes to a schema of another shape. -/
private theorem ensures_of_bind {α : Type} {x : Unifying α} {f : α → Schema}
    (hf : ∀ found, (f found).kind.isUnion = false) :
    (x >>= fun found => pure (f found)).Ensures fun m => m.kind.isUnion = false :=
  .bind (p := fun _ => True) (fun _ _ _ _ => trivial) fun found _ => .pure (hf found)

/-- Shapes that are no compositions are apart, or they are merged into one that is no union. -/
theorem apart_or_merges (ha : a.kind.isComposition = false) (hb : b.kind.isComposition = false) :
    a.kind.Apart b.kind ∨
      ∀ merge, (combine merge a b).Ensures fun m => m.kind.isUnion = false := by
  -- A type and values that are spelled out are apart unless it admits all of them.
  have hadmitted : ∀ {admitted : Bool} {p : Primitive}, (¬admitted = true → a.kind.Apart b.kind) →
      (∀ merge, combine merge a b = pure (if admitted then
        a.joined b (a.agreedExtra b) (.primitive p) else .ofKind (.anyOf [a, b]))) →
      a.kind.Apart b.kind ∨
        ∀ merge, (combine merge a b).Ensures fun m => m.kind.isUnion = false := by
    intro admitted p hapart heq
    cases admitted with
    | true => exact .inr fun merge => heq merge ▸ .pure rfl
    | false => exact .inl (hapart Bool.false_ne_true)
  obtain ⟨title, description, k, extra⟩ := a
  obtain ⟨title', description', l, extra'⟩ := b
  cases k with
  | anyOf _ | allOf _ => cases ha
  | never => exact .inr fun _ => .pure (Kind.isUnion_of_isComposition hb)
  | empty =>
    cases l with
    | never => exact .inr fun _ => .pure rfl
    | _ => exact .inr fun _ => .pure (Kind.isUnion_of_isComposition hb)
  | ref x =>
    cases l with
    | anyOf _ | allOf _ => cases hb
    | never | empty => exact .inr fun _ => .pure rfl
    | ref y =>
      refine .inr fun merge => ?_
      by_cases hxy : x = y
      · simp only [combine, if_pos hxy]
        exact .pure rfl
      · simp only [combine, if_neg hxy]
        exact ensures_of_bind fun _ => rfl
    | _ => exact .inl (.forms rfl rfl (by decide))
  | object x =>
    cases l with
    | anyOf _ | allOf _ => cases hb
    | never | empty => exact .inr fun _ => .pure rfl
    | object y => exact .inr fun merge => ensures_of_bind fun _ => rfl
    | _ => exact .inl (.forms rfl rfl (by decide))
  | list =>
    cases l with
    | anyOf _ | allOf _ => cases hb
    | never | empty | list | listOf _ | tuple _ => exact .inr fun _ => .pure rfl
    | _ => exact .inl (.forms rfl rfl (by decide))
  | listOf x =>
    cases l with
    | anyOf _ | allOf _ => cases hb
    | never | empty | list => exact .inr fun _ => .pure rfl
    | listOf y => exact .inr fun merge => ensures_of_bind fun _ => rfl
    | tuple ys => exact .inr fun merge => .throw _
    | _ => exact .inl (.forms rfl rfl (by decide))
  | tuple xs =>
    cases l with
    | anyOf _ | allOf _ => cases hb
    | never | empty | list => exact .inr fun _ => .pure rfl
    | listOf _ | tuple _ => exact .inr fun merge => .throw _
    | _ => exact .inl (.forms rfl rfl (by decide))
  | primitive p =>
    cases l with
    | anyOf _ | allOf _ => cases hb
    | never | empty => exact .inr fun _ => .pure rfl
    | primitive q =>
      cases hwiden : p.widen? q with
      | none => exact .inl (.types hwiden)
      | some type =>
        refine .inr fun merge => ?_
        simp only [combine, hwiden]
        exact .pure rfl
    | const _ | enum _ _ =>
      exact hadmitted (fun h => .typeLiterals rfl h) fun _ => combine_type_literals rfl rfl
    | _ => exact .inl (.forms rfl rfl (by decide))
  | const x =>
    cases l with
    | anyOf _ | allOf _ => cases hb
    | never | empty | enum _ _ => exact .inr fun _ => .pure rfl
    | const y =>
      refine .inr fun merge => .pure ?_
      change (if x == y then Kind.const x else .enumOf [x, y]).isUnion = false
      split <;> rfl
    | primitive q =>
      exact hadmitted (fun h => .literalsType rfl h) fun _ => combine_literals_type rfl rfl
    | _ => exact .inl (.forms rfl rfl (by decide))
  | enum type xs =>
    cases l with
    | anyOf _ | allOf _ => cases hb
    | never | empty | const _ | enum _ _ => exact .inr fun _ => .pure rfl
    | primitive q =>
      exact hadmitted (fun h => .literalsType rfl h) fun _ => combine_literals_type rfl rfl
    | _ => exact .inl (.forms rfl rfl (by decide))

end Union

/-- What is put side by side whatever is merged below it is apart. -/
theorem Union.apart_of_combine_eq {a b : Schema} (ha : a.kind.isComposition = false)
    (hb : b.kind.isComposition = false)
    (heq : ∀ merge, combine merge a b = pure (.ofKind (.anyOf [a, b]))) : a.kind.Apart b.kind := by
  refine (apart_or_merges ha hb).resolve_right fun hmerges => ?_
  have hunion := hmerges fun _ _ => pure a
  rw [heq] at hunion
  cases hunion ⟨[], []⟩ _ _ rfl

/-! ### Branches that take the place of others -/

namespace Kind

variable {k l m : Kind} {family : Primitive}

/-- The second shape takes the place of the first one: it is of no other class, and it stays apart
from everything of another class that the first one was apart from. -/
structure Succeeds (k m : Kind) : Prop where
  sameForm : m.form? = k.form?
  sameClass : ∀ c, m.class? = some c → k.class? = some c
  apart : ∀ other : Kind, other.isHonest = true → k.Apart other → other.class? ≠ k.class? →
    m.Apart other

theorem Succeeds.refl (k : Kind) : k.Succeeds k :=
  ⟨rfl, fun _ h => h, fun _ _ h _ => h⟩

/-- Shapes of one class, if they are no scalars. -/
theorem Succeeds.of_class {c : Class} (hk : k.class? = some c) (hm : m.class? = some c)
    (hscalar : c.form ≠ .scalar) : k.Succeeds m where
  sameForm := (form?_of_class? hm).trans (form?_of_class? hk).symm
  sameClass _ h := hk.trans (hm.symm.trans h)
  apart other _ hother _ := by
    have hform := form?_of_class? hk
    cases hother with
    | forms hk' hl hne =>
      obtain rfl := Option.some.inj (hform.symm.trans hk')
      exact .forms (form?_of_class? hm) hl hne
    | types _ => exact absurd (Option.some.inj hform).symm hscalar
    | literalsType hk _ =>
      exact absurd (Option.some.inj (hform.symm.trans (form?_of_isLiteral hk))) hscalar
    | typeLiterals _ _ => exact absurd (Option.some.inj hform).symm hscalar

/-- A wider scalar is solid too, and spells values out only if the narrower one does. -/
theorem Solid.of_narrower (h : k.Solid) (hnarrower : k.Narrower l) (hl : l.form? = some .scalar) :
    l.Solid ∧ (l.isLiteral = true → k.isLiteral = true) := by
  cases hnarrower with
  | never _ | list | listOf _ | tuple _ | ref _ => cases h.form?
  | empty _ => cases hl
  | const _ => exact ⟨.inr ⟨rfl, List.cons_ne_nil _ _⟩, fun _ => rfl⟩
  | constOfEnum type hmem =>
    refine ⟨.inr ⟨rfl, ?_⟩, fun _ => rfl⟩
    rintro heq
    cases heq
    cases hmem
  | constOfPrimitive _ | enumOfPrimitive _ _ | primitive _ | integer =>
    exact ⟨.inl ⟨_, rfl⟩, fun hliteral => by cases hliteral⟩

/-- The values that an honest shape spells out are of its family. -/
theorem family?_of_mem_literals (hliteral : k.isLiteral = true) (hhonest : k.isHonest = true)
    (hfamily : k.family? = some family) : ∀ value ∈ k.literals, value.family? = some family := by
  intro value hvalue
  have hne : k.literals ≠ [] := List.ne_nil_of_mem hvalue
  exact (family?_iff_of_isLiteral hliteral hhonest hne).mp hfamily value hvalue

theorem family?_enumOf_iff {values : List Json} : (enumOf values).family? = some family ↔
    values ≠ [] ∧ ∀ value ∈ values, value.family? = some family := by
  rw [← Primitive.infer?_family_iff, enumOf, family?, scalarType?, Option.or_self]

/-- What covers values on two sides covers them together. -/
theorem covers_enumOf (hk : k.isLiteral = true) (hl : l.isLiteral = true) (hhonest : k.isHonest = true)
    (hhonest' : l.isHonest = true) (hnames : ∀ value ∈ l.literals, value.DistinctNames)
    (hcovers : m.covers k = true) (hcovers' : m.covers l = true) :
    m.covers (enumOf (unionOf k.literals l.literals)) = true := by
  cases m with
  | primitive p =>
    by_cases hfamily : (enumOf (unionOf k.literals l.literals)).family? = some p.family
    · obtain ⟨-, hall⟩ := family?_enumOf_iff.mp hfamily
      obtain ⟨added, hunion, -, -, -, hequal⟩ := unionOf_eq_append_added k.literals l.literals
      have hleft : ∀ value ∈ k.literals, value.family? = some p.family := fun value hvalue =>
        hall value (hunion ▸ List.mem_append_left _ hvalue)
      -- What is not in the union equals a value that is.
      have hright : ∀ value ∈ l.literals, value.family? = some p.family := by
        intro value hvalue
        have hcontains := hequal value hvalue (Json.beq_self (hnames value hvalue))
        rw [← hunion] at hcontains
        obtain ⟨other, hother, heq⟩ := List.contains_iff_exists_mem_beq.mp hcontains
        exact (Json.family?_of_beq heq).trans (hall other hother)
      have hadmits : ∀ value ∈ (enumOf (unionOf k.literals l.literals)).literals,
          p.admits value = true := fun value hvalue => (mem_of_mem_unionOf hvalue).elim
        (admits_of_covers hcovers hk hhonest hleft value)
        (admits_of_covers hcovers' hl hhonest' hright value)
      simpa [covers, hfamily] using hadmits
    · simp [covers, hfamily]
  | _ => rfl

/-- A scalar that stands for two of one class takes the place of the first one. -/
theorem Spans.succeeds (h : Spans k l m) (hhonest : k.isHonest = true) (hhonest' : l.isHonest = true)
    (hk : k.form? = some .scalar) (hl : l.form? = some .scalar) (hfamily : k.family? = some family)
    (hfamily' : l.family? = some family) : k.Succeeds m := by
  have hm : m.form? = some .scalar := by
    cases h with
    | left _ => exact hk
    | right _ => exact hl
    | literals _ _ => rfl
  -- Of what both spell out all values are of the family, if there are any.
  have hunion : k.isLiteral = true → l.isLiteral = true →
      ∀ value ∈ unionOf k.literals l.literals, value.family? = some family := by
    intro hk hl value hvalue
    exact (mem_of_mem_unionOf hvalue).elim (family?_of_mem_literals hk hhonest hfamily value)
      (family?_of_mem_literals hl hhonest' hfamily' value)
  refine ⟨hm.trans hk.symm, fun c hc => ?_, fun other hother hapart hclass => ?_⟩
  · rw [class?_eq_family? hm, Option.map_eq_some_iff] at hc
    obtain ⟨family', hm', rfl⟩ := hc
    have hsame : some family = some family' := by
      cases h with
      | left _ => exact hfamily.symm.trans hm'
      | right _ => exact hfamily'.symm.trans hm'
      | literals hk hl =>
        obtain ⟨hne, hall⟩ := family?_enumOf_iff.mp hm'
        obtain ⟨value, hvalue⟩ := List.exists_mem_of_ne_nil _ hne
        exact (hunion hk hl value hvalue).symm.trans (hall value hvalue)
    rw [class?_eq_family? hk, hfamily, hsame, Option.map_some]
  · by_cases hscalar : other.form? = some .scalar
    · obtain ⟨hsolid, hsolid', hliterals⟩ := hapart.solid hk hscalar
      have hother' : other.family? ≠ some family := by
        intro heq
        exact hclass (by rw [class?_eq_family? hk, class?_eq_family? hscalar, hfamily, heq])
      cases h with
      | left _ => exact hapart
      | right hnarrower =>
        obtain ⟨hsolid, hliteral⟩ := hsolid.of_narrower hnarrower hl
        exact .of_families hsolid hsolid' (fun h => hliterals ⟨hliteral h.1, h.2⟩) hhonest' hother
          hfamily' hother'
      | literals hk hl =>
        obtain ⟨value, hvalue⟩ : ∃ value, value ∈ unionOf k.literals l.literals := by
          rcases hsolid with ⟨p, rfl⟩ | ⟨-, hne⟩
          · cases hk
          · obtain ⟨value, hvalue⟩ := List.exists_mem_of_ne_nil _ hne
            obtain ⟨added, hunion, -⟩ := unionOf_eq_append_added k.literals l.literals
            exact ⟨value, hunion ▸ List.mem_append_left _ hvalue⟩
        have hne : unionOf k.literals l.literals ≠ [] := List.ne_nil_of_mem hvalue
        exact .of_families (.inr ⟨rfl, hne⟩) hsolid' (fun h => hliterals ⟨hk, h.2⟩)
          (isHonest_enumOf _) hother (family?_enumOf_iff.mpr ⟨hne, hunion hk hl⟩) hother'
    · obtain ⟨f, hf⟩ := hapart.symm.form?
      exact .forms hm hf fun heq => hscalar (hf.trans (congrArg some heq.symm))

end Kind

/-- **A branch that a schema of its class joined takes the place of the branch before.** -/
theorem Schema.ensures_succeeds {a b : Schema} (hclass : a.sameClass b = true) (hnames : a.NamesApart)
    (hnames' : b.NamesApart) (hhonest : a.kind.isHonest = true) (hhonest' : b.kind.isHonest = true)
    (hcovers : a.kind.covers b.kind = true) (hcovers' : b.kind.covers a.kind = true)
    (merge : Schema → Schema → Unifying Schema) :
    (Union.combine merge a b).Ensures fun m => a.kind.Succeeds m.kind := by
  obtain ⟨c, hk, hl⟩ := sameClass_iff.mp hclass
  have hform : b.kind.form? = a.kind.form? :=
    (Kind.form?_of_class? hl).trans (Kind.form?_of_class? hk).symm
  have hscalars : a.kind.form? = some .scalar → a.kind.isScalar = true → b.kind.isScalar = true →
      (Union.combine merge a b).Ensures fun m => a.kind.Succeeds m.kind := by
    intro ha hscalar hscalar'
    have hb := hform.trans ha
    rcases Union.combine_scalars hscalar hscalar' hnames hnames' with ⟨kind, hspans, heq⟩ | heq
    · rw [Kind.class?_eq_family? ha, Option.map_eq_some_iff] at hk
      rw [Kind.class?_eq_family? hb, Option.map_eq_some_iff] at hl
      obtain ⟨family, hfamily, rfl⟩ := hk
      obtain ⟨_, hfamily', hfamilies⟩ := hl
      obtain rfl := Kind.Class.scalar.inj hfamilies
      rw [heq]
      exact .pure (hspans.succeeds hhonest hhonest' ha hb hfamily hfamily')
    · -- Side by side they would be apart, and of different classes.
      have hapart := Union.apart_of_combine_eq (Kind.isComposition_of_form? ha)
        (Kind.isComposition_of_form? hb) heq
      exact absurd hl (hapart.class?_ne hcovers hcovers' hk)
  obtain ⟨title, description, k, extra⟩ := a
  obtain ⟨title', description', l, extra'⟩ := b
  cases k with
  | ref x =>
    cases l with
    | ref y =>
      have heq : x = y := Kind.Class.reference.inj (Option.some.inj (hk.trans hl.symm))
      obtain rfl := Option.some.inj hk
      simp only [Union.combine, if_pos heq]
      exact .pure (.of_class rfl rfl (by rintro ⟨⟩))
    | _ => cases hform
  | object x =>
    cases l with
    | object y =>
      obtain rfl := Option.some.inj hk
      refine .bind (p := fun _ => True) (fun _ _ _ _ => trivial) fun shape _ => .pure ?_
      exact .of_class hk rfl (by rintro ⟨⟩)
    | _ => cases hform
  | list =>
    obtain rfl := Option.some.inj hk
    cases l with
    | list | listOf _ => exact .pure (.of_class rfl rfl (by rintro ⟨⟩))
    | tuple _ => cases hl
    | _ => cases hform
  | listOf x =>
    obtain rfl := Option.some.inj hk
    cases l with
    | list => exact .pure (.of_class rfl rfl (by rintro ⟨⟩))
    | listOf y =>
      refine .bind (p := fun _ => True) (fun _ _ _ _ => trivial) fun item _ => .pure ?_
      exact .of_class rfl rfl (by rintro ⟨⟩)
    | tuple _ => cases hl
    | _ => cases hform
  | const _ | enum _ _ | primitive _ =>
    cases l with
    | const _ | enum _ _ | primitive _ => exact hscalars rfl rfl rfl
    | _ => cases hform
  | _ => cases hk

end RpcSchema
