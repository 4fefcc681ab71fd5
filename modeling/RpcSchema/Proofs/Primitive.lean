import RpcSchema.Proofs.Json.Equality
import RpcSchema.Unification.Union

/-!
# The type of a list of values

The type that values share is found by going through them once: it starts with the type of the
first one, gets wider where an integer and another number meet, and is given up where two types
have nothing in common.  What comes out can be told without the order of the values: it is the
greatest of their types, the type of one of them that leaves room for all others.

There is a greatest type exactly if there are values, all of them scalars and of one family, where
integers and other numbers are one family.

## Main definitions

* `Json.IsScalar`, `Json.family?` — scalars, and the family of the type of a value.
* `Primitive.Within` — integers are numbers, and no other type holds another one.
* `Primitive.Greatest` — the greatest of the types of values.

## Main results

* `Primitive.infer?_eq_some_iff` — the type that is found is the greatest one.
* `Primitive.infer?_shared` — when there is one, what it admits, and that the order of the values
  does not matter.
-/

namespace RpcSchema

/-! ### Families -/

/-- Neither an array nor an object. -/
def Json.IsScalar (value : Json) : Prop := value.array? = none ∧ value.object? = none

/-- The family of the type of a value. -/
def Json.family? (value : Json) : Option Primitive :=
  (Primitive.ofValue? value).map Primitive.family

/-- Equal values are of one family. -/
theorem Json.family?_of_beq {x y : Json} (h : (x == y) = true) : x.family? = y.family? := by
  rw [Json.beq_iff_sameParts] at h
  cases h with
  | @number m n h =>
    cases m with
    | int m =>
      cases n with
      | int n => rfl
      | float y => cases h
    | float x =>
      cases n with
      | int n => cases h
      | float y => rfl
  | _ => rfl

/-- The scalars are the values that have a family. -/
theorem Json.isScalar_iff {value : Json} :
    value.IsScalar ↔ ∃ family, value.family? = some family := by
  cases value with
  | number n =>
    cases n <;> exact iff_of_true ⟨rfl, rfl⟩ ⟨.number, rfl⟩
  | array items => simp [IsScalar, family?, Primitive.ofValue?, array?]
  | object fields => simp [IsScalar, family?, Primitive.ofValue?, object?]
  | _ => exact iff_of_true ⟨rfl, rfl⟩ ⟨_, rfl⟩

namespace Primitive

variable {p q type family : Primitive} {value : Json} {values : List Json}

theorem widen?_eq_none_iff : p.widen? q = none ↔ p.family ≠ q.family := by
  cases p <;> cases q <;> decide

theorem family_of_widen? (h : p.widen? q = some type) :
    type.family = p.family ∧ q.family = p.family := by
  revert h
  cases p <;> cases q <;> cases type <;> decide

/-- Values of one family have a type of that family in common. -/
theorem inferFrom?_family_iff : (inferFrom? p values).map Primitive.family = some family ↔
    p.family = family ∧ ∀ value ∈ values, value.family? = some family := by
  induction values generalizing p with
  | nil => simp [inferFrom?]
  | cons value rest ih =>
    rw [List.forall_mem_cons, inferFrom?, Json.family?]
    cases hvalue : ofValue? value with
    | none => simp
    | some q =>
      simp only [Option.map_some, Option.some.injEq]
      cases hwiden : p.widen? q with
      | none =>
        have hne := widen?_eq_none_iff.mp hwiden
        simp only [Option.map_none, reduceCtorEq, false_iff]
        rintro ⟨rfl, heq, -⟩
        exact hne heq.symm
      | some type =>
        obtain ⟨htype, hq⟩ := family_of_widen? hwiden
        rw [ih, htype, hq]
        tauto

theorem infer?_family_iff : (infer? values).map Primitive.family = some family ↔
    values ≠ [] ∧ ∀ value ∈ values, value.family? = some family := by
  cases values with
  | nil => simp [infer?]
  | cons value rest =>
    rw [List.forall_mem_cons, infer?, Json.family?]
    cases hvalue : ofValue? value with
    | none => simp
    | some p =>
      rw [Option.bind_some, inferFrom?_family_iff]
      simp

theorem family?_of_admits (h : p.admits value = true) : value.family? = some p.family := by
  cases value with
  | number n => cases n <;> cases p <;> first | rfl | cases h
  | _ => cases p <;> first | rfl | cases h

/-- Integers are the only numbers that do not admit all values of their family. -/
theorem admits_of_family? (hp : p ≠ .integer) (h : value.family? = some p.family) :
    p.admits value = true := by
  cases p with
  | integer => exact absurd rfl hp
  | _ =>
    cases value with
    | number n => cases n <;> first | rfl | cases h
    | _ => first | rfl | cases h

/-- A value is an instance of its own type. -/
theorem admits_of_ofValue? (h : ofValue? value = some p) : p.admits value = true := by
  cases value with
  | number n => cases n <;> cases h <;> rfl
  | _ => cases h <;> rfl

theorem ofValue?_eq_integer_iff :
    ofValue? value = some .integer ↔ ∃ n, value = .number (.int n) := by
  cases value with
  | number n => cases n <;> simp [ofValue?]
  | _ => simp [ofValue?]

/-! ### The greatest type -/

/-- Values of the left type are of the right type as well: the types are the same, or integers
stand among numbers. -/
def Within (p q : Primitive) : Prop := p = q ∨ p = .integer ∧ q = .number

instance (p q : Primitive) : Decidable (p.Within q) := inferInstanceAs (Decidable (_ ∨ _))

theorem Within.refl (p : Primitive) : p.Within p := .inl rfl

theorem Within.trans {r : Primitive} (h : p.Within q) (h' : q.Within r) : p.Within r := by
  rcases h with rfl | ⟨rfl, rfl⟩
  · exact h'
  · rcases h' with rfl | ⟨heq, -⟩
    · exact .inr ⟨rfl, rfl⟩
    · cases heq

theorem Within.antisymm (h : p.Within q) (h' : q.Within p) : p = q := by
  rcases h with heq | ⟨rfl, rfl⟩
  · exact heq
  · revert h'
    decide

/-- Types that hold one another are of one family. -/
theorem Within.family_eq (h : p.Within q) : p.family = q.family := by
  rcases h with rfl | ⟨rfl, rfl⟩ <;> rfl

/-- A type admits the values of the types that it holds. -/
theorem Within.admits (h : p.Within q) (hvalue : ofValue? value = some p) :
    q.admits value = true := by
  rcases h with rfl | ⟨rfl, rfl⟩
  · exact admits_of_ofValue? hvalue
  · obtain ⟨n, rfl⟩ := ofValue?_eq_integer_iff.mp hvalue
    rfl

/-- The wider of two types is one of them and holds both. -/
theorem within_of_widen? (h : p.widen? q = some type) :
    p.Within type ∧ q.Within type ∧ (type = p ∨ type = q) := by
  revert h
  cases p <;> cases q <;> cases type <;> decide

/-- The type is that of one of the values, and holds the types of all of them. -/
structure Greatest (type : Primitive) (values : List Json) : Prop where
  attained : ∃ value ∈ values, ofValue? value = some type
  holds : ∀ value ∈ values, ∃ own, ofValue? value = some own ∧ own.Within type

namespace Greatest

variable {other : Primitive} {xs ys : List Json}

/-- There is only one greatest type. -/
theorem unique (h : Greatest type values) (h' : Greatest other values) : type = other := by
  -- Each of the two is the type of a value, which the other one holds.
  have below : ∀ {p q : Primitive}, Greatest p values → Greatest q values → p.Within q := by
    intro p q hp hq
    obtain ⟨value, hmem, hvalue⟩ := hp.attained
    obtain ⟨own, hown, hwithin⟩ := hq.holds value hmem
    rw [hvalue, Option.some.injEq] at hown
    exact hown ▸ hwithin
  exact (below h h').antisymm (below h' h)

/-- Which values there are is all that counts. -/
theorem congr (hmem : ∀ value, value ∈ xs ↔ value ∈ ys) (h : Greatest type xs) :
    Greatest type ys where
  attained := h.attained.imp fun value ⟨hvalue, htype⟩ => ⟨(hmem value).mp hvalue, htype⟩
  holds value hvalue := h.holds value ((hmem value).mpr hvalue)

theorem family?_eq (h : Greatest type values) :
    ∀ value ∈ values, value.family? = some type.family := by
  intro value hvalue
  obtain ⟨own, hown, hwithin⟩ := h.holds value hvalue
  rw [Json.family?, hown, Option.map_some, hwithin.family_eq]

theorem admits (h : Greatest type values) : ∀ value ∈ values, type.admits value = true := by
  intro value hvalue
  obtain ⟨own, hown, hwithin⟩ := h.holds value hvalue
  exact hwithin.admits hown

/-- Integers are the greatest type only among themselves. -/
theorem eq_integer_iff (h : Greatest type values) :
    type = .integer ↔ ∀ value ∈ values, ∃ n, value = .number (.int n) := by
  constructor
  · rintro rfl value hvalue
    obtain ⟨own, hown, rfl | ⟨-, heq⟩⟩ := h.holds value hvalue
    · exact ofValue?_eq_integer_iff.mp hown
    · cases heq
  · intro hall
    obtain ⟨value, hmem, hvalue⟩ := h.attained
    have hinteger := ofValue?_eq_integer_iff.mpr (hall value hmem)
    exact Option.some.inj (hvalue.symm.trans hinteger)

end Greatest

/-- The wider type after each value holds what came before it, and is attained there: by induction
on the values that are still to come. -/
theorem greatest_of_inferFrom? (h : inferFrom? p values = some type) : p.Within type ∧
    (∀ value ∈ values, ∃ own, ofValue? value = some own ∧ own.Within type) ∧
      (type = p ∨ ∃ value ∈ values, ofValue? value = some type) := by
  induction values generalizing p with
  | nil =>
    obtain rfl := Option.some.inj h
    exact ⟨.refl _, by simp, .inl rfl⟩
  | cons value rest ih =>
    rw [inferFrom?] at h
    cases hvalue : ofValue? value with
    | none => simp [hvalue] at h
    | some q =>
      cases hwiden : p.widen? q with
      | none => simp [hvalue, hwiden] at h
      | some wider =>
        simp only [hvalue, hwiden] at h
        obtain ⟨hp, hq, hwider⟩ := within_of_widen? hwiden
        obtain ⟨hwithin, hrest, hattained⟩ := ih h
        have hown : ∃ own, ofValue? value = some own ∧ own.Within type :=
          ⟨q, hvalue, hq.trans hwithin⟩
        refine ⟨hp.trans hwithin, List.forall_mem_cons.mpr ⟨hown, hrest⟩, ?_⟩
        rcases hattained with rfl | ⟨other, hother, htype⟩
        -- Nothing was wider than the type after this value, which is its own or the one before.
        · rcases hwider with rfl | rfl
          · exact .inl rfl
          · exact .inr ⟨value, List.mem_cons_self, hvalue⟩
        · exact .inr ⟨other, List.mem_cons_of_mem _ hother, htype⟩

/-- The type that is found is the greatest one. -/
theorem greatest_of_infer? (h : infer? values = some type) : Greatest type values := by
  cases values with
  | nil => cases h
  | cons value rest =>
    obtain ⟨p, hvalue, hrest⟩ := Option.bind_eq_some_iff.mp h
    obtain ⟨hp, hholds, hattained⟩ := greatest_of_inferFrom? hrest
    refine ⟨?_, List.forall_mem_cons.mpr ⟨⟨p, hvalue, hp⟩, hholds⟩⟩
    rcases hattained with rfl | ⟨other, hother, htype⟩
    · exact ⟨value, List.mem_cons_self, hvalue⟩
    · exact ⟨other, List.mem_cons_of_mem _ hother, htype⟩

/-- **The type that is found is the greatest of the types of the values.**  Where there is a
greatest one the values are of one family, so some type is found, and it is this one. -/
theorem infer?_eq_some_iff : infer? values = some type ↔ Greatest type values := by
  refine ⟨greatest_of_infer?, fun h => ?_⟩
  obtain ⟨value, hmem, -⟩ := h.attained
  have hfamily : (infer? values).map Primitive.family = some type.family :=
    infer?_family_iff.mpr ⟨List.ne_nil_of_mem hmem, h.family?_eq⟩
  obtain ⟨found, hfound, -⟩ := Option.map_eq_some_iff.mp hfamily
  rw [hfound, (greatest_of_infer? hfound).unique h]

/-- Lists with the same values have the same type, whatever their order. -/
theorem infer?_congr {xs ys : List Json} (hmem : ∀ value, value ∈ xs ↔ value ∈ ys) :
    infer? xs = infer? ys := by
  ext type
  rw [infer?_eq_some_iff, infer?_eq_some_iff]
  exact ⟨Greatest.congr hmem, Greatest.congr fun value => (hmem value).symm⟩

/-- A type is found exactly if there are values, all of them scalars of one family. -/
theorem exists_infer?_iff : (∃ type, infer? values = some type) ↔
    values ≠ [] ∧ (∀ value ∈ values, value.IsScalar) ∧
      ∀ value ∈ values, ∀ other ∈ values, value.family? = other.family? := by
  constructor
  · rintro ⟨type, htype⟩
    have hfamily : (infer? values).map Primitive.family = some type.family := by
      rw [htype, Option.map_some]
    obtain ⟨hne, hall⟩ := infer?_family_iff.mp hfamily
    refine ⟨hne, fun value hvalue => Json.isScalar_iff.mpr ⟨_, hall value hvalue⟩,
      fun value hvalue other hother => (hall value hvalue).trans (hall other hother).symm⟩
  · rintro ⟨hne, hscalar, hsame⟩
    obtain ⟨value, hvalue⟩ := List.exists_mem_of_ne_nil values hne
    obtain ⟨family, hfamily⟩ := Json.isScalar_iff.mp (hscalar value hvalue)
    have hfound := infer?_family_iff.mpr
      ⟨hne, fun other hother => (hsame other hother value hvalue).trans hfamily⟩
    obtain ⟨type, htype, -⟩ := Option.map_eq_some_iff.mp hfound
    exact ⟨type, htype⟩

/-- **The type that values share.**  There is one exactly if there are values, all of them are
scalars, and their types are the same but for integers among other numbers.  It admits every value,
and it is that of integers only where all values are.  The order of the values does not matter. -/
theorem infer?_shared (values : List Json) :
    ((∃ type, infer? values = some type) ↔
      values ≠ [] ∧ (∀ value ∈ values, value.IsScalar) ∧
        ∀ value ∈ values, ∀ other ∈ values, value.family? = other.family?) ∧
    (∀ type, infer? values = some type → (∀ value ∈ values, type.admits value = true) ∧
      (type = .integer ↔ ∀ value ∈ values, ∃ n, value = .number (.int n))) ∧
    ∀ reordered, reordered.Perm values → infer? reordered = infer? values := by
  refine ⟨exists_infer?_iff, fun type htype => ?_, fun reordered hperm => ?_⟩
  · have hgreatest := greatest_of_infer? htype
    exact ⟨hgreatest.admits, hgreatest.eq_integer_iff⟩
  · exact infer?_congr fun value => hperm.mem_iff

/-- One, one half and minus three. -/
def mixedNumbers : List Json :=
  [.number (.int 1), .number (.float ⟨false, 4503599627370496, -53⟩), .number (.int (-3))]

/-- Integers before and after a fraction are numbers, from either end. -/
theorem infer?_shared_mixedNumbers : infer? mixedNumbers = some .number ∧
    (∀ value ∈ mixedNumbers, Primitive.number.admits value = true) ∧
      infer? mixedNumbers.reverse = some .number := by
  have hnumber : infer? mixedNumbers = some .number := rfl
  obtain ⟨-, hfound, hreordered⟩ := infer?_shared mixedNumbers
  exact ⟨hnumber, (hfound _ hnumber).1, (hreordered _ (List.reverse_perm _)).trans hnumber⟩

end Primitive

end RpcSchema
