import RpcSchema.Proofs.Json.Objects

/-!
# Equality of JSON values

Equality of JSON does not count the order of members.  Two objects are equal when they have
the same names, and equal values under each of them.  It is an equivalence.

Objects are taken to give their members distinct names.  Otherwise an object with the same
name twice would not be equal to itself: only the first value of the name is looked up.

## Main definitions

* `Json.SameParts` — two values of one type whose parts are equal.

## Main results

* `Json.beq_iff_sameParts` — equality one level at a time.
* `Json.beq_self`, `Json.beq_symm`, `Json.beq_trans` — equality is an equivalence.
* `Json.beq_object`, `Json.beq_array` — when two objects, or two arrays, are equal.
-/

namespace RpcSchema

/-! ### Lists related one by one -/

section Related

variable {α β γ : Type} {r : α → β → Prop} {as : List α} {bs : List β} {cs : List γ}

theorem getElem?_of_forall₂ (h : List.Forall₂ r as bs) {index : Nat} {a : α}
    (ha : as[index]? = some a) : ∃ b, bs[index]? = some b ∧ r a b := by
  induction h generalizing index with
  | nil => cases ha
  | cons hab _ ih =>
    cases index with
    | zero =>
      obtain rfl := Option.some.inj ha
      exact ⟨_, rfl, hab⟩
    | succ index => exact ih ha

theorem exists_mem_of_forall₂ (h : List.Forall₂ r as bs) {a : α} (ha : a ∈ as) :
    ∃ b ∈ bs, r a b := by
  obtain ⟨index, hindex⟩ := List.mem_iff_getElem?.mp ha
  obtain ⟨b, hb, hab⟩ := getElem?_of_forall₂ h hindex
  exact ⟨b, List.mem_of_getElem? hb, hab⟩

/-- The other way round. -/
theorem exists_mem_of_forall₂_right (h : List.Forall₂ r as bs) {b : β} (hb : b ∈ bs) :
    ∃ a ∈ as, r a b :=
  exists_mem_of_forall₂ (r := flip r) h.flip hb

theorem exists_split_of_forall₂ {before after : List α} {a : α}
    (h : List.Forall₂ r (before ++ a :: after) bs) :
    ∃ before' b after', bs = before' ++ b :: after' ∧ before'.length = before.length ∧ r a b ∧
      List.Forall₂ r after after' := by
  induction before generalizing bs with
  | nil =>
    obtain ⟨b, after', hab, hafter, rfl⟩ := List.forall₂_cons_left_iff.mp h
    exact ⟨[], b, after', rfl, rfl, hab, hafter⟩
  | cons first before ih =>
    obtain ⟨b, others, -, hothers, rfl⟩ := List.forall₂_cons_left_iff.mp h
    obtain ⟨before', b', after', rfl, hlength, hab, hafter⟩ := ih hothers
    exact ⟨b :: before', b', after', rfl, congrArg (· + 1) hlength, hab, hafter⟩

/-- Another relation, for the members of the first list. -/
theorem forall₂_imp {s : α → β → Prop} (h : List.Forall₂ r as bs)
    (hr : ∀ a ∈ as, ∀ b, r a b → s a b) : List.Forall₂ s as bs :=
  ((List.forall₂_and_left as bs).mpr ⟨hr, h⟩).imp fun _ b hboth => hboth.1 b hboth.2

theorem forall₂_flip {r' : β → α → Prop} (h : List.Forall₂ r as bs)
    (hr : ∀ a ∈ as, ∀ b, r a b → r' b a) : List.Forall₂ r' bs as :=
  .flip (forall₂_imp h hr)

/-- Related one by one, and one by one again. -/
theorem forall₂_trans {s : β → γ → Prop} {t : α → γ → Prop} (h : List.Forall₂ r as bs)
    (h' : List.Forall₂ s bs cs) (hr : ∀ a ∈ as, ∀ b c, r a b → s b c → t a c) :
    List.Forall₂ t as cs := by
  induction h generalizing cs with
  | nil => cases h' with
    | nil => exact .nil
  | cons hab _ ih => cases h' with
    | cons hbc hrest =>
      obtain ⟨hfirst, hr⟩ := List.forall_mem_cons.mp hr
      exact .cons (hfirst _ _ hab hbc) (ih hrest hr)

end Related

namespace Number

theorem beq_self (n : Number) : (n == n) = true := by
  cases n with
  | int value => exact decide_eq_true rfl
  | float value =>
    change (decide (value = value) || _) = true
    rw [decide_eq_true rfl, Bool.true_or]

theorem int_beq_int_iff {m n : Int} : (int m == int n) = true ↔ m = n := decide_eq_true_iff

theorem float_beq_float_iff {x y : Binary64} :
    (float x == float y) = true ↔ x = y ∨ (x.significand = 0 ∧ y.significand = 0) := by
  change (decide (x = y) || (decide (x.significand = 0) && decide (y.significand = 0))) = true ↔ _
  rw [Bool.or_eq_true, Bool.and_eq_true, decide_eq_true_iff, decide_eq_true_iff,
    decide_eq_true_iff]

theorem beq_symm {m n : Number} (h : (m == n) = true) : (n == m) = true := by
  cases m with
  | int m =>
    cases n with
    | int n => exact int_beq_int_iff.mpr (int_beq_int_iff.mp h).symm
    | float y => cases h
  | float x =>
    cases n with
    | int n => cases h
    | float y => exact float_beq_float_iff.mpr ((float_beq_float_iff.mp h).imp Eq.symm And.symm)

theorem beq_trans {l m n : Number} (h : (l == m) = true) (h' : (m == n) = true) :
    (l == n) = true := by
  cases m with
  | int m =>
    cases l with
    | float x => cases h
    | int l =>
      obtain rfl := int_beq_int_iff.mp h
      exact h'
  | float y =>
    cases l with
    | int l => cases h
    | float x =>
      cases n with
      | int n => cases h'
      | float z =>
        rw [float_beq_float_iff] at h h' ⊢
        rcases h with rfl | ⟨hx, hy⟩
        · exact h'
        · rcases h' with rfl | ⟨-, hz⟩
          · exact Or.inr ⟨hx, hy⟩
          · exact Or.inr ⟨hx, hz⟩

end Number

namespace Json

variable {x y z : Json} {xs ys : Fields Json}

/-! ### One level at a time -/

theorem beqFields_iff : beqFields xs ys = true ↔
    ∀ name x, (name, x) ∈ xs → ∃ y, Fields.get? ys name = some y ∧ (x == y) = true := by
  induction xs with
  | nil => exact ⟨fun _ _ _ hmem => absurd hmem List.not_mem_nil, fun _ => rfl⟩
  | cons entry rest ih =>
    obtain ⟨name, x⟩ := entry
    rw [beqFields, Bool.and_eq_true, ih]
    constructor
    · rintro ⟨hfirst, hrest⟩ other z hmem
      rcases List.mem_cons.mp hmem with heq | hmem
      · obtain ⟨rfl, rfl⟩ := Prod.mk.inj heq
        split at hfirst
        · next y hy => exact ⟨y, hy, hfirst⟩
        · cases hfirst
      · exact hrest other z hmem
    · intro h
      obtain ⟨y, hy, hxy⟩ := h name x (List.mem_cons_self ..)
      exact ⟨by rw [hy]; exact hxy, fun other z hmem => h other z (List.mem_cons_of_mem _ hmem)⟩

/-- Two objects are equal when they have equal values under the same names. -/
theorem object_beq_iff :
    (object xs == object ys) = true ↔ Fields.Alike (fun x y => (x == y) = true) xs ys := by
  change (decide (xs.length = ys.length) && beqFields xs ys) = true ↔ _
  rw [Bool.and_eq_true, decide_eq_true_iff, beqFields_iff, Fields.Alike]

/-- Two arrays are equal when their items are, one by one. -/
theorem array_beq_iff {xs ys : List Json} :
    (array xs == array ys) = true ↔ List.Forall₂ (fun x y => (x == y) = true) xs ys := by
  change beqItems xs ys = true ↔ _
  induction xs generalizing ys with
  | nil => cases ys <;> simp [beqItems]
  | cons x xs ih =>
    cases ys with
    | nil => simp [beqItems]
    | cons y ys =>
      rw [beqItems, Bool.and_eq_true, List.forall₂_cons, ih]
      rfl

/-- Two values of one type whose parts are equal. -/
inductive SameParts : Json → Json → Prop
  | null : SameParts null null
  | bool (b : Bool) : SameParts (bool b) (bool b)
  | number {m n : Number} (h : (m == n) = true) : SameParts (number m) (number n)
  | string (s : String) : SameParts (string s) (string s)
  | array {xs ys : List Json} (h : List.Forall₂ (fun x y => (x == y) = true) xs ys) :
      SameParts (array xs) (array ys)
  | object {xs ys : Fields Json} (h : Fields.Alike (fun x y => (x == y) = true) xs ys) :
      SameParts (object xs) (object ys)

/-- **Equal values are of one type and have equal parts.** -/
theorem beq_iff_sameParts : (x == y) = true ↔ SameParts x y := by
  constructor
  · intro h
    cases x <;> cases y <;> try (cases h; done)
    case mp.null.null => exact .null
    case mp.bool.bool a b =>
      obtain rfl : a = b := of_decide_eq_true h
      exact .bool a
    case mp.number.number => exact .number h
    case mp.string.string s t =>
      obtain rfl : s = t := of_decide_eq_true h
      exact .string s
    case mp.array.array => exact .array (array_beq_iff.mp h)
    case mp.object.object => exact .object (object_beq_iff.mp h)
  · rintro (_ | b | h | s | h | h)
    · rfl
    · exact decide_eq_true rfl
    · exact h
    · exact decide_eq_true rfl
    · exact array_beq_iff.mpr h
    · exact object_beq_iff.mpr h

/-- **Two objects are equal** when they have the same names, and equal values under them. -/
theorem beq_object (hx : (Fields.keys xs).Nodup) (hy : (Fields.keys ys).Nodup)
    (hkeys : ∀ name, name ∈ Fields.keys xs ↔ name ∈ Fields.keys ys)
    (h : ∀ name x y, Fields.get? xs name = some x → Fields.get? ys name = some y →
      (x == y) = true) : (object xs == object ys) = true := by
  have hlength : xs.length = ys.length := by
    have hperm := (List.perm_ext_iff_of_nodup hx hy).mpr hkeys
    simpa [Fields.keys] using hperm.length_eq
  refine object_beq_iff.mpr ⟨hlength, fun name x hmem => ?_⟩
  have hname := (hkeys name).mp (Fields.mem_keys_of_mem hmem)
  obtain ⟨y, hy⟩ := Option.isSome_iff_exists.mp (Fields.contains_iff.mpr hname)
  exact ⟨y, hy, h name x y (Fields.get?_of_mem hx hmem) hy⟩

/-- **Two arrays are equal** when their items are, one by one. -/
theorem beq_array {xs ys : List Json} (h : List.Forall₂ (fun x y => (x == y) = true) xs ys) :
    (array xs == array ys) = true :=
  array_beq_iff.mpr h

/-! ### Equality is an equivalence -/

/-- **A value is equal to itself.** -/
theorem beq_self {value : Json} (h : value.DistinctNames) : (value == value) = true := by
  induction value using induction_hasPart with
  | h value ih =>
    rw [beq_iff_sameParts]
    cases value with
    | null => exact .null
    | bool b => exact .bool b
    | number n => exact .number n.beq_self
    | string s => exact .string s
    | array items =>
      have hitems := everyObject_array_iff.mp h
      exact .array (List.forall₂_same.mpr fun item hmem => ih item (.item hmem) (hitems item hmem))
    | object fields =>
      obtain ⟨hnames, hparts⟩ := everyObject_object_iff.mp h
      exact .object (.refl hnames fun name part hmem =>
        ih part (.member hmem) (hparts name part hmem))

/-- **Equality goes both ways.**  Names have to be distinct on one side only: the other
side has as many, and the same. -/
theorem beq_symm (hx : x.DistinctNames) (h : (x == y) = true) : (y == x) = true := by
  induction x using induction_hasPart generalizing y with
  | h x ih =>
    rw [beq_iff_sameParts] at h ⊢
    cases h with
    | null => exact .null
    | bool b => exact .bool b
    | number h => exact .number (Number.beq_symm h)
    | string s => exact .string s
    | array h =>
      have hitems := everyObject_array_iff.mp hx
      exact .array (forall₂_flip h fun item hmem other => ih item (.item hmem) (hitems item hmem))
    | object h =>
      obtain ⟨hnames, hparts⟩ := everyObject_object_iff.mp hx
      exact .object (h.symm hnames fun name part other hmem heq =>
        ih part (.member hmem) (hparts name part hmem) heq)

/-- **Equality passes on.** -/
theorem beq_trans (h : (x == y) = true) (h' : (y == z) = true) : (x == z) = true := by
  induction x using induction_hasPart generalizing y z with
  | h x ih =>
    rw [beq_iff_sameParts] at h h' ⊢
    cases h with
    | null => exact h'
    | bool b => exact h'
    | string s => exact h'
    | number h =>
      cases h' with
      | number h' => exact .number (Number.beq_trans h h')
    | array h =>
      cases h' with
      | array h' =>
        exact .array (forall₂_trans h h' fun item hmem other last => ih item (.item hmem))
    | object h =>
      cases h' with
      | object h' =>
        exact .object (h.trans h' fun name part other last hmem => ih part (.member hmem))

end Json

end RpcSchema
