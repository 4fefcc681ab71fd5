/-!
# Outcomes

An outcome is a value or a failure.  Steps that may fail, one after the other, have a value when
every step has one.  Which failure it is does often not matter; then an outcome is looked at as
an optional value.

## Main results

* `bind_eq_ok_iff` — when two steps have a value.
* `toOption_bind` — the value of two steps, if they have one.
* `exists_mapM_eq_ok` — a step for each item has values.
-/

namespace RpcSchema

variable {ε ε' α β : Type} {x : Except ε α} {f : α → Except ε β}

theorem bind_eq_ok_iff {value : β} :
    x >>= f = .ok value ↔ ∃ first, x = .ok first ∧ f first = .ok value := by
  cases x with
  | error failure => simp [bind, Except.bind]
  | ok first => simp [bind, Except.bind]

/-- The first of two steps to fail decides the failure. -/
theorem bind_eq_error_iff {failure : ε} :
    x >>= f = .error failure ↔
      x = .error failure ∨ ∃ first, x = .ok first ∧ f first = .error failure := by
  cases x with
  | error other => simp [bind, Except.bind]
  | ok first => simp [bind, Except.bind]

/-- Failures put in other words leave the values. -/
theorem mapError_eq_ok_iff {f : ε → ε'} {value : α} : x.mapError f = .ok value ↔ x = .ok value := by
  cases x with
  | error failure => exact ⟨fun h => (by cases h), fun h => (by cases h)⟩
  | ok first =>
    constructor
    · intro h
      cases h
      rfl
    · intro h
      cases h
      rfl

theorem map_eq_ok_iff {f : α → β} {value : β} :
    x.map f = .ok value ↔ ∃ first, x = .ok first ∧ f first = value := by
  cases x with
  | error failure => simp [Except.map]
  | ok first => simp [Except.map]

theorem mapError_eq_error_iff {f : ε → ε'} {failure : ε'} :
    x.mapError f = .error failure ↔ ∃ first, x = .error first ∧ f first = failure := by
  cases x with
  | error first =>
    constructor
    · intro h
      exact ⟨first, rfl, Except.error.inj h⟩
    · rintro ⟨_, hfirst, rfl⟩
      cases hfirst
      rfl
  | ok value =>
    constructor
    · intro h
      cases h
    · rintro ⟨_, hvalue, -⟩
      cases hvalue

theorem map_eq_error_iff {f : α → β} {failure : ε} :
    x.map f = .error failure ↔ x = .error failure := by
  cases x with
  | error other => simp [Except.map]
  | ok first => simp [Except.map]

theorem toOption_eq_some_iff {value : α} : x.toOption = some value ↔ x = .ok value := by
  cases x with
  | error failure => simp [Except.toOption]
  | ok first => simp [Except.toOption]

/-- **The value of two steps, if they have one.** -/
theorem toOption_bind (x : Except ε α) (f : α → Except ε β) :
    (x >>= f).toOption = x.toOption.bind fun value => (f value).toOption := by
  cases x with
  | error failure => rfl
  | ok value => rfl

theorem toOption_map (x : Except ε α) (f : α → β) : (x.map f).toOption = x.toOption.map f := by
  cases x with
  | error failure => rfl
  | ok value => rfl

theorem toOption_mapError (x : Except ε α) (f : ε → ε') : (x.mapError f).toOption = x.toOption := by
  cases x with
  | error failure => rfl
  | ok value => rfl

/-- A step for each item has values when every item has one, and they are those. -/
theorem exists_mapM_eq_ok {step : α → Except ε β} {items : List α}
    (h : ∀ item ∈ items, ∃ value, step item = .ok value) :
    ∃ values, items.mapM step = .ok values ∧
      ∀ value ∈ values, ∃ item ∈ items, step item = .ok value := by
  induction items with
  | nil => exact ⟨[], rfl, List.forall_mem_nil _⟩
  | cons item rest ih =>
    obtain ⟨⟨value, hvalue⟩, hrest⟩ := List.forall_mem_cons.mp h
    obtain ⟨values, hvalues, hall⟩ := ih hrest
    refine ⟨value :: values, ?_, List.forall_mem_cons.mpr ⟨⟨item, List.mem_cons_self, hvalue⟩,
      fun other hother => ?_⟩⟩
    · rw [List.mapM_cons, hvalue, hvalues]
      rfl
    · obtain ⟨found, hfound, hok⟩ := hall other hother
      exact ⟨found, List.mem_cons_of_mem _ hfound, hok⟩

end RpcSchema
