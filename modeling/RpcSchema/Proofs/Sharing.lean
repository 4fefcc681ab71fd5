import RpcSchema.Proofs.Registration

/-!
# Registering alone and beside others

A computation that registers schemas may run on its own, or with a registry that others filled
before it.  The two runs differ when a name that is wanted was taken by another schema, or by an
equal schema that is written differently.  When this never happens in the second run, the first
one is given the same names and so ends with the same value; and whatever it has registered in the
end, the second registry holds, too.

## Main definitions

* `Registry.Takes` — a schema is given the name that is wanted for it.
* `Registry.Plain` — every schema that a computation registers is.
* `Registry.Within` — what one registry holds, another holds, too.

## Main results

* `Registry.Takes.within` — one registration with less registered.
* `Registry.Plain.within` — a whole computation with less registered.
-/

namespace RpcSchema

namespace Registry

variable {registry small big next : Registry} {name : String} {schema : Schema} {α : Type}

/-! ### Registering under the wanted name -/

/-- Registering the schema gives it the wanted name, and adds it there or finds it there,
identical. -/
structure Takes (registry : Registry) (name : String) (schema : Schema) : Prop where
  name_eq : (registry.insert name schema).1 = name
  same : ∀ entry, registry.get? name = some entry → entry = schema.withTitle name

theorem Takes.slot_eq (h : registry.Takes name schema) : registry.slot name schema = name :=
  (insert_fst registry name schema).symm.trans h.name_eq

theorem Takes.accepts (h : registry.Takes name schema) : registry.accepts schema name = true := by
  have haccepts := accepts_slot registry name schema
  rwa [h.slot_eq] at haccepts

/-- The wanted name is tried first. -/
theorem takes_of_accepts (haccepts : registry.accepts schema name = true)
    (hsame : ∀ entry, registry.get? name = some entry → entry = schema.withTitle name) :
    registry.Takes name schema := by
  have hsettles : registry.Settles name schema 0 :=
    ⟨haccepts, fun _ hearlier => absurd hearlier (Nat.not_lt_zero _)⟩
  exact ⟨(insert_fst registry name schema).trans hsettles.slot_eq, hsame⟩

/-- What is found after the registration. -/
theorem Takes.get?_insert (h : registry.Takes name schema) (other : String) :
    (registry.insert name schema).2.get? other
      = if other = name then some (schema.withTitle name) else registry.get? other := by
  cases hentry : registry.get? name with
  | some entry =>
    rw [insert_of_some (h.slot_eq.symm ▸ hentry)]
    split
    · next heq => rw [heq, hentry, h.same entry hentry]
    · rfl
  | none =>
    rw [insert_of_none (h.slot_eq.symm ▸ hentry), h.slot_eq]
    rw [get?] at hentry ⊢
    rw [Fields.get?_append, Fields.get?_cons]
    by_cases heq : other = name
    · rw [if_pos heq, heq, hentry, if_pos rfl, Option.none_or]
    · rw [if_neg heq, if_neg (Ne.symm heq)]
      exact Option.or_none

/-- Every schema that the computation registers, when it runs with the registry, is given the name
that is wanted for it. -/
inductive Plain {α : Type} : Registry → StateM Registry α → Prop
  | done {registry : Registry} {value : α} : Plain registry (pure value)
  | register {registry : Registry} {name : String} {schema : Schema}
      {next : String → StateM Registry α} (htakes : registry.Takes name schema)
      (hnext : Plain (registry.insert name schema).2 (next name)) :
      Plain registry (register name schema >>= next)

theorem Plain.grown {x : StateM Registry α} (h : registry.Plain x) :
    registry.Grown (x.run registry).2 := by
  induction h with
  | done => exact .refl _
  | @register registry name schema next htakes _ ih =>
    rw [run_register_bind, htakes.name_eq]
    exact (grown_insert registry name schema).trans ih

/-! ### With less registered -/

/-- What one registry holds, another holds, too, and the same names are reserved. -/
structure Within (small big : Registry) : Prop where
  get? : ∀ name entry, small.get? name = some entry → big.get? name = some entry
  reserved : big.reserved = small.reserved

theorem Extends.within (h : registry.Extends next) : registry.Within next :=
  ⟨fun _ _ hentry => h.get? hentry, h.reserved⟩

theorem Within.trans (h : small.Within big) (h' : big.Within next) : small.Within next :=
  ⟨fun name entry hentry => h'.get? name entry (h.get? name entry hentry),
    h'.reserved.trans h.reserved⟩

/-- Entries of a registry with names apart are entries of the other. -/
theorem Within.mem_entries (h : small.Within big) (hkept : small.WellKept)
    {entry : String × Schema} (hentry : entry ∈ small.entries) : entry ∈ big.entries :=
  Fields.mem_of_get? (h.get? entry.1 entry.2 (Fields.get?_of_mem hkept.nodup hentry))

/-- **One registration with less registered**: a name that is free or has the identical schema is
so with less registered, and after it what the one holds the other still holds. -/
theorem Takes.within (h : big.Takes name schema) (hwithin : small.Within big)
    (hkept : big.WellKept) : small.Takes name schema ∧
      (small.insert name schema).2.Within (big.insert name schema).2 := by
  have haccepts : small.accepts schema name = true := by
    have hbig := h.accepts
    unfold Registry.accepts at hbig ⊢
    cases hsmall : small.get? name with
    | some entry => rwa [hwithin.get? name entry hsmall] at hbig
    | none =>
      rw [← hwithin.reserved]
      cases hentry : big.get? name with
      | none => rwa [hentry] at hbig
      | some entry =>
        -- The name is not reserved, as it has an entry beside others.
        have hfree := hkept.free name (Fields.mem_keys_of_mem (Fields.mem_of_get? hentry))
        simpa using hfree
  have htakes : small.Takes name schema :=
    takes_of_accepts haccepts fun entry hentry => h.same entry (hwithin.get? name entry hentry)
  refine ⟨htakes, fun other entry hentry => ?_, ?_⟩
  · rw [htakes.get?_insert] at hentry
    rw [h.get?_insert]
    split at hentry
    · next heq => rwa [if_pos heq]
    · next hne =>
      rw [if_neg hne]
      exact hwithin.get? other entry hentry
  · rw [(extends_insert big name schema).reserved, (extends_insert small name schema).reserved,
      hwithin.reserved]

/-- **A computation with less registered.**  If everything it registers is given the wanted name,
it ends with the same value when less was registered before it. -/
theorem Plain.within {x : StateM Registry α} (h : big.Plain x) (hwithin : small.Within big)
    (hkept : big.WellKept) :
    (x.run small).1 = (x.run big).1 ∧ (x.run small).2.Within (x.run big).2 ∧ small.Plain x := by
  induction h generalizing small with
  | done => exact ⟨rfl, hwithin, .done⟩
  | @register big name schema next htakes _ ih =>
    obtain ⟨htakes', hwithin'⟩ := htakes.within hwithin hkept
    obtain ⟨hvalue, hafter, hplain⟩ := ih hwithin' (hkept.insert name schema)
    rw [run_register_bind, run_register_bind, htakes.name_eq, htakes'.name_eq]
    exact ⟨hvalue, hafter, .register htakes' hplain⟩

end Registry

end RpcSchema
