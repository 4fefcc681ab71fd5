import RpcSchema.Proofs.Registry
import RpcSchema.Proofs.Schema.Names
import RpcSchema.Unification.Union

/-!
# Computations that register schemas

Unification and promotion do nothing to a registry but register schemas, one after the other,
and what they do next depends on nothing but the names that they are given.  Such a computation
is a script: a value, or a registration followed by a script for each name that may be given.

A script is told together with the names that are known before it.  Every name that it is given
is known from then on, and what it registers uses known names only.  So the known names grow
along the script, and what is known of its value may mention those known at its end.

## Main definitions

* `Registry.Scripted` — computations that are scripts, and what is known of their values.
* `Registry.Tries` — the same of computations that may fail.
* `Registry.Knows` — what registered schemas hold uses known names only.

## Main results

* `Registry.Scripted.bind`, `Registry.Tries.bind` — scripts one after the other.
* `Registry.Scripted.run` — what a run of a script keeps.
* `Registry.Scripted.run_reserving` — reserved names that nothing is registered under do not
  matter to a run.
-/

namespace RpcSchema

namespace Registry

/-- The computation registers schemas and does nothing else.  `known` are the names known before
it, and `result` is what is known of its value. -/
inductive Scripted {α : Type} (result : Set String → α → Prop) : Set String → StateM Registry α → Prop
  | done {known : Set String} {value : α} (h : result known value) : Scripted result known (pure value)
  | register {known : Set String} {name : String} {schema : Schema} {next : String → StateM Registry α}
      (hparts : ∀ part ∈ schema.kind.parts, part.UsesOnly known)
      (hnext : ∀ index, Scripted result (Insert.insert (candidate name index) known)
        (next (candidate name index))) :
      Scripted result known (register name schema >>= next)

/-- The computation registers schemas and does nothing else, until it ends or fails. -/
def Tries {ε α : Type} (result : Set String → α → Prop) (known : Set String)
    (x : ExceptT ε (StateM Registry) α) : Prop :=
  Scripted (fun known outcome => ∀ value, outcome = .ok value → result known value) known x.run

section Rules

variable {ε ε' α β : Type} {p p' : Set String → α → Prop} {q : Set String → β → Prop}
  {known : Set String}

/-! ### Scripts one after the other -/

section Scripted

variable {x : StateM Registry α} {f : α → StateM Registry β}

theorem Scripted.mono (hx : Scripted p known x)
    (h : ∀ known' value, p known' value → p' known' value) : Scripted p' known x := by
  induction hx with
  | done hvalue => exact .done (h _ _ hvalue)
  | register hparts _ ih => exact .register hparts ih

/-- **Scripts one after the other**: the second one may count on what is known at the end of the
first. -/
theorem Scripted.bind (hx : Scripted p known x)
    (hf : ∀ known', known ⊆ known' → ∀ value, p known' value → Scripted q known' (f value)) :
    Scripted q known (x >>= f) := by
  induction hx with
  | @done known value hvalue =>
    rw [pure_bind]
    exact hf known subset_rfl value hvalue
  | @register known name schema next hparts _ ih =>
    rw [bind_assoc]
    exact .register hparts fun index => ih index fun known' hsub =>
      hf known' ((Set.subset_insert _ _).trans hsub)

theorem Scripted.map {f : α → β} (hx : Scripted p known x)
    (h : ∀ known', known ⊆ known' → ∀ value, p known' value → q known' (f value)) :
    Scripted q known (do let value ← x; pure (f value)) :=
  hx.bind fun known' hsub value hvalue => .done (h known' hsub value hvalue)

/-- A registration gives one of the names to try, which is known from then on. -/
theorem scripted_register (name : String) (schema : Schema)
    (hparts : ∀ part ∈ schema.kind.parts, part.UsesOnly known) :
    Scripted (fun known chosen => chosen ∈ known ∧ ∃ index, chosen = candidate name index) known
      (Registry.register name schema) := by
  rw [← bind_pure (Registry.register name schema)]
  exact .register hparts fun index => .done ⟨Set.mem_insert _ _, index, rfl⟩

end Scripted

/-! ### Scripts that may fail -/

section Tries

variable {x : ExceptT ε (StateM Registry) α} {f : α → ExceptT ε (StateM Registry) β}

theorem Tries.pure {value : α} (h : p known value) :
    Tries p known (Pure.pure value : ExceptT ε (StateM Registry) α) :=
  Scripted.done fun _ heq => Except.ok.inj heq ▸ h

theorem Tries.of_outcome {outcome : Except ε α} (h : ∀ value, outcome = .ok value → p known value) :
    Tries p known (ExceptT.mk (Pure.pure outcome : StateM Registry (Except ε α))) :=
  Scripted.done h

theorem Tries.throw (failure : ε) :
    Tries p known (MonadExcept.throw failure : ExceptT ε (StateM Registry) α) :=
  .of_outcome fun _ heq => by cases heq

theorem Tries.mono (hx : Tries p known x) (h : ∀ known' value, p known' value → p' known' value) :
    Tries p' known x :=
  Scripted.mono hx fun known' _ houtcome value hvalue => h known' value (houtcome value hvalue)

/-- **Scripts that may fail, one after the other.** -/
theorem Tries.bind (hx : Tries p known x)
    (hf : ∀ known', known ⊆ known' → ∀ value, p known' value → Tries q known' (f value)) :
    Tries q known (x >>= f) := by
  unfold Tries
  rw [ExceptT.run_bind]
  refine Scripted.bind hx fun known' hsub outcome houtcome => ?_
  cases outcome with
  | ok value => exact hf known' hsub value (houtcome value rfl)
  | error failure => exact .done fun _ heq => by cases heq

theorem Tries.lift {x : StateM Registry α} (hx : Scripted p known x) :
    Tries p known (ExceptT.lift x : ExceptT ε (StateM Registry) α) := by
  unfold Tries
  refine Scripted.map hx fun known' _ value hvalue found heq => ?_
  exact Except.ok.inj heq ▸ hvalue

/-- Failures may be put in other words. -/
theorem Tries.adapt (hx : Tries p known x) (f : ε → ε') : Tries p known (x.adapt f) := by
  unfold Tries
  refine Scripted.map hx fun known' _ outcome houtcome value heq => ?_
  cases outcome with
  | ok found => exact houtcome value (congrArg Except.ok (Except.ok.inj heq))
  | error failure => cases heq

end Tries

end Rules

/-! ### What a run keeps -/

/-- What the registered schemas hold uses known names only. -/
def Knows (registry : Registry) (known : Set String) : Prop :=
  ∀ entry ∈ registry.entries, ∀ part ∈ entry.2.kind.parts, part.UsesOnly known

/-- Where a script has brought a registry: it only grew, and stays well kept. -/
structure Grown (before after : Registry) : Prop where
  grows : before.Extends after
  kept : before.WellKept → after.WellKept

variable {registry next : Registry} {name : String} {schema : Schema} {known known' : Set String}

theorem Grown.refl (registry : Registry) : registry.Grown registry := ⟨.refl registry, id⟩

theorem Grown.trans {middle : Registry} (h : registry.Grown middle) (h' : middle.Grown next) :
    registry.Grown next :=
  ⟨h.grows.trans h'.grows, fun hkept => h'.kept (h.kept hkept)⟩

theorem grown_insert (registry : Registry) (name : String) (schema : Schema) :
    registry.Grown (registry.insert name schema).2 :=
  ⟨extends_insert registry name schema, fun hkept => hkept.insert name schema⟩

theorem Knows.mono (h : registry.Knows known) (hsub : known ⊆ known') : registry.Knows known' :=
  fun entry hentry part hpart => (h entry hentry part hpart).mono hsub

theorem Knows.insert (h : registry.Knows known)
    (hparts : ∀ part ∈ schema.kind.parts, part.UsesOnly known) (name : String) :
    (registry.insert name schema).2.Knows known := by
  rcases entries_insert registry name schema with heq | heq
  · rw [heq]
    exact h
  · unfold Knows
    rw [heq, List.forall_mem_append, List.forall_mem_singleton]
    exact ⟨h, hparts⟩

/-- The name that is given has an entry. -/
theorem fst_insert_mem_keys (registry : Registry) (name : String) (schema : Schema) :
    (registry.insert name schema).1 ∈ Fields.keys (registry.insert name schema).2.entries := by
  cases hentry : registry.get? (registry.slot name schema) with
  | some entry =>
    rw [insert_of_some hentry]
    exact Fields.mem_keys_of_mem (Fields.mem_of_get? hentry)
  | none =>
    rw [insert_of_none hentry, Fields.keys_append]
    exact List.mem_append_right _ (List.mem_singleton_self _)

theorem Extends.keys_mem (h : registry.Extends next) (hname : name ∈ Fields.keys registry.entries) :
    name ∈ Fields.keys next.entries :=
  (h.entries.map Prod.fst).subset hname

theorem run_register_bind {α : Type} (name : String) (schema : Schema) (f : String → StateM Registry α)
    (registry : Registry) : (register name schema >>= f).run registry
      = (f (registry.insert name schema).1).run (registry.insert name schema).2 := rfl

/-- The names known at the end of a run, with what is known of its value: those known at its
beginning, and registered names. -/
structure Ends {α : Type} (p : Set String → α → Prop) (known : Set String) (registry : Registry)
    (last : α × Registry) (known' : Set String) : Prop where
  grows : known ⊆ known'
  bound : ∀ name ∈ known', name ∈ known ∨ name ∈ Fields.keys last.2.entries
  holds : p known' last.1
  knows : registry.Knows known → last.2.Knows known'

section Run

variable {ε α : Type} {p : Set String → α → Prop}

/-- **What a run of a script keeps.** -/
theorem Scripted.run {x : StateM Registry α} (h : Scripted p known x) (registry : Registry) :
    registry.Grown (x.run registry).2 ∧ ∃ known', Ends p known registry (x.run registry) known' := by
  induction h generalizing registry with
  | @done known value hvalue =>
    exact ⟨.refl registry, known, subset_rfl, fun _ hname => .inl hname, hvalue, id⟩
  | @register known name schema next hparts _ ih =>
    obtain ⟨index, hslot, -⟩ := settles_slot registry name schema
    have hchosen : (registry.insert name schema).1 = candidate name index := by
      rw [insert_fst, hslot]
    obtain ⟨hgrown, known', hends⟩ := ih index (registry.insert name schema).2
    rw [run_register_bind, hchosen]
    refine ⟨(grown_insert registry name schema).trans hgrown, known',
      (Set.subset_insert _ _).trans hends.grows, fun other hother => ?_, hends.holds, fun hknows => ?_⟩
    · rcases hends.bound other hother with (rfl | hknown) | hkey
      · -- The name that was given got its entry right then.
        have hkey := fst_insert_mem_keys registry name schema
        rw [hchosen] at hkey
        exact .inr (hgrown.grows.keys_mem hkey)
      · exact .inl hknown
      · exact .inr hkey
    · exact hends.knows ((hknows.insert hparts name).mono (Set.subset_insert _ _))

theorem Tries.run {x : ExceptT ε (StateM Registry) α} (h : Tries p known x) (registry : Registry) :
    registry.Grown (x.run.run registry).2 ∧ ∃ known', Ends (fun known outcome =>
      ∀ value, outcome = .ok value → p known value) known registry (x.run.run registry) known' :=
  Scripted.run h registry

/-! ### Reserved names -/

variable {reserved reserved' : List String}

/-- A registration under a name that is not reserved does not depend on what else is. -/
theorem insert_reserving (hmore : reserved ⊆ reserved') (entries : Fields Schema)
    (hfree : (insert ⟨entries, reserved⟩ name schema).1 ∉ reserved') :
    insert ⟨entries, reserved'⟩ name schema = ((insert ⟨entries, reserved⟩ name schema).1,
      ⟨(insert ⟨entries, reserved⟩ name schema).2.entries, reserved'⟩) := by
  obtain ⟨index, hslot, hsettles⟩ := settles_slot ⟨entries, reserved⟩ name schema
  rw [insert_fst, hslot] at hfree
  -- Refused names are still refused, and the chosen one is still accepted.
  have hsettles' : Settles ⟨entries, reserved'⟩ name schema index := by
    refine ⟨?_, fun earlier hearlier => ?_⟩
    · have haccepts := hsettles.accepts
      simp only [accepts, get?] at haccepts ⊢
      cases hentry : Fields.get? entries (candidate name index) with
      | some entry => simpa [hentry] using haccepts
      | none => simpa using hfree
    · rcases accepts_eq_false_iff.mp (hsettles.refuses earlier hearlier) with hother | ⟨hnone, hmem⟩
      · exact accepts_eq_false_iff.mpr (.inl hother)
      · exact accepts_eq_false_iff.mpr (.inr ⟨hnone, hmore hmem⟩)
  simp only [insert, hsettles'.slot_eq, hslot, get?]
  cases Fields.get? entries (candidate name index) with
  | some entry => rfl
  | none => rfl

/-- **Reserved names that nothing is registered under do not matter** to a run. -/
theorem Scripted.run_reserving {x : StateM Registry α} (h : Scripted p known x)
    (hmore : reserved ⊆ reserved') (entries : Fields Schema)
    (hfree : ∀ name ∈ Fields.keys (x.run ⟨entries, reserved⟩).2.entries, name ∉ reserved') :
    x.run ⟨entries, reserved'⟩
      = ((x.run ⟨entries, reserved⟩).1, ⟨(x.run ⟨entries, reserved⟩).2.entries, reserved'⟩) := by
  induction h generalizing entries with
  | done _ => rfl
  | @register known name schema next hparts hnext ih =>
    obtain ⟨index, hslot, -⟩ := settles_slot ⟨entries, reserved⟩ name schema
    have hchosen : (insert ⟨entries, reserved⟩ name schema).1 = candidate name index := by
      rw [insert_fst, hslot]
    have hafter : (⟨(insert ⟨entries, reserved⟩ name schema).2.entries, reserved⟩ : Registry)
        = (insert ⟨entries, reserved⟩ name schema).2 :=
      congrArg (Registry.mk _) (extends_insert ⟨entries, reserved⟩ name schema).reserved.symm
    have hrun : (Registry.register name schema >>= next).run ⟨entries, reserved⟩
        = (next (candidate name index)).run
            ⟨(insert ⟨entries, reserved⟩ name schema).2.entries, reserved⟩ := by
      rw [run_register_bind, hchosen, hafter]
    -- The chosen name has an entry in the end, so it is not among the reserved names.
    have hkey := fst_insert_mem_keys ⟨entries, reserved⟩ name schema
    rw [hrun] at hfree ⊢
    have hgiven := hfree _ (((hnext index).run _).1.grows.keys_mem hkey)
    rw [run_register_bind, insert_reserving hmore entries hgiven, hchosen]
    exact ih index _ hfree

end Run

end Registry

end RpcSchema
