import RpcSchema.Promotion
import RpcSchema.Proofs.Registration

/-!
# Promotion brings no names

What promotion leaves goes by the names that were there before, and by registered ones: where a
schema is taken out, a titled reference to it stays.  The registered schemas hold what is left of
their parts, so they use such names only, too.

A registered name may have slashes, and then the last segment of the reference is not the name.
It is not used either, because the reference is titled.

## Main results

* `Schema.scripted_lift`, `Schema.scripted_promote` — promotion is a script, and what it leaves
  uses no names but known and registered ones.
-/

namespace RpcSchema

open Registry (Scripted)

variable {known known' : Set String}

namespace Schema

variable {schema : Schema} {items : List Schema} {fields : Fields Schema}

/-- Lifting the schema is a script, and what it leaves uses no names but known and registered
ones. -/
def Lifts (schema : Schema) : Prop :=
  ∀ {known : Set String} (name : String), schema.UsesOnly known →
    Scripted (fun known lifted => lifted.UsesOnly known) known (schema.lift name)

/-- The schemas in a list go by known names. -/
def ItemsUse (known : Set String) (items : List Schema) : Prop := ∀ item ∈ items, item.UsesOnly known

/-- The schemas in fields go by known names. -/
def FieldsUse (known : Set String) (fields : Fields Schema) : Prop :=
  ∀ entry ∈ fields, entry.2.UsesOnly known

theorem ItemsUse.mono (h : ItemsUse known items) (hsub : known ⊆ known') : ItemsUse known' items :=
  fun item hitem => (h item hitem).mono hsub

theorem FieldsUse.mono (h : FieldsUse known fields) (hsub : known ⊆ known') :
    FieldsUse known' fields :=
  fun entry hentry => (h entry hentry).mono hsub

/-! ### Lists -/

theorem scripted_liftItems (h : ∀ item ∈ items, item.Lifts) (hitems : ItemsUse known items)
    (name : String) : Scripted ItemsUse known (liftItems name items) := by
  induction items generalizing known with
  | nil => exact .done hitems
  | cons item items ih =>
    obtain ⟨hitem, hitems⟩ := List.forall_mem_cons.mp hitems
    obtain ⟨hlift, hrest⟩ := List.forall_mem_cons.mp h
    rw [liftItems]
    exact (hlift name hitem).bind fun _ hsub lifted hlifted =>
      (ih hrest (ItemsUse.mono hitems hsub)).map fun _ hsub' _ hothers =>
        List.forall_mem_cons.mpr ⟨hlifted.mono hsub', hothers⟩

theorem scripted_liftTuple (h : ∀ item ∈ items, item.Lifts) (hitems : ItemsUse known items)
    (name : String) (index : Nat) : Scripted ItemsUse known (liftTuple name index items) := by
  induction items generalizing known index with
  | nil => exact .done hitems
  | cons item items ih =>
    obtain ⟨hitem, hitems⟩ := List.forall_mem_cons.mp hitems
    obtain ⟨hlift, hrest⟩ := List.forall_mem_cons.mp h
    rw [liftTuple]
    exact (hlift _ hitem).bind fun _ hsub lifted hlifted =>
      (ih hrest (ItemsUse.mono hitems hsub) (index + 1)).map fun _ hsub' _ hothers =>
        List.forall_mem_cons.mpr ⟨hlifted.mono hsub', hothers⟩

theorem scripted_liftProperties (h : ∀ entry ∈ fields, entry.2.Lifts)
    (hfields : FieldsUse known fields) (owner : String) :
    Scripted FieldsUse known (liftProperties owner fields) := by
  induction fields generalizing known with
  | nil => exact .done hfields
  | cons entry fields ih =>
    obtain ⟨key, schema⟩ := entry
    obtain ⟨hschema, hfields⟩ := List.forall_mem_cons.mp hfields
    obtain ⟨hlift, hrest⟩ := List.forall_mem_cons.mp h
    rw [liftProperties]
    exact (hlift _ hschema).bind fun _ hsub lifted hlifted =>
      (ih hrest (FieldsUse.mono hfields hsub)).map fun _ hsub' _ hothers =>
        List.forall_mem_cons.mpr ⟨hlifted.mono hsub', hothers⟩

theorem scripted_liftValues (h : ∀ entry ∈ fields, entry.2.Lifts)
    (hfields : FieldsUse known fields) (owner : String) :
    Scripted FieldsUse known (liftValues owner fields) := by
  induction fields generalizing known with
  | nil => exact .done hfields
  | cons entry fields ih =>
    obtain ⟨pattern, schema⟩ := entry
    obtain ⟨hschema, hfields⟩ := List.forall_mem_cons.mp hfields
    obtain ⟨hlift, hrest⟩ := List.forall_mem_cons.mp h
    rw [liftValues]
    exact (hlift _ hschema).bind fun _ hsub lifted hlifted =>
      (ih hrest (FieldsUse.mono hfields hsub)).map fun _ hsub' _ hothers =>
        List.forall_mem_cons.mpr ⟨hlifted.mono hsub', hothers⟩

end Schema

open Schema (ItemsUse FieldsUse)

/-! ### Shapes -/

theorem ObjectSchema.scripted_promote {shape : ObjectSchema} (h : ∀ part ∈ shape.parts, part.Lifts)
    (hparts : ItemsUse known shape.parts) (owner : String) :
    Scripted (fun known promoted => ItemsUse known promoted.parts) known (shape.promote owner) := by
  obtain ⟨properties, required, additional, patterns, names⟩ := shape
  obtain ⟨hproperties, hadditional, hpatterns⟩ := ObjectSchema.forall_parts_iff.mp hparts
  obtain ⟨hlproperties, hladditional, hlpatterns⟩ := ObjectSchema.forall_parts_iff.mp h
  have hundeclared : ∀ {known'}, known ⊆ known' →
      Scripted (fun known promoted => ∀ value, promoted = .schema value → value.UsesOnly known)
        known' (additional.promote owner) := by
    intro known' hsub
    cases additional with
    | schema value =>
      rw [Additional.promote]
      exact (hladditional value rfl _ ((hadditional value rfl).mono hsub)).map
        fun _ _ lifted hlifted _ heq => Additional.schema.inj heq ▸ hlifted
    | unstated => exact .done fun _ heq => by cases heq
    | allowed flag => exact .done fun _ heq => by cases heq
  rw [ObjectSchema.promote]
  refine (Schema.scripted_liftProperties hlproperties hproperties owner).bind
    fun known₁ hsub₁ properties' h₁ => ?_
  refine (hundeclared hsub₁).bind fun known₂ hsub₂ additional' h₂ => ?_
  refine (Schema.scripted_liftValues hlpatterns (FieldsUse.mono hpatterns (hsub₁.trans hsub₂))
    owner).map fun known₃ hsub₃ patterns' h₃ => ?_
  exact ObjectSchema.forall_parts_iff.mpr ⟨FieldsUse.mono h₁ (hsub₂.trans hsub₃),
    fun value hvalue => (h₂ value hvalue).mono hsub₃, h₃⟩

/-- What is left of a shape refers to what it referred to before, and its parts use no names but
known and registered ones. -/
theorem Kind.scripted_promote {kind : Kind} (h : ∀ part ∈ kind.parts, part.Lifts)
    (hparts : ItemsUse known kind.parts) (owner hint : String) :
    Scripted (fun known promoted => promoted.refName? = kind.refName? ∧ ItemsUse known promoted.parts)
      known (kind.promote owner hint) := by
  cases kind with
  | object shape =>
    rw [promote]
    exact (ObjectSchema.scripted_promote h hparts owner).map fun _ _ _ hpromoted => ⟨rfl, hpromoted⟩
  | listOf item =>
    rw [promote]
    exact (h item (List.mem_singleton_self _) hint (hparts item (List.mem_singleton_self _))).map
      fun _ _ _ hlifted => ⟨rfl, List.forall_mem_singleton.mpr hlifted⟩
  | tuple items =>
    rw [promote]
    exact (Schema.scripted_liftTuple h hparts hint 0).map fun _ _ _ hlifted => ⟨rfl, hlifted⟩
  | allOf parts =>
    rw [promote]
    exact (Schema.scripted_liftItems h hparts hint).map fun _ _ _ hlifted => ⟨rfl, hlifted⟩
  | anyOf branches =>
    rw [promote]
    exact (Schema.scripted_liftItems h hparts hint).map fun _ _ _ hlifted => ⟨rfl, hlifted⟩
  | _ => exact .done ⟨rfl, hparts⟩

namespace Schema

variable {schema : Schema}

/-- **Lifting is a script, and uses no names but known and registered ones.**  By induction on
the schema: what it holds is lifted first. -/
theorem scripted_lift (schema : Schema) : schema.Lifts := by
  induction schema using induction_parts with
  | h schema ih =>
    intro known name hschema
    obtain ⟨title, description, kind, extra⟩ := schema
    rw [lift]
    cases title with
    | some title => exact .done hschema
    | none =>
      refine (Kind.scripted_promote ih hschema.parts name name).bind
        fun known' hsub promoted ⟨hrefers, hparts⟩ => ?_
      split
      · have hregister :=
          Registry.scripted_register name ⟨some name, description, promoted, extra⟩ hparts
        exact hregister.map fun _ _ chosen hchosen => usesOnly_registered hchosen.1
      · refine .done (.intro (fun used hused => hsub (hschema.own used ?_)) hparts)
        rwa [useName?, hrefers] at hused

/-- **Promotion is a script, and what the schema holds in the end uses no names but known and
registered ones.** -/
theorem scripted_promote (hparts : ItemsUse known schema.kind.parts) (name : String) :
    Scripted (fun known promoted => promoted.title = schema.title ∧
      ItemsUse known promoted.kind.parts) known (schema.promote name) :=
  (Kind.scripted_promote (fun part _ => scripted_lift part) hparts _ name).map
    fun _ _ _ hpromoted => ⟨rfl, hpromoted.2⟩

end Schema

end RpcSchema
