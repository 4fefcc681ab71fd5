import RpcSchema.Proofs.Registry
import RpcSchema.Proofs.Unification.Disjunction
import RpcSchema.Proofs.Unification.Collapse

/-!
# What wrappers hide

The union of two references is hidden behind a registered schema, the wrapper.  A list of
references is folded into one such union after the other, so that wrappers hide wrappers: the
wrapper of `a` and `b` is hidden beside `c` by the next one.

Nothing is lost on the way.  A wrapper keeps its entry whatever is registered later, and its name
is none that the module declares, so a declared reference never leads to a wrapper.

## Main definitions

* `Registry.alternativesWithin` — the references that a reference stands for.
* `Registry.Hides` — a reference stands for given ones, in their order.

## Main results

* `Schema.exists_unite_reference` — one more reference is hidden behind those before.
* `combine_any_references` — a list of references ends behind a reference that stands for exactly
  these, in their order.
-/

namespace RpcSchema

/-- References to components with different names are different. -/
theorem Reference.toComponent_injective : Function.Injective Reference.toComponent :=
  fun _ _ h => (String.append_right_inj _).mp h

/-! ### The references behind a reference -/

/-- The two references that a wrapper hides. -/
def Schema.hidden? (schema : Schema) : Option (String × String) :=
  match schema.kind with
  | .anyOf [left, right] =>
    match left.kind, right.kind with
    | .ref x, .ref y => some (x, y)
    | _, _ => none
  | _ => none

/-- The wrapper of two references. -/
def Schema.wrapper (x y : String) : Schema :=
  .ofKind (.anyOf [.reference x, .reference y])

theorem Schema.distinctNames_wrapper (x y : String) : (Schema.wrapper x y).DistinctNames := by
  refine .intro (.ofKind rfl rfl) fun part hpart => ?_
  have hreference : ∀ text, (Schema.reference text).DistinctNames := fun text =>
    .intro (.ofKind rfl rfl) (List.forall_mem_nil _)
  have hparts : ∀ part ∈ [Schema.reference x, Schema.reference y], part.DistinctNames :=
    List.forall_mem_cons.mpr ⟨hreference x, List.forall_mem_singleton.mpr (hreference y)⟩
  exact hparts part hpart

/-- What equals a reference is a reference to the same. -/
theorem Schema.kind_eq_ref_of_beq {schema : Schema} {reference : String}
    (h : (schema == .reference reference) = true) : schema.kind = .ref reference := by
  obtain ⟨-, -, hkind, -⟩ := Schema.beq_iff.mp h
  obtain ⟨_, _, kind, _⟩ := schema
  cases hkind
  rfl

/-- An entry that is equal to a wrapper hides the same references. -/
theorem Schema.hidden?_of_beq {schema : Schema} {x y title : String}
    (h : (schema == (Schema.wrapper x y).withTitle title) = true) :
    schema.hidden? = some (x, y) := by
  obtain ⟨-, -, hkind, -⟩ := Schema.beq_iff.mp h
  obtain ⟨_, _, kind, _⟩ := schema
  obtain ⟨left, right, rfl, hleft, hright⟩ : ∃ left right, kind = .anyOf [left, right] ∧
      left.kind = .ref x ∧ right.kind = .ref y := by
    cases hkind with
    | anyOf hparts =>
      cases hparts with
      | @cons left _ _ _ hleft hparts =>
        cases hparts with
        | @cons right _ _ _ hright hparts =>
          cases hparts
          exact ⟨left, right, rfl, kind_eq_ref_of_beq hleft, kind_eq_ref_of_beq hright⟩
  simp only [Schema.hidden?, hleft, hright]

namespace Registry

/-- The entry that a reference leads to. -/
def entryAt? (registry : Registry) (reference : String) : Option Schema :=
  (registry.entries.find? fun entry => Reference.toComponent entry.1 = reference).map Prod.snd

/-- The references that a reference stands for, going through at most `depth` entries: a reference
to a wrapper stands for what the two hidden references stand for, one to no entry for itself. -/
def alternativesWithin (registry : Registry) : Nat → String → Option (List String)
  | 0, _ => none
  | depth + 1, reference =>
    match registry.entryAt? reference with
    | none => some [reference]
    | some entry => do
      let (x, y) ← entry.hidden?
      let left ← alternativesWithin registry depth x
      let right ← alternativesWithin registry depth y
      some (left ++ right)

/-- The reference names no component but a declared one. -/
def Declares (registry : Registry) (reference : String) : Prop :=
  ∀ name, Reference.toComponent name = reference → name ∈ registry.reserved

/-- The reference stands for the given ones, in their order.  As many wrappers as there are of
these are enough to go through. -/
def Hides (registry : Registry) (reference : String) (references : List String) : Prop :=
  ∀ depth, references.length ≤ depth →
    registry.alternativesWithin depth reference = some references

variable {registry registry' : Registry} {depth : Nat} {reference w x y name : String}
  {references : List String} {entry : Schema}

theorem entryAt?_toComponent (registry : Registry) (name : String) :
    registry.entryAt? (Reference.toComponent name) = registry.get? name := by
  unfold entryAt? get?
  induction registry.entries with
  | nil => rfl
  | cons entry entries ih =>
    obtain ⟨other, schema⟩ := entry
    rw [List.find?_cons, Fields.get?]
    by_cases hname : other = name
    · rw [if_pos hname, decide_eq_true (congrArg Reference.toComponent hname)]
      rfl
    · rw [if_neg hname, decide_eq_false fun h => hname (Reference.toComponent_injective h)]
      exact ih

/-- A declared reference leads to no entry. -/
theorem Declares.entryAt?_eq_none (h : registry.Declares reference) (hkept : registry.WellKept) :
    registry.entryAt? reference = none := by
  rw [entryAt?, Option.map_eq_none_iff, List.find?_eq_none]
  rintro ⟨name, schema⟩ hentry hname
  exact hkept.free name (Fields.mem_keys_of_mem hentry) (h name (of_decide_eq_true hname))

theorem Declares.of_extends (h : registry.Declares reference) (hextends : registry.Extends registry') :
    registry'.Declares reference :=
  fun name hname => hextends.reserved ▸ h name hname

/-- A reference leads to the same entry ever after. -/
theorem Extends.entryAt? (h : registry.Extends registry')
    (hentry : registry.entryAt? reference = some entry) :
    registry'.entryAt? reference = some entry := by
  obtain ⟨added, hadded⟩ := h.entries
  rw [Registry.entryAt?] at hentry ⊢
  rw [← hadded, List.find?_append, Option.map_or, hentry, Option.some_or]

/-- A declared reference stands for itself. -/
theorem Declares.alternativesWithin (h : registry.Declares reference) (hkept : registry.WellKept)
    (depth : Nat) : registry.alternativesWithin (depth + 1) reference = some [reference] := by
  simp only [Registry.alternativesWithin, h.entryAt?_eq_none hkept]

/-- A reference to a wrapper stands for what the hidden references stand for. -/
theorem alternativesWithin_of_hidden? (hentry : registry.entryAt? w = some entry)
    (hhidden : entry.hidden? = some (x, y)) :
    registry.alternativesWithin (depth + 1) w =
      (registry.alternativesWithin depth x).bind fun left =>
        (registry.alternativesWithin depth y).map fun right => left ++ right := by
  simp only [alternativesWithin, hentry, hhidden, Option.bind_eq_bind, Option.bind_some,
    Option.map_eq_bind]
  rfl

/-- **What a reference stands for, it stands for ever after**, if that are declared references. -/
theorem Extends.alternativesWithin (h : registry.Extends registry') (hkept : registry'.WellKept)
    (hdeclared : ∀ reference ∈ references, registry'.Declares reference)
    (hstands : registry.alternativesWithin depth reference = some references) :
    registry'.alternativesWithin depth reference = some references := by
  induction depth generalizing reference references with
  | zero => cases hstands
  | succ depth ih =>
    cases hentry : registry.entryAt? reference with
    | none =>
      simp only [Registry.alternativesWithin, hentry] at hstands
      obtain rfl := Option.some.inj hstands
      exact (hdeclared reference (List.mem_singleton_self _)).alternativesWithin hkept depth
    | some entry =>
      simp only [Registry.alternativesWithin, hentry, Option.bind_eq_bind,
        Option.bind_eq_some_iff] at hstands
      obtain ⟨⟨x, y⟩, hhidden, left, hleft, right, hright, hall⟩ := hstands
      obtain rfl := Option.some.inj hall
      obtain ⟨hdeclaredLeft, hdeclaredRight⟩ := List.forall_mem_append.mp hdeclared
      rw [alternativesWithin_of_hidden? (h.entryAt? hentry) hhidden, ih hdeclaredLeft hleft,
        ih hdeclaredRight hright]
      rfl

theorem Hides.of_extends (h : registry.Hides reference references)
    (hextends : registry.Extends registry') (hkept : registry'.WellKept)
    (hdeclared : ∀ reference ∈ references, registry'.Declares reference) :
    registry'.Hides reference references :=
  fun depth hdepth => hextends.alternativesWithin hkept hdeclared (h depth hdepth)

theorem Declares.hides (h : registry.Declares reference) (hkept : registry.WellKept) :
    registry.Hides reference [reference] := by
  intro depth hdepth
  obtain ⟨depth, rfl⟩ := Nat.exists_eq_add_of_le' hdepth
  exact h.alternativesWithin hkept depth

/-- Declared references stand for themselves and for nothing else. -/
theorem Hides.mem_of_declares (h : registry.Hides reference references) (hkept : registry.WellKept)
    (hdeclared : registry.Declares reference) : reference ∈ references := by
  have hlong := h (references.length + 1) (Nat.le_succ _)
  rw [hdeclared.alternativesWithin hkept] at hlong
  rw [← Option.some.inj hlong]
  exact List.mem_singleton_self _

/-- A wrapper of two references stands for what both stand for. -/
theorem Hides.wrapper {others : List String} (hx : registry.Hides x references)
    (hy : registry.Hides y others) (hne : references ≠ []) (hne' : others ≠ [])
    (hentry : registry.entryAt? w = some entry) (hhidden : entry.hidden? = some (x, y)) :
    registry.Hides w (references ++ others) := by
  intro depth hdepth
  have hpos : 0 < references.length := List.length_pos_iff.mpr hne
  have hpos' : 0 < others.length := List.length_pos_iff.mpr hne'
  rw [List.length_append] at hdepth
  obtain ⟨depth, rfl⟩ : ∃ depth', depth = depth' + 1 := ⟨depth - 1, by omega⟩
  rw [alternativesWithin_of_hidden? hentry hhidden, hx depth (by omega), hy depth (by omega)]
  rfl

end Registry

/-! ### Hiding one reference after the other -/

theorem run_wrapReferences (x y : String) (registry : Registry) :
    (wrapReferences x y).run.run registry =
      (.ok (Schema.registered (registry.insert (wrapperName x y) (Schema.wrapper x y)).1),
        (registry.insert (wrapperName x y) (Schema.wrapper x y)).2) := rfl

namespace Schema

variable {registry : Registry} {references rest : List String} {a : Schema} {w y : String}

/-- The union with a reference that differs is a wrapper. -/
theorem unite_reference (hkind : a.kind = .ref w) (hne : w ≠ y) :
    a.unite (.reference y) = wrapReferences w y := by
  have hother : (a == .reference y) = false := by
    rw [Bool.eq_false_iff]
    exact fun h => hne (Kind.ref.inj (hkind.symm.trans (kind_eq_ref_of_beq h)))
  rw [unite, uniteWithin, hother, if_neg Bool.false_ne_true]
  unfold Union.combine
  simp only [hkind, reference, ofKind, if_neg hne]

/-- **One more reference is hidden** behind the references before, in a registry that keeps all
its entries. -/
theorem exists_unite_reference (hkept : registry.WellKept) (hkind : a.kind = .ref w)
    (hhides : registry.Hides w references) (hne : references ≠ [])
    (hdeclared : ∀ reference ∈ references, registry.Declares reference)
    (hy : registry.Declares y) (hnew : y ∉ references) :
    ∃ merged registry' w', (a.unite (.reference y)).run.run registry = (.ok merged, registry') ∧
      registry.Extends registry' ∧ registry'.WellKept ∧ merged.kind = .ref w' ∧
      registry'.Hides w' (references ++ [y]) := by
  have hdiffers : w ≠ y := by
    rintro rfl
    exact hnew (hhides.mem_of_declares hkept hy)
  let chosen := (registry.insert (wrapperName w y) (Schema.wrapper w y)).1
  let registry' := (registry.insert (wrapperName w y) (Schema.wrapper w y)).2
  have hextends : registry.Extends registry' := Registry.extends_insert ..
  have hkept' : registry'.WellKept := hkept.insert ..
  obtain ⟨entry, hentry, hequal⟩ :=
    Registry.exists_get?_insert registry (wrapperName w y) (distinctNames_wrapper w y)
  refine ⟨.registered chosen, registry', Reference.toComponent chosen, ?_, hextends, hkept', rfl, ?_⟩
  · rw [unite_reference hkind hdiffers, run_wrapReferences]
  · have hfound : registry'.entryAt? (Reference.toComponent chosen) = some entry := by
      rw [Registry.entryAt?_toComponent, ← hentry]
      exact congrArg registry'.get? (Registry.insert_fst ..)
    have hbefore : registry'.Hides w references :=
      hhides.of_extends hextends hkept' fun reference hmem =>
        (hdeclared reference hmem).of_extends hextends
    exact hbefore.wrapper ((hy.of_extends hextends).hides hkept') hne (List.cons_ne_nil _ _) hfound
      (hidden?_of_beq hequal)

/-- Further references are hidden one after the other. -/
theorem exists_uniteAll_references (hkept : registry.WellKept) (hkind : a.kind = .ref w)
    (hhides : registry.Hides w references) (hne : references ≠ [])
    (hdeclared : ∀ reference ∈ references ++ rest, registry.Declares reference)
    (hnodup : (references ++ rest).Nodup) :
    ∃ merged registry' w', (uniteAll a (rest.map .reference)).run.run registry =
        (.ok merged, registry') ∧
      registry'.WellKept ∧ merged.kind = .ref w' ∧ registry'.Hides w' (references ++ rest) := by
  induction rest generalizing registry references a w with
  | nil =>
    rw [List.append_nil]
    exact ⟨a, registry, w, rfl, hkept, hkind, hhides⟩
  | cons y rest ih =>
    rw [List.append_cons] at hdeclared hnodup ⊢
    have hsofar : ∀ reference ∈ references ++ [y], registry.Declares reference :=
      (List.forall_mem_append.mp hdeclared).1
    obtain ⟨hbefore, hy⟩ := List.forall_mem_append.mp hsofar
    have hnew : y ∉ references := fun hmem =>
      List.disjoint_of_nodup_append (List.nodup_append.mp hnodup).1 hmem (List.mem_singleton_self _)
    obtain ⟨merged, registry', w', hrun, hextends, hkept', hkind', hhides'⟩ :=
      exists_unite_reference hkept hkind hhides hne hbefore (hy y (List.mem_singleton_self _)) hnew
    obtain ⟨last, registry'', w'', hrun', hlast⟩ := ih hkept' hkind' hhides'
      (List.append_ne_nil_of_right_ne_nil _ (List.cons_ne_nil _ _))
      (fun reference hmem => (hdeclared reference hmem).of_extends hextends) hnodup
    refine ⟨last, registry'', w'', ?_, hlast⟩
    rw [uniteAll, List.map_cons, List.foldlM_cons, Unifying.run_bind, hrun]
    exact hrun'

end Schema

/-- **Wrappers lose no reference.**  Whatever was registered before, the union of different
references is one reference, and that stands for exactly these, each once and in their order.
None of them is the acknowledgment, and those to components are to declared ones. -/
theorem combine_any_references (preserveUnions : Bool) (reserved : List String)
    (before : List (String × Schema)) {references : List String} (hne : references ≠ [])
    (hnodup : references.Nodup)
    (hpayload : ∀ reference ∈ references, Reference.name reference ≠ acknowledgmentName)
    (hdeclared : ∀ name, Reference.toComponent name ∈ references → name ∈ reserved) :
    let registry := (Registry.reserving reserved).insertAll before
    ∃ merged reference registry',
      (combine preserveUnions .any (references.map .reference)).run.run registry =
        (.ok merged, registry') ∧
      merged.kind = .ref reference ∧
      ∀ depth, references.length ≤ depth →
        registry'.alternativesWithin depth reference = some references := by
  intro registry
  have hkept : registry.WellKept := (Registry.wellKept_reserving reserved).insertAll before
  have hreserved : registry.reserved = reserved := (Registry.extends_insertAll _ before).reserved
  have hdeclared' : ∀ reference ∈ references, registry.Declares reference := by
    rintro _ hmem name rfl
    exact hreserved ▸ hdeclared name hmem
  have hunified : Schema.unifyPayloads preserveUnions (references.map .reference) =
      pure (references.map .reference) := by
    refine Schema.unifyPayloads_eq_pure (List.forall_mem_map.mpr fun reference hmem => ?_)
      (List.forall_mem_map.mpr fun reference _ => rfl)
    simpa [Schema.isAcknowledgment, Schema.reference, Schema.ofKind] using hpayload reference hmem
  cases references with
  | nil => exact absurd rfl hne
  | cons first rest =>
    have hkind : (Schema.reference first).kind = .ref first := rfl
    have hfirst := (hdeclared' first (List.mem_cons_self ..)).hides hkept
    obtain ⟨merged, registry', w, hrun, -, hkind, hhides⟩ := Schema.exists_uniteAll_references
      hkept hkind hfirst (List.cons_ne_nil _ _) hdeclared' hnodup
    refine ⟨merged, w, registry', ?_, hkind, hhides⟩
    rw [combine, hunified, pure_bind]
    exact hrun

/-- Three references, two of which share their last segment.  The second wrapper is named after
the first one, and the first one had been registered before. -/
theorem combine_any_references_nested :
    let references := ["#/a/A", "#/components/schemas/B", "other#/b/B"]
    let before := [("AOrB", Schema.wrapper "#/a/A" "#/components/schemas/B")]
    let registry := (Registry.reserving ["B"]).insertAll before
    references ≠ [] ∧ references.Nodup ∧
      (∀ reference ∈ references, Reference.name reference ≠ acknowledgmentName) ∧
      (∀ name, Reference.toComponent name ∈ references → name ∈ ["B"]) ∧
      ∃ merged reference registry',
        (combine false .any (references.map .reference)).run.run registry =
          (.ok merged, registry') ∧
        merged.kind = .ref reference ∧
        ∀ depth, references.length ≤ depth →
          registry'.alternativesWithin depth reference = some references := by
  intro references before registry
  have hne : references ≠ [] := List.cons_ne_nil _ _
  have hnodup : references.Nodup := by decide
  have hpayload : ∀ reference ∈ references, Reference.name reference ≠ acknowledgmentName := by
    decide
  have hdeclared : ∀ name, Reference.toComponent name ∈ references → name ∈ ["B"] := by
    intro name hmem
    have hbegins : (Reference.toComponent name).toList.take 3 = ['#', '/', 'c'] := by
      simp [Reference.toComponent, Reference.componentsPointer]
    simp only [references, List.mem_cons, List.not_mem_nil, or_false] at hmem
    rcases hmem with heq | heq | heq
    · exact absurd (heq ▸ hbegins) (by decide)
    · exact List.mem_singleton.mpr (Reference.toComponent_injective heq)
    · exact absurd (heq ▸ hbegins) (by decide)
  exact ⟨hne, hnodup, hpayload, hdeclared,
    combine_any_references false ["B"] before hne hnodup hpayload hdeclared⟩

end RpcSchema
