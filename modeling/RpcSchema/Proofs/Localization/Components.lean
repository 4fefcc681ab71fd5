import RpcSchema.Dereference
import RpcSchema.Proofs.Fields
import RpcSchema.Proofs.Json.Pointer

/-!
# Components added to a document

Where a document keeps its components, or has nothing in their place, components are added
behind those it declares.  What stands elsewhere in the document stays as it is.

## Main definitions

* `Json.componentsPath` — the way to the components of a document.
* `Json.components` — the components that a document declares.
* `Json.TakesComponents` — a document that has an object, or nothing, in their place.

## Main results

* `Json.at?_component` — what is found under the name of a component afterwards.
* `Json.at?_insertComponents_of_apart` — what is found elsewhere.
* `Json.at?_insertComponents_of_prefix` — what is found on the way.
-/

namespace RpcSchema

namespace Json

/-- The way to the components of a document. -/
def componentsPath : List Step := [.member "components", .member "schemas"]

/-- The components that a document declares. -/
def components (root : Json) : Fields Json :=
  match root.at? componentsPath with
  | some (.object schemas) => schemas
  | _ => []

/-- A document has an object, or nothing, in the place of its components and on the way
there. -/
structure TakesComponents (root : Json) : Prop where
  isObject : root.isObject = true
  parts : ∀ value, root.at? [.member "components"] = some value → value.isObject = true
  schemas : ∀ value, root.at? componentsPath = some value → value.isObject = true

/-! ### Steps -/

section Steps

variable {fields : Fields Json} {name : String} {value : Json}

theorem at?_set_self (fields : Fields Json) (name : String) (value : Json) (steps : List Step) :
    (object (Fields.set fields name value)).at? (.member name :: steps) = value.at? steps := by
  rw [at?_member, Fields.get?_set_self, Option.bind_some]

theorem at?_set_of_ne {other : String} (fields : Fields Json) (value : Json) (steps : List Step)
    (hne : other ≠ name) : (object (Fields.set fields name value)).at? (.member other :: steps)
      = (object fields).at? (.member other :: steps) := by
  rw [at?_member, at?_member, Fields.get?_set_of_ne _ _ hne]

theorem isObject_iff : value.isObject = true ↔ ∃ fields, value = .object fields := by
  cases value <;> simp [isObject, object?]

end Steps

/-! ### The way to the components -/

section Way

variable {root value : Json} {added : Fields Json} {name : String} {steps : List Step}

/-- What the document declares is what stands in the place of its components. -/
theorem TakesComponents.getD_components (h : root.TakesComponents) :
    (root.at? componentsPath).getD (.object []) = .object root.components := by
  rw [components]
  cases hat : root.at? componentsPath with
  | none => rfl
  | some value =>
    obtain ⟨schemas, rfl⟩ := isObject_iff.mp (h.schemas value hat)
    rfl

/-- What components are added to. -/
theorem TakesComponents.exists_eq (h : root.TakesComponents) : ∃ fields parts,
    root = .object fields ∧ (Fields.get? fields "components").getD (.object []) = .object parts ∧
      (Fields.get? parts "schemas").getD (.object []) = .object root.components := by
  obtain ⟨fields, rfl⟩ := isObject_iff.mp h.isObject
  have hschemas := h.getD_components
  rw [componentsPath, at?_member] at hschemas
  cases hparts : Fields.get? fields "components" with
  | none =>
    rw [hparts] at hschemas
    exact ⟨fields, [], rfl, congrArg (·.getD (.object [])) hparts, hschemas⟩
  | some value =>
    obtain ⟨parts, rfl⟩ := isObject_iff.mp (h.parts value ((at?_member_nil _ _).trans hparts))
    rw [hparts, Option.bind_some, at?_member_nil] at hschemas
    exact ⟨fields, parts, rfl, congrArg (·.getD (.object [])) hparts, hschemas⟩

/-- Without components to add a document stays as it is. -/
theorem insertComponents_nil (root : Json) : insertComponents [] root = root := by
  cases root <;> rfl

/-- Components are added behind those that the document declares. -/
theorem TakesComponents.insertComponents_eq (h : root.TakesComponents) (hadded : added ≠ []) :
    ∃ fields parts, root = .object fields ∧
      (Fields.get? fields "components").getD (.object []) = .object parts ∧
      (Fields.get? parts "schemas").getD (.object []) = .object root.components ∧
        insertComponents added root = .object (Fields.set fields "components" (.object
          (Fields.set parts "schemas" (.object (added.foldl
            (fun all entry => Fields.add all entry.1 entry.2) root.components))))) := by
  obtain ⟨fields, parts, hroot, hparts, hschemas⟩ := h.exists_eq
  refine ⟨fields, parts, hroot, hparts, hschemas, ?_⟩
  have hempty : ¬ added.isEmpty = true := by simpa using hadded
  conv_lhs => rw [hroot, insertComponents]
  rw [if_neg hempty, hparts]
  simp only [hschemas]

/-- What is found below a component that is declared. -/
theorem at?_componentsPath (root : Json) (name : String) (steps : List Step) :
    root.at? (componentsPath ++ .member name :: steps)
      = (Fields.get? root.components name).bind fun part => part.at? steps := by
  rw [at?_append, components]
  cases root.at? componentsPath with
  | none => rfl
  | some value => cases value <;> rfl

/-- A component is declared just when something is found under its name. -/
theorem mem_keys_components_iff :
    name ∈ Fields.keys root.components ↔
      ∃ value, root.at? (componentsPath ++ [.member name]) = some value := by
  constructor
  · intro hmem
    obtain ⟨declared, hdeclared⟩ := Option.isSome_iff_exists.mp (Fields.contains_iff.mpr hmem)
    exact ⟨declared, by rw [at?_componentsPath, hdeclared]; rfl⟩
  · rintro ⟨value, hvalue⟩
    rw [at?_componentsPath] at hvalue
    obtain ⟨declared, hdeclared, -⟩ := Option.bind_eq_some_iff.mp hvalue
    exact Fields.mem_keys_of_mem (Fields.mem_of_get? hdeclared)

/-- Where the way to the components breaks off, none are declared. -/
theorem components_eq_nil (hon : steps <+: componentsPath) (hnone : root.at? steps = none) :
    root.components = [] := by
  obtain ⟨rest, hrest⟩ := hon
  have hat : root.at? componentsPath = none := by
    rw [← hrest, at?_append, hnone]
    rfl
  rw [components, hat]

/-- **What is found under the name of a component**, and below it: what the document
declares under the name, or else what is added. -/
theorem at?_component (h : root.TakesComponents) (added : Fields Json) (name : String)
    (steps : List Step) :
    (insertComponents added root).at? (componentsPath ++ .member name :: steps)
      = ((Fields.get? root.components name).or (Fields.get? added name)).bind
          fun part => part.at? steps := by
  by_cases hadded : added = []
  · rw [hadded, insertComponents_nil, at?_componentsPath, Fields.get?_nil, Option.or_none]
  · obtain ⟨fields, parts, -, -, -, heq⟩ := h.insertComponents_eq hadded
    rw [heq, componentsPath, List.cons_append, at?_set_self, List.cons_append, at?_set_self,
      List.nil_append, at?_member, Fields.get?_foldl_add]

/-- **What is found elsewhere** stays as it is. -/
theorem at?_insertComponents_of_apart (h : root.TakesComponents) (added : Fields Json)
    (hbelow : ¬ componentsPath <+: steps) (habove : ¬ steps <+: componentsPath) :
    (insertComponents added root).at? steps = root.at? steps := by
  by_cases hadded : added = []
  · rw [hadded, insertComponents_nil]
  · obtain ⟨fields, parts, hroot, hparts, -, heq⟩ := h.insertComponents_eq hadded
    rw [heq, hroot]
    -- The steps part from the way to the components at the first or at the second of them.
    cases steps with
    | nil => exact absurd List.nil_prefix habove
    | cons step steps =>
      cases step with
      | item index => rfl
      | member other =>
        by_cases hother : other = "components"
        · obtain rfl := hother
          rw [at?_set_self]
          cases steps with
          | nil => exact absurd ⟨[.member "schemas"], rfl⟩ habove
          | cons step steps =>
            -- A missing object of components is as good as an empty one.
            have hbefore : (object fields).at? (.member "components" :: step :: steps)
                = (object parts).at? (step :: steps) := by
              cases hget : Fields.get? fields "components" with
              | some value =>
                rw [hget, Option.getD_some] at hparts
                rw [at?_member, hget, hparts, Option.bind_some]
              | none =>
                rw [hget, Option.getD_none, object.injEq] at hparts
                rw [at?_member, hget, ← hparts]
                cases step <;> rfl
            rw [hbefore]
            cases step with
            | item index => rfl
            | member inner =>
              by_cases hinner : inner = "schemas"
              · exact absurd ⟨steps, by rw [hinner]; rfl⟩ hbelow
              · rw [at?_set_of_ne _ _ _ hinner]
        · rw [at?_set_of_ne _ _ _ hother]

theorem prefix_componentsPath_iff :
    steps <+: componentsPath ↔
      steps = [] ∨ steps = [.member "components"] ∨ steps = componentsPath := by
  constructor
  · intro h
    rcases List.prefix_cons_iff.mp h with rfl | ⟨rest, rfl, hrest⟩
    · exact Or.inl rfl
    · rcases List.prefix_cons_iff.mp hrest with rfl | ⟨last, rfl, hlast⟩
      · exact Or.inr (Or.inl rfl)
      · obtain rfl := List.prefix_nil.mp hlast
        exact Or.inr (Or.inr rfl)
  · rintro (rfl | rfl | rfl)
    · exact List.nil_prefix
    · exact ⟨[.member "schemas"], rfl⟩
    · exact List.prefix_rfl

/-- **What is found on the way** to the components has the members that were there, if any,
and others behind them.  Under the name of a reference it has what was there, or else what
is added. -/
theorem at?_insertComponents_of_prefix (h : root.TakesComponents) (hadded : added ≠ [])
    (hon : steps <+: componentsPath) :
    ∃ before fields names, (root.at? steps).getD (.object []) = .object before ∧
      (insertComponents added root).at? steps = some (.object fields) ∧
        Fields.keys fields = Fields.keys before ++ names ∧
          (Fields.get? fields "$ref" = Fields.get? before "$ref" ∨
            Fields.get? fields "$ref" = Fields.get? added "$ref") := by
  obtain ⟨fields, parts, hroot, hparts, hschemas, heq⟩ := h.insertComponents_eq hadded
  rw [heq]
  rcases prefix_componentsPath_iff.mp hon with rfl | rfl | rfl
  · obtain ⟨names, hnames⟩ := Fields.exists_keys_set fields "components" (.object
      (Fields.set parts "schemas" (.object (added.foldl
        (fun all entry => Fields.add all entry.1 entry.2) root.components))))
    exact ⟨fields, _, names, by rw [at?_nil, hroot]; rfl, rfl, hnames,
      Or.inl (Fields.get?_set_of_ne _ _ (by decide))⟩
  · have hfields : (root.at? [.member "components"]).getD (.object []) = .object parts := by
      rw [hroot, at?_member_nil, hparts]
    obtain ⟨names, hnames⟩ := Fields.exists_keys_set parts "schemas" (.object (added.foldl
      (fun all entry => Fields.add all entry.1 entry.2) root.components))
    exact ⟨parts, _, names, hfields, at?_set_self _ _ _ [], hnames,
      Or.inl (Fields.get?_set_of_ne _ _ (by decide))⟩
  · obtain ⟨names, hnames⟩ := Fields.exists_keys_foldl_add added root.components
    refine ⟨root.components, _, names, h.getD_components, ?_, hnames, ?_⟩
    · rw [componentsPath, at?_set_self, at?_set_self, at?_nil]
    · rw [Fields.get?_foldl_add]
      cases Fields.get? root.components "$ref" with
      | none => exact Or.inr rfl
      | some value => exact Or.inl rfl

/-- Components can be added again. -/
theorem TakesComponents.insertComponents (h : root.TakesComponents) (added : Fields Json) :
    (insertComponents added root).TakesComponents := by
  by_cases hadded : added = []
  · rwa [hadded, insertComponents_nil]
  · have hobject : ∀ {steps value}, steps <+: componentsPath →
        (RpcSchema.insertComponents added root).at? steps = some value →
          value.isObject = true := by
      intro steps value hon hvalue
      obtain ⟨-, fields, -, -, hat, -⟩ := at?_insertComponents_of_prefix h hadded hon
      rw [Option.some.inj (hvalue.symm.trans hat)]
      rfl
    exact ⟨hobject List.nil_prefix rfl, fun _ => hobject ⟨[.member "schemas"], rfl⟩,
      fun _ => hobject List.prefix_rfl⟩

/-- Where something is found in a document is on the way to its components, below one of
them, or elsewhere. -/
theorem TakesComponents.position (h : root.TakesComponents) (hat : root.at? steps = some value) :
    steps <+: componentsPath ∨ (∃ name below, steps = componentsPath ++ .member name :: below) ∨
      (¬ componentsPath <+: steps ∧ ¬ steps <+: componentsPath) := by
  by_cases habove : steps <+: componentsPath
  · exact Or.inl habove
  · refine Or.inr ?_
    by_cases hbelow : componentsPath <+: steps
    · refine Or.inl ?_
      obtain ⟨rest, rfl⟩ := hbelow
      cases rest with
      | nil => exact absurd (by simp) habove
      | cons step rest =>
        rw [at?_append] at hat
        obtain ⟨schemas, hschemas, hrest⟩ := Option.bind_eq_some_iff.mp hat
        obtain ⟨fields, rfl⟩ := isObject_iff.mp (h.schemas schemas hschemas)
        cases step with
        | item index => cases hrest
        | member name => exact ⟨name, rest, rfl⟩
    · exact Or.inr ⟨hbelow, habove⟩

/-- Off the way to the components everything in a document is found again. -/
theorem at?_insertComponents_of_some (h : root.TakesComponents) (added : Fields Json)
    (hon : ¬ steps <+: componentsPath) (hat : root.at? steps = some value) :
    (insertComponents added root).at? steps = some value := by
  rcases h.position hat with hway | ⟨name, below, rfl⟩ | ⟨hbelow, habove⟩
  · exact absurd hway hon
  · rw [at?_component h]
    rw [at?_componentsPath] at hat
    obtain ⟨part, hpart, hrest⟩ := Option.bind_eq_some_iff.mp hat
    rw [hpart]
    exact hrest
  · rw [at?_insertComponents_of_apart h added hbelow habove, hat]

end Way

end Json

end RpcSchema
