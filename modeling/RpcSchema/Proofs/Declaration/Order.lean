import Mathlib.Data.List.Flatten
import RpcSchema.Proofs.Declaration.Condensation

/-!
# The order of declarations

The order is that of the positions that the rounds give, and the positions are all taken once.
Hence the schemas are permuted, whatever their names.

When names are distinct, an edge between positions is a dependency between schemas, and a
component is a class of schemas that depend on each other.  These classes do not mention
positions.  So they are the same for every permutation of the schemas, and so is the order within
them, which is by name.

## Main definitions

* `DependsOn`, `Circular` — dependencies and circles of them among schemas.
* `Grouping` — the classes of schemas that depend on each other, each one sorted by name.

## Main results

* `Grouping.perm` — the classes do not depend on the order of the schemas.
* `orderBy_perm` — nothing is lost or doubled.
* `orderBy_groups` — dependencies first, circles together.
-/

namespace RpcSchema

/-- Among the schemas, the first depends on the second. -/
def DependsOn (schemas : List NamedSchema) (a b : NamedSchema) : Prop :=
  a ∈ schemas ∧ b ∈ schemas ∧ b.name ∈ a.dependencies

/-- The two are on a common circle of dependencies, or the same. -/
def Circular (schemas : List NamedSchema) (a b : NamedSchema) : Prop :=
  Relation.ReflTransGen (DependsOn schemas) a b ∧ Relation.ReflTransGen (DependsOn schemas) b a

/-- The classes of schemas on common circles, each one sorted by name. -/
structure Grouping (schemas : List NamedSchema) (groups : List (List NamedSchema)) : Prop where
  covers : groups.flatten.Perm schemas
  nonempty : [] ∉ groups
  sorted : ∀ group ∈ groups, group.Pairwise fun a b => a.name ≤ b.name
  circular : ∀ group ∈ groups, ∀ a ∈ group, ∀ b ∈ schemas, b ∈ group ↔ Circular schemas a b

variable {schemas shuffled : List NamedSchema} {groups groups' : List (List NamedSchema)}
  {a b : NamedSchema}

/-! ### Classes do not depend on the order of the schemas -/

theorem Circular.of_perm (hperm : shuffled.Perm schemas) (h : Circular schemas a b) :
    Circular shuffled a b := by
  have hdepends : ∀ x y, DependsOn schemas x y → DependsOn shuffled x y :=
    fun x y hxy => ⟨hperm.mem_iff.mpr hxy.1, hperm.mem_iff.mpr hxy.2.1, hxy.2.2⟩
  exact ⟨Relation.ReflTransGen.mono hdepends _ _ h.1, Relation.ReflTransGen.mono hdepends _ _ h.2⟩

/-- Permuted schemas have distinct names, too. -/
theorem nodup_names_of_perm (hperm : shuffled.Perm schemas)
    (hnames : (schemas.map NamedSchema.name).Nodup) : (shuffled.map NamedSchema.name).Nodup :=
  (hperm.map NamedSchema.name).nodup_iff.mpr hnames

namespace Grouping

theorem mem_of_mem (h : Grouping schemas groups) {group : List NamedSchema}
    (hgroup : group ∈ groups) (ha : a ∈ group) : a ∈ schemas :=
  h.covers.mem_iff.mp (List.mem_flatten_of_mem hgroup ha)

theorem nodup (h : Grouping schemas groups) (hnames : (schemas.map NamedSchema.name).Nodup) :
    groups.flatten.Nodup :=
  h.covers.nodup_iff.mpr (List.Nodup.of_map _ hnames)

/-- A class is found among the classes of the permuted schemas, with the same inner order. -/
theorem mem_of_perm (h : Grouping schemas groups) (h' : Grouping shuffled groups')
    (hperm : shuffled.Perm schemas) (hnames : (schemas.map NamedSchema.name).Nodup)
    {group : List NamedSchema} (hgroup : group ∈ groups) : group ∈ groups' := by
  obtain ⟨a, rest, hcons⟩ := List.exists_cons_of_ne_nil fun hnil => h.nonempty (hnil ▸ hgroup)
  have ha : a ∈ group := hcons ▸ List.mem_cons_self ..
  have haShuffled : a ∈ shuffled := hperm.mem_iff.mpr (h.mem_of_mem hgroup ha)
  obtain ⟨group', hgroup', ha'⟩ := List.mem_flatten.mp (h'.covers.mem_iff.mpr haShuffled)
  have hmem : ∀ b, b ∈ group ↔ b ∈ group' := by
    intro b
    constructor
    · intro hb
      have hbSchemas := h.mem_of_mem hgroup hb
      have hcircular := (h.circular group hgroup a ha b hbSchemas).mp hb
      exact (h'.circular group' hgroup' a ha' b (hperm.mem_iff.mpr hbSchemas)).mpr
        (hcircular.of_perm hperm)
    · intro hb
      have hbShuffled := h'.mem_of_mem hgroup' hb
      have hcircular := (h'.circular group' hgroup' a ha' b hbShuffled).mp hb
      exact (h.circular group hgroup a ha b (hperm.mem_iff.mp hbShuffled)).mpr
        (hcircular.of_perm hperm.symm)
  have hnodup := (List.nodup_flatten.mp (h.nodup hnames)).1 group hgroup
  have hnames' := nodup_names_of_perm hperm hnames
  have hnodup' := (List.nodup_flatten.mp (h'.nodup hnames')).1 group' hgroup'
  -- Both are sorted, and have the same members.
  have hsame : group = group' := by
    refine ((List.perm_ext_iff_of_nodup hnodup hnodup').mpr hmem).eq_of_pairwise
      (fun x y hx hy hxy hyx => ?_) (h.sorted group hgroup) (h'.sorted group' hgroup')
    -- A name belongs to one schema only.
    have hySchemas := h.mem_of_mem hgroup ((hmem y).mpr hy)
    exact List.inj_on_of_nodup_map hnames (h.mem_of_mem hgroup hx) hySchemas
      (String.le_antisymm hxy hyx)
  exact hsame ▸ hgroup'

/-- **The classes and their inner order do not depend on the order of the schemas.** -/
theorem perm (h : Grouping schemas groups) (h' : Grouping shuffled groups')
    (hperm : shuffled.Perm schemas) (hnames : (schemas.map NamedSchema.name).Nodup) :
    groups'.Perm groups := by
  have hdistinct : ∀ {schemas : List NamedSchema} {groups : List (List NamedSchema)},
      Grouping schemas groups → (schemas.map NamedSchema.name).Nodup → groups.Nodup := by
    intro schemas groups h hnames
    refine (List.nodup_flatten.mp (h.nodup hnames)).2.imp_of_mem ?_
    rintro group _ hgroup - hdisjoint rfl
    have hnil : group = [] := List.eq_nil_iff_forall_not_mem.mpr fun _ ha => hdisjoint ha ha
    exact h.nonempty (hnil ▸ hgroup)
  have hnames' := nodup_names_of_perm hperm hnames
  refine (List.perm_ext_iff_of_nodup (hdistinct h' hnames') (hdistinct h hnames)).mpr
    fun group => ?_
  exact ⟨h'.mem_of_perm h hperm.symm hnames', h.mem_of_perm h' hperm hnames⟩

end Grouping

namespace Order

/-! ### Dependencies between positions -/

theorem positionOf?_some {name : String} {position : Nat}
    (h : positionOf? schemas name = some position) :
    ∃ named, schemas[position]? = some named ∧ named.name = name := by
  obtain ⟨⟨named, other⟩, hfound, rfl⟩ := Option.map_eq_some_iff.mp h
  have hname := List.find?_some hfound
  have hmem := List.mem_reverse.mp (List.mem_of_find?_eq_some hfound)
  exact ⟨named, List.mem_zipIdx_iff_getElem?.mp hmem, of_decide_eq_true hname⟩

theorem mem_edges {source target : Nat} : (source, target) ∈ edges schemas ↔
    ∃ named, schemas[target]? = some named ∧ source ≠ target ∧
      ∃ name ∈ named.dependencies, positionOf? schemas name = some source := by
  simp only [edges, distinct, mem_unionOf, List.not_mem_nil, false_or, List.mem_flatMap,
    List.mem_map, prerequisites, List.mem_filter, List.mem_filterMap, Prod.mk.injEq,
    decide_eq_true_iff, Prod.exists, List.mem_zipIdx_iff_getElem?]
  constructor
  · rintro ⟨named, _, hnamed, _, ⟨⟨name, hname, hposition⟩, hne⟩, rfl, rfl⟩
    exact ⟨named, hnamed, hne, name, hname, hposition⟩
  · rintro ⟨named, hnamed, hne, name, hname, hposition⟩
    exact ⟨named, target, hnamed, source, ⟨⟨name, hname, hposition⟩, hne⟩, rfl, rfl⟩

theorem edges_lt : ∀ edge ∈ edges schemas, edge.1 < schemas.length ∧ edge.2 < schemas.length := by
  rintro ⟨source, target⟩ hedge
  obtain ⟨named, hnamed, -, name, -, hposition⟩ := mem_edges.mp hedge
  obtain ⟨other, hother, -⟩ := positionOf?_some hposition
  exact ⟨(List.getElem?_eq_some_iff.mp hother).1, (List.getElem?_eq_some_iff.mp hnamed).1⟩

section Names

variable (hnames : (schemas.map NamedSchema.name).Nodup) {i j : Nat}

include hnames

theorem position_eq (hi : schemas[i]? = some a) (hj : schemas[j]? = some b)
    (hname : a.name = b.name) : i = j := by
  have hnodup : schemas.Nodup := List.Nodup.of_map _ hnames
  have hab := List.inj_on_of_nodup_map hnames (List.mem_of_getElem? hi) (List.mem_of_getElem? hj)
    hname
  refine (List.getElem?_inj (List.getElem?_eq_some_iff.mp hi).1 hnodup).mp ?_
  rw [hi, hj, hab]

theorem positionOf?_name (hi : schemas[i]? = some a) : positionOf? schemas a.name = some i := by
  cases hposition : positionOf? schemas a.name with
  | none =>
    rw [positionOf?, Option.map_eq_none_iff, List.find?_eq_none] at hposition
    have hmem : (a, i) ∈ schemas.zipIdx := List.mem_zipIdx_iff_getElem?.mpr hi
    exact absurd (decide_eq_true rfl) (hposition _ (List.mem_reverse.mpr hmem))
  | some other =>
    obtain ⟨named, hnamed, hname⟩ := positionOf?_some hposition
    rw [position_eq hnames hnamed hi hname]

/-- An edge is a dependency. -/
theorem mem_edges_iff (hi : schemas[i]? = some a) (hj : schemas[j]? = some b) :
    (j, i) ∈ edges schemas ↔ j ≠ i ∧ b.name ∈ a.dependencies := by
  rw [mem_edges]
  constructor
  · rintro ⟨named, hnamed, hne, name, hname, hposition⟩
    obtain rfl : a = named := Option.some.inj (hi.symm.trans hnamed)
    obtain ⟨other, hother, rfl⟩ := positionOf?_some hposition
    obtain rfl : b = other := Option.some.inj (hj.symm.trans hother)
    exact ⟨hne, hname⟩
  · rintro ⟨hne, hname⟩
    exact ⟨a, hi, hne, b.name, hname, positionOf?_name hnames hj⟩

/-- A node reaches another one when the schema there depends on the first, directly or not. -/
theorem reaches_iff (hi : schemas[i]? = some a) (hj : schemas[j]? = some b) :
    Reaches (edges schemas) j i ↔ Relation.ReflTransGen (DependsOn schemas) a b := by
  constructor
  · intro h
    induction h generalizing a with
    | refl =>
      obtain rfl : a = b := Option.some.inj (hi.symm.trans hj)
      exact .refl
    | @tail k i _ hedge ih =>
      obtain ⟨hk, -⟩ := edges_lt _ hedge
      have hc := List.getElem?_eq_getElem hk
      have hname := ((mem_edges_iff hnames hi hc).mp hedge).2
      exact .head ⟨List.mem_of_getElem? hi, List.mem_of_getElem? hc, hname⟩ (ih hc)
  · intro h
    induction h using Relation.ReflTransGen.head_induction_on generalizing i with
    | refl =>
      rw [position_eq hnames hi hj rfl]
      exact .refl
    | @head a c hdepends _ ih =>
      obtain ⟨k, hk⟩ := List.mem_iff_getElem?.mp hdepends.2.1
      by_cases heq : k = i
      · exact heq ▸ ih hk
      · exact (ih hk).tail ((mem_edges_iff hnames hi hk).mpr ⟨heq, hdepends.2.2⟩)

theorem circular_iff (hi : schemas[i]? = some a) (hj : schemas[j]? = some b) :
    Reaches (edges schemas) i j ∧ Reaches (edges schemas) j i ↔ Circular schemas a b := by
  rw [reaches_iff hnames hi hj, reaches_iff hnames hj hi, and_comm, Circular]

end Names

/-! ### From positions back to schemas -/

/-- Different slots do not empty each other. -/
theorem take_eq_filterMap {α : Type} {slots : List (Option α)} {positions : List Nat}
    (h : positions.Nodup) :
    take slots positions = positions.filterMap fun position => (slots[position]?).join := by
  induction positions generalizing slots with
  | nil => rfl
  | cons position rest ih =>
    obtain ⟨hnew, hrest⟩ := List.nodup_cons.mp h
    have hkept : ∀ other ∈ rest, (slots.set position none)[other]? = slots[other]? :=
      fun other hother => List.getElem?_set_ne fun heq : position = other => hnew (heq ▸ hother)
    rw [take]
    split
    · next value hvalue =>
      have hjoin : (slots[position]?).join = some value := by rw [hvalue, Option.join_some]
      simp only [ih hrest, List.filterMap_cons, hjoin]
      exact congrArg (value :: ·)
        (List.filterMap_congr fun other hother => by rw [hkept other hother])
    · next hempty =>
      have hjoin : (slots[position]?).join = none := by
        cases hslot : slots[position]? with
        | none => rfl
        | some slot => cases slot with
          | none => rfl
          | some value => exact absurd hslot (hempty value)
      simp only [ih hrest, List.filterMap_cons, hjoin]

theorem take_map_some {α : Type} {values : List α} {positions : List Nat} (h : positions.Nodup) :
    take (values.map some) positions = positions.filterMap fun position => values[position]? := by
  rw [take_eq_filterMap h]
  refine List.filterMap_congr fun position _ => ?_
  rw [List.getElem?_map]
  cases values[position]? with
  | none => rfl
  | some value => rfl

theorem filterMap_getElem?_range {α : Type} (values : List α) :
    ((List.range values.length).filterMap fun position => values[position]?) = values := by
  induction values with
  | nil => rfl
  | cons value rest ih =>
    rw [List.length_cons, List.range_succ_eq_map, List.filterMap_cons, List.filterMap_map]
    exact congrArg (value :: ·) ih

theorem map_row_range (table : List (List Nat)) :
    (List.range table.length).map (row table) = table := by
  refine List.ext_getElem (by simp) fun position _ hlt => ?_
  rw [List.getElem_map, List.getElem_range, row, List.getElem?_eq_getElem hlt, Option.getD_some]

/-- Each component is scheduled once, behind those that edges lead from. -/
theorem scheduled_spec {components : List (List Nat)}
    (h : IsComponents schemas.length (edges schemas) components) :
    (scheduled schemas components).Perm (List.range components.length) ∧
      ∀ edge ∈ edges schemas, componentOf components edge.1 ≠ componentOf components edge.2 →
        [componentOf components edge.1, componentOf components edge.2].Sublist
          (scheduled schemas components) :=
  h.schedule edges_lt _

/-- The positions in order of declaration. -/
theorem emitted_perm {components : List (List Nat)}
    (h : IsComponents schemas.length (edges schemas) components) :
    ((scheduled schemas components).flatMap fun component =>
      sortByName schemas (row components component)).Perm (List.range schemas.length) := by
  have hflatten : (List.range components.length).flatMap (row components) = components.flatten := by
    rw [List.flatMap_def, map_row_range]
  refine ((scheduled_spec h).1.flatMap_right _).trans ?_
  refine (List.Perm.flatMap_left _
    fun component _ => sortBy_perm _ (row components component)).trans ?_
  rw [hflatten]
  exact h.covers

/-- The schemas of a component, sorted by name. -/
def groupOf (schemas : List NamedSchema) (components : List (List Nat)) (component : Nat) :
    List NamedSchema :=
  (sortByName schemas (row components component)).filterMap fun position => schemas[position]?

theorem mem_groupOf {components : List (List Nat)} {component : Nat} :
    a ∈ groupOf schemas components component ↔
      ∃ position ∈ row components component, schemas[position]? = some a := by
  rw [groupOf, List.mem_filterMap]
  simp only [sortByName, (sortBy_perm _ _).mem_iff]

theorem flatten_groups {components : List (List Nat)} :
    ((scheduled schemas components).map (groupOf schemas components)).flatten =
      ((scheduled schemas components).flatMap fun component =>
        sortByName schemas (row components component)).filterMap
          fun position => schemas[position]? := by
  rw [List.filterMap_flatMap, List.flatMap_def]
  rfl

section Groups

variable {components : List (List Nat)}
  (h : IsComponents schemas.length (edges schemas) components)
  (hnames : (schemas.map NamedSchema.name).Nodup)

theorem sorted_groupOf (component : Nat) :
    (groupOf schemas components component).Pairwise fun a b => a.name ≤ b.name := by
  have hpositions : (sortByName schemas (row components component)).Pairwise
      fun i j => nameAt schemas i ≤ nameAt schemas j := by
    refine pairwise_sortBy (r := fun i j => nameAt schemas i ≤ nameAt schemas j)
      (fun i j hlt => ?_) (fun i j hnot => ?_) (fun _ _ _ => String.le_trans) _
    · exact String.not_lt.mp (String.lt_asymm (of_decide_eq_true hlt))
    · exact String.not_lt.mp (of_decide_eq_false hnot)
  refine List.pairwise_filterMap.mpr (hpositions.imp fun {i j} hij a ha b hb => ?_)
  rwa [nameAt, nameAt, ha, hb] at hij

include h hnames

/-- The schemas of a component are those on common circles. -/
theorem mem_groupOf_iff {component : Nat} (ha : a ∈ groupOf schemas components component)
    (hb : b ∈ schemas) : b ∈ groupOf schemas components component ↔ Circular schemas a b := by
  obtain ⟨i, hi, hia⟩ := mem_groupOf.mp ha
  obtain ⟨j, hjb⟩ := List.mem_iff_getElem?.mp hb
  have hlisted := List.mem_of_getElem? (getElem?_of_mem_row hi)
  have hj := (List.getElem?_eq_some_iff.mp hjb).1
  rw [← circular_iff hnames hia hjb, ← h.connected _ hlisted i hi j hj, mem_groupOf]
  constructor
  · rintro ⟨k, hk, hkb⟩
    rwa [position_eq hnames hjb hkb rfl]
  · exact fun hmem => ⟨j, hmem, hjb⟩

omit hnames in
theorem flatten_groups_perm :
    ((scheduled schemas components).map (groupOf schemas components)).flatten.Perm schemas := by
  have hpositions := (emitted_perm h).filterMap fun position => schemas[position]?
  rwa [filterMap_getElem?_range, ← flatten_groups] at hpositions

/-- **The components group the schemas.** -/
theorem grouping :
    Grouping schemas ((scheduled schemas components).map (groupOf schemas components)) := by
  have hcovers := flatten_groups_perm h
  refine ⟨hcovers, fun hnil => ?_, fun group hgroup => ?_, fun group hgroup a ha b hb => ?_⟩
  · obtain ⟨component, hcomponent, hempty⟩ := List.mem_map.mp hnil
    have hlt := List.mem_range.mp ((scheduled_spec h).1.mem_iff.mp hcomponent)
    have hrow : row components component ∈ components := by
      rw [row_eq_of_getElem? (List.getElem?_eq_getElem hlt)]
      exact List.getElem_mem hlt
    obtain ⟨position, rest, hcons⟩ := List.exists_cons_of_ne_nil
      fun hnil => h.nonempty (hnil ▸ hrow)
    have hposition : position ∈ row components component := hcons ▸ List.mem_cons_self ..
    have hnamed := List.getElem?_eq_getElem (h.lt_of_mem_row hposition)
    exact List.ne_nil_of_mem (mem_groupOf.mpr ⟨position, hposition, hnamed⟩) hempty
  · obtain ⟨component, -, rfl⟩ := List.mem_map.mp hgroup
    exact sorted_groupOf component
  · obtain ⟨component, -, rfl⟩ := List.mem_map.mp hgroup
    exact mem_groupOf_iff h hnames ha hb

/-- A dependency off every common circle comes first. -/
theorem sublist_of_dependsOn (hdepends : DependsOn schemas a b) (hapart : ¬Circular schemas a b) :
    [b, a].Sublist
      ((scheduled schemas components).map (groupOf schemas components)).flatten := by
  obtain ⟨i, hi⟩ := List.mem_iff_getElem?.mp hdepends.1
  obtain ⟨j, hj⟩ := List.mem_iff_getElem?.mp hdepends.2.1
  have hilt := (List.getElem?_eq_some_iff.mp hi).1
  have hjlt := (List.getElem?_eq_some_iff.mp hj).1
  rw [← circular_iff hnames hi hj, ← h.componentOf_eq_iff hilt hjlt] at hapart
  have hne : j ≠ i := fun heq => hapart (heq ▸ rfl)
  have hedge : (j, i) ∈ edges schemas := (mem_edges_iff hnames hi hj).mpr ⟨hne, hdepends.2.2⟩
  have hscheduled := (scheduled_spec h).2 (j, i) hedge fun heq => hapart heq.symm
  have hgroups := (hscheduled.map (groupOf schemas components)).flatten
  have hb : b ∈ groupOf schemas components (componentOf components j) :=
    mem_groupOf.mpr ⟨j, h.mem_row_componentOf hjlt, hj⟩
  have ha : a ∈ groupOf schemas components (componentOf components i) :=
    mem_groupOf.mpr ⟨i, h.mem_row_componentOf hilt, hi⟩
  refine List.Sublist.trans ?_ hgroups
  simpa using (List.singleton_sublist.mpr hb).append (List.singleton_sublist.mpr ha)

end Groups

/-- The schemas are declared component after component. -/
theorem orderBy_eq {findComponents : Nat → List (Nat × Nat) → List (List Nat)}
    (hfind : FindsComponents findComponents) (schemas : List NamedSchema) :
    let components := findComponents schemas.length (edges schemas)
    orderBy findComponents schemas =
      ((scheduled schemas components).map (groupOf schemas components)).flatten := by
  intro components
  have hnodup := (emitted_perm (hfind schemas.length _ edges_lt)).nodup_iff.mpr List.nodup_range
  rw [orderBy, take_map_some hnodup, ← flatten_groups]

end Order

section OrderBy

variable {findComponents : Nat → List (Nat × Nat) → List (List Nat)}
  (hfind : Order.FindsComponents findComponents)
include hfind

/-- **Nothing is lost or doubled** by putting schemas in order, whatever their names. -/
theorem orderBy_perm (schemas : List NamedSchema) : (orderBy findComponents schemas).Perm schemas := by
  rw [Order.orderBy_eq hfind schemas]
  exact Order.flatten_groups_perm (hfind schemas.length _ Order.edges_lt)

/-- **Dependencies come first**, but for those on a common circle, when names are distinct. -/
theorem sublist_orderBy (hnames : (schemas.map NamedSchema.name).Nodup)
    (hdepends : DependsOn schemas a b) (hapart : ¬Circular schemas a b) :
    [b, a].Sublist (orderBy findComponents schemas) := by
  rw [Order.orderBy_eq hfind schemas]
  exact Order.sublist_of_dependsOn (hfind schemas.length _ Order.edges_lt) hnames hdepends hapart

end OrderBy

/-- **The order of declarations**, with any function that finds the components.

Nothing is lost or doubled, whatever the names.  When names are distinct, a schema stands behind
the schemas that it depends on, those on a common circle excepted; and the order is made of one
piece for each class of schemas on common circles, sorted by name.  Whatever the order of the
schemas was, these pieces are the same. -/
theorem orderBy_groups {findComponents : Nat → List (Nat × Nat) → List (List Nat)}
    (hfind : Order.FindsComponents findComponents) (schemas : List NamedSchema) :
    (orderBy findComponents schemas).Perm schemas ∧
      ((schemas.map NamedSchema.name).Nodup →
        (∀ a b, DependsOn schemas a b → ¬Circular schemas a b →
          [b, a].Sublist (orderBy findComponents schemas)) ∧
        ∃ groups, Grouping schemas groups ∧ orderBy findComponents schemas = groups.flatten ∧
          ∀ shuffled : List NamedSchema, shuffled.Perm schemas →
            ∃ groups', Grouping shuffled groups' ∧
              orderBy findComponents shuffled = groups'.flatten ∧ groups'.Perm groups) := by
  have hcomponents : ∀ schemas : List NamedSchema, Order.IsComponents schemas.length
      (Order.edges schemas) (findComponents schemas.length (Order.edges schemas)) :=
    fun schemas => hfind schemas.length _ Order.edges_lt
  rw [Order.orderBy_eq hfind schemas]
  refine ⟨Order.flatten_groups_perm (hcomponents schemas), fun hnames => ⟨fun a b => ?_, ?_⟩⟩
  · exact Order.sublist_of_dependsOn (hcomponents schemas) hnames
  · refine ⟨_, Order.grouping (hcomponents schemas) hnames, rfl, fun shuffled hperm => ?_⟩
    have hgrouping := Order.grouping (hcomponents shuffled) (nodup_names_of_perm hperm hnames)
    refine ⟨_, hgrouping, Order.orderBy_eq hfind shuffled, ?_⟩
    exact (Order.grouping (hcomponents schemas) hnames).perm hgrouping hperm hnames

/-- Two schemas on a circle, with a dependency of theirs and a dependent: the dependency of the
dependency comes first, and the circle stays together when the schemas are turned around. -/
theorem orderBy_groups_circle :
    let entry : String → List String → NamedSchema := fun name dependencies =>
      ⟨name, .ofKind .list, dependencies⟩
    let schemas := [entry "Feed" ["Article", "Missing"], entry "Article" ["Tag", "Author"],
      entry "Author" ["Article"], entry "Tag" ["Color", "Tag"], entry "Color" []]
    let shuffled := schemas.reverse
    Order.FindsComponents Order.stronglyConnected ∧ (schemas.map NamedSchema.name).Nodup ∧
      (order schemas).map NamedSchema.name = ["Color", "Tag", "Article", "Author", "Feed"] ∧
      (order schemas).Perm schemas ∧
      [entry "Color" [], entry "Tag" ["Color", "Tag"]].Sublist (order schemas) ∧
      ∃ groups groups' : List (List NamedSchema), order schemas = groups.flatten ∧
        order shuffled = groups'.flatten ∧ groups'.Perm groups := by
  intro entry schemas shuffled
  have hfind := Order.findsComponents_stronglyConnected
  have hnames : (schemas.map NamedSchema.name).Nodup := by decide
  have horder : (order schemas).map NamedSchema.name =
      ["Color", "Tag", "Article", "Author", "Feed"] := by decide +kernel
  have hdepends : DependsOn schemas (entry "Tag" ["Color", "Tag"]) (entry "Color" []) :=
    ⟨by simp [schemas], by simp [schemas], by simp [entry]⟩
  have hapart : ¬Circular schemas (entry "Tag" ["Color", "Tag"]) (entry "Color" []) := by
    rintro ⟨-, hback⟩
    rcases hback.cases_head with heq | ⟨_, hfirst, -⟩
    · exact absurd (congrArg NamedSchema.name heq) (by decide)
    · exact absurd hfirst.2.2 List.not_mem_nil
  obtain ⟨hperm, hrest⟩ := orderBy_groups hfind schemas
  obtain ⟨hfirst, groups, -, hgroups, hshuffled⟩ := hrest hnames
  obtain ⟨groups', -, hgroups', hsame⟩ := hshuffled shuffled (List.reverse_perm schemas)
  exact ⟨hfind, hnames, horder, hperm, hfirst _ _ hdepends hapart, groups, groups', hgroups,
    hgroups', hsame⟩

end RpcSchema
