import RpcSchema.Proofs.Declaration.Order

/-!
# The greedy order of declarations

Among the groups that may come next, the order takes one of enumerations only if there is one,
and otherwise the one with the earliest schema.  The groups that may come next are kept sorted
while they are drained, and a group is added to them when the last one that it waits for is
declared.  So in each round the first of them is preferred to all others that wait for nothing,
and those are the groups whose dependencies are declared.

What this says does not mention how the order is found: it follows that an enumeration that
depends on nothing comes before all that is no enumeration, and that among schemas that depend on
nothing the enumerations, and the others, stand as they were given.

## Main definitions

* `ReadyAfter` — a group may come next.
* `Preferred` — of two groups that may come next, the first is taken.
* `Greedy` — each group is ready in its turn, and preferred to all others that are.
* `Independent` — a schema that depends on no other one.

## Main results

* `Order.Progress.schedule_preferred` — what comes next is preferred to all that is ready.
* `Order.readyAfter_iff` — a group is ready when its component waits for nothing.
* `Greedy.sublist_of_enum`, `Greedy.sublist_of_independent` — what a greedy order keeps.
* `orderBy_greedy` — the order of declarations is greedy.
-/

namespace RpcSchema

/-- A group may come next: what its members depend on is in the group or declared. -/
def ReadyAfter (schemas declared group : List NamedSchema) : Prop :=
  ∀ a ∈ group, ∀ b, DependsOn schemas a b → b ∈ group ∨ b ∈ declared

/-- A group of enumerations. -/
def AllEnums (group : List NamedSchema) : Prop := ∀ a ∈ group, a.schema.isEnum = true

/-- The earliest schema of two groups is in the first one. -/
def StartsBefore (schemas group other : List NamedSchema) : Prop :=
  ∃ a ∈ group, ∀ b ∈ other, [a, b].Sublist schemas

/-- A group of enumerations is preferred to one that has others, and between groups of the same
sort the one that starts before. -/
def Preferred (schemas group other : List NamedSchema) : Prop :=
  AllEnums group ∧ ¬AllEnums other ∨
    (AllEnums group ↔ AllEnums other) ∧ StartsBefore schemas group other

/-- In its turn each group may come next, and is preferred to all later groups that might. -/
def Greedy (schemas : List NamedSchema) (groups : List (List NamedSchema)) : Prop :=
  ∀ before group after, groups = before ++ group :: after →
    ReadyAfter schemas before.flatten group ∧
      ∀ other ∈ after, ReadyAfter schemas before.flatten other → Preferred schemas group other

/-- Among the schemas, it depends on none but itself. -/
def Independent (schemas : List NamedSchema) (a : NamedSchema) : Prop :=
  ∀ b, DependsOn schemas a b → b = a

variable {schemas : List NamedSchema} {groups : List (List NamedSchema)} {a b : NamedSchema}

/-! ### What a greedy order keeps -/

/-- A list taken apart at one of its members, with another one behind it. -/
theorem exists_split_of_lt {α : Type} {values : List α} {x y : α} {i j : Nat}
    (hi : values[i]? = some x) (hj : values[j]? = some y) (hlt : i < j) :
    ∃ before after, values = before ++ x :: after ∧ y ∈ after := by
  obtain ⟨hi', rfl⟩ := List.getElem?_eq_some_iff.mp hi
  refine ⟨values.take i, values.drop (i + 1), ?_, ?_⟩
  · rw [List.getElem_cons_drop, List.take_append_drop]
  · refine List.mem_of_getElem? (i := j - (i + 1)) ?_
    rwa [List.getElem?_drop, Nat.add_sub_cancel' hlt]

theorem pair_sublist_of_lt {α : Type} {values : List α} {x y : α} {i j : Nat}
    (hi : values[i]? = some x) (hj : values[j]? = some y) (hlt : i < j) :
    [x, y].Sublist values := by
  obtain ⟨before, after, rfl, hy⟩ := exists_split_of_lt hi hj hlt
  exact ((List.singleton_sublist.mpr hy).cons_cons x).trans (List.sublist_append_right before _)

/-- In a list without repetition two members stand in one order only. -/
theorem not_sublist_swap {α : Type} {values : List α} {x y : α} (hnodup : values.Nodup)
    (h : [x, y].Sublist values) : ¬[y, x].Sublist values := by
  induction values with
  | nil => exact absurd h (by simp)
  | cons first rest ih =>
    obtain ⟨hfirst, hrest⟩ := List.nodup_cons.mp hnodup
    intro hswap
    rw [List.sublist_cons_iff] at h hswap
    rcases h, hswap with ⟨h | ⟨_, heq, h⟩, hswap | ⟨_, heq', hswap⟩⟩
    · exact ih hrest h hswap
    · -- The second one is in front, and again behind.
      have hy : y ∈ rest := h.subset (by simp)
      exact hfirst ((List.cons.inj heq').1 ▸ hy)
    · have hx : x ∈ rest := hswap.subset (by simp)
      exact hfirst ((List.cons.inj heq).1 ▸ hx)
    · obtain ⟨rfl, rfl⟩ := List.cons.inj heq
      have hy : y ∈ rest := List.singleton_sublist.mp h
      exact hfirst ((List.cons.inj heq').1 ▸ hy)

theorem Independent.of_no_dependencies (h : a.dependencies = []) : Independent schemas a := by
  rintro b ⟨-, -, hname⟩
  rw [h] at hname
  cases hname

/-- What depends on no other schema is on no circle but its own. -/
theorem Independent.eq_of_circular (h : Independent schemas a) (hcircular : Circular schemas a b) :
    b = a := by
  obtain ⟨hpath, -⟩ := hcircular
  induction hpath with
  | refl => rfl
  | tail _ hdepends ih => exact h _ (ih ▸ hdepends)

/-- What depends on no other schema is ready at any time. -/
theorem Independent.readyAfter (h : Independent schemas a) (declared : List NamedSchema) :
    ReadyAfter schemas declared [a] := by
  intro x hx b hdepends
  obtain rfl := List.mem_singleton.mp hx
  exact .inl (List.mem_singleton.mpr (h b hdepends))

/-- What depends on no other schema is a group of its own. -/
theorem Grouping.eq_singleton (h : Grouping schemas groups)
    (hnames : (schemas.map NamedSchema.name).Nodup) {group : List NamedSchema}
    (hgroup : group ∈ groups) (ha : a ∈ group) (hindependent : Independent schemas a) :
    group = [a] := by
  have hnodup : group.Nodup := (List.nodup_flatten.mp (h.nodup hnames)).1 group hgroup
  refine List.perm_singleton.mp ((List.perm_ext_iff_of_nodup hnodup (by simp)).mpr fun b => ?_)
  rw [List.mem_singleton]
  constructor
  · intro hb
    have hmem := h.mem_of_mem hgroup hb
    exact hindependent.eq_of_circular ((h.circular group hgroup a ha b hmem).mp hb)
  · rintro rfl
    exact ha

namespace Greedy

variable (h : Greedy schemas groups) (hgrouping : Grouping schemas groups)
  (hnames : (schemas.map NamedSchema.name).Nodup)

include h hgrouping hnames

/-- What depends on no other schema is always ready.  So it comes before each schema whose group
is not preferred to it. -/
theorem sublist_of_not_preferred (ha : a ∈ schemas) (hb : b ∈ schemas) (hne : b ≠ a)
    (hindependent : Independent schemas a)
    (hnot : ∀ group ∈ groups, b ∈ group → ¬Preferred schemas group [a]) :
    [a, b].Sublist groups.flatten := by
  obtain ⟨group, hgroup, haGroup⟩ := List.mem_flatten.mp (hgrouping.covers.mem_iff.mpr ha)
  obtain rfl := hgrouping.eq_singleton hnames hgroup haGroup hindependent
  obtain ⟨other, hother, hbOther⟩ := List.mem_flatten.mp (hgrouping.covers.mem_iff.mpr hb)
  obtain ⟨i, hi⟩ := List.mem_iff_getElem?.mp hgroup
  obtain ⟨j, hj⟩ := List.mem_iff_getElem?.mp hother
  rcases Nat.lt_trichotomy i j with hlt | rfl | hlt
  · refine List.Sublist.trans ?_ (pair_sublist_of_lt hi hj hlt).flatten
    simpa using hbOther
  · rw [hi] at hj
    obtain rfl := Option.some.inj hj
    exact absurd (List.mem_singleton.mp hbOther) hne
  · obtain ⟨before, after, heq, hafter⟩ := exists_split_of_lt hj hi hlt
    have hpreferred := (h before other after heq).2 [a] hafter (hindependent.readyAfter _)
    exact absurd hpreferred (hnot other hother hbOther)

/-- **An enumeration that depends on nothing comes before all that is no enumeration.** -/
theorem sublist_of_enum (ha : a ∈ schemas) (hb : b ∈ schemas) (hindependent : Independent schemas a)
    (henum : a.schema.isEnum = true) (hother : b.schema.isEnum = false) :
    [a, b].Sublist groups.flatten := by
  have hne : b ≠ a := by
    rintro rfl
    rw [henum] at hother
    cases hother
  refine h.sublist_of_not_preferred hgrouping hnames ha hb hne hindependent
    fun group _ hbGroup hpreferred => ?_
  have hmixed : ¬AllEnums group := fun hall => by simp [hall b hbGroup] at hother
  have henums : AllEnums [a] := fun x hx => by rwa [List.mem_singleton.mp hx]
  rcases hpreferred with ⟨hall, -⟩ | ⟨hiff, -⟩
  · exact hmixed hall
  · exact hmixed (hiff.mpr henums)

/-- **Schemas that depend on nothing keep their order**, among the enumerations and among the
others. -/
theorem sublist_of_independent (hpair : [a, b].Sublist schemas) (ha : Independent schemas a)
    (hb : Independent schemas b) (hsame : a.schema.isEnum = b.schema.isEnum) :
    [a, b].Sublist groups.flatten := by
  have hnodup : schemas.Nodup := .of_map _ hnames
  have hne : b ≠ a := fun heq => by simpa [heq] using hnodup.sublist hpair
  refine h.sublist_of_not_preferred hgrouping hnames (hpair.subset (by simp))
    (hpair.subset (by simp)) hne ha fun group hgroup hbGroup hpreferred => ?_
  obtain rfl := hgrouping.eq_singleton hnames hgroup hbGroup hb
  have hiff : AllEnums [b] ↔ AllEnums [a] := by simp [AllEnums, hsame]
  rcases hpreferred with ⟨hall, hmixed⟩ | ⟨-, x, hx, hbefore⟩
  · exact hmixed (hiff.mp hall)
  · obtain rfl := List.mem_singleton.mp hx
    exact not_sublist_swap hnodup hpair (hbefore a (List.mem_singleton_self a))

end Greedy

namespace Order

/-! ### What comes next is preferred to all that is ready -/

section Rounds

variable {precedes : Nat → Nat → Bool} {successors : List (List Nat)} {count component : Nat}
  {done : List Nat} {agenda : Agenda} {rank : Nat → Nat} {r : Nat → Nat → Prop}

/-- The first of the ready components waits for nothing, and no component that comes later and
waits for nothing is preferred to it. -/
theorem Progress.preferred_first {first : Nat} {others : List Nat} {waits : List Nat}
    (h : Progress successors count done ⟨first :: others, waits⟩)
    (hsorted : (first :: others).Pairwise r) {after : List Nat}
    (hperm : (done ++ first :: after).Perm (List.range count)) :
    pending successors count done first = 0 ∧
      ∀ other ∈ after, pending successors count done other = 0 → r first other := by
  have hready : first ∈ first :: others := List.mem_cons_self ..
  have hlt := h.bounded first (List.mem_append_right _ hready)
  refine ⟨(h.ready first hlt (h.not_mem_done hready)).mp hready, fun other hother hzero => ?_⟩
  -- A component that comes later is neither done nor the first one.
  have hnodup := hperm.nodup_iff.mpr List.nodup_range
  rw [List.nodup_append, List.nodup_cons] at hnodup
  obtain ⟨-, ⟨hnew, -⟩, hapart⟩ := hnodup
  have hundone : other ∉ done := fun hdone =>
    hapart other hdone other (List.mem_cons_of_mem _ hother) rfl
  have hne : other ≠ first := fun heq => hnew (heq ▸ hother)
  have hbound : other < count := List.mem_range.mp (hperm.mem_iff.mp (by simp [hother]))
  have hin := (h.ready other hbound hundone).mpr hzero
  exact (List.pairwise_cons.mp hsorted).1 other (List.mem_of_ne_of_mem hne hin)

variable (hbefore : ∀ x y, precedes x y = true → r x y)
  (hafter : ∀ x y, precedes x y = false → r y x) (htrans : ∀ x y z, r x y → r y z → r x z)

include hbefore hafter htrans

/-- Releasing keeps what is ready in order. -/
theorem Agenda.pairwise_foldl_release (h : agenda.ready.Pairwise r) (released : List Nat) :
    (released.foldl (release precedes) agenda).ready.Pairwise r := by
  induction released generalizing agenda with
  | nil => exact h
  | cons first rest ih =>
    refine ih ?_
    rw [release]
    split
    · exact pairwise_insertBy hbefore hafter htrans first h
    · exact h

/-- **All rounds**: in its turn each component waits for nothing, and none of the later ones that
wait for nothing is preferred to it.  By induction on the rounds, with `Progress.declare` for one
of them: the components that are ready are in order, and the first one is taken. -/
theorem Progress.schedule_preferred (h : Progress successors count done agenda)
    (hranked : Ranked successors count rank) (hsorted : agenda.ready.Pairwise r) {rounds : Nat}
    (hrounds : count ≤ done.length + rounds) {before after : List Nat}
    (hsplit : Order.schedule precedes successors rounds agenda = before ++ component :: after) :
    pending successors count (done ++ before) component = 0 ∧
      ∀ other ∈ after, pending successors count (done ++ before) other = 0 →
        r component other := by
  induction rounds generalizing done agenda before with
  | zero =>
    rw [Order.schedule] at hsplit
    simp at hsplit
  | succ rounds ih =>
    obtain ⟨ready, waits⟩ := agenda
    cases ready with
    | nil =>
      rw [Order.schedule] at hsplit
      simp at hsplit
    | cons first others =>
      obtain ⟨hperm, -⟩ := h.schedule hranked precedes hrounds
      rw [hsplit] at hperm
      rw [Order.schedule] at hsplit
      -- The component taken in this round is the one in question, or the rounds go on without it.
      cases before with
      | nil =>
        obtain ⟨rfl, -⟩ := List.cons.inj hsplit
        rw [List.append_nil]
        exact h.preferred_first hsorted hperm
      | cons next before =>
        obtain ⟨rfl, hrest⟩ := List.cons.inj hsplit
        have hstep := ih (h.declare hranked precedes)
          (Agenda.pairwise_foldl_release hbefore hafter htrans (List.pairwise_cons.mp hsorted).2 _)
          (by rw [List.length_append, List.length_singleton]; omega) hrest
        rwa [List.append_assoc, List.singleton_append] at hstep

end Rounds

/-! ### Keys -/

theorem Key.not_precedes_iff {x y : Key} : x.precedes y = false ↔
    y.mixed = false ∧ x.mixed = true ∨ y.mixed = x.mixed ∧
      (y.first < x.first ∨ y.first = x.first ∧ y.component ≤ x.component) := by
  rw [precedes]
  grind

section Groups

variable {components : List (List Nat)} {component other : Nat}
  (h : IsComponents schemas.length (edges schemas) components)

include h

/-- A component is not mixed when its schemas are enumerations. -/
theorem mixed_keyOf : (keyOf schemas components component).mixed = false ↔
    AllEnums (groupOf schemas components component) := by
  simp only [keyOf, List.any_eq_false, Bool.not_eq_true', Bool.not_eq_false, AllEnums, mem_groupOf]
  constructor
  · rintro hall a ⟨position, hposition, ha⟩
    have hmember := hall position hposition
    rwa [ha] at hmember
  · intro hall position hposition
    have ha := List.getElem?_eq_getElem (h.lt_of_mem_row hposition)
    rw [ha]
    exact hall _ ⟨position, hposition, ha⟩

/-- The first position of a component is the earliest of its positions. -/
theorem first_keyOf (hlt : component < components.length) :
    let first := (keyOf schemas components component).first
    first ∈ row components component ∧ ∀ position ∈ row components component, first ≤ position := by
  intro first
  have hlisted : row components component ∈ components := by
    rw [row_eq_of_getElem? (List.getElem?_eq_getElem hlt)]
    exact List.getElem_mem hlt
  obtain ⟨least, hleast⟩ : ∃ least, (row components component).min? = some least := by
    refine Option.isSome_iff_exists.mp (List.isSome_min?_of_ne_nil fun hnil => ?_)
    exact h.nonempty (hnil ▸ hlisted)
  have hfirst : first = least := by
    simp only [first, keyOf, hleast, Option.getD_some]
  rw [hfirst]
  exact List.min?_eq_some_iff.mp hleast

/-- **Of two components** the one that the other does not precede is preferred. -/
theorem preferred_groupOf (hlt : component < components.length) (hother : other < components.length)
    (hne : component ≠ other)
    (hkey :
      (keyOf schemas components other).precedes (keyOf schemas components component) = false) :
    Preferred schemas (groupOf schemas components component)
      (groupOf schemas components other) := by
  have hmixed : (keyOf schemas components component).mixed = false ↔ _ := mixed_keyOf h
  have hmixed' : (keyOf schemas components other).mixed = false ↔ _ := mixed_keyOf h
  rcases Key.not_precedes_iff.mp hkey with ⟨henums, hothers⟩ | ⟨hsame, hfirst⟩
  · refine .inl ⟨hmixed.mp henums, fun hall => ?_⟩
    rw [hmixed'.mpr hall] at hothers
    cases hothers
  · refine .inr ⟨by rw [← hmixed, ← hmixed', hsame], ?_⟩
    obtain ⟨hmem, -⟩ := first_keyOf h hlt
    obtain ⟨hmem', hleast⟩ := first_keyOf h hother
    -- Components have no position in common.
    have hapart : (keyOf schemas components component).first ≠
        (keyOf schemas components other).first := by
      intro heq
      rw [heq] at hmem
      exact hne ((h.componentOf_eq hmem).symm.trans (h.componentOf_eq hmem'))
    have ha := List.getElem?_eq_getElem (h.lt_of_mem_row hmem)
    refine ⟨_, mem_groupOf.mpr ⟨_, hmem, ha⟩, fun b hb => ?_⟩
    obtain ⟨position, hposition, hb⟩ := mem_groupOf.mp hb
    have hle := hleast position hposition
    exact pair_sublist_of_lt ha hb (by omega)

/-- **A group may come next** when its component waits for nothing. -/
theorem readyAfter_iff (hnames : (schemas.map NamedSchema.name).Nodup) (before : List Nat) :
    ReadyAfter schemas (before.map (groupOf schemas components)).flatten
        (groupOf schemas components component) ↔
      pending (condense components (edges schemas)).successors components.length before
        component = 0 := by
  -- A component waits for those that an edge into it comes from, and edges are dependencies.
  rw [pending_eq_zero_iff]
  constructor
  · intro hready source _ hleads
    obtain ⟨hne, ⟨j, i⟩, hedge, rfl, rfl⟩ := (h.mem_successors_iff edges_lt).mp hleads
    obtain ⟨hj, hi⟩ := edges_lt _ hedge
    have ha := List.getElem?_eq_getElem hi
    have hb := List.getElem?_eq_getElem hj
    have hname := ((mem_edges_iff hnames ha hb).mp hedge).2
    have hdepends : DependsOn schemas schemas[i] schemas[j] :=
      ⟨List.getElem_mem hi, List.getElem_mem hj, hname⟩
    have haGroup := mem_groupOf.mpr ⟨i, h.mem_row_componentOf hi, ha⟩
    have hfound : ∀ {other}, schemas[j] ∈ groupOf schemas components other →
        componentOf components j = other := by
      intro other hmem
      obtain ⟨k, hk, hkb⟩ := mem_groupOf.mp hmem
      have hkj : k = j := position_eq hnames hkb hb rfl
      exact h.componentOf_eq (hkj ▸ hk)
    rcases hready _ haGroup _ hdepends with hin | hdeclared
    · exact absurd (hfound hin) hne
    · obtain ⟨group, hgroup, hin⟩ := List.mem_flatten.mp hdeclared
      obtain ⟨other, hother, rfl⟩ := List.mem_map.mp hgroup
      exact hfound hin ▸ hother
  · intro hpending a ha b hdepends
    obtain ⟨i, hi, hia⟩ := mem_groupOf.mp ha
    obtain ⟨j, hjb⟩ := List.mem_iff_getElem?.mp hdepends.2.1
    have hj := (List.getElem?_eq_some_iff.mp hjb).1
    have hb := mem_groupOf.mpr ⟨j, h.mem_row_componentOf hj, hjb⟩
    by_cases hsame : componentOf components j = component
    · exact .inl (hsame ▸ hb)
    · have hne : j ≠ i := fun heq => hsame (heq ▸ h.componentOf_eq hi)
      have hedge := (mem_edges_iff hnames hia hjb).mpr ⟨hne, hdepends.2.2⟩
      have hleads := (h.mem_successors_iff edges_lt).mpr
        ⟨hsame, (j, i), hedge, rfl, h.componentOf_eq hi⟩
      have hdone := hpending _ (h.componentOf_lt hj) hleads
      exact .inr (List.mem_flatten_of_mem (List.mem_map_of_mem hdone) hb)

/-- **The components are scheduled greedily.** -/
theorem greedy (hnames : (schemas.map NamedSchema.name).Nodup) :
    Greedy schemas ((scheduled schemas components).map (groupOf schemas components)) := by
  rintro groups group later hsplit
  obtain ⟨before, rest, hscheduled, rfl, hrest⟩ := List.map_eq_append_iff.mp hsplit
  obtain ⟨component, after, rfl, rfl, rfl⟩ := List.map_eq_cons_iff.mp hrest
  obtain ⟨hperm, -⟩ := scheduled_spec h
  rw [hscheduled] at hperm
  have hlt : ∀ other ∈ before ++ component :: after, other < components.length :=
    fun other hother => List.mem_range.mp (hperm.mem_iff.mp hother)
  have hnodup := hperm.nodup_iff.mpr List.nodup_range
  let precedes := fun x y =>
    (keyOf schemas components x).precedes (keyOf schemas components y)
  -- What is ready is sorted: no key precedes an earlier one.
  have hbefore : ∀ x y, precedes x y = true → precedes y x = false := by
    intro x y
    simp only [precedes, Key.precedes]
    grind
  have htrans : ∀ x y z, precedes y x = false → precedes z y = false → precedes z x = false := by
    intro x y z
    simp only [precedes, Key.not_precedes_iff]
    grind
  have hsorted := pairwise_sortBy (r := fun x y => precedes y x = false) hbefore
    (fun _ _ hnot => hnot) htrans
  have hrounds : components.length ≤ ([] : List Nat).length + components.length := by simp
  obtain ⟨hzero, hpreferred⟩ := (h.progress_initial edges_lt precedes).schedule_preferred hbefore
    (fun _ _ hnot => hnot) htrans (h.ranked edges_lt) (hsorted _) hrounds hscheduled
  rw [List.nil_append] at hzero hpreferred
  refine ⟨(readyAfter_iff h hnames before).mpr hzero, fun other hother hready => ?_⟩
  obtain ⟨next, hnext, rfl⟩ := List.mem_map.mp hother
  have hne : component ≠ next := by
    rintro rfl
    exact (List.nodup_cons.mp (List.nodup_append.mp hnodup).2.1).1 hnext
  exact preferred_groupOf h (hlt _ (by simp)) (hlt _ (by simp [hnext])) hne
    (hpreferred next hnext ((readyAfter_iff h hnames before).mp hready))

end Groups

end Order

/-- **The order of declarations is greedy**, with any function that finds the components, when
names are distinct.

The groups are the classes of schemas on common circles.  In its turn each of them has all its
dependencies in the group or declared, and among the groups of which this is true it is one of
enumerations only, if there is one, and then the one with the earliest schema.  Hence an
enumeration that depends on nothing stands before all that is no enumeration, and the schemas that
depend on nothing stand in the given order among the enumerations and among the others. -/
theorem orderBy_greedy {findComponents : Nat → List (Nat × Nat) → List (List Nat)}
    (hfind : Order.FindsComponents findComponents) {schemas : List NamedSchema}
    (hnames : (schemas.map NamedSchema.name).Nodup) :
    (∃ groups, Grouping schemas groups ∧ orderBy findComponents schemas = groups.flatten ∧
      Greedy schemas groups) ∧
      (∀ a ∈ schemas, ∀ b ∈ schemas, Independent schemas a → a.schema.isEnum = true →
        b.schema.isEnum = false → [a, b].Sublist (orderBy findComponents schemas)) ∧
      ∀ a b, [a, b].Sublist schemas → Independent schemas a → Independent schemas b →
        a.schema.isEnum = b.schema.isEnum → [a, b].Sublist (orderBy findComponents schemas) := by
  have hcomponents := hfind schemas.length _ Order.edges_lt
  have hgrouping := Order.grouping hcomponents hnames
  have hgreedy := Order.greedy hcomponents hnames
  rw [Order.orderBy_eq hfind schemas]
  refine ⟨⟨_, hgrouping, rfl, hgreedy⟩, fun a ha b hb hindependent henum hother => ?_,
    fun a b hpair ha hb hsame => ?_⟩
  · exact hgreedy.sublist_of_enum hgrouping hnames ha hb hindependent henum hother
  · exact hgreedy.sublist_of_independent hgrouping hnames hpair ha hb hsame

/-- A circle, what depends on it, two enumerations and two schemas that depend on nothing: the
enumerations come first, then the circle, and what it releases before what stood behind it. -/
theorem orderBy_greedy_circle :
    let entry : String → List String → NamedSchema := fun name dependencies =>
      ⟨name, .ofKind .list, dependencies⟩
    let choice : String → List String → NamedSchema := fun name dependencies =>
      ⟨name, .ofKind (.enum none []), dependencies⟩
    let schemas := [entry "Feed" ["Article"], entry "Article" ["Author", "Missing"],
      entry "Author" ["Article"], entry "Page" [], choice "Color" ["Tag"], entry "Site" [],
      choice "Tag" []]
    Order.FindsComponents Order.stronglyConnected ∧ (schemas.map NamedSchema.name).Nodup ∧
      (order schemas).map NamedSchema.name =
        ["Tag", "Color", "Article", "Author", "Feed", "Page", "Site"] ∧
      (∃ groups, Grouping schemas groups ∧ order schemas = groups.flatten ∧
        Greedy schemas groups) ∧
      [choice "Tag" [], entry "Feed" ["Article"]].Sublist (order schemas) ∧
      [entry "Page" [], entry "Site" []].Sublist (order schemas) := by
  intro entry choice schemas
  have hfind := Order.findsComponents_stronglyConnected
  have hnames : (schemas.map NamedSchema.name).Nodup := by decide
  have horder : (order schemas).map NamedSchema.name =
      ["Tag", "Color", "Article", "Author", "Feed", "Page", "Site"] := by decide +kernel
  have hindependent : ∀ a : NamedSchema, a.dependencies = [] → Independent schemas a :=
    fun _ => .of_no_dependencies
  obtain ⟨hgroups, henums, hothers⟩ := orderBy_greedy hfind hnames
  refine ⟨hfind, hnames, horder, hgroups, ?_, ?_⟩
  · exact henums _ (by simp [schemas]) _ (by simp [schemas]) (hindependent _ rfl) rfl rfl
  · refine hothers _ _ ?_ (hindependent _ rfl) (hindependent _ rfl) rfl
    exact pair_sublist_of_lt (i := 3) (j := 5) rfl rfl (by decide)

end RpcSchema
