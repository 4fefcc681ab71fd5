import RpcSchema.Proofs.Declaration.Components
import RpcSchema.Proofs.Declaration.Scheduling

/-!
# The graph of the components

Edges between nodes lead to edges between their components.  Each such edge is counted once, and
none leads from a component to itself.  So the count of a component says how many other components
lead to it.

A component that an edge leads to is reached from more nodes than the one where the edge starts.
Edges therefore lead upwards in the number of nodes that a component is reached from.

## Main definitions

* `Order.Condensation.Links` — the graph has some edges and counts them.
* `Order.height` — how many nodes a component is reached from.

## Main results

* `Order.IsComponents.componentOf_eq` — the component of a node.
* `Order.IsComponents.ranked` — the graph of the components is ranked.
* `Order.IsComponents.progress_initial` — what is known before the first round.
* `Order.IsComponents.schedule` — the components in order of declaration.
-/

namespace RpcSchema

namespace Order

variable {count : Nat} {edges : List (Nat × Nat)} {components : List (List Nat)}
  {node other component : Nat}

/-! ### Rows -/

theorem row_eq_of_getElem? {table : List (List Nat)} {values : List Nat} {position : Nat}
    (h : table[position]? = some values) : row table position = values := by
  rw [row, h, Option.getD_some]

theorem getElem?_of_mem_row {table : List (List Nat)} {position value : Nat}
    (h : value ∈ row table position) : table[position]? = some (row table position) := by
  cases hrow : table[position]? with
  | none =>
    rw [row, hrow] at h
    exact absurd h List.not_mem_nil
  | some values => rw [row_eq_of_getElem? hrow]

theorem lt_length_of_mem_row {table : List (List Nat)} {position value : Nat}
    (h : value ∈ row table position) : position < table.length :=
  (List.getElem?_eq_some_iff.mp (getElem?_of_mem_row h)).1

theorem row_set {table : List (List Nat)} {position : Nat} (h : position < table.length)
    (values : List Nat) (other : Nat) :
    row (table.set position values) other =
      if other = position then values else row table other := by
  by_cases heq : other = position
  · rw [heq, if_pos rfl, row, List.getElem?_set_self h, Option.getD_some]
  · rw [if_neg heq, row, row, List.getElem?_set_ne (Ne.symm heq)]

/-! ### The components of nodes -/

namespace IsComponents

variable (h : IsComponents count edges components)

include h

theorem lt_of_mem_row (hmem : node ∈ row components component) : node < count := by
  have hlisted := List.mem_of_getElem? (getElem?_of_mem_row hmem)
  exact List.mem_range.mp (h.covers.mem_iff.mp (List.mem_flatten_of_mem hlisted hmem))

/-- The component of a node is the one that lists it. -/
theorem componentOf_eq (hmem : node ∈ row components component) :
    componentOf components node = component := by
  have hdisjoint := (List.nodup_flatten.mp (h.covers.nodup_iff.mpr List.nodup_range)).2
  obtain ⟨hlt, hrow⟩ := List.getElem?_eq_some_iff.mp (getElem?_of_mem_row hmem)
  have hfound : components.findIdx? (fun members => members.contains node) = some component := by
    refine List.findIdx?_eq_some_iff_getElem.mpr ⟨hlt, ?_, fun earlier hearlier hin => ?_⟩
    · rw [hrow, List.contains_iff_mem]
      exact hmem
    · rw [List.contains_iff_mem] at hin
      have hapart := List.pairwise_iff_getElem.mp hdisjoint earlier component (by omega) hlt
        hearlier
      exact hapart hin (hrow ▸ hmem)
  rw [componentOf, hfound, Option.getD_some]

/-- Each node has a component. -/
theorem mem_row_componentOf (hnode : node < count) :
    node ∈ row components (componentOf components node) := by
  have hmem : node ∈ components.flatten := h.covers.mem_iff.mpr (List.mem_range.mpr hnode)
  obtain ⟨members, hlisted, hin⟩ := List.mem_flatten.mp hmem
  obtain ⟨component, hcomponent⟩ := List.mem_iff_getElem?.mp hlisted
  have hrow : node ∈ row components component := by rwa [row_eq_of_getElem? hcomponent]
  rwa [h.componentOf_eq hrow]

theorem componentOf_lt (hnode : node < count) :
    componentOf components node < components.length :=
  lt_length_of_mem_row (h.mem_row_componentOf hnode)

/-- Two nodes are in one component when they reach each other. -/
theorem componentOf_eq_iff (hnode : node < count) (hother : other < count) :
    componentOf components node = componentOf components other ↔
      Reaches edges node other ∧ Reaches edges other node := by
  have hmem := h.mem_row_componentOf hnode
  have hlisted := List.mem_of_getElem? (getElem?_of_mem_row hmem)
  rw [← h.connected _ hlisted node hmem other hother]
  constructor
  · intro heq
    rw [heq]
    exact h.mem_row_componentOf hother
  · exact fun hin => (h.componentOf_eq hin).symm

end IsComponents

/-! ### Edges between components -/

/-- The graph has the edges given by `links` and counts them, those from a component to itself
left out. -/
structure Condensation.Links (condensation : Condensation) (count : Nat)
    (links : List (Nat × Nat)) : Prop where
  length : condensation.successors.length = count
  length_indegrees : condensation.indegrees.length = count
  mem_iff : ∀ source target, target ∈ row condensation.successors source ↔
    (source, target) ∈ links ∧ source ≠ target
  nodup : ∀ source, (row condensation.successors source).Nodup
  indegree : ∀ target < count,
    condensation.indegrees[target]? = some (pending condensation.successors count [] target)

namespace Condensation

variable {condensation : Condensation} {links : List (Nat × Nat)}

theorem links_blank (count : Nat) : (blank count).Links count [] := by
  have hrow : ∀ source, row (blank count).successors source = [] := by
    intro source
    rw [row, blank, List.getElem?_replicate]
    split <;> rfl
  refine ⟨List.length_replicate, List.length_replicate, fun source target => ?_, fun source => ?_,
    fun target htarget => ?_⟩
  · simp [hrow]
  · rw [hrow]
    exact .nil
  · have hzero : pending (blank count).successors count [] target = 0 :=
      pending_eq_zero_iff.mpr fun other _ hmem => by
        rw [hrow] at hmem
        exact absurd hmem List.not_mem_nil
    rw [hzero, blank, List.getElem?_replicate, if_pos htarget]

/-- A component that leads to a target for the first time is one more. -/
theorem pending_set {successors : List (List Nat)} {source target : Nat} {values : List Nat}
    (hlength : successors.length = count) (hsource : source < count)
    (hnew : target ∉ row successors source)
    (hvalues : ∀ x, x ∈ values ↔ x = target ∨ x ∈ row successors source) (other : Nat) :
    pending (successors.set source values) count [] other =
      pending successors count [] other + if other = target then 1 else 0 := by
  have hrow := row_set (hlength.symm ▸ hsource) values
  split
  · next heq =>
    subst heq
    have hinsert : ((Finset.range count).filter fun position =>
        position ∉ ([] : List Nat) ∧ other ∈ row (successors.set source values) position) =
          insert source ((Finset.range count).filter fun position =>
            position ∉ ([] : List Nat) ∧ other ∈ row successors position) := by
      ext position
      simp only [Finset.mem_filter, Finset.mem_insert, Finset.mem_range, List.not_mem_nil,
        not_false_eq_true, true_and, hrow]
      by_cases heq : position = source
      · simp [heq, hsource, hvalues]
      · simp [heq]
    rw [pending, hinsert, Finset.card_insert_of_notMem (by simp [hnew]), pending]
  · next hne =>
    rw [pending, pending, Nat.add_zero]
    refine congrArg Finset.card (Finset.filter_congr fun position _ => ?_)
    rw [hrow]
    by_cases heq : position = source
    · simp [heq, hvalues, hne]
    · simp [heq]

/-- **One more edge.** -/
theorem Links.link (h : condensation.Links count links) {edge : Nat × Nat}
    (hsource : edge.1 < count) (htarget : edge.2 < count) :
    (condensation.link edge).Links count (links ++ [edge]) := by
  obtain ⟨source, target⟩ := edge
  simp only at hsource htarget
  rw [Condensation.link]
  split
  · next hknown =>
    -- The edge is there, or would lead from a component to itself.
    refine ⟨h.length, h.length_indegrees, fun source' target' => ?_, h.nodup, h.indegree⟩
    rw [h.mem_iff, List.mem_append, List.mem_singleton]
    have hknown' : source = target ∨ (source, target) ∈ links ∧ source ≠ target := by
      simpa [h.mem_iff] using hknown
    constructor
    · exact fun hlink => ⟨.inl hlink.1, hlink.2⟩
    · rintro ⟨hlink | hlast, hne⟩
      · exact ⟨hlink, hne⟩
      · obtain ⟨rfl, rfl⟩ := Prod.mk.inj hlast
        exact ⟨(hknown'.resolve_left hne).1, hne⟩
  · next hnew =>
    obtain ⟨hne, hnot⟩ : source ≠ target ∧ target ∉ row condensation.successors source := by
      simpa using hnew
    have hlt : source < condensation.successors.length := h.length.symm ▸ hsource
    have hvalues : ∀ x,
        x ∈ insertBy (fun a b => a < b) target (row condensation.successors source) ↔
          x = target ∨ x ∈ row condensation.successors source := fun _ => mem_insertBy
    refine ⟨List.length_set.trans h.length, (List.length_modify _ _ _).trans h.length_indegrees,
      fun source' target' => ?_, fun source' => ?_, fun target' htarget' => ?_⟩
    · rw [row_set hlt, List.mem_append, List.mem_singleton, Prod.mk.injEq]
      split
      · next heq =>
        subst heq
        rw [hvalues, h.mem_iff]
        constructor
        · rintro (rfl | ⟨hlink, hapart⟩)
          · exact ⟨.inr ⟨rfl, rfl⟩, hne⟩
          · exact ⟨.inl hlink, hapart⟩
        · rintro ⟨hlink | ⟨-, rfl⟩, hapart⟩
          · exact .inr ⟨hlink, hapart⟩
          · exact .inl rfl
      · next hother =>
        rw [h.mem_iff]
        simp only [hother, false_and, or_false]
    · rw [row_set hlt]
      split
      · exact (insertBy_perm _ _ _).nodup_iff.mpr (List.nodup_cons.mpr ⟨hnot, h.nodup source⟩)
      · exact h.nodup source'
    · simp only
      rw [List.getElem?_modify, h.indegree target' htarget',
        pending_set h.length hsource hnot hvalues target']
      by_cases heq : target = target'
      · simp [heq]
      · simp [heq, Ne.symm heq]

/-- Many edges. -/
theorem Links.foldl_link {more : List (Nat × Nat)} (h : condensation.Links count links)
    (hmore : ∀ edge ∈ more, edge.1 < count ∧ edge.2 < count) :
    (more.foldl Condensation.link condensation).Links count (links ++ more) := by
  induction more generalizing condensation links with
  | nil => simpa using h
  | cons edge rest ih =>
    obtain ⟨hedge, hrest⟩ := List.forall_mem_cons.mp hmore
    have hnext := ih (h.link hedge.1 hedge.2) hrest
    rwa [List.append_assoc, List.singleton_append] at hnext

end Condensation

/-! ### The graph of the components is ranked -/

open scoped Classical in
/-- The nodes that a component is reached from. -/
noncomputable def origins (count : Nat) (edges : List (Nat × Nat)) (members : List Nat) :
    Finset Nat :=
  (Finset.range count).filter fun start => ∃ node ∈ members, Reaches edges start node

theorem mem_origins {members : List Nat} {start : Nat} : start ∈ origins count edges members ↔
    start < count ∧ ∃ node ∈ members, Reaches edges start node := by
  simp only [origins, Finset.mem_filter, Finset.mem_range]

/-- How many nodes a component is reached from. -/
noncomputable def height (count : Nat) (edges : List (Nat × Nat)) (components : List (List Nat))
    (component : Nat) : Nat :=
  (origins count edges (row components component)).card

namespace IsComponents

variable (h : IsComponents count edges components)
  (hedges : ∀ edge ∈ edges, edge.1 < count ∧ edge.2 < count)

include h hedges

theorem links_condense : (condense components edges).Links components.length
    (edges.map fun edge => (componentOf components edge.1, componentOf components edge.2)) := by
  refine (Condensation.links_blank components.length).foldl_link fun link hlink => ?_
  obtain ⟨edge, hedge, rfl⟩ := List.mem_map.mp hlink
  obtain ⟨hsource, htarget⟩ := hedges edge hedge
  exact ⟨h.componentOf_lt hsource, h.componentOf_lt htarget⟩

theorem mem_successors_iff {source target : Nat} :
    target ∈ row (condense components edges).successors source ↔ source ≠ target ∧
      ∃ edge ∈ edges, componentOf components edge.1 = source ∧
        componentOf components edge.2 = target := by
  rw [(h.links_condense hedges).mem_iff, and_comm, List.mem_map]
  simp only [Prod.mk.injEq]

/-- The start of an edge between components is reached from fewer nodes than its end. -/
theorem height_lt {edge : Nat × Nat} (hedge : edge ∈ edges)
    (hapart : componentOf components edge.1 ≠ componentOf components edge.2) :
    height count edges components (componentOf components edge.1) <
      height count edges components (componentOf components edge.2) := by
  obtain ⟨source, target⟩ := edge
  obtain ⟨hsource, htarget⟩ := hedges _ hedge
  simp only at hsource htarget hapart
  have hsourceMem := h.mem_row_componentOf hsource
  have htargetMem := h.mem_row_componentOf htarget
  have hstep : Reaches edges source target := Relation.ReflTransGen.single hedge
  have hwithin : ∀ node ∈ row components (componentOf components source),
      Reaches edges node source := by
    intro node hnode
    have hlt := h.lt_of_mem_row hnode
    exact ((h.componentOf_eq_iff hlt hsource).mp (h.componentOf_eq hnode)).1
  refine Finset.card_lt_card (Finset.ssubset_iff_subset_ne.mpr
    ⟨fun start hstart => ?_, fun heq => ?_⟩)
  · obtain ⟨hlt, node, hnode, hreach⟩ := mem_origins.mp hstart
    exact mem_origins.mpr ⟨hlt, target, htargetMem, (hreach.trans (hwithin node hnode)).trans hstep⟩
  · -- The end does not reach the start, or they would be in one component.
    have hin : target ∈ origins count edges (row components (componentOf components target)) :=
      mem_origins.mpr ⟨htarget, target, htargetMem, .refl⟩
    rw [← heq] at hin
    obtain ⟨-, node, hnode, hreach⟩ := mem_origins.mp hin
    exact hapart ((h.componentOf_eq_iff hsource htarget).mpr
      ⟨hstep, hreach.trans (hwithin node hnode)⟩)

/-- **Edges between components lead upwards.** -/
theorem ranked : Ranked (condense components edges).successors components.length
    (height count edges components) where
  nodup := (h.links_condense hedges).nodup
  bounded := by
    intro component next hnext
    obtain ⟨-, edge, hedge, -, rfl⟩ := (h.mem_successors_iff hedges).mp hnext
    exact h.componentOf_lt (hedges edge hedge).2
  rising := by
    intro component next hnext
    obtain ⟨hne, edge, hedge, rfl, rfl⟩ := (h.mem_successors_iff hedges).mp hnext
    exact h.height_lt hedges hedge hne

/-- **Before the first round**, the components that no edge leads to are ready. -/
theorem progress_initial (precedes : Nat → Nat → Bool) :
    Progress (condense components edges).successors components.length []
      (.initial precedes (condense components edges).indegrees) := by
  have hlinks := h.links_condense hedges
  have hmem : ∀ component, component ∈
      (Agenda.initial precedes (condense components edges).indegrees).ready ↔
        component < components.length ∧
          (condense components edges).indegrees[component]? = some 0 := by
    intro component
    rw [Agenda.initial, (sortBy_perm precedes _).mem_iff, List.mem_filter, List.mem_range,
      hlinks.length_indegrees, decide_eq_true_iff]
  refine ⟨?_, fun component hin => ?_, hlinks.length_indegrees, fun component hlt => ?_,
    fun component hlt _ => ?_, List.forall_mem_nil _⟩
  · rw [List.nil_append]
    exact (sortBy_perm precedes _).nodup_iff.mpr (List.nodup_range.filter _)
  · rw [List.nil_append] at hin
    exact ((hmem component).mp hin).1
  · rw [Agenda.wait, Agenda.initial, hlinks.indegree component hlt, Option.getD_some]
  · rw [hmem, and_iff_right hlt, hlinks.indegree component hlt, Option.some.injEq]

/-- **Each component is scheduled once, and edges lead from earlier to later ones.** -/
theorem schedule (precedes : Nat → Nat → Bool) :
    let condensation := condense components edges
    let scheduled := Order.schedule precedes condensation.successors components.length
      (.initial precedes condensation.indegrees)
    scheduled.Perm (List.range components.length) ∧
      ∀ edge ∈ edges, componentOf components edge.1 ≠ componentOf components edge.2 →
        [componentOf components edge.1, componentOf components edge.2].Sublist scheduled := by
  intro condensation scheduled
  have hrounds : components.length ≤ ([] : List Nat).length + components.length := by simp
  obtain ⟨hperm, hordered⟩ := (h.progress_initial hedges precedes).schedule (h.ranked hedges)
    precedes hrounds
  refine ⟨hperm, fun edge hedge hapart => ?_⟩
  exact hordered _ (h.componentOf_lt (hedges edge hedge).1) _
    ((h.mem_successors_iff hedges).mpr ⟨hapart, edge, hedge, rfl, rfl⟩)

end IsComponents

end Order

end RpcSchema
