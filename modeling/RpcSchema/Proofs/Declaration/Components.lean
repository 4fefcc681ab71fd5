import Mathlib.Data.List.Nodup
import Mathlib.Data.List.Perm.Subperm
import Mathlib.Logic.Relation
import RpcSchema.Declaration.Order

/-!
# Strongly connected components

The components of a graph are the classes of nodes that reach each other.  The order of
declarations takes a function that finds them; here it is said what that function has to give,
and that `stronglyConnected` gives it.

The nodes that are reached are collected in steps until no new one is found.  There are no more
steps with new nodes than there are nodes.

## Main definitions

* `Order.Reaches` — edges lead from one node to another.
* `Order.IsComponents` — the components of a graph.
* `Order.FindsComponents` — what the order of declarations needs.

## Main results

* `Order.mem_closure_iff` — what is collected is what is reached.
* `Order.findsComponents_stronglyConnected` — `stronglyConnected` finds the components.
-/

namespace RpcSchema

namespace Order

/-- Edges lead from one node to another, in any number of steps. -/
def Reaches (edges : List (Nat × Nat)) : Nat → Nat → Prop :=
  Relation.ReflTransGen fun source target => (source, target) ∈ edges

/-- Each node below `count` is in one of the lists, once, and those in one list are exactly
those that reach each other. -/
structure IsComponents (count : Nat) (edges : List (Nat × Nat)) (components : List (List Nat)) :
    Prop where
  covers : components.flatten.Perm (List.range count)
  nonempty : [] ∉ components
  connected : ∀ members ∈ components, ∀ node ∈ members, ∀ other < count,
    other ∈ members ↔ Reaches edges node other ∧ Reaches edges other node

/-- The function finds the components of every graph with nodes below a number. -/
def FindsComponents (findComponents : Nat → List (Nat × Nat) → List (List Nat)) : Prop :=
  ∀ count edges, (∀ edge ∈ edges, edge.1 < count ∧ edge.2 < count) →
    IsComponents count edges (findComponents count edges)

variable {count : Nat} {edges : List (Nat × Nat)} {reached : List Nat}

/-! ### Nodes that are reached -/

theorem mem_targets {nodes : List Nat} {target : Nat} :
    target ∈ targets edges nodes ↔ ∃ source ∈ nodes, (source, target) ∈ edges := by
  simp only [targets, List.mem_map, List.mem_filter, List.contains_iff_mem, Prod.exists]
  constructor
  · rintro ⟨source, _, ⟨hedge, hsource⟩, rfl⟩
    exact ⟨source, hsource, hedge⟩
  · rintro ⟨source, hsource, hedge⟩
    exact ⟨source, target, ⟨hedge, hsource⟩, rfl⟩

/-- Only reached nodes are collected. -/
theorem reaches_of_mem_closure {start : Nat} {steps : Nat}
    (h : ∀ node ∈ reached, Reaches edges start node) :
    ∀ node ∈ closure edges steps reached, Reaches edges start node := by
  induction steps generalizing reached with
  | zero => exact h
  | succ steps ih =>
    rw [closure]
    split
    · exact h
    · refine ih fun node hnode => ?_
      rcases mem_unionOf.mp hnode with hnode | hnode
      · exact h node hnode
      · obtain ⟨source, hsource, hedge⟩ := mem_targets.mp hnode
        exact (h source hsource).tail hedge

theorem nodup_unionOf {nodes : List Nat} (h : reached.Nodup) : (unionOf reached nodes).Nodup := by
  have hdistinct : Distinct reached := h.imp fun hne => beq_eq_false_iff_ne.mpr hne.symm
  exact (hdistinct.unionOf nodes).imp fun hne => (beq_eq_false_iff_ne.mp hne).symm

/-- **Enough steps** collect nodes that no edge leads away from: as long as there is a new node
in each step, they are soon all there. -/
theorem closed_closure (hedges : ∀ edge ∈ edges, edge.2 < count) {steps : Nat}
    (hnodup : reached.Nodup) (hlt : ∀ node ∈ reached, node < count)
    (hsteps : count < reached.length + steps) :
    reached ⊆ closure edges steps reached ∧
      ∀ source target, (source, target) ∈ edges → source ∈ closure edges steps reached →
        target ∈ closure edges steps reached := by
  have hbound : ∀ {nodes : List Nat}, nodes.Nodup → (∀ node ∈ nodes, node < count) →
      nodes.length ≤ count := by
    intro nodes hnodup hlt
    have hsub : nodes ⊆ List.range count := fun node hnode => List.mem_range.mpr (hlt node hnode)
    simpa using (hnodup.subperm hsub).length_le
  induction steps generalizing reached with
  | zero =>
    have hlength := hbound hnodup hlt
    omega
  | succ steps ih =>
    let further := unionOf reached (targets edges reached)
    have hfurther : further.Nodup := nodup_unionOf hnodup
    have hsub : reached ⊆ further := fun node hnode => mem_unionOf.mpr (.inl hnode)
    have hsubperm := hnodup.subperm hsub
    rw [closure]
    split
    · next hsame =>
      -- No new node: the targets are there already.
      have hperm : reached.Perm further := hsubperm.perm_of_length_le (Nat.le_of_eq hsame)
      refine ⟨List.Subset.refl reached, fun source target hedge hsource => ?_⟩
      exact hperm.mem_iff.mpr
        (mem_unionOf.mpr (.inr (mem_targets.mpr ⟨source, hsource, hedge⟩)))
    · next hmore =>
      have hlength := hsubperm.length_le
      have hlt' : ∀ node ∈ further, node < count := by
        intro node hnode
        rcases mem_unionOf.mp hnode with hnode | hnode
        · exact hlt node hnode
        · obtain ⟨source, -, hedge⟩ := mem_targets.mp hnode
          exact hedges _ hedge
      obtain ⟨hkept, hclosed⟩ := ih hfurther hlt' (by
        have hne : further.length ≠ reached.length := hmore
        omega)
      exact ⟨List.Subset.trans hsub hkept, hclosed⟩

/-- **What is collected from a node is what it reaches.** -/
theorem mem_closure_iff (hedges : ∀ edge ∈ edges, edge.2 < count) {node other : Nat}
    (hnode : node < count) :
    other ∈ closure edges count [node] ↔ Reaches edges node other := by
  constructor
  · refine reaches_of_mem_closure (fun start hstart => ?_) other
    rw [List.mem_singleton.mp hstart]
    exact .refl
  · intro h
    have hlt : ∀ start ∈ [node], start < count := by simpa using hnode
    have hsteps : count < [node].length + count := by simp
    obtain ⟨hstart, hclosed⟩ := closed_closure hedges (List.pairwise_singleton _ node) hlt hsteps
    clear hlt hsteps
    induction h with
    | refl => exact hstart (List.mem_singleton_self node)
    | tail _ hedge ih => exact hclosed _ _ hedge ih

/-! ### The components -/

section Classes

variable (hedges : ∀ edge ∈ edges, edge.1 < count ∧ edge.2 < count) {node other : Nat}

include hedges

theorem mem_reachTable (hnode : node < count) :
    other ∈ row (reachTable count edges) node ↔ Reaches edges node other := by
  have hrow : row (reachTable count edges) node = closure edges count [node] := by
    simp [row, reachTable, List.getElem?_map, List.getElem?_range hnode]
  rw [hrow]
  exact mem_closure_iff (fun edge hedge => (hedges edge hedge).2) hnode

theorem mem_classOf (hnode : node < count) :
    other ∈ classOf (reachTable count edges) count node ↔
      other < count ∧ Reaches edges node other ∧ Reaches edges other node := by
  simp only [classOf, List.mem_filter, List.mem_range, Bool.and_eq_true, List.contains_iff_mem]
  refine and_congr_right fun hother => ?_
  rw [mem_reachTable hedges hnode, mem_reachTable hedges hother]

theorem self_mem_classOf (hnode : node < count) :
    node ∈ classOf (reachTable count edges) count node :=
  (mem_classOf hedges hnode).mpr ⟨hnode, .refl, .refl⟩

/-- The members of a class have the same class. -/
theorem classOf_eq (hnode : node < count)
    (hother : other ∈ classOf (reachTable count edges) count node) :
    classOf (reachTable count edges) count other =
      classOf (reachTable count edges) count node := by
  obtain ⟨hlt, hthere, hback⟩ := (mem_classOf hedges hnode).mp hother
  refine List.filter_congr fun third hthird => ?_
  rw [List.mem_range] at hthird
  rw [Bool.eq_iff_iff, Bool.and_eq_true, Bool.and_eq_true]
  simp only [List.contains_iff_mem, mem_reachTable hedges hlt, mem_reachTable hedges hnode,
    mem_reachTable hedges hthird]
  constructor
  · exact fun h => ⟨hthere.trans h.1, h.2.trans hback⟩
  · exact fun h => ⟨hback.trans h.1, h.2.trans hthere⟩

omit hedges in
theorem mem_stronglyConnected {members : List Nat} : members ∈ stronglyConnected count edges ↔
    ∃ node < count, (classOf (reachTable count edges) count node).head? = some node ∧
      (classOf (reachTable count edges) count node).reverse = members := by
  simp only [stronglyConnected, List.mem_filterMap, List.mem_range, Option.ite_none_right_eq_some,
    Option.some.injEq]

/-- Classes with a common member have the same first member, and are listed once. -/
theorem nodup_flatten_stronglyConnected : (stronglyConnected count edges).flatten.Nodup := by
  refine List.nodup_flatten.mpr ⟨fun members hmembers => ?_, ?_⟩
  · obtain ⟨node, -, -, rfl⟩ := mem_stronglyConnected.mp hmembers
    exact List.nodup_reverse.mpr (List.nodup_range.filter _)
  · refine List.pairwise_filterMap.mpr (List.nodup_range.imp_of_mem ?_)
    intro a b ha hb hne members hmembers members' hmembers' shared hshared hshared'
    simp only [Option.ite_none_right_eq_some, Option.some.injEq, List.mem_range] at *
    obtain ⟨hhead, rfl⟩ := hmembers
    obtain ⟨hhead', rfl⟩ := hmembers'
    rw [List.mem_reverse] at hshared hshared'
    rw [← classOf_eq hedges ha hshared, classOf_eq hedges hb hshared'] at hhead
    exact hne (Option.some.inj (hhead.symm.trans hhead'))

/-- Each node is in its class, which is listed for its first member. -/
theorem mem_flatten_stronglyConnected :
    node ∈ (stronglyConnected count edges).flatten ↔ node < count := by
  rw [List.mem_flatten]
  constructor
  · rintro ⟨members, hmembers, hin⟩
    obtain ⟨first, hfirst, -, rfl⟩ := mem_stronglyConnected.mp hmembers
    exact ((mem_classOf hedges hfirst).mp (List.mem_reverse.mp hin)).1
  · intro hnode
    have hself := self_mem_classOf hedges hnode
    obtain ⟨first, rest, hcons⟩ := List.exists_cons_of_ne_nil (List.ne_nil_of_mem hself)
    have hfirst : first ∈ classOf (reachTable count edges) count node :=
      hcons ▸ List.mem_cons_self ..
    have hlt := ((mem_classOf hedges hnode).mp hfirst).1
    have hsame := classOf_eq hedges hnode hfirst
    have hhead : (classOf (reachTable count edges) count first).head? = some first := by
      rw [hsame, hcons, List.head?_cons]
    exact ⟨_, mem_stronglyConnected.mpr ⟨first, hlt, hhead, rfl⟩,
      List.mem_reverse.mpr (hsame ▸ hself)⟩

end Classes

/-- **The components are found.** -/
theorem findsComponents_stronglyConnected : FindsComponents stronglyConnected := by
  intro count edges hedges
  refine ⟨?_, fun hnil => ?_, ?_⟩
  · refine (List.perm_ext_iff_of_nodup (nodup_flatten_stronglyConnected hedges)
      List.nodup_range).mpr fun node => ?_
    rw [mem_flatten_stronglyConnected hedges, List.mem_range]
  · obtain ⟨node, hnode, -, hempty⟩ := mem_stronglyConnected.mp hnil
    exact List.ne_nil_of_mem (self_mem_classOf hedges hnode) (List.reverse_eq_nil_iff.mp hempty)
  · intro members hmembers node hin other hother
    obtain ⟨first, hfirst, -, rfl⟩ := mem_stronglyConnected.mp hmembers
    rw [List.mem_reverse] at hin ⊢
    have hnode := ((mem_classOf hedges hfirst).mp hin).1
    rw [← classOf_eq hedges hfirst hin, mem_classOf hedges hnode, and_iff_right hother]

end Order

end RpcSchema
