import Mathlib.Data.Finset.Card
import Mathlib.Data.List.Perm.Subperm
import RpcSchema.Declaration.Order

/-!
# Scheduling components

Components are declared in rounds: one that is ready is declared, and its successors wait for
one component less.  What is known after each round does not depend on which of the ready
components was preferred: how many undeclared components each one waits for, that exactly those
that wait for none are ready, and that whatever was declared stands behind what it waited for.

Edges lead upwards in some rank, so among the components that are left there is always one that
waits for none.  Hence the rounds end with all components declared.

## Main definitions

* `Order.pending` — how many undeclared components a component waits for.
* `Order.Progress` — what is known after some rounds.

## Main results

* `Order.sortBy_perm`, `Order.pairwise_sortBy` — sorting.
* `Order.Progress.declare` — one round.
* `Order.Progress.schedule` — all rounds.
-/

namespace RpcSchema

namespace Order

/-! ### Sorting -/

section Sorting

variable {α : Type} {precedes : α → α → Bool}

theorem insertBy_perm (precedes : α → α → Bool) (value : α) (values : List α) :
    (insertBy precedes value values).Perm (value :: values) := by
  induction values with
  | nil => exact .refl _
  | cons first rest ih =>
    rw [insertBy]
    split
    · exact .refl _
    · exact (ih.cons first).trans (.swap value first rest)

theorem mem_insertBy {value x : α} {values : List α} :
    x ∈ insertBy precedes value values ↔ x = value ∨ x ∈ values := by
  rw [(insertBy_perm precedes value values).mem_iff, List.mem_cons]

/-- Sorting drops and adds nothing. -/
theorem sortBy_perm (precedes : α → α → Bool) (values : List α) :
    (sortBy precedes values).Perm values := by
  have hsorted : ∀ sorted : List α,
      (values.foldl (fun sorted value => insertBy precedes value sorted) sorted).Perm
        (sorted ++ values) := by
    induction values with
    | nil => intro sorted; simp
    | cons value rest ih =>
      intro sorted
      have hfirst := (insertBy_perm precedes value sorted).append_right rest
      exact (ih _).trans (hfirst.trans List.perm_middle.symm)
  exact hsorted []

variable {r : α → α → Prop} (hbefore : ∀ x y, precedes x y = true → r x y)
  (hafter : ∀ x y, precedes x y = false → r y x) (htrans : ∀ x y z, r x y → r y z → r x z)

include hbefore hafter htrans

theorem pairwise_insertBy (value : α) {values : List α} (h : values.Pairwise r) :
    (insertBy precedes value values).Pairwise r := by
  induction values with
  | nil => exact List.pairwise_singleton _ _
  | cons first rest ih =>
    obtain ⟨hfirst, hrest⟩ := List.pairwise_cons.mp h
    rw [insertBy]
    split
    · next hprecedes =>
      have hvalue := hbefore value first hprecedes
      refine List.pairwise_cons.mpr ⟨fun y hy => ?_, h⟩
      rcases List.mem_cons.mp hy with rfl | hy
      · exact hvalue
      · exact htrans value first y hvalue (hfirst y hy)
    · next hprecedes =>
      refine List.pairwise_cons.mpr ⟨fun y hy => ?_, ih hrest⟩
      rcases mem_insertBy.mp hy with rfl | hy
      · exact hafter y first (Bool.eq_false_iff.mpr hprecedes)
      · exact hfirst y hy

/-- What is sorted is in order. -/
theorem pairwise_sortBy (values : List α) : (sortBy precedes values).Pairwise r := by
  have hsorted : ∀ sorted : List α, sorted.Pairwise r →
      (values.foldl (fun sorted value => insertBy precedes value sorted) sorted).Pairwise r := by
    induction values with
    | nil => exact fun _ h => h
    | cons value rest ih =>
      exact fun sorted h => ih _ (pairwise_insertBy hbefore hafter htrans value h)
  exact hsorted [] .nil

end Sorting

variable {precedes : Nat → Nat → Bool} {successors : List (List Nat)} {count component : Nat}
  {done : List Nat} {agenda : Agenda} {rank : Nat → Nat}

/-! ### Releasing successors -/

theorem Agenda.length_release (precedes : Nat → Nat → Bool) (agenda : Agenda) (component : Nat) :
    (agenda.release precedes component).waits.length = agenda.waits.length :=
  List.length_set

/-- Only the released component waits for less. -/
theorem Agenda.wait_release (h : component < agenda.waits.length) (other : Nat) :
    (agenda.release precedes component).wait other =
      if other = component then agenda.wait other - 1 else agenda.wait other := by
  have hwaits : (agenda.release precedes component).waits =
      agenda.waits.set component (agenda.wait component - 1) := rfl
  rw [wait, hwaits]
  by_cases heq : other = component
  · rw [heq, List.getElem?_set_self h, Option.getD_some, if_pos rfl]
  · rw [List.getElem?_set_ne (Ne.symm heq), if_neg heq]
    rfl

theorem Agenda.ready_release (agenda : Agenda) (component : Nat) :
    (agenda.release precedes component).ready.Perm
      (agenda.ready ++ if agenda.wait component - 1 = 0 then [component] else []) := by
  rw [release]
  split
  · exact (insertBy_perm precedes component agenda.ready).trans
      (List.perm_append_singleton component agenda.ready).symm
  · rw [List.append_nil]

/-- What releasing different components does: each one waits for one component less, and those
that waited for one only are ready. -/
theorem Agenda.foldl_release (precedes : Nat → Nat → Bool) (agenda : Agenda) {released : List Nat}
    (hnodup : released.Nodup) (hlt : ∀ other ∈ released, other < agenda.waits.length) :
    let after := released.foldl (release precedes) agenda
    after.waits.length = agenda.waits.length ∧
      (∀ other, after.wait other =
        if other ∈ released then agenda.wait other - 1 else agenda.wait other) ∧
      after.ready.Perm
        (agenda.ready ++ released.filter fun other => agenda.wait other - 1 = 0) := by
  -- What is released later finds the agenda that the first one left.
  induction released generalizing agenda with
  | nil => simp
  | cons first rest ih =>
    obtain ⟨hnew, hnodup⟩ := List.nodup_cons.mp hnodup
    obtain ⟨hfirst, hrest⟩ := List.forall_mem_cons.mp hlt
    have hlength := agenda.length_release precedes first
    obtain ⟨hlength', hwait, hready⟩ := ih (agenda.release precedes first) hnodup
      (by rwa [hlength])
    refine ⟨hlength'.trans hlength, fun other => ?_, ?_⟩
    · rw [List.foldl_cons, hwait, wait_release hfirst]
      by_cases heq : other = first
      · subst heq
        simp only [hnew, if_true, if_false, List.mem_cons_self]
      · simp only [List.mem_cons, heq, if_false, false_or]
    · -- The rest waits as before, since the first one is not among it.
      have hsame : (rest.filter fun other => (agenda.release precedes first).wait other - 1 = 0) =
          rest.filter fun other => agenda.wait other - 1 = 0 := by
        refine List.filter_congr fun other hother => ?_
        have hne : other ≠ first := fun heq => hnew (heq ▸ hother)
        rw [wait_release hfirst, if_neg hne]
      rw [hsame] at hready
      refine hready.trans (((agenda.ready_release first).append_right _).trans ?_)
      rw [List.append_assoc]
      by_cases hzero : agenda.wait first - 1 = 0
      · simp only [hzero, List.filter_cons, decide_true, if_true, List.singleton_append]
        exact .refl _
      · simp only [hzero, List.filter_cons, decide_false, if_false, List.nil_append]
        exact .refl _

/-! ### Rounds -/

/-- How many of the components below `count` that are not done lead to a component. -/
def pending (successors : List (List Nat)) (count : Nat) (done : List Nat) (component : Nat) :
    Nat :=
  ((Finset.range count).filter fun other => other ∉ done ∧ component ∈ row successors other).card

theorem pending_eq_zero_iff : pending successors count done component = 0 ↔
    ∀ other < count, component ∈ row successors other → other ∈ done := by
  rw [pending, Finset.card_eq_zero, Finset.filter_eq_empty_iff]
  constructor
  · intro h other hlt hmem
    by_contra hnot
    exact h (Finset.mem_range.mpr hlt) ⟨hnot, hmem⟩
  · intro h other hlt hboth
    exact hboth.1 (h other (Finset.mem_range.mp hlt) hboth.2)

/-- One more component is done: its successors wait for one less. -/
theorem pending_append_singleton {finished : Nat} (hlt : finished < count)
    (hnew : finished ∉ done) :
    pending successors count done component =
      pending successors count (done ++ [finished]) component +
        if component ∈ row successors finished then 1 else 0 := by
  have herase : ((Finset.range count).filter fun other =>
      other ∉ done ++ [finished] ∧ component ∈ row successors other) =
        ((Finset.range count).filter fun other =>
          other ∉ done ∧ component ∈ row successors other).erase finished := by
    ext other
    simp only [Finset.mem_filter, Finset.mem_erase, List.mem_append, List.mem_singleton]
    tauto
  rw [pending, pending, herase]
  split
  · next hmem =>
    have hfinished : finished ∈ (Finset.range count).filter fun other =>
        other ∉ done ∧ component ∈ row successors other :=
      Finset.mem_filter.mpr ⟨Finset.mem_range.mpr hlt, hnew, hmem⟩
    exact (Finset.card_erase_add_one hfinished).symm
  · next hnot =>
    rw [Finset.erase_eq_of_notMem fun hmem => hnot (Finset.mem_filter.mp hmem).2.2, Nat.add_zero]

/-- A graph of components whose edges lead upwards in a rank. -/
structure Ranked (successors : List (List Nat)) (count : Nat) (rank : Nat → Nat) : Prop where
  nodup : ∀ component, (row successors component).Nodup
  bounded : ∀ component, ∀ next ∈ row successors component, next < count
  rising : ∀ component, ∀ next ∈ row successors component, rank component < rank next

/-- What is known after some rounds. -/
structure Progress (successors : List (List Nat)) (count : Nat) (done : List Nat)
    (agenda : Agenda) : Prop where
  nodup : (done ++ agenda.ready).Nodup
  bounded : ∀ component ∈ done ++ agenda.ready, component < count
  length : agenda.waits.length = count
  wait : ∀ component < count, agenda.wait component = pending successors count done component
  /-- Those are ready that wait for nothing. -/
  ready : ∀ component < count, component ∉ done →
    (component ∈ agenda.ready ↔ pending successors count done component = 0)
  /-- Each one stands behind what it waited for. -/
  ordered : ∀ component ∈ done, ∀ earlier < count, component ∈ row successors earlier →
    [earlier, component].Sublist done

/-- A ready component is not done. -/
theorem Progress.not_mem_done (h : Progress successors count done agenda)
    (hready : component ∈ agenda.ready) : component ∉ done := fun hdone =>
  (List.nodup_append.mp h.nodup).2.2 component hdone component hready rfl

/-- A successor of a ready component still waits for it, so it is neither done nor ready. -/
theorem Progress.not_mem_of_next (h : Progress successors count done agenda)
    (hranked : Ranked successors count rank) (hready : component ∈ agenda.ready) {next : Nat}
    (hnext : next ∈ row successors component) : next ∉ done ++ agenda.ready := by
  intro hin
  have hlt : component < count := h.bounded component (List.mem_append_right _ hready)
  have hundone : component ∉ done := h.not_mem_done hready
  rcases List.mem_append.mp hin with hdone | hin
  · have hbefore := h.ordered next hdone component hlt hnext
    exact hundone (hbefore.subset (List.mem_cons_self ..))
  · have hbound := hranked.bounded component next hnext
    have hzero := (h.ready next hbound (h.not_mem_done hin)).mp hin
    exact hundone (pending_eq_zero_iff.mp hzero component hlt hnext)

/-- **One round**: the first of the ready components is declared and its successors are
released. -/
theorem Progress.declare {ready : List Nat} {waits : List Nat}
    (h : Progress successors count done ⟨component :: ready, waits⟩)
    (hranked : Ranked successors count rank) (precedes : Nat → Nat → Bool) :
    Progress successors count (done ++ [component])
      ((row successors component).foldl (Agenda.release precedes) ⟨ready, waits⟩) := by
  have hfirst : component ∈ component :: ready := List.mem_cons_self ..
  have hlt : component < count := h.bounded component (List.mem_append_right _ hfirst)
  have hundone : component ∉ done := h.not_mem_done hfirst
  -- The successors wait for one component less, and the others for as many as before.
  have hpending : ∀ other, pending successors count done other =
      pending successors count (done ++ [component]) other +
        if other ∈ row successors component then 1 else 0 :=
    fun _ => pending_append_singleton hlt hundone
  have hbefore : ∀ other < count,
      Agenda.wait ⟨ready, waits⟩ other = pending successors count done other := h.wait
  obtain ⟨hlength, hwait, hperm⟩ := Agenda.foldl_release precedes ⟨ready, waits⟩
    (hranked.nodup component)
    fun next hnext => (hranked.bounded component next hnext).trans_eq h.length.symm
  have hmemReady := fun other => hperm.mem_iff (a := other)
  simp only [List.mem_append, List.mem_filter, decide_eq_true_iff] at hmemReady
  have hnewly : ((done ++ component :: ready) ++ (row successors component).filter fun other =>
      Agenda.wait ⟨ready, waits⟩ other - 1 = 0).Nodup := by
    refine List.nodup_append.mpr ⟨h.nodup, (hranked.nodup component).filter _, ?_⟩
    rintro next hin _ hnext rfl
    exact h.not_mem_of_next hranked hfirst (List.mem_filter.mp hnext).1 hin
  refine ⟨?_, ?_, hlength.trans h.length, fun other hother => ?_, fun other hother hnot => ?_, ?_⟩
  · refine (List.Perm.nodup_iff ((hperm.append_left _).trans ?_)).mpr hnewly
    simp
  · intro other hother
    rcases List.mem_append.mp hother with hold | hnew
    · exact h.bounded other (by simp at hold ⊢; tauto)
    · rcases (hmemReady other).mp hnew with hold | ⟨hnext, -⟩
      · exact h.bounded other (by simp [hold])
      · exact hranked.bounded component other hnext
  · rw [hwait, hbefore other hother, hpending other]
    by_cases hnext : other ∈ row successors component
    · rw [if_pos hnext, if_pos hnext, Nat.add_sub_cancel]
    · rw [if_neg hnext, if_neg hnext, Nat.add_zero]
  · have hne : other ≠ component := fun heq => hnot (by simp [heq])
    have hundone' : other ∉ done := fun hdone => hnot (by simp [hdone])
    have hready' := h.ready other hother hundone'
    rw [List.mem_cons, or_iff_right hne] at hready'
    rw [hmemReady, hbefore other hother, hready', hpending other]
    by_cases hnext : other ∈ row successors component
    · simp only [hnext, if_true, true_and]
      omega
    · simp only [hnext, if_false, false_and, or_false, Nat.add_zero]
  · intro other hother earlier hearlier hedge
    rcases List.mem_append.mp hother with hdone | hlast
    · exact (h.ordered other hdone earlier hearlier hedge).trans (List.sublist_append_left _ _)
    · obtain rfl := List.mem_singleton.mp hlast
      have hzero := (h.ready other hlt hundone).mp hfirst
      have hdone := pending_eq_zero_iff.mp hzero earlier hearlier hedge
      exact (List.singleton_sublist.mpr hdone).append (.refl [other])

/-- When nothing is ready, nothing is left: by induction on the rank, what a component waits
for is done. -/
theorem Progress.all_done (h : Progress successors count done agenda)
    (hranked : Ranked successors count rank) (hready : agenda.ready = []) :
    ∀ component < count, component ∈ done := by
  intro component
  induction hrank : rank component using Nat.strong_induction_on generalizing component with
  | h height ih =>
    intro hlt
    by_contra hundone
    have hzero : pending successors count done component = 0 := by
      refine pending_eq_zero_iff.mpr fun other hother hedge => ?_
      have hlower : rank other < height := hrank ▸ hranked.rising other component hedge
      exact ih (rank other) hlower other rfl hother
    have hin := (h.ready component hlt hundone).mpr hzero
    rw [hready] at hin
    exact absurd hin List.not_mem_nil

/-- When all components are done, each one was declared once, behind those that lead to it. -/
theorem Progress.finish (h : Progress successors count done agenda)
    (hranked : Ranked successors count rank) (hall : ∀ component < count, component ∈ done) :
    done.Perm (List.range count) ∧ ∀ earlier < count, ∀ later ∈ row successors earlier,
      [earlier, later].Sublist done := by
  have hnodup := (List.nodup_append.mp h.nodup).1
  refine ⟨?_, fun earlier hearlier later hlater => ?_⟩
  · refine (List.perm_ext_iff_of_nodup hnodup List.nodup_range).mpr fun component => ?_
    rw [List.mem_range]
    exact ⟨fun hdone => h.bounded component (List.mem_append_left _ hdone), hall component⟩
  · have hdone := hall later (hranked.bounded earlier later hlater)
    exact h.ordered later hdone earlier hearlier hlater

/-- **All rounds**: in the end each component is declared once, behind those that lead to it. -/
theorem Progress.schedule (h : Progress successors count done agenda)
    (hranked : Ranked successors count rank) (precedes : Nat → Nat → Bool) {rounds : Nat}
    (hrounds : count ≤ done.length + rounds) :
    let scheduled := done ++ Order.schedule precedes successors rounds agenda
    scheduled.Perm (List.range count) ∧ ∀ earlier < count, ∀ later ∈ row successors earlier,
      [earlier, later].Sublist scheduled := by
  induction rounds generalizing done agenda with
  | zero =>
    -- As many are done as there are.
    have hnodup := (List.nodup_append.mp h.nodup).1
    have hperm : done.Perm (List.range count) := by
      refine (hnodup.subperm fun component hdone => ?_).perm_of_length_le (by simpa using hrounds)
      exact List.mem_range.mpr (h.bounded component (List.mem_append_left _ hdone))
    rw [Order.schedule, List.append_nil]
    exact h.finish hranked fun component hlt => hperm.mem_iff.mpr (List.mem_range.mpr hlt)
  | succ rounds ih =>
    obtain ⟨ready, waits⟩ := agenda
    cases ready with
    | nil =>
      rw [Order.schedule, List.append_nil]
      exact h.finish hranked (h.all_done hranked rfl)
    | cons component others =>
      have hnext := ih (h.declare hranked precedes)
        (by rw [List.length_append, List.length_singleton]; omega)
      rwa [List.append_assoc, List.singleton_append] at hnext

end Order

end RpcSchema
