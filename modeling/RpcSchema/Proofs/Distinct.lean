import RpcSchema.Distinct

/-!
# What is in a list without repetition

A list that grows by new members keeps what it has in front, and every value that was to be
appended is in it in the end, or one that it equals.  Where equality tells all values apart, what is
appended is the list of the new values, each at its first place.

## Main results

* `unionOf_eq_append_added` — a union in terms of what it adds.
* `unionOf_eq_append_filter` — the new members are those that the list does not have.
* `unionOf_eq_append_eraseDups` — the same when what is appended repeats itself.
* `exists_mem_distinct` — each member is left, or one that it equals.
* `distinct_append` — the members of two lists, each once.
-/

namespace RpcSchema

section Equality

variable {α : Type} [BEq α]

/-- A union in terms of what it adds. -/
theorem unionOf_eq_append_added (left right : List α) :
    ∃ added, unionOf left right = left ++ added ∧ added.Sublist right ∧ Distinct added ∧
      (∀ value ∈ added, left.contains value = false) ∧
      ∀ value ∈ right, (value == value) = true → (left ++ added).contains value = true := by
  induction right generalizing left with
  | nil => exact ⟨[], by simp [unionOf], .slnil, .nil, by simp, by simp⟩
  | cons value rest ih =>
    rw [unionOf_cons]
    by_cases hold : left.contains value = true
    · rw [appendNew, if_pos hold]
      obtain ⟨added, heq, hsub, hdistinct, hnew, hall⟩ := ih left
      refine ⟨added, heq, hsub.cons _, hdistinct, hnew,
        List.forall_mem_cons.mpr ⟨fun _ => ?_, hall⟩⟩
      obtain ⟨old, hmem, hbeq⟩ := List.contains_iff_exists_mem_beq.mp hold
      exact List.contains_iff_exists_mem_beq.mpr ⟨old, List.mem_append_left _ hmem, hbeq⟩
    · rw [appendNew, if_neg hold]
      obtain ⟨added, heq, hsub, hdistinct, hnew, hall⟩ := ih (left ++ [value])
      refine ⟨value :: added, by rw [heq, List.append_assoc]; rfl, hsub.cons_cons _, ?_, ?_, ?_⟩
      · refine List.pairwise_cons.mpr ⟨fun other hother => ?_, hdistinct⟩
        have := hnew other hother
        rw [Bool.eq_false_iff, ne_eq, List.contains_iff_exists_mem_beq] at this
        exact Bool.eq_false_iff.mpr fun hbeq => this ⟨value, by simp, hbeq⟩
      · refine List.forall_mem_cons.mpr ⟨Bool.eq_false_iff.mpr hold, fun other hother => ?_⟩
        have := hnew other hother
        rw [Bool.eq_false_iff, ne_eq, List.contains_iff_exists_mem_beq] at this ⊢
        rintro ⟨old, hmem, hbeq⟩
        exact this ⟨old, List.mem_append_left _ hmem, hbeq⟩
      · have hassoc : left ++ value :: added = left ++ [value] ++ added := by
          rw [List.append_assoc]
          rfl
        rw [hassoc]
        refine List.forall_mem_cons.mpr ⟨fun hbeq => ?_, hall⟩
        exact List.contains_iff_exists_mem_beq.mpr ⟨value, by simp, hbeq⟩

/-- **The members of two lists**, each once. -/
theorem distinct_append (xs ys : List α) : distinct (xs ++ ys) = unionOf (distinct xs) ys := by
  rw [distinct, unionOf, List.foldl_append]
  rfl

/-- **Each member of a list is left**, or one that it equals. -/
theorem exists_mem_distinct {values : List α} {x : α} (h : x ∈ values) (hself : (x == x) = true) :
    ∃ y ∈ distinct values, (x == y) = true := by
  obtain ⟨added, heq, -, -, -, hall⟩ := unionOf_eq_append_added [] values
  have hcontains := hall x h hself
  rw [← heq] at hcontains
  exact List.contains_iff_exists_mem_beq.mp hcontains

/-- Where there are values, one is left. -/
theorem distinct_ne_nil {values : List α} (h : values ≠ []) : distinct values ≠ [] := by
  cases values with
  | nil => exact absurd rfl h
  | cons value rest =>
    obtain ⟨added, heq, -⟩ := unionOf_eq_append_added [value] rest
    have hfirst : distinct (value :: rest) = [value] ++ added := heq
    rw [hfirst]
    exact List.cons_ne_nil value added

end Equality

/-! ### Equality that tells all values apart -/

section Lawful

variable {α : Type} [BEq α] [LawfulBEq α] {xs ys : List α}

/-- What a list has already adds nothing to it. -/
theorem unionOf_eq_left (h : ys ⊆ xs) : unionOf xs ys = xs := by
  induction ys with
  | nil => rfl
  | cons y ys ih =>
    obtain ⟨hy, hys⟩ := List.cons_subset.mp h
    rw [unionOf_cons, appendNew, if_pos (List.contains_iff_mem.mpr hy), ih hys]

/-- The new members of a list come behind the old ones, if they are distinct. -/
theorem unionOf_eq_append_filter (hys : ys.Nodup) :
    unionOf xs ys = xs ++ ys.filter fun y => !xs.contains y := by
  induction ys generalizing xs with
  | nil => rw [unionOf_nil, List.filter_nil, List.append_nil]
  | cons y ys ih =>
    obtain ⟨hy, hys⟩ := List.nodup_cons.mp hys
    rw [unionOf_cons, appendNew]
    by_cases hmem : xs.contains y = true
    · rw [if_pos hmem, ih hys, List.filter_cons_of_neg (by simpa using hmem)]
    · rw [if_neg hmem, ih hys, List.filter_cons_of_pos (by simpa using hmem), List.append_assoc,
        List.singleton_append]
      congr 2
      apply List.filter_congr
      intro other hother
      have hne : other ≠ y := fun heq => hy (heq ▸ hother)
      simp [hne]

/-- The new members of a list come behind the old ones, each at its first place. -/
theorem unionOf_eq_append_eraseDups :
    unionOf xs ys = xs ++ (ys.filter fun y => !xs.contains y).eraseDups := by
  induction ys generalizing xs with
  | nil => rw [unionOf_nil, List.filter_nil, List.eraseDups_nil, List.append_nil]
  | cons y ys ih =>
    rw [unionOf_cons, appendNew]
    by_cases hmem : xs.contains y = true
    · rw [if_pos hmem, ih, List.filter_cons_of_neg (by simpa using hmem)]
    · rw [if_neg hmem, ih, List.filter_cons_of_pos (by simpa using hmem), List.eraseDups_cons,
        List.filter_filter, List.append_assoc, List.singleton_append]
      congr 3
      apply List.filter_congr
      intro other _
      rw [List.contains_append, Bool.not_or, Bool.and_comm, List.contains_cons]
      simp

theorem nodup_unionOf (h : xs.Nodup) : (unionOf xs ys).Nodup := by
  have hdistinct : Distinct xs := h.imp fun hne => by simpa using Ne.symm hne
  refine (hdistinct.unionOf ys).imp fun hne heq => ?_
  rw [heq, beq_self_eq_true] at hne
  cases hne

theorem distinct_append_of_nodup (hys : ys.Nodup) :
    distinct (xs ++ ys) = distinct xs ++ ys.filter fun y => !(distinct xs).contains y := by
  rw [distinct_append, unionOf_eq_append_filter hys]

theorem distinct_of_nodup (h : xs.Nodup) : distinct xs = xs := by
  rw [distinct, unionOf_eq_append_filter h]
  simp

theorem mem_distinct {x : α} : x ∈ distinct xs ↔ x ∈ xs := by
  rw [distinct, mem_unionOf]
  simp

end Lawful

end RpcSchema
