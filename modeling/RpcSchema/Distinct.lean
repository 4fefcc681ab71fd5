/-!
# Lists without repetition

Lists that grow by members they do not hold yet, in the order in which these are
first seen.

## Main definitions

* `appendNew` — append one value.
* `unionOf` — append the values of another list.
* `distinct` — the members of a list, each once.
* `Distinct` — no value equals an earlier one.
-/

namespace RpcSchema

variable {α : Type} [BEq α]

/-- Append a value unless it is a member. -/
def appendNew (values : List α) (value : α) : List α :=
  if values.contains value then values else values ++ [value]

/-- A list followed by the new members of another. -/
def unionOf (left right : List α) : List α := right.foldl appendNew left

/-- The members of a list, each at its first place. -/
def distinct (values : List α) : List α := unionOf [] values

@[simp] theorem unionOf_nil (left : List α) : unionOf left [] = left := rfl

@[simp] theorem unionOf_cons (left : List α) (value : α) (right : List α) :
    unionOf left (value :: right) = unionOf (appendNew left value) right := rfl

/-- The members of a union come from one of the lists, even when equality does not
tell all values apart. -/
theorem mem_of_mem_unionOf {left right : List α} {x : α} (h : x ∈ unionOf left right) :
    x ∈ left ∨ x ∈ right := by
  induction right generalizing left with
  | nil => exact Or.inl h
  | cons value right ih =>
    rcases ih h with h | h
    · unfold appendNew at h
      split at h
      · exact Or.inl h
      · rcases List.mem_append.mp h with h | h
        · exact Or.inl h
        · exact Or.inr (List.mem_cons.mpr (Or.inl (List.mem_singleton.mp h)))
    · exact Or.inr (List.mem_cons_of_mem _ h)

theorem mem_of_mem_distinct {values : List α} {x : α} (h : x ∈ distinct values) : x ∈ values :=
  (mem_of_mem_unionOf h).elim (fun hnil => absurd hnil List.not_mem_nil) id

/-- No value equals an earlier one. -/
def Distinct (values : List α) : Prop := values.Pairwise fun x y => (y == x) = false

theorem Distinct.unionOf {left : List α} (h : Distinct left) (right : List α) :
    Distinct (unionOf left right) := by
  induction right generalizing left with
  | nil => exact h
  | cons value right ih =>
    rw [unionOf_cons]
    refine ih ?_
    unfold appendNew
    split
    · exact h
    · next hnew =>
      refine List.pairwise_append.mpr ⟨h, List.pairwise_singleton _ _, ?_⟩
      intro x hx y hy
      rw [List.mem_singleton.mp hy]
      refine Bool.eq_false_iff.mpr fun heq => hnew ?_
      exact List.contains_iff_exists_mem_beq.mpr ⟨x, hx, heq⟩

/-- The members of a list, each once, are distinct. -/
theorem distinct_distinct (values : List α) : Distinct (distinct values) :=
  Distinct.unionOf List.Pairwise.nil values

theorem unionOf_eq_append {left right : List α} (h : Distinct (left ++ right)) :
    unionOf left right = left ++ right := by
  induction right generalizing left with
  | nil => rw [unionOf_nil, List.append_nil]
  | cons value right ih =>
    have hnew : ¬left.contains value = true := by
      intro hmem
      obtain ⟨x, hx, heq⟩ := List.contains_iff_exists_mem_beq.mp hmem
      have hne := (List.pairwise_append.mp h).2.2 x hx value (List.mem_cons_self ..)
      rw [heq] at hne
      cases hne
    have hrest : Distinct ((left ++ [value]) ++ right) := by
      rwa [List.append_assoc, List.singleton_append]
    rw [unionOf_cons, appendNew, if_neg hnew, ih hrest, List.append_assoc, List.singleton_append]

/-- Distinct values are all kept. -/
theorem distinct_of_distinct {values : List α} (h : Distinct values) : distinct values = values :=
  unionOf_eq_append h

@[simp] theorem mem_appendNew [LawfulBEq α] {values : List α} {value x : α} :
    x ∈ appendNew values value ↔ x ∈ values ∨ x = value := by
  unfold appendNew
  split
  · next h =>
    have hmem : value ∈ values := by simpa using h
    constructor
    · exact Or.inl
    · rintro (h | rfl)
      · exact h
      · exact hmem
  · simp

@[simp] theorem mem_unionOf [LawfulBEq α] {left right : List α} {x : α} :
    x ∈ unionOf left right ↔ x ∈ left ∨ x ∈ right := by
  induction right generalizing left with
  | nil => simp
  | cons value right ih => simp [ih, or_assoc]

end RpcSchema
