import Mathlib.Data.List.TakeWhile
import RpcSchema.Reference

/-!
# Parts of references

A reference is split at its first number sign.  So its id, if it has one, holds no
number sign, its fragment starts with one, and an id and a fragment put together are
split into the same id and fragment again.

## Main results

* `Reference.hash_notMem_of_split` — ids hold no number sign.
* `Reference.startsHash_fragment` — fragments start with a number sign.
* `Reference.split_append`, `Reference.split_of_startsHash` — an id and a fragment, and
  a fragment alone, are split into what they are put together from.
* `Reference.append_inj` — an id and a fragment are told from what they are put together to.
-/

namespace RpcSchema

namespace Reference

/-- A text starts with a number sign. -/
def StartsHash (text : String) : Prop := ∃ rest, text.toList = '#' :: rest

variable {reference id text : String}

/-- What is dropped up to a number sign starts with one. -/
private theorem eq_hash_of_dropWhile {cs rest : List Char} {c : Char}
    (h : cs.dropWhile (· ≠ '#') = c :: rest) : c = '#' := by
  induction cs with
  | nil => simp at h
  | cons d cs ih =>
    by_cases hd : d = '#'
    · simp only [List.dropWhile_cons, hd, ne_eq, not_true_eq_false, decide_false,
        Bool.false_eq_true, if_false, List.cons.injEq] at h
      exact h.1.symm
    · simp only [List.dropWhile_cons, hd, ne_eq, not_false_eq_true, decide_true, if_true] at h
      exact ih h

/-- The characters before the first number sign hold none. -/
private theorem hash_notMem_takeWhile (cs : List Char) : '#' ∉ cs.takeWhile (· ≠ '#') := by
  intro hmem
  have := List.mem_takeWhile_imp hmem
  simp at this

theorem startsHash_fragment (reference : String) : StartsHash (fragment reference) := by
  unfold fragment split
  dsimp only
  split
  · exact ⟨[], by simp⟩
  · next htake hne =>
    refine ⟨reference.toList.tail, ?_⟩
    have hwhole := List.takeWhile_append_dropWhile (p := (· ≠ '#')) (l := reference.toList)
    rw [htake, List.nil_append] at hwhole
    cases hdrop : reference.toList.dropWhile (· ≠ '#') with
    | nil => exact absurd hdrop hne
    | cons c rest =>
      obtain rfl := eq_hash_of_dropWhile hdrop
      rw [← hwhole, hdrop, List.tail_cons]
  · next hne =>
    cases hdrop : reference.toList.dropWhile (· ≠ '#') with
    | nil => exact absurd hdrop hne
    | cons c rest =>
      obtain rfl := eq_hash_of_dropWhile hdrop
      exact ⟨rest, by simp⟩

theorem hash_notMem_of_split (h : (split reference).1 = some id) : '#' ∉ id.toList := by
  unfold split at h
  dsimp only at h
  split at h
  · next hdrop =>
    obtain rfl := Option.some.inj h
    intro hmem
    have := List.dropWhile_eq_nil_iff.mp hdrop '#' hmem
    simp at this
  · simp at h
  · obtain rfl := Option.some.inj h
    rw [String.toList_ofList]
    exact hash_notMem_takeWhile _

theorem split_of_startsHash (h : StartsHash text) : split text = (none, text) := by
  obtain ⟨rest, h⟩ := h
  simp [split, h]

/-- An id is what stands before the first number sign, its fragment what follows. -/
private theorem takeWhile_append (hid : '#' ∉ id.toList) (h : StartsHash text) :
    (id ++ text).toList.takeWhile (· ≠ '#') = id.toList ∧
      (id ++ text).toList.dropWhile (· ≠ '#') = text.toList := by
  obtain ⟨rest, h⟩ := h
  have hpos : ∀ c ∈ id.toList, decide (c ≠ '#') = true := by
    intro c hc
    simpa using ne_of_mem_of_not_mem hc hid
  constructor
  · rw [String.toList_append, List.takeWhile_append_of_pos hpos, h]
    simp
  · rw [String.toList_append, List.dropWhile_append_of_pos hpos, h]
    simp

theorem split_append (hne : id ≠ "") (hid : '#' ∉ id.toList) (h : StartsHash text) :
    split (id ++ text) = (some id, text) := by
  obtain ⟨htake, hdrop⟩ := takeWhile_append hid h
  obtain ⟨rest, h⟩ := h
  obtain ⟨c, cs, hcs⟩ := List.exists_cons_of_ne_nil (l := id.toList) (by simpa using hne)
  unfold split
  dsimp only
  rw [htake, hdrop, h, hcs]
  dsimp only
  rw [← hcs, ← h, String.ofList_toList, String.ofList_toList]

/-- An id and a fragment are told from what they are put together to. -/
theorem append_inj {id' text' : String} (hid : '#' ∉ id.toList) (h : StartsHash text)
    (hid' : '#' ∉ id'.toList) (h' : StartsHash text') (heq : id ++ text = id' ++ text') :
    id = id' ∧ text = text' := by
  obtain ⟨htake, hdrop⟩ := takeWhile_append hid h
  obtain ⟨htake', hdrop'⟩ := takeWhile_append hid' h'
  rw [heq] at htake hdrop
  exact ⟨String.toList_inj.mp (htake.symm.trans htake'),
    String.toList_inj.mp (hdrop.symm.trans hdrop')⟩

/-- A fragment is its own fragment. -/
theorem fragment_fragment (reference : String) :
    fragment (fragment reference) = fragment reference := by
  change (split (fragment reference)).2 = _
  rw [split_of_startsHash (startsHash_fragment reference)]

theorem name_fragment (reference : String) : name (fragment reference) = name reference := by
  rw [name, fragment_fragment, name]

end Reference

end RpcSchema
