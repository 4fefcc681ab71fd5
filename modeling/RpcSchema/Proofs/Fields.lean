import Mathlib.Data.List.Perm.Basic
import Mathlib.Data.List.Perm.Subperm
import RpcSchema.Fields

/-!
# Ordered fields with distinct names

The operations on fields seen through their entries, and through look-up when the
names are distinct.  Then an entry is found just when it is there, so the order of the
entries makes no difference to look-up; removal that fills the gap with the last entry
is removal up to order.

## Main results

* `Fields.get?_eq_some_iff` — with distinct names, look-up finds the entries.
* `Fields.swapErase_perm` — the two removals differ in order only.
* `Fields.get?_swapErase_self`, `Fields.get?_swapErase_of_ne` — look-up after removal.
* `Fields.foldl_swapErase_perm` — what is left when several names are removed.
* `Fields.nodup_keys_set`, `Fields.nodup_keys_swapErase` — names stay distinct.
* `Fields.keys_foldl_set` — the names when entries are given to those that are there.
* `Fields.get?_foldl_add`, `Fields.get?_mapValues` — look-up after adding and mapping.
* `Fields.Alike` — the same names with related values, in any order.
-/

namespace RpcSchema

namespace Fields

universe u v

variable {α : Type u} {fields fields' : Fields α} {key name : String} {value : α}

/-! ### Entries -/

theorem mem_keys : key ∈ keys fields ↔ ∃ value, (key, value) ∈ fields := by
  simp [keys]

theorem mem_keys_of_mem (h : (key, value) ∈ fields) : key ∈ keys fields :=
  mem_keys.mpr ⟨value, h⟩

theorem get?_eq_none_iff : get? fields key = none ↔ key ∉ keys fields := by
  induction fields with
  | nil => simp
  | cons entry rest ih =>
    obtain ⟨other, old⟩ := entry
    by_cases h : other = key
    · simp [h]
    · simp [h, ih, Ne.symm h]

theorem contains_iff : contains fields key = true ↔ key ∈ keys fields := by
  rw [contains, Option.isSome_iff_ne_none, ne_eq, get?_eq_none_iff, not_not]

theorem mem_replaceEntry {entry other : String × α}
    (h : other ∈ replaceEntry fields key entry) : other = entry ∨ other ∈ fields := by
  induction fields with
  | nil => simp [replaceEntry] at h
  | cons first rest ih =>
    obtain ⟨name, old⟩ := first
    by_cases hname : name = key
    · simp only [replaceEntry, hname, if_true, List.mem_cons] at h ⊢
      exact h.imp_right Or.inr
    · simp only [replaceEntry, hname, if_false, List.mem_cons] at h ⊢
      rcases h with h | h
      · exact Or.inr (Or.inl h)
      · exact (ih h).imp_right Or.inr

/-- Removal brings in no entry. -/
theorem mem_of_mem_swapErase {entry : String × α} (h : entry ∈ swapErase fields key) :
    entry ∈ fields := by
  unfold swapErase at h
  cases hlast : fields.getLast? with
  | none => simp [hlast] at h
  | some last =>
    simp only [hlast] at h
    split at h
    · exact (List.dropLast_sublist _).mem h
    · split at h
      · rcases mem_replaceEntry h with rfl | h
        · exact List.mem_of_getLast? hlast
        · exact (List.dropLast_sublist _).mem h
      · exact h

theorem keys_set_of_mem (h : key ∈ keys fields) (value : α) :
    keys (set fields key value) = keys fields := by
  induction fields with
  | nil => simp at h
  | cons entry rest ih =>
    obtain ⟨name, old⟩ := entry
    by_cases hname : name = key
    · simp [set, hname]
    · have hrest : key ∈ keys rest := by
        simpa [Ne.symm hname] using h
      simp [set, hname, ih hrest]

theorem set_of_notMem (h : key ∉ keys fields) (value : α) :
    set fields key value = fields ++ [(key, value)] := by
  induction fields with
  | nil => rfl
  | cons entry rest ih =>
    obtain ⟨name, old⟩ := entry
    simp only [keys_cons, List.mem_cons, not_or] at h
    simp [set, Ne.symm h.1, ih h.2]

/-- Giving a name a value keeps names distinct. -/
theorem nodup_keys_set (h : (keys fields).Nodup) (key : String) (value : α) :
    (keys (set fields key value)).Nodup := by
  by_cases hkey : key ∈ keys fields
  · rwa [keys_set_of_mem hkey]
  · rw [set_of_notMem hkey, keys, ((List.perm_append_singleton _ _).map _).nodup_iff]
    exact List.nodup_cons.mpr ⟨hkey, h⟩

theorem nodup_keys_foldl_set {fields : Fields α} (h : (keys fields).Nodup) (added : Fields α) :
    (keys (added.foldl (fun merged entry => set merged entry.1 entry.2) fields)).Nodup := by
  induction added generalizing fields with
  | nil => exact h
  | cons entry rest ih => exact ih (nodup_keys_set h entry.1 entry.2)

/-! ### Look-up with distinct names -/

theorem get?_of_mem (h : (keys fields).Nodup) (hmem : (key, value) ∈ fields) :
    get? fields key = some value := by
  induction fields with
  | nil => simp at hmem
  | cons entry rest ih =>
    obtain ⟨other, old⟩ := entry
    obtain ⟨hother, hrest⟩ := List.nodup_cons.mp h
    rcases List.mem_cons.mp hmem with heq | hmem
    · obtain ⟨rfl, rfl⟩ := Prod.mk.inj heq
      simp
    · have hne : other ≠ key := fun heq => hother (heq ▸ mem_keys_of_mem hmem)
      rw [get?_cons, if_neg hne, ih hrest hmem]

/-- **With distinct names, look-up finds the entries.** -/
theorem get?_eq_some_iff (h : (keys fields).Nodup) :
    get? fields key = some value ↔ (key, value) ∈ fields :=
  ⟨mem_of_get?, get?_of_mem h⟩

/-- Entries in another order are looked up alike. -/
theorem get?_of_perm (hperm : fields.Perm fields') (h : (keys fields).Nodup) (key : String) :
    get? fields key = get? fields' key := by
  have h' : (keys fields').Nodup := (hperm.map Prod.fst).nodup_iff.mp h
  ext value
  rw [get?_eq_some_iff h, get?_eq_some_iff h', hperm.mem_iff]

theorem erase_of_notMem (h : key ∉ keys fields) : erase fields key = fields := by
  induction fields with
  | nil => rfl
  | cons entry rest ih =>
    obtain ⟨name, old⟩ := entry
    simp only [keys_cons, List.mem_cons, not_or] at h
    simp [erase, Ne.symm h.1, ih h.2]

theorem replaceEntry_perm (h : key ∈ keys fields) (entry : String × α) :
    (replaceEntry fields key entry).Perm (entry :: erase fields key) := by
  induction fields with
  | nil => simp at h
  | cons first rest ih =>
    obtain ⟨name, old⟩ := first
    by_cases hname : name = key
    · simp [replaceEntry, erase, hname]
    · have hrest : key ∈ keys rest := by
        simpa [Ne.symm hname] using h
      simp only [replaceEntry, erase, hname, if_false]
      exact ((ih hrest).cons _).trans (List.Perm.swap ..)

theorem erase_append_of_mem (h : key ∈ keys fields) (rest : Fields α) :
    erase (fields ++ rest) key = erase fields key ++ rest := by
  induction fields with
  | nil => simp at h
  | cons first more ih =>
    obtain ⟨name, old⟩ := first
    by_cases hname : name = key
    · simp [erase, hname]
    · have hmore : key ∈ keys more := by
        simpa [Ne.symm hname] using h
      simp [erase, hname, ih hmore]

theorem erase_append_of_notMem (h : key ∉ keys fields) (rest : Fields α) :
    erase (fields ++ rest) key = fields ++ erase rest key := by
  induction fields with
  | nil => rfl
  | cons first more ih =>
    obtain ⟨name, old⟩ := first
    simp only [keys_cons, List.mem_cons, not_or] at h
    simp [erase, Ne.symm h.1, ih h.2]

/-- **The two removals differ in order only**, if names are distinct. -/
theorem swapErase_perm (h : (keys fields).Nodup) (key : String) :
    (swapErase fields key).Perm (erase fields key) := by
  rcases List.eq_nil_or_concat fields with rfl | ⟨init, last, rfl⟩
  · exact List.Perm.refl _
  · have hkeys : keys (init.concat last) = keys init ++ [last.1] := by simp [keys]
    rw [hkeys, (List.perm_append_singleton _ _).nodup_iff, List.nodup_cons] at h
    have hgap : swapErase (init.concat last) key =
        if last.1 = key then init
        else if contains (init.concat last) key then replaceEntry init key last
        else init.concat last := by
      simp [swapErase]
    rw [hgap, List.concat_eq_append]
    by_cases hlast : last.1 = key
    · have hinit : key ∉ keys init := hlast ▸ h.1
      rw [if_pos hlast, erase_append_of_notMem hinit, erase, if_pos hlast, List.append_nil]
    · rw [if_neg hlast]
      by_cases hinit : key ∈ keys init
      · have hmem : contains (init ++ [last]) key = true := by
          rw [contains_iff, keys, List.map_append]
          exact List.mem_append_left _ hinit
        rw [if_pos hmem, erase_append_of_mem hinit]
        exact (replaceEntry_perm hinit last).trans (List.perm_append_singleton _ _).symm
      · have hmem : key ∉ keys (init ++ [last]) := by
          simpa [keys, Ne.symm hlast] using hinit
        rw [if_neg (by rwa [contains_iff]), erase_of_notMem hmem]

theorem erase_sublist (fields : Fields α) (key : String) : (erase fields key).Sublist fields := by
  induction fields with
  | nil => exact List.Sublist.refl _
  | cons entry rest ih =>
    obtain ⟨name, old⟩ := entry
    by_cases hname : name = key
    · rw [erase, if_pos hname]
      exact List.sublist_cons_self _ _
    · rw [erase, if_neg hname]
      exact ih.cons_cons _

theorem nodup_keys_erase (h : (keys fields).Nodup) (key : String) :
    (keys (erase fields key)).Nodup :=
  ((erase_sublist fields key).map Prod.fst).nodup h

theorem get?_erase_self (h : (keys fields).Nodup) (key : String) :
    get? (erase fields key) key = none := by
  induction fields with
  | nil => rfl
  | cons entry rest ih =>
    obtain ⟨other, old⟩ := entry
    obtain ⟨hother, hrest⟩ := List.nodup_cons.mp h
    by_cases hname : other = key
    · rw [erase, if_pos hname, get?_eq_none_iff]
      exact hname ▸ hother
    · rw [erase, if_neg hname, get?_cons, if_neg hname, ih hrest]

theorem get?_erase_of_ne (fields : Fields α) (hne : name ≠ key) :
    get? (erase fields key) name = get? fields name := by
  induction fields with
  | nil => rfl
  | cons entry rest ih =>
    obtain ⟨other, old⟩ := entry
    by_cases hname : other = key
    · rw [erase, if_pos hname, get?_cons, if_neg (hname ▸ Ne.symm hne)]
    · rw [erase, if_neg hname, get?_cons, get?_cons, ih]

/-- Removal keeps names distinct. -/
theorem nodup_keys_swapErase (h : (keys fields).Nodup) (key : String) :
    (keys (swapErase fields key)).Nodup := by
  rw [keys, ((swapErase_perm h key).map Prod.fst).nodup_iff]
  exact nodup_keys_erase h key

theorem get?_swapErase_self (h : (keys fields).Nodup) (key : String) :
    get? (swapErase fields key) key = none := by
  rw [get?_of_perm (swapErase_perm h key) (nodup_keys_swapErase h key), get?_erase_self h]

/-- Removal leaves the other names as they are. -/
theorem get?_swapErase_of_ne (h : (keys fields).Nodup) (hne : name ≠ key) :
    get? (swapErase fields key) name = get? fields name := by
  rw [get?_of_perm (swapErase_perm h key) (nodup_keys_swapErase h key), get?_erase_of_ne _ hne]

/-- Removal goes past an entry of another name. -/
theorem swapErase_cons_of_ne (hne : name ≠ key) (value : α) (fields : Fields α) :
    swapErase ((name, value) :: fields) key = (name, value) :: swapErase fields key := by
  cases fields with
  | nil => simp [swapErase, contains, hne]
  | cons entry rest =>
    have hcontains : contains ((name, value) :: entry :: rest) key
        = contains (entry :: rest) key := by
      rw [contains, get?_cons, if_neg hne, contains]
    rw [swapErase, swapErase, List.getLast?_cons_cons, hcontains, List.dropLast_cons_cons]
    cases hlast : (entry :: rest).getLast? with
    | none => simp at hlast
    | some last =>
      simp only [replaceEntry, if_neg hne]
      split
      · rfl
      · split <;> rfl

/-- Removal of the first entry puts the last one in its place. -/
theorem swapErase_cons_self (h : key ∉ keys fields) (value : α) :
    swapErase ((key, value) :: fields) key
      = fields.getLast?.toList ++ fields.dropLast := by
  cases fields with
  | nil => simp [swapErase]
  | cons entry rest =>
    rw [swapErase, List.getLast?_cons_cons, List.dropLast_cons_cons]
    cases hlast : (entry :: rest).getLast? with
    | none => simp at hlast
    | some last =>
      have hne : last.1 ≠ key := fun heq =>
        h (heq ▸ mem_keys_of_mem (List.mem_of_getLast? hlast))
      simp [if_neg hne, contains, replaceEntry]

/-- Removing a name leaves the entries of the other names. -/
theorem erase_eq_filter (h : (keys fields).Nodup) (key : String) :
    erase fields key = fields.filter fun entry => entry.1 ≠ key := by
  induction fields with
  | nil => rfl
  | cons entry rest ih =>
    obtain ⟨other, old⟩ := entry
    obtain ⟨hother, hrest⟩ := List.nodup_cons.mp h
    by_cases hname : other = key
    · have hkeep : rest.filter (fun entry => entry.1 ≠ key) = rest := by
        rw [List.filter_eq_self]
        intro entry hmem
        have hne : entry.1 ≠ key := fun heq =>
          hother (hname ▸ heq ▸ mem_keys_of_mem hmem)
        simpa using hne
      rw [erase, if_pos hname, List.filter_cons_of_neg (by simpa using hname), hkeep]
    · rw [erase, if_neg hname, List.filter_cons_of_pos (by simpa using hname), ih hrest]

/-- **Removing several names leaves the entries of the other names**, in some order. -/
theorem foldl_swapErase_perm (h : (keys fields).Nodup) (taken : List String) :
    (taken.foldl swapErase fields).Perm (fields.filter fun entry => entry.1 ∉ taken) := by
  induction taken generalizing fields with
  | nil => simp
  | cons key rest ih =>
    have hfirst : (swapErase fields key).Perm (fields.filter fun entry => entry.1 ≠ key) :=
      erase_eq_filter h key ▸ swapErase_perm h key
    have hboth : fields.filter (fun entry => entry.1 ∉ key :: rest) =
        (fields.filter fun entry => entry.1 ≠ key).filter fun entry => entry.1 ∉ rest := by
      rw [List.filter_filter]
      refine List.filter_congr fun entry _ => ?_
      simp [Bool.and_comm]
    rw [List.foldl_cons, hboth]
    exact (ih (nodup_keys_swapErase h key)).trans (hfirst.filter _)

theorem nodup_keys_foldl_swapErase (h : (keys fields).Nodup) (taken : List String) :
    (keys (taken.foldl swapErase fields)).Nodup :=
  ((foldl_swapErase_perm h taken).map Prod.fst).nodup_iff.mpr
    ((List.filter_sublist.map Prod.fst).nodup h)

/-- What is left under a name when several are removed. -/
theorem get?_foldl_swapErase_eq_some_iff (h : (keys fields).Nodup) (taken : List String) :
    get? (taken.foldl swapErase fields) key = some value ↔
      key ∉ taken ∧ get? fields key = some value := by
  rw [get?_eq_some_iff (nodup_keys_foldl_swapErase h taken), (foldl_swapErase_perm h taken).mem_iff,
    List.mem_filter, get?_eq_some_iff h, decide_eq_true_iff, and_comm]

/-! ### Entries given and added -/

theorem keys_append (fields rest : Fields α) : keys (fields ++ rest) = keys fields ++ keys rest :=
  List.map_append

/-- Look-up in entries one after the other. -/
theorem get?_append (fields rest : Fields α) (key : String) :
    get? (fields ++ rest) key = (get? fields key).or (get? rest key) := by
  induction fields with
  | nil => rfl
  | cons entry more ih =>
    obtain ⟨name, old⟩ := entry
    rw [List.cons_append, get?_cons, get?_cons, ih]
    split <;> rfl

/-- Entries with new names go to the end, by any operation that appends a new name. -/
private theorem foldl_eq_append {f : Fields α → String × α → Fields α}
    (hf : ∀ fields entry, entry.1 ∉ keys fields → f fields entry = fields ++ [entry])
    {added : Fields α} (hadded : (keys added).Nodup)
    (hfree : ∀ key ∈ keys added, key ∉ keys fields) : added.foldl f fields = fields ++ added := by
  induction added generalizing fields with
  | nil => rw [List.foldl_nil, List.append_nil]
  | cons entry rest ih =>
    obtain ⟨hentry, hrest⟩ := List.nodup_cons.mp hadded
    have hnew : entry.1 ∉ keys fields := hfree entry.1 (List.mem_cons_self ..)
    rw [List.foldl_cons, hf fields entry hnew, ih hrest, List.append_assoc]
    · rfl
    · intro key hkey
      rw [keys_append, List.mem_append, not_or]
      refine ⟨hfree key (List.mem_cons_of_mem _ hkey), fun hlast => ?_⟩
      exact hentry (List.mem_singleton.mp hlast ▸ hkey)

/-- Adding entries with new names appends them. -/
theorem foldl_add_eq_append {added : Fields α} (hadded : (keys added).Nodup)
    (hfree : ∀ key ∈ keys added, key ∉ keys fields) :
    added.foldl (fun all entry => add all entry.1 entry.2) fields = fields ++ added := by
  refine foldl_eq_append (fun fields entry hnew => ?_) hadded hfree
  rw [add, if_neg (by rwa [contains_iff])]

/-- Setting new names appends them. -/
theorem foldl_set_eq_append {added : Fields α} (hadded : (keys added).Nodup)
    (hfree : ∀ key ∈ keys added, key ∉ keys fields) :
    added.foldl (fun all entry => set all entry.1 entry.2) fields = fields ++ added :=
  foldl_eq_append (fun _ entry hnew => set_of_notMem hnew entry.2) hadded hfree

/-- Entries given to those that are there keep the names in their order and bring in the new ones
behind them. -/
theorem keys_foldl_set {mine theirs : Fields α} (h : (keys mine).Nodup) :
    keys (mine.foldl (fun merged entry => set merged entry.1 entry.2) theirs)
      = keys theirs ++ (keys mine).filter (· ∉ keys theirs) := by
  induction mine generalizing theirs with
  | nil => simp
  | cons entry rest ih =>
    obtain ⟨name, value⟩ := entry
    obtain ⟨hname, hrest⟩ := List.nodup_cons.mp h
    rw [List.foldl_cons, ih hrest, keys_cons]
    by_cases hold : name ∈ keys theirs
    · rw [keys_set_of_mem hold, List.filter_cons_of_neg (by simpa using hold)]
    · rw [set_of_notMem hold, keys_append, List.filter_cons_of_pos (by simpa using hold),
        List.append_assoc]
      refine congrArg _ (congrArg (name :: ·) (List.filter_congr fun other hother => ?_))
      have hne : other ≠ name := fun heq => hname (heq ▸ hother)
      simp [hne]

/-- Entries given to those that are there are found first. -/
theorem get?_foldl_set {mine theirs : Fields α} (h : (keys mine).Nodup) (key : String) :
    get? (mine.foldl (fun merged entry => set merged entry.1 entry.2) theirs) key
      = (get? mine key).or (get? theirs key) := by
  induction mine generalizing theirs with
  | nil => rfl
  | cons entry rest ih =>
    obtain ⟨other, value⟩ := entry
    obtain ⟨hother, hrest⟩ := List.nodup_cons.mp h
    rw [List.foldl_cons, ih hrest]
    by_cases hname : other = key
    · obtain rfl := hname
      rw [get?_eq_none_iff.mpr hother, get?_set_self, get?_cons, if_pos rfl]
      rfl
    · rw [get?_set_of_ne _ _ (Ne.symm hname), get?_cons, if_neg hname]

/-- Giving a name a value keeps the names there are, in their order. -/
theorem exists_keys_set (fields : Fields α) (key : String) (value : α) :
    ∃ names, keys (set fields key value) = keys fields ++ names := by
  by_cases hkey : key ∈ keys fields
  · exact ⟨[], by rw [keys_set_of_mem hkey, List.append_nil]⟩
  · exact ⟨[key], by rw [set_of_notMem hkey, keys, List.map_append]; rfl⟩

theorem subset_keys_set (fields : Fields α) (key : String) (value : α) :
    keys fields ⊆ keys (set fields key value) := by
  obtain ⟨names, hnames⟩ := exists_keys_set fields key value
  rw [hnames]
  exact List.subset_append_left _ _

theorem mem_keys_set_self (fields : Fields α) (key : String) (value : α) :
    key ∈ keys (set fields key value) :=
  mem_keys_of_mem (mem_of_get? (get?_set_self fields key value))

/-- Added entries come behind those that are there. -/
theorem get?_foldl_add (added fields : Fields α) (key : String) :
    get? (added.foldl (fun all entry => add all entry.1 entry.2) fields) key
      = (get? fields key).or (get? added key) := by
  induction added generalizing fields with
  | nil => rw [List.foldl_nil, get?_nil, Option.or_none]
  | cons entry rest ih =>
    obtain ⟨other, value⟩ := entry
    rw [List.foldl_cons, ih, add, get?_cons]
    by_cases hold : contains fields other = true
    · rw [if_pos hold]
      by_cases hother : other = key
      · obtain ⟨old, hget⟩ := Option.isSome_iff_exists.mp hold
        rw [← hother, hget]
        rfl
      · rw [if_neg hother]
    · rw [if_neg hold]
      rw [contains_iff] at hold
      rw [← set_of_notMem hold]
      by_cases hother : other = key
      · rw [if_pos hother, ← hother, get?_set_self, get?_eq_none_iff.mpr hold]
        rfl
      · rw [if_neg hother, get?_set_of_ne _ _ (Ne.symm hother)]

/-- Added names come behind those that are there. -/
theorem exists_keys_foldl_add (added fields : Fields α) : ∃ names,
    keys (added.foldl (fun all entry => add all entry.1 entry.2) fields)
      = keys fields ++ names := by
  induction added generalizing fields with
  | nil => exact ⟨[], by simp⟩
  | cons entry rest ih =>
    obtain ⟨names, hnames⟩ := ih (add fields entry.1 entry.2)
    rw [List.foldl_cons, hnames, add]
    split
    · exact ⟨names, rfl⟩
    · exact ⟨entry.1 :: names, by simp [keys]⟩

/-! ### The same names in any order -/

/-- The same number of entries, and under each name of the left a related value on the
right.  With distinct names these are the same maps up to the relation of values. -/
def Alike {β : Type v} (r : α → β → Prop) (xs : Fields α) (ys : Fields β) : Prop :=
  xs.length = ys.length ∧ ∀ name x, (name, x) ∈ xs → ∃ y, get? ys name = some y ∧ r x y

section Alike

variable {β : Type v} {γ : Type*} {r : α → β → Prop} {xs : Fields α} {ys : Fields β}

theorem Alike.get? (h : Alike r xs ys) {x : α} (hx : Fields.get? xs name = some x) :
    ∃ y, Fields.get? ys name = some y ∧ r x y :=
  h.2 name x (mem_of_get? hx)

/-- With distinct names the entries on both sides have the same names. -/
theorem Alike.keys_perm (h : Alike r xs ys) (hx : (keys xs).Nodup) :
    (keys xs).Perm (keys ys) := by
  have hsubset : keys xs ⊆ keys ys := fun name hname => by
    obtain ⟨x, hmem⟩ := mem_keys.mp hname
    obtain ⟨y, hy, -⟩ := h.2 name x hmem
    exact mem_keys_of_mem (mem_of_get? hy)
  have hlength : (keys ys).length ≤ (keys xs).length := by simp [keys, h.1]
  exact (List.subperm_of_subset hx hsubset).perm_of_length_le hlength

/-- What stands under a name on the right is related to what stands there on the left. -/
theorem Alike.get?_right (h : Alike r xs ys) (hx : (keys xs).Nodup) {y : β}
    (hy : Fields.get? ys name = some y) : ∃ x, Fields.get? xs name = some x ∧ r x y := by
  have hname : name ∈ keys xs :=
    (h.keys_perm hx).mem_iff.mpr (mem_keys_of_mem (mem_of_get? hy))
  obtain ⟨x, hget⟩ := Option.isSome_iff_exists.mp (contains_iff.mpr hname)
  obtain ⟨y', hy', hr⟩ := h.get? hget
  obtain rfl := Option.some.inj (hy'.symm.trans hy)
  exact ⟨x, hget, hr⟩

theorem Alike.refl {r : α → α → Prop} {xs : Fields α} (hx : (keys xs).Nodup)
    (h : ∀ name x, (name, x) ∈ xs → r x x) : Alike r xs xs :=
  ⟨rfl, fun name x hmem => ⟨x, get?_of_mem hx hmem, h name x hmem⟩⟩

/-- An entry more on both sides, under a new name. -/
theorem Alike.cons (h : Alike r xs ys) {x : α} {y : β} (hxy : r x y) (hname : name ∉ keys ys) :
    Alike r ((name, x) :: xs) ((name, y) :: ys) := by
  refine ⟨congrArg (· + 1) h.1, fun other z hmem => ?_⟩
  rcases List.mem_cons.mp hmem with heq | hmem
  · obtain ⟨rfl, rfl⟩ := Prod.mk.inj heq
    exact ⟨y, by rw [get?_cons, if_pos rfl], hxy⟩
  · obtain ⟨w, hw, hzw⟩ := h.2 other z hmem
    have hne : name ≠ other := fun heq => hname (heq ▸ mem_keys_of_mem (mem_of_get? hw))
    exact ⟨w, by rw [get?_cons, if_neg hne, hw], hzw⟩

theorem Alike.symm {r' : β → α → Prop} (h : Alike r xs ys) (hx : (keys xs).Nodup)
    (hr : ∀ name x y, (name, x) ∈ xs → r x y → r' y x) : Alike r' ys xs := by
  refine ⟨h.1.symm, fun name y hmem => ?_⟩
  have hy : (keys ys).Nodup := (h.keys_perm hx).nodup_iff.mp hx
  obtain ⟨x, hget, hxy⟩ := h.get?_right hx (get?_of_mem hy hmem)
  exact ⟨x, hget, hr name x y (mem_of_get? hget) hxy⟩

theorem Alike.trans {s : β → γ → Prop} {t : α → γ → Prop} {zs : Fields γ} (h : Alike r xs ys)
    (h' : Alike s ys zs) (hr : ∀ name x y z, (name, x) ∈ xs → r x y → s y z → t x z) :
    Alike t xs zs := by
  refine ⟨h.1.trans h'.1, fun name x hmem => ?_⟩
  obtain ⟨y, hy, hxy⟩ := h.2 name x hmem
  obtain ⟨z, hz, hyz⟩ := h'.get? hy
  exact ⟨z, hz, hr name x y z hmem hxy hyz⟩

/-- Entries in another order are alike. -/
theorem Alike.of_perm {r : α → α → Prop} {xs ys : Fields α} (hperm : xs.Perm ys)
    (hx : (keys xs).Nodup) (h : ∀ name x, (name, x) ∈ xs → r x x) : Alike r xs ys :=
  ⟨hperm.length_eq, fun name x hmem =>
    ⟨x, get?_of_perm hperm hx name ▸ get?_of_mem hx hmem, h name x hmem⟩⟩

end Alike

/-! ### Entries with other values -/

variable {β : Type v} (f : α → β)

theorem keys_mapValues (fields : Fields α) : keys (mapValues f fields) = keys fields := by
  simp only [keys, mapValues, List.map_map, Function.comp_def]

theorem get?_mapValues (fields : Fields α) (key : String) :
    get? (mapValues f fields) key = (get? fields key).map f := by
  induction fields with
  | nil => rfl
  | cons entry rest ih =>
    obtain ⟨name, value⟩ := entry
    change get? ((name, f value) :: mapValues f rest) key = _
    rw [get?_cons, get?_cons, ih]
    split <;> rfl

theorem set_mapValues (fields : Fields α) (key : String) (value : α) :
    set (mapValues f fields) key (f value) = mapValues f (set fields key value) := by
  induction fields with
  | nil => rfl
  | cons entry rest ih =>
    obtain ⟨name, old⟩ := entry
    change set ((name, f old) :: mapValues f rest) key (f value) = _
    by_cases hname : name = key
    · rw [set, if_pos hname, set, if_pos hname]
      rfl
    · rw [set, if_neg hname, set, if_neg hname, ih]
      rfl

theorem replaceEntry_mapValues (fields : Fields α) (key : String) (entry : String × α) :
    replaceEntry (mapValues f fields) key (entry.1, f entry.2)
      = mapValues f (replaceEntry fields key entry) := by
  induction fields with
  | nil => rfl
  | cons first rest ih =>
    obtain ⟨name, old⟩ := first
    change replaceEntry ((name, f old) :: mapValues f rest) key _ = _
    by_cases hname : name = key
    · rw [replaceEntry, if_pos hname, replaceEntry, if_pos hname]
      rfl
    · rw [replaceEntry, if_neg hname, replaceEntry, if_neg hname, ih]
      rfl

theorem swapErase_mapValues (fields : Fields α) (key : String) :
    swapErase (mapValues f fields) key = mapValues f (swapErase fields key) := by
  have hlast : (mapValues f fields).getLast?
      = fields.getLast?.map fun entry => (entry.1, f entry.2) := List.getLast?_map
  have hinit : (mapValues f fields).dropLast = mapValues f fields.dropLast :=
    List.map_dropLast.symm
  unfold swapErase
  rw [hlast]
  cases fields.getLast? with
  | none => rfl
  | some last =>
    simp only [Option.map_some]
    rw [hinit, contains, get?_mapValues, Option.isSome_map, ← contains, replaceEntry_mapValues]
    split
    · rfl
    · split <;> rfl

end Fields

end RpcSchema
