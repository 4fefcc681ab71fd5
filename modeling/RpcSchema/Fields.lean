/-!
# Ordered fields

The entries of an ordered map: names paired with values, in an order that is
part of the value.  JSON objects, the properties of an object schema and the
registry of synthesized schemas are all kept this way, because their order
shows in what is written.

Names are meant to be distinct.  The operations below keep them so, and act on
the first entry of a name when they are not.

## Main definitions

* `Fields` — the entries.
* `Fields.get?`, `Fields.contains`, `Fields.keys` — the view as a map.
* `Fields.set` — replace in place, or append.
* `Fields.add` — append unless the name is taken.
* `Fields.erase`, `Fields.extract?` — remove, closing the gap.
* `Fields.swapErase` — remove, filling the gap with the last entry.
-/

namespace RpcSchema

universe u v

/-- The entries of an ordered map. -/
abbrev Fields (α : Type u) := List (String × α)

namespace Fields

variable {α : Type u} {β : Type v}

/-- The value of the first entry named `key`. -/
def get? : Fields α → String → Option α
  | [], _ => none
  | (name, value) :: rest, key => if name = key then some value else get? rest key

/-- Whether an entry is named `key`. -/
def contains (fields : Fields α) (key : String) : Bool := (get? fields key).isSome

/-- The names, in order. -/
def keys (fields : Fields α) : List String := fields.map Prod.fst

/-- The values, in order. -/
def values (fields : Fields α) : List α := fields.map Prod.snd

/-- The same names with other values. -/
def mapValues (f : α → β) (fields : Fields α) : Fields β :=
  fields.map fun entry => (entry.1, f entry.2)

/-- Give `key` the value `value`: in place when the name is there, as a new last
entry otherwise. -/
def set : Fields α → String → α → Fields α
  | [], key, value => [(key, value)]
  | (name, old) :: rest, key, value =>
    if name = key then (key, value) :: rest else (name, old) :: set rest key value

/-- Append the entry unless its name is taken. -/
def add (fields : Fields α) (key : String) (value : α) : Fields α :=
  if contains fields key then fields else fields ++ [(key, value)]

/-- Take the first entry named `key` out, closing the gap: its value and the
remaining entries. -/
def extract? : Fields α → String → Option (α × Fields α)
  | [], _ => none
  | (name, value) :: rest, key =>
    if name = key then some (value, rest)
    else (extract? rest key).map fun found => (found.1, (name, value) :: found.2)

/-- Remove the first entry named `key`, closing the gap. -/
def erase : Fields α → String → Fields α
  | [], _ => []
  | (name, value) :: rest, key =>
    if name = key then rest else (name, value) :: erase rest key

/-- Put `entry` in the place of the first entry named `key`. -/
def replaceEntry : Fields α → String → String × α → Fields α
  | [], _, _ => []
  | (name, value) :: rest, key, entry =>
    if name = key then entry :: rest else (name, value) :: replaceEntry rest key entry

/-- Remove the first entry named `key`.  The last entry takes its place. -/
def swapErase (fields : Fields α) (key : String) : Fields α :=
  match fields.getLast? with
  | none => []
  | some last =>
    -- The last entry itself leaves no gap.
    if last.1 = key then fields.dropLast
    else if contains fields key then replaceEntry fields.dropLast key last
    else fields

/-! ### The map view -/

@[simp] theorem get?_nil (key : String) : get? ([] : Fields α) key = none := rfl

@[simp] theorem get?_cons (name : String) (value : α) (rest : Fields α) (key : String) :
    get? ((name, value) :: rest) key = if name = key then some value else get? rest key := rfl

@[simp] theorem contains_nil (key : String) : contains ([] : Fields α) key = false := rfl

@[simp] theorem keys_nil : keys ([] : Fields α) = [] := rfl

@[simp] theorem keys_cons (entry : String × α) (rest : Fields α) :
    keys (entry :: rest) = entry.1 :: keys rest := rfl

theorem mem_of_get? {fields : Fields α} {key : String} {value : α}
    (h : get? fields key = some value) : (key, value) ∈ fields := by
  induction fields with
  | nil => simp at h
  | cons entry rest ih =>
    obtain ⟨name, old⟩ := entry
    by_cases hname : name = key
    · simp_all
    · simp only [get?_cons, hname, if_false] at h
      exact List.mem_cons_of_mem _ (ih h)

/-- Giving a name a value brings in no other entry. -/
theorem mem_set {fields : Fields α} {key : String} {value : α} {entry : String × α}
    (h : entry ∈ set fields key value) : entry = (key, value) ∨ entry ∈ fields := by
  induction fields with
  | nil => simp_all [set]
  | cons first rest ih =>
    obtain ⟨name, old⟩ := first
    by_cases hname : name = key
    · simp only [set, hname, if_true, List.mem_cons] at h ⊢
      exact h.imp_right Or.inr
    · simp only [set, hname, if_false, List.mem_cons] at h ⊢
      rcases h with h | h
      · exact Or.inr (Or.inl h)
      · exact (ih h).imp_right Or.inr

theorem get?_set_self (fields : Fields α) (key : String) (value : α) :
    get? (set fields key value) key = some value := by
  induction fields with
  | nil => simp [set]
  | cons entry rest ih =>
    obtain ⟨name, old⟩ := entry
    by_cases h : name = key <;> simp [set, h, ih]

theorem get?_set_of_ne (fields : Fields α) {key other : String} (value : α)
    (hne : other ≠ key) : get? (set fields key value) other = get? fields other := by
  induction fields with
  | nil => simp [set, Ne.symm hne]
  | cons entry rest ih =>
    obtain ⟨name, old⟩ := entry
    by_cases h : name = key
    · subst h; simp [set, Ne.symm hne]
    · simp [set, h, ih]

/-- Taking an entry out leaves what erasing its name leaves. -/
theorem extract?_eq (fields : Fields α) (key : String) :
    extract? fields key = (get? fields key).map fun value => (value, erase fields key) := by
  induction fields with
  | nil => rfl
  | cons entry rest ih =>
    obtain ⟨name, value⟩ := entry
    by_cases h : name = key
    · simp [extract?, erase, h]
    · cases hg : get? rest key <;> simp [extract?, erase, h, ih, hg]

end Fields

end RpcSchema
