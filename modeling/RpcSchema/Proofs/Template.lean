import Mathlib.Data.List.Induction
import Mathlib.Data.List.Nodup
import RpcSchema.Template

/-!
# Filling templates at once

A template has its placeholders before anything is filled in.  To fill it at once is to read it
from left to right, to put a value where a placeholder stands, and to go on behind it: what is
inserted is never read.

Filling key by key comes to the same as long as the inserted texts make no placeholder of a key
that is still to come, neither by themselves nor together with the text around them.  A value that
writes such a placeholder is itself filled, and then the order of the pairs shows.

Keys are told apart by their placeholders when they have no dollar signs and no closing braces:
then placeholders do not overlap, and none is the beginning of another.

## Main definitions

* `fillAtOnce` — a template with all its placeholders replaced in one pass.
* `PlainKey` — keys without dollar signs and closing braces.
* `countSlots` — how often the placeholder of a key stands in a text.
* `NoneArises` — values that make no placeholders of later keys.

## Main results

* `fillFrom_insert` — one more key is filled in what the others left.
* `fillAtOnce_perm` — at once the order of the pairs does not matter.
* `noneArises_of_dollar` — without dollar signs but those of placeholders none arises.
* `fill_eq_fillAtOnce` — where none arises, filling key by key is filling at once.
-/

namespace RpcSchema

/-- The pair whose placeholder a text begins with. -/
def slot? (values : List (String × String)) (text : List Char) : Option (String × String) :=
  values.find? fun entry => (placeholder entry.1).toList.isPrefixOf text

/-- Put values where placeholders stand.  `skip` characters are still part of the placeholder
just replaced. -/
def fillFrom (values : List (String × String)) : Nat → List Char → List Char
  | _, [] => []
  | skip + 1, _ :: rest => fillFrom values skip rest
  | 0, c :: rest =>
    match slot? values (c :: rest) with
    | some entry =>
      entry.2.toList ++ fillFrom values ((placeholder entry.1).toList.length - 1) rest
    | none => c :: fillFrom values 0 rest

/-- A template with all its placeholders replaced in one pass. -/
def fillAtOnce (template : String) (values : List (String × String)) : String :=
  String.ofList (fillFrom values 0 template.toList)

/-- A key whose placeholder ends at its first closing brace and starts at its only dollar sign. -/
def PlainKey (key : String) : Prop := '$' ∉ key.toList ∧ '\x7d' ∉ key.toList

instance (key : String) : Decidable (PlainKey key) :=
  inferInstanceAs (Decidable (_ ∧ _))

/-- How often the placeholder of a key stands in a text. -/
def countSlots (key : String) : List Char → Nat
  | [] => 0
  | c :: rest =>
    countSlots key rest + if (placeholder key).toList.isPrefixOf (c :: rest) then 1 else 0

/-- Filling in the earlier keys makes no placeholder of a later key. -/
def NoneArises (template : String) (values : List (String × String)) : Prop :=
  ∀ before entry after, values = before ++ entry :: after →
    countSlots entry.1 (fillAtOnce template before).toList = countSlots entry.1 template.toList

/-! ### Placeholders -/

section Placeholders

variable {key other : String} {c : Char} {cs rest : List Char}

theorem toList_placeholder (key : String) :
    (placeholder key).toList = '$' :: '\x7b' :: (key.toList ++ ['\x7d']) := by
  rw [placeholder, String.toList_append, String.toList_append]
  rfl

theorem placeholder_ne_nil (key : String) : (placeholder key).toList ≠ [] := by
  rw [toList_placeholder]
  exact List.cons_ne_nil _ _

/-- Texts up to a mark that does not occur in them. -/
theorem append_mark_prefix_iff {mark : Char} {xs ys : List Char} (hxs : mark ∉ xs)
    (hys : mark ∉ ys) : xs ++ [mark] <+: ys ++ mark :: rest ↔ xs = ys := by
  induction xs generalizing ys with
  | nil =>
    cases ys with
    | nil => simp
    | cons y ys =>
      have hne : mark ≠ y := (List.ne_and_not_mem_of_not_mem_cons hys).1
      simp [List.cons_prefix_cons, hne]
  | cons x xs ih =>
    obtain ⟨hx, hxs⟩ := List.ne_and_not_mem_of_not_mem_cons hxs
    cases ys with
    | nil => simp [List.cons_prefix_cons, Ne.symm hx]
    | cons y ys =>
      obtain ⟨-, hys⟩ := List.ne_and_not_mem_of_not_mem_cons hys
      rw [List.cons_append, List.cons_append, List.cons_prefix_cons, ih hxs hys, List.cons.injEq]

/-- Where the placeholder of a plain key stands, no other does. -/
theorem placeholder_prefix_iff (hkey : PlainKey key) (hother : PlainKey other) :
    (placeholder key).toList <+: (placeholder other).toList ++ rest ↔ key = other := by
  rw [toList_placeholder, toList_placeholder, List.cons_append, List.cons_append,
    List.cons_prefix_cons, List.cons_prefix_cons, List.append_assoc, List.singleton_append,
    append_mark_prefix_iff hkey.2 hother.2, String.toList_inj]
  simp

/-- Placeholders start with a dollar sign. -/
theorem not_placeholder_start (hc : c ≠ '$') :
    ¬(placeholder key).toList <+: c :: rest := by
  rw [toList_placeholder, List.cons_prefix_cons]
  exact fun h => hc h.1.symm

/-- Behind its first sign the placeholder of a plain key has no dollar sign. -/
theorem dollar_notMem_tail (hkey : PlainKey key) :
    '$' ∉ '\x7b' :: (key.toList ++ ['\x7d']) := by
  simp [hkey.1]

/-! ### Counting -/

theorem countSlots_cons_of_start (h : (placeholder key).toList <+: c :: rest) :
    countSlots key (c :: rest) = countSlots key rest + 1 := by
  rw [countSlots, if_pos (List.isPrefixOf_iff_prefix.mpr h)]

theorem countSlots_cons_of_not (h : ¬(placeholder key).toList <+: c :: rest) :
    countSlots key (c :: rest) = countSlots key rest := by
  rw [countSlots, if_neg (fun hstart => h (List.isPrefixOf_iff_prefix.mp hstart)), Nat.add_zero]

theorem countSlots_le_cons (key : String) (c : Char) (rest : List Char) :
    countSlots key rest ≤ countSlots key (c :: rest) := by
  rw [countSlots]
  omega

theorem countSlots_le_append (key : String) (cs rest : List Char) :
    countSlots key rest ≤ countSlots key (cs ++ rest) := by
  induction cs with
  | nil => exact Nat.le_refl _
  | cons c cs ih => exact Nat.le_trans ih (countSlots_le_cons key c _)

/-- No placeholder starts in a text without dollar signs. -/
theorem countSlots_append_of_notMem (h : '$' ∉ cs) :
    countSlots key (cs ++ rest) = countSlots key rest := by
  induction cs with
  | nil => rfl
  | cons c cs ih =>
    obtain ⟨hc, hcs⟩ := List.ne_and_not_mem_of_not_mem_cons h
    rw [List.cons_append, countSlots_cons_of_not (not_placeholder_start (Ne.symm hc)), ih hcs]

theorem countSlots_placeholder (hkey : PlainKey key) (rest : List Char) :
    countSlots key ((placeholder key).toList ++ rest) = countSlots key rest + 1 := by
  have hstart : (placeholder key).toList <+: (placeholder key).toList ++ rest :=
    (placeholder_prefix_iff hkey hkey).mpr rfl
  rw [toList_placeholder, List.cons_append] at hstart ⊢
  rw [countSlots_cons_of_start (by rw [toList_placeholder]; exact hstart),
    countSlots_append_of_notMem (dollar_notMem_tail hkey)]

theorem countSlots_placeholder_of_ne (hkey : PlainKey key) (hother : PlainKey other)
    (hne : key ≠ other) (rest : List Char) :
    countSlots key ((placeholder other).toList ++ rest) = countSlots key rest := by
  have hstart : ¬(placeholder key).toList <+: (placeholder other).toList ++ rest :=
    (placeholder_prefix_iff hkey hother).not.mpr hne
  rw [toList_placeholder other, List.cons_append] at hstart ⊢
  rw [countSlots_cons_of_not hstart, countSlots_append_of_notMem (dollar_notMem_tail hother)]

end Placeholders

/-! ### Reading a template -/

section Reading

variable {values : List (String × String)} {entry : String × String} {c : Char}
  {cs rest text : List Char}

theorem slot?_eq_none_iff :
    slot? values text = none ↔ ∀ entry ∈ values, ¬(placeholder entry.1).toList <+: text := by
  simp [slot?]

theorem slot?_eq_some (h : slot? values text = some entry) :
    entry ∈ values ∧ (placeholder entry.1).toList <+: text := by
  have hstart := List.find?_some h
  exact ⟨List.mem_of_find?_eq_some h, List.isPrefixOf_iff_prefix.mp hstart⟩

/-- A placeholder is that of one pair only. -/
theorem slot?_placeholder (hplain : ∀ entry ∈ values, PlainKey entry.1)
    (hkeys : (values.map Prod.fst).Nodup) (hentry : entry ∈ values) (rest : List Char) :
    slot? values ((placeholder entry.1).toList ++ rest) = some entry := by
  have hstart : ∀ other ∈ values,
      (placeholder other.1).toList <+: (placeholder entry.1).toList ++ rest ↔ other = entry := by
    intro other hother
    rw [placeholder_prefix_iff (hplain other hother) (hplain entry hentry)]
    exact ⟨fun heq => List.inj_on_of_nodup_map hkeys hother hentry heq, fun heq => heq ▸ rfl⟩
  cases hslot : slot? values ((placeholder entry.1).toList ++ rest) with
  | none => exact absurd ((hstart entry hentry).mpr rfl) (slot?_eq_none_iff.mp hslot entry hentry)
  | some found =>
    obtain ⟨hmem, hfound⟩ := slot?_eq_some hslot
    rw [(hstart found hmem).mp hfound]

theorem fillFrom_skip (values : List (String × String)) (cs rest : List Char) :
    fillFrom values cs.length (cs ++ rest) = fillFrom values 0 rest := by
  induction cs with
  | nil => rfl
  | cons c cs ih => rw [List.length_cons, List.cons_append, fillFrom, ih]

/-- Where a placeholder stands its value is inserted. -/
theorem fillFrom_placeholder
    (h : slot? values ((placeholder entry.1).toList ++ rest) = some entry) :
    fillFrom values 0 ((placeholder entry.1).toList ++ rest)
      = entry.2.toList ++ fillFrom values 0 rest := by
  obtain ⟨c, cs, hcs⟩ := List.exists_cons_of_ne_nil (placeholder_ne_nil entry.1)
  rw [hcs, List.cons_append] at h ⊢
  rw [fillFrom, h]
  dsimp only
  rw [hcs, List.length_cons, Nat.add_sub_cancel, fillFrom_skip]

/-- What is no placeholder stays. -/
theorem fillFrom_own (h : slot? values (c :: rest) = none) :
    fillFrom values 0 (c :: rest) = c :: fillFrom values 0 rest := by
  rw [fillFrom, h]

/-- Text without dollar signs stays. -/
theorem fillFrom_append_of_notMem (h : '$' ∉ cs) :
    fillFrom values 0 (cs ++ rest) = cs ++ fillFrom values 0 rest := by
  induction cs with
  | nil => rfl
  | cons c cs ih =>
    obtain ⟨hc, hcs⟩ := List.ne_and_not_mem_of_not_mem_cons h
    have hnone : slot? values (c :: (cs ++ rest)) = none :=
      slot?_eq_none_iff.mpr fun entry _ => not_placeholder_start (Ne.symm hc)
    rw [List.cons_append, fillFrom_own hnone, ih hcs, List.cons_append]

/-- The placeholder of another key stays. -/
theorem fillFrom_placeholder_of_notMem {key : String} (hplain : ∀ entry ∈ values, PlainKey entry.1)
    (hkey : PlainKey key) (hnew : key ∉ values.map Prod.fst) (rest : List Char) :
    fillFrom values 0 ((placeholder key).toList ++ rest)
      = (placeholder key).toList ++ fillFrom values 0 rest := by
  have hnone : slot? values ((placeholder key).toList ++ rest) = none := by
    refine slot?_eq_none_iff.mpr fun entry hentry hstart => hnew ?_
    rw [← (placeholder_prefix_iff (hplain entry hentry) hkey).mp hstart]
    exact List.mem_map_of_mem hentry
  rw [toList_placeholder, List.cons_append] at hnone ⊢
  rw [fillFrom_own hnone, fillFrom_append_of_notMem (dollar_notMem_tail hkey)]
  rfl

/-- A text is read piece by piece: it begins with the placeholder of a pair, or with a character
of its own. -/
theorem reading_induction (values : List (String × String)) {motive : List Char → Prop}
    (nil : motive [])
    (slot : ∀ entry ∈ values, ∀ rest, motive rest → motive ((placeholder entry.1).toList ++ rest))
    (own : ∀ c rest, slot? values (c :: rest) = none → motive rest → motive (c :: rest))
    (text : List Char) : motive text := by
  match text with
  | [] => exact nil
  | c :: rest =>
    cases hslot : slot? values (c :: rest) with
    | none => exact own c rest hslot (reading_induction values nil slot own rest)
    | some entry =>
      obtain ⟨hentry, behind, hbehind⟩ := slot?_eq_some hslot
      have hlength := congrArg List.length hbehind
      have hpos := List.length_pos_of_ne_nil (placeholder_ne_nil entry.1)
      rw [← hbehind]
      exact slot entry hentry behind (reading_induction values nil slot own behind)
termination_by text.length
decreasing_by
  · simp
  · rw [List.length_append, List.length_cons] at hlength
    rw [List.length_cons]
    omega

end Reading

/-! ### One key more -/

section Insertion

variable {values : List (String × String)} {key value : String}

/-- Where no placeholder starts in a text, the text stays. -/
theorem fillFrom_append_of_countSlots {cs rest : List Char}
    (h : countSlots key (cs ++ rest) ≤ countSlots key rest) :
    fillFrom [(key, value)] 0 (cs ++ rest) = cs ++ fillFrom [(key, value)] 0 rest := by
  induction cs with
  | nil => rfl
  | cons c cs ih =>
    rw [List.cons_append] at h
    have hcs := countSlots_le_append key cs rest
    by_cases hstart : (placeholder key).toList <+: c :: (cs ++ rest)
    · rw [countSlots_cons_of_start hstart] at h
      omega
    · rw [countSlots_cons_of_not hstart] at h
      have hnone : slot? [(key, value)] (c :: (cs ++ rest)) = none :=
        slot?_eq_none_iff.mpr fun entry hentry => List.mem_singleton.mp hentry ▸ hstart
      rw [List.cons_append, fillFrom_own hnone, ih h, List.cons_append]

/-- A text without slots for one more pair has none for the others. -/
theorem slot?_append_eq_none {c : Char} {rest : List Char}
    (h : slot? (values ++ [(key, value)]) (c :: rest) = none) :
    slot? values (c :: rest) = none ∧ ¬(placeholder key).toList <+: c :: rest := by
  have hall := slot?_eq_none_iff.mp h
  exact ⟨slot?_eq_none_iff.mpr fun entry hentry => hall entry (List.mem_append_left _ hentry),
    hall (key, value) (by simp)⟩

variable (hplain : ∀ entry ∈ values ++ [(key, value)], PlainKey entry.1)
  (hkeys : ((values ++ [(key, value)]).map Prod.fst).Nodup)

include hplain hkeys

/-- The placeholder of a new key stays until its turn comes. -/
private theorem fillFrom_new (rest : List Char) :
    fillFrom values 0 ((placeholder key).toList ++ rest)
      = (placeholder key).toList ++ fillFrom values 0 rest := by
  obtain ⟨hvalues, hkey⟩ := List.forall_mem_append.mp hplain
  rw [List.map_append, List.nodup_append] at hkeys
  exact fillFrom_placeholder_of_notMem hvalues (hkey _ (List.mem_singleton_self _))
    (fun hmem => hkeys.2.2 key hmem key (List.mem_singleton_self _) rfl) rest

/-- Other placeholders are filled, and are none of the new key. -/
private theorem fillFrom_old {entry : String × String} (hentry : entry ∈ values)
    (rest : List Char) :
    fillFrom values 0 ((placeholder entry.1).toList ++ rest)
        = entry.2.toList ++ fillFrom values 0 rest ∧
      countSlots key ((placeholder entry.1).toList ++ rest) = countSlots key rest := by
  obtain ⟨hvalues, hkey⟩ := List.forall_mem_append.mp hplain
  rw [List.map_append, List.nodup_append] at hkeys
  have hne : key ≠ entry.1 := fun heq =>
    hkeys.2.2 entry.1 (List.mem_map_of_mem hentry) key (List.mem_singleton_self _) heq.symm
  exact ⟨fillFrom_placeholder (slot?_placeholder hvalues hkeys.1 hentry rest),
    countSlots_placeholder_of_ne (hkey _ (List.mem_singleton_self _)) (hvalues entry hentry) hne
      rest⟩

/-- Filling in other keys takes no placeholder away. -/
theorem countSlots_le_fillFrom (text : List Char) :
    countSlots key text ≤ countSlots key (fillFrom values 0 text) := by
  have hkey : PlainKey key := hplain (key, value) (by simp)
  induction text using reading_induction (values ++ [(key, value)]) with
  | nil => exact Nat.le_refl _
  | slot entry hentry rest ih =>
    rcases List.mem_append.mp hentry with hold | hnew
    · obtain ⟨hread, hcount⟩ := fillFrom_old hplain hkeys hold rest
      rw [hread, hcount]
      exact Nat.le_trans ih (countSlots_le_append key _ _)
    · obtain rfl := List.mem_singleton.mp hnew
      rw [fillFrom_new hplain hkeys, countSlots_placeholder hkey, countSlots_placeholder hkey]
      exact Nat.succ_le_succ ih
  | own c rest hnone ih =>
    obtain ⟨hvalues, hkey⟩ := slot?_append_eq_none hnone
    rw [fillFrom_own hvalues, countSlots_cons_of_not hkey]
    exact Nat.le_trans ih (countSlots_le_cons key c _)

/-- **One more key is filled in what the others left**, if these made no placeholders of it. -/
theorem fillFrom_insert {text : List Char}
    (h : countSlots key (fillFrom values 0 text) = countSlots key text) :
    fillFrom [(key, value)] 0 (fillFrom values 0 text)
      = fillFrom (values ++ [(key, value)]) 0 text := by
  have hkey : PlainKey key := hplain (key, value) (by simp)
  have hle := countSlots_le_fillFrom hplain hkeys
  -- The text is read as the whole substitution reads it, slot by slot.
  induction text using reading_induction (values ++ [(key, value)]) with
  | nil => rfl
  | slot entry hentry rest ih =>
    have hall := fillFrom_placeholder (slot?_placeholder hplain hkeys hentry rest)
    have hrest := hle rest
    rcases List.mem_append.mp hentry with hold | hnew
    · -- The inserted text holds no placeholder, and the text behind it no more than it had.
      obtain ⟨hread, hcount⟩ := fillFrom_old hplain hkeys hold rest
      rw [hread, hcount] at h
      have hbehind := countSlots_le_append key entry.2.toList (fillFrom values 0 rest)
      have hvalue : countSlots key (entry.2.toList ++ fillFrom values 0 rest)
          ≤ countSlots key (fillFrom values 0 rest) := by omega
      rw [hread, hall, fillFrom_append_of_countSlots hvalue, ih (by omega)]
    · obtain rfl := List.mem_singleton.mp hnew
      rw [fillFrom_new hplain hkeys, countSlots_placeholder hkey, countSlots_placeholder hkey] at h
      have hplain' : ∀ entry ∈ [(key, value)], PlainKey entry.1 := by simpa using hkey
      have hkeys' : ([(key, value)].map Prod.fst).Nodup := by simp
      have hslot := slot?_placeholder hplain' hkeys' (List.mem_singleton_self (key, value))
        (fillFrom values 0 rest)
      rw [hall, fillFrom_new hplain hkeys, fillFrom_placeholder hslot, ih (by omega)]
  | own c rest hnone ih =>
    obtain ⟨hvalues, hown⟩ := slot?_append_eq_none hnone
    rw [fillFrom_own hvalues, countSlots_cons_of_not hown] at h
    have hrest := hle rest
    have hbehind := countSlots_le_cons key c (fillFrom values 0 rest)
    have hchar : countSlots key ([c] ++ fillFrom values 0 rest)
        ≤ countSlots key (fillFrom values 0 rest) := by
      rw [List.singleton_append]
      omega
    have hread : fillFrom [(key, value)] 0 ([c] ++ fillFrom values 0 rest)
        = [c] ++ fillFrom [(key, value)] 0 (fillFrom values 0 rest) :=
      fillFrom_append_of_countSlots hchar
    rw [List.singleton_append, List.singleton_append] at hread
    rw [fillFrom_own hvalues, fillFrom_own hnone, hread, ih (by omega)]

end Insertion

/-! ### Replacing one placeholder -/

theorem isSome_dropLeading? (beginning text : List Char) :
    (dropLeading? beginning text).isSome = beginning.isPrefixOf text := by
  induction beginning generalizing text with
  | nil => rfl
  | cons c beginning ih =>
    cases text with
    | nil => rfl
    | cons d text =>
      rw [dropLeading?, List.isPrefixOf]
      by_cases h : c = d
      · rw [if_pos h, ih, h]
        simp
      · rw [if_neg h]
        simp [h]

theorem fillFrom_singleton (key value : String) (skip : Nat) (text : List Char) :
    fillFrom [(key, value)] skip text
      = replaceFrom (placeholder key).toList value.toList skip text := by
  fun_induction fillFrom [(key, value)] skip text with
  | case1 => simp [replaceFrom]
  | case2 skip c rest ih => rw [ih, replaceFrom]
  | case3 c rest entry hslot ih =>
    obtain ⟨hmem, hstart⟩ := slot?_eq_some hslot
    obtain rfl := List.mem_singleton.mp hmem
    rw [replaceFrom, isSome_dropLeading?, if_pos (List.isPrefixOf_iff_prefix.mpr hstart), ih]
  | case4 c rest hslot ih =>
    have hstart := slot?_eq_none_iff.mp hslot _ (List.mem_singleton_self _)
    rw [replaceFrom, isSome_dropLeading?,
      if_neg (fun h => hstart (List.isPrefixOf_iff_prefix.mp h)), ih]

/-- For a single key, to replace its placeholders is to fill them at once. -/
theorem fillAtOnce_singleton (text key value : String) :
    fillAtOnce text [(key, value)] = replaceText text (placeholder key) value := by
  rw [fillAtOnce, fillFrom_singleton, replaceText, replaceAll]

/-! ### Whole lists -/

section Whole

variable {template : String} {values other : List (String × String)}

theorem fillFrom_nil (text : List Char) : fillFrom [] 0 text = text := by
  induction text with
  | nil => rfl
  | cons c rest ih => rw [fillFrom_own rfl, ih]

theorem fillAtOnce_nil (template : String) : fillAtOnce template [] = template := by
  rw [fillAtOnce, fillFrom_nil, String.ofList_toList]

/-- **At once the order of the pairs does not matter.** -/
theorem fillAtOnce_perm (hplain : ∀ entry ∈ values, PlainKey entry.1)
    (hkeys : (values.map Prod.fst).Nodup) (hperm : other.Perm values) :
    fillAtOnce template other = fillAtOnce template values := by
  have hplain' : ∀ entry ∈ other, PlainKey entry.1 :=
    fun entry hentry => hplain entry (hperm.mem_iff.mp hentry)
  have hkeys' : (other.map Prod.fst).Nodup := (hperm.map Prod.fst).nodup_iff.mpr hkeys
  rw [fillAtOnce, fillAtOnce]
  congr 1
  induction template.toList using reading_induction values with
  | nil => rfl
  | slot entry hentry rest ih =>
    rw [fillFrom_placeholder (slot?_placeholder hplain hkeys hentry rest),
      fillFrom_placeholder (slot?_placeholder hplain' hkeys' (hperm.mem_iff.mpr hentry) rest), ih]
  | own c rest hnone ih =>
    have hnone' : slot? other (c :: rest) = none :=
      slot?_eq_none_iff.mpr fun entry hentry =>
        slot?_eq_none_iff.mp hnone entry (hperm.mem_iff.mp hentry)
    rw [fillFrom_own hnone, fillFrom_own hnone', ih]

/-- Of each key the pairs before it are filled in. -/
theorem noneArises_iff :
    NoneArises template values ↔ ∀ i : Fin values.length,
      countSlots values[i].1 (fillAtOnce template (values.take i)).toList
        = countSlots values[i].1 template.toList := by
  constructor
  · intro h i
    exact h _ _ (values.drop (i + 1)) (by simp)
  · rintro h before entry after rfl
    simpa using h ⟨before.length, by simp⟩

instance : Decidable (NoneArises template values) :=
  decidable_of_iff _ noneArises_iff.symm

/-- Without dollar signs in the values, and with none in the template but those of placeholders,
no placeholders arise. -/
theorem noneArises_of_dollar (hplain : ∀ entry ∈ values, PlainKey entry.1)
    (hkeys : (values.map Prod.fst).Nodup) (hvalues : ∀ entry ∈ values, '$' ∉ entry.2.toList)
    (htemplate : ∀ rest, '$' :: rest <:+ template.toList → slot? values ('$' :: rest) ≠ none) :
    NoneArises template values := by
  rintro before entry after rfl
  have hentry := hplain entry (by simp)
  have hbefore : ∀ other ∈ before, PlainKey other.1 :=
    fun other hother => hplain other (List.mem_append_left _ hother)
  have hkeys' := hkeys
  rw [List.map_append, List.nodup_append] at hkeys'
  rw [fillAtOnce, String.toList_ofList]
  generalize template.toList = text at htemplate ⊢
  -- The text is read with all the values, those still to be filled in among them.
  induction text using reading_induction (before ++ entry :: after) with
  | nil => rfl
  | slot other hother rest ih =>
    have hrest := ih fun behind hbehind => htemplate behind (hbehind.trans (List.suffix_append _ _))
    rcases List.mem_append.mp hother with hold | hnew
    · have hne : entry.1 ≠ other.1 := fun heq =>
        hkeys'.2.2 other.1 (List.mem_map_of_mem hold) entry.1 (by simp) heq.symm
      rw [fillFrom_placeholder (slot?_placeholder hbefore hkeys'.1 hold rest),
        countSlots_append_of_notMem (hvalues other hother), hrest,
        countSlots_placeholder_of_ne hentry (hplain other hother) hne]
    · have hstays := fillFrom_placeholder_of_notMem hbefore (hplain other hother)
        (fun hmem => hkeys'.2.2 other.1 hmem other.1 (List.mem_map_of_mem hnew) rfl) rest
      rw [hstays]
      by_cases heq : entry.1 = other.1
      · rw [← heq, countSlots_placeholder hentry, countSlots_placeholder hentry, hrest]
      · rw [countSlots_placeholder_of_ne hentry (hplain other hother) heq,
          countSlots_placeholder_of_ne hentry (hplain other hother) heq, hrest]
  | own c rest hnone ih =>
    have hrest := ih fun behind hbehind => htemplate behind (hbehind.trans (List.suffix_cons _ _))
    -- A dollar sign here would be no placeholder, and the template holds no such one.
    have hc : c ≠ '$' := by
      rintro rfl
      exact htemplate rest List.suffix_rfl hnone
    have hnone' : slot? before (c :: rest) = none :=
      slot?_eq_none_iff.mpr fun other _ => not_placeholder_start hc
    rw [fillFrom_own hnone', countSlots_cons_of_not (not_placeholder_start hc),
      countSlots_cons_of_not (not_placeholder_start hc), hrest]

theorem NoneArises.of_append {entry : String × String}
    (h : NoneArises template (values ++ [entry])) :
    NoneArises template values ∧
      countSlots entry.1 (fillAtOnce template values).toList
        = countSlots entry.1 template.toList := by
  refine ⟨?_, h values entry [] rfl⟩
  intro before earlier after heq
  exact h before earlier (after ++ [entry]) (by simp [heq])

theorem fill_append (template : String) (values : List (String × String))
    (entry : String × String) :
    fill template (values ++ [entry])
      = replaceText (fill template values) (placeholder entry.1) entry.2 := by
  rw [fill, List.foldl_append, List.foldl_cons, List.foldl_nil, fill]

/-- Where no placeholders arise, to fill key by key is to fill at once. -/
theorem fill_eq_of_noneArises (hplain : ∀ entry ∈ values, PlainKey entry.1)
    (hkeys : (values.map Prod.fst).Nodup) (h : NoneArises template values) :
    fill template values = fillAtOnce template values := by
  induction values using List.reverseRecOn with
  | nil => exact (fillAtOnce_nil template).symm
  | append_singleton values entry ih =>
    obtain ⟨hvalues, hentry⟩ := h.of_append
    have hearlier := ih (fun other hother => hplain other (List.mem_append_left _ hother))
      (by rw [List.map_append, List.nodup_append] at hkeys; exact hkeys.1) hvalues
    rw [fillAtOnce, String.toList_ofList] at hentry
    rw [fill_append, hearlier, ← fillAtOnce_singleton, fillAtOnce, fillAtOnce, fillAtOnce,
      String.toList_ofList, fillFrom_insert hplain hkeys hentry]

/-- **Filling key by key** is filling at once, in any order of the pairs, where no placeholders
arise. -/
theorem fill_eq_fillAtOnce (hplain : ∀ entry ∈ values, PlainKey entry.1)
    (hkeys : (values.map Prod.fst).Nodup) (h : NoneArises template values) :
    fill template values = fillAtOnce template values ∧
      ∀ other, other.Perm values → NoneArises template other →
        fill template other = fill template values := by
  have hvalues := fill_eq_of_noneArises hplain hkeys h
  refine ⟨hvalues, fun other hperm hother => ?_⟩
  have hplain' : ∀ entry ∈ other, PlainKey entry.1 :=
    fun entry hentry => hplain entry (hperm.mem_iff.mp hentry)
  have hkeys' : (other.map Prod.fst).Nodup := (hperm.map Prod.fst).nodup_iff.mpr hkeys
  rw [fill_eq_of_noneArises hplain' hkeys' hother, fillAtOnce_perm hplain hkeys hperm, hvalues]

end Whole

/-- A value that writes the placeholder of an earlier key stays as it is written. -/
theorem fill_eq_fillAtOnce_keyType :
    (∀ entry ∈ [("key", "Size"), ("type", "$\x7bkey\x7d[]")], PlainKey entry.1) ∧
      ([("key", "Size"), ("type", "$\x7bkey\x7d[]")].map Prod.fst).Nodup ∧
      NoneArises "\x7b [key: $\x7bkey\x7d]: $\x7btype\x7d \x7d"
        [("key", "Size"), ("type", "$\x7bkey\x7d[]")] ∧
      fill "\x7b [key: $\x7bkey\x7d]: $\x7btype\x7d \x7d"
          [("key", "Size"), ("type", "$\x7bkey\x7d[]")]
        = "\x7b [key: Size]: $\x7bkey\x7d[] \x7d" := by
  have hplain : ∀ entry ∈ [("key", "Size"), ("type", "$\x7bkey\x7d[]")], PlainKey entry.1 := by
    decide
  have hkeys : ([("key", "Size"), ("type", "$\x7bkey\x7d[]")].map Prod.fst).Nodup := by decide
  have hnone : NoneArises "\x7b [key: $\x7bkey\x7d]: $\x7btype\x7d \x7d"
      [("key", "Size"), ("type", "$\x7bkey\x7d[]")] := by decide
  exact ⟨hplain, hkeys, hnone, (fill_eq_fillAtOnce hplain hkeys hnone).1.trans (by decide)⟩

/-- **A value that writes the placeholder of a later key is filled itself**, and the order of the
pairs shows. -/
theorem not_fill_eq_fillAtOnce_nameType :
    ([("name", "$\x7btype\x7d"), ("type", "string")].map Prod.fst).Nodup ∧
      fillAtOnce "$\x7bname\x7d: $\x7btype\x7d" [("name", "$\x7btype\x7d"), ("type", "string")]
        = "$\x7btype\x7d: string" ∧
      fill "$\x7bname\x7d: $\x7btype\x7d" [("name", "$\x7btype\x7d"), ("type", "string")]
        = "string: string" ∧
      fill "$\x7bname\x7d: $\x7btype\x7d" [("type", "string"), ("name", "$\x7btype\x7d")]
        = "$\x7btype\x7d: string" := by
  decide

end RpcSchema
