import RpcSchema.Dereference
import RpcSchema.Proofs.Json.Objects

/-!
# Laying keywords over a target

The members that result when the keywords beside a reference are laid over its target:
what is found under each name, and what carries over from the objects that are put
together to the object that results.

## Main results

* `get?_overlay` — what is found under a name.
* `Json.EveryObject.overlayTarget` — what holds of all objects on both sides holds of
  all objects in the result, if it survives giving names of one object to the other.
* `Json.Lacks.overlayTarget`, `Json.DistinctNames.overlayTarget` — two such properties.
-/

namespace RpcSchema

/-- The value of a keyword of a target with the keywords beside the reference laid
over it. -/
def laidOver (beside : Fields Json) (entry : String × Json) : Json :=
  match Fields.get? beside entry.1 with
  | some mine => overlayKeyword entry.1 mine entry.2
  | none => entry.2

/-- Laying keywords over one keyword of a target gives that keyword a value. -/
theorem overlayMember_eq_set (beside : Fields Json) (entry : String × Json) :
    overlayMember beside entry = Fields.set beside entry.1 (laidOver beside entry) := by
  unfold overlayMember laidOver
  cases h : Fields.get? beside entry.1 with
  | none =>
    dsimp only
    rw [Fields.set_of_notMem (Fields.get?_eq_none_iff.mp h)]
  | some mine => rfl

/-! ### Look-up -/

/-- **What is found under a name** when keywords are laid over those of a target. -/
theorem get?_overlay {beside fields : Fields Json} (h : (Fields.keys fields).Nodup)
    (name : String) :
    Fields.get? (fields.foldl overlayMember beside) name =
      match Fields.get? beside name, Fields.get? fields name with
      | some mine, some theirs => some (overlayKeyword name mine theirs)
      | some mine, none => some mine
      | none, theirs => theirs := by
  induction fields generalizing beside with
  | nil => cases hbeside : Fields.get? beside name <;> simp [hbeside]
  | cons entry rest ih =>
    obtain ⟨other, value⟩ := entry
    obtain ⟨hother, hrest⟩ := List.nodup_cons.mp h
    rw [List.foldl_cons, ih hrest, overlayMember_eq_set]
    by_cases hname : other = name
    · obtain rfl := hname
      rw [Fields.get?_eq_none_iff.mpr hother, Fields.get?_set_self, Fields.get?_cons, if_pos rfl]
      cases hbeside : Fields.get? beside other <;> simp [laidOver, hbeside]
    · rw [Fields.get?_set_of_ne _ _ (Ne.symm hname), Fields.get?_cons, if_neg hname]

/-- Laying keywords over those of a target keeps names distinct. -/
theorem nodup_keys_overlay {beside fields : Fields Json} (h : (Fields.keys beside).Nodup) :
    (Fields.keys (fields.foldl overlayMember beside)).Nodup := by
  induction fields generalizing beside with
  | nil => exact h
  | cons entry rest ih =>
    rw [List.foldl_cons, overlayMember_eq_set]
    exact ih (Fields.nodup_keys_set h _ _)

/-! ### Properties of all objects -/

section EveryObject

variable {p : Fields Json → Prop} {q : String → Prop}

private theorem everyObject_set (hset : ∀ fields name value, p fields → q name →
      p (Fields.set fields name value)) {fields : Fields Json} {name : String} {value : Json}
    (h : (Json.object fields).EveryObject p) (hname : q name)
    (hvalue : value.EveryObject p) :
    (Json.object (Fields.set fields name value)).EveryObject p := by
  rw [Json.everyObject_object_iff] at h ⊢
  refine ⟨hset _ _ _ h.1 hname, fun other part hmem => ?_⟩
  rcases Fields.mem_set hmem with heq | hmem
  · exact (Prod.mk.inj heq).2 ▸ hvalue
  · exact h.2 other part hmem

private theorem everyObject_foldl_set (hset : ∀ fields name value, p fields → q name →
      p (Fields.set fields name value)) {mine theirs : Fields Json}
    (hmine : ∀ name part, (name, part) ∈ mine → q name ∧ part.EveryObject p)
    (htheirs : (Json.object theirs).EveryObject p) :
    (Json.object (mine.foldl (fun merged entry => Fields.set merged entry.1 entry.2)
      theirs)).EveryObject p := by
  induction mine generalizing theirs with
  | nil => exact htheirs
  | cons entry rest ih =>
    obtain ⟨hname, hpart⟩ := hmine entry.1 entry.2 (List.mem_cons_self ..)
    exact ih (fun name part hmem => hmine name part (List.mem_cons_of_mem _ hmem))
      (everyObject_set hset htheirs hname hpart)

private theorem everyObject_overlayKeyword (hset : ∀ fields name value, p fields → q name →
      p (Fields.set fields name value))
    (hnames : ∀ fields, p fields → ∀ name ∈ Fields.keys fields, q name) {keyword : String}
    {beside target : Json} (hbeside : beside.EveryObject p) (htarget : target.EveryObject p) :
    (overlayKeyword keyword beside target).EveryObject p := by
  unfold overlayKeyword
  split
  · next mine theirs =>
    obtain ⟨hmine, hparts⟩ := Json.everyObject_object_iff.mp hbeside
    exact everyObject_foldl_set hset
      (fun name part hmem => ⟨hnames _ hmine name (Fields.mem_keys_of_mem hmem),
        hparts name part hmem⟩) htarget
  · rw [Json.everyObject_array_iff] at hbeside htarget ⊢
    intro part hmem
    rcases mem_of_mem_unionOf hmem with hmem | hmem
    · exact htarget part hmem
    · exact hbeside part hmem
  · exact hbeside

/-- **What holds of all objects on both sides holds of all objects in the result**, if it
survives giving a member to an object under a name that is allowed, and only allows
such names. -/
theorem Json.EveryObject.overlayTarget (hset : ∀ fields name value, p fields → q name →
      p (Fields.set fields name value))
    (hnames : ∀ fields, p fields → ∀ name ∈ Fields.keys fields, q name)
    {beside : Fields Json} {target : Json} (hbeside : (Json.object beside).EveryObject p)
    (htarget : target.EveryObject p) : (overlayTarget beside target).EveryObject p := by
  unfold RpcSchema.overlayTarget
  split
  · next fields =>
    obtain ⟨hfields, hparts⟩ := Json.everyObject_object_iff.mp htarget
    have hentries : ∀ name part, (name, part) ∈ fields → q name ∧ part.EveryObject p :=
      fun name part hmem => ⟨hnames _ hfields name (Fields.mem_keys_of_mem hmem),
        hparts name part hmem⟩
    clear htarget hfields hparts
    induction fields generalizing beside with
    | nil => exact hbeside
    | cons entry rest ih =>
      obtain ⟨hname, hpart⟩ := hentries entry.1 entry.2 (List.mem_cons_self ..)
      refine ih ?_ fun name part hmem => hentries name part (List.mem_cons_of_mem _ hmem)
      rw [overlayMember_eq_set]
      refine everyObject_set hset hbeside hname ?_
      unfold laidOver
      split
      · next mine hmine =>
        exact everyObject_overlayKeyword hset hnames
          ((Json.everyObject_object_iff.mp hbeside).2 _ _ (Fields.mem_of_get? hmine)) hpart
      · exact hpart
  · split
    · exact htarget
    · exact hbeside

/-- Removal from an object leaves what holds of all its objects, if removal keeps it. -/
theorem Json.EveryObject.swapErase (hp : ∀ fields key, p fields → p (Fields.swapErase fields key))
    {fields : Fields Json} (h : (Json.object fields).EveryObject p) (key : String) :
    (Json.object (Fields.swapErase fields key)).EveryObject p := by
  rw [Json.everyObject_object_iff] at h ⊢
  exact ⟨hp _ _ h.1, fun name part hmem => h.2 name part (Fields.mem_of_mem_swapErase hmem)⟩

end EveryObject

namespace Json

variable {beside : Fields Json} {target : Json} {key : String}

theorem Lacks.overlayTarget (hbeside : (object beside).Lacks key) (htarget : target.Lacks key) :
    (overlayTarget beside target).Lacks key := by
  refine EveryObject.overlayTarget (q := (· ≠ key)) ?_ ?_ hbeside htarget
  · intro fields name value hfields hname hmem
    obtain ⟨part, hpart⟩ := Fields.mem_keys.mp hmem
    rcases Fields.mem_set hpart with heq | hpart
    · exact hname (Prod.mk.inj heq).1.symm
    · exact hfields (Fields.mem_keys_of_mem hpart)
  · intro fields hfields name hname heq
    exact hfields (heq ▸ hname)

theorem Lacks.swapErase {fields : Fields Json} (h : (object fields).Lacks key) (name : String) :
    (object (Fields.swapErase fields name)).Lacks key := by
  refine EveryObject.swapErase (fun fields name hfields hmem => ?_) h name
  obtain ⟨part, hpart⟩ := Fields.mem_keys.mp hmem
  exact hfields (Fields.mem_keys_of_mem (Fields.mem_of_mem_swapErase hpart))

theorem DistinctNames.overlayTarget (hbeside : (object beside).DistinctNames)
    (htarget : target.DistinctNames) : (overlayTarget beside target).DistinctNames :=
  EveryObject.overlayTarget (fun _ name value h _ => Fields.nodup_keys_set h name value)
    (fun _ _ _ _ => trivial) hbeside htarget

theorem DistinctNames.set {fields : Fields Json} {value : Json} (h : (object fields).DistinctNames)
    (hvalue : value.DistinctNames) (name : String) :
    (object (Fields.set fields name value)).DistinctNames :=
  everyObject_set (q := fun _ => True)
    (fun _ name value hfields _ => Fields.nodup_keys_set hfields name value) h trivial hvalue

theorem DistinctNames.swapErase {fields : Fields Json} (h : (object fields).DistinctNames)
    (name : String) : (object (Fields.swapErase fields name)).DistinctNames :=
  EveryObject.swapErase (fun _ name hfields => Fields.nodup_keys_swapErase hfields name) h name

end Json

end RpcSchema
