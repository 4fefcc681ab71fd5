import RpcSchema.Dereference
import RpcSchema.Proofs.Json.Objects

/-!
# Calls of the walk

The walk calls itself in two ways: for a part of the value that it walks, and for
the target of a reference that it expands, be it inlined or copied.  Parts are
smaller than the value; targets are not, they are parts of documents.

The walk is defined with a bound on the expansions within expansions.  The
recursion without a bound is stated here as an equation, `IsWalk`, that a function
satisfies on every call that it comes to make.

## Main definitions

* `Call` — a value and the frame it is walked in.
* `Descends`, `Expands` — the calls that a call makes, for parts and for targets.
* `Reaches` — the calls that a call leads to, with the canonical references
  expanded on the way.
* `IsWalk` — the recursion of the walk, without a bound.

## Main results

* `Walk.value_congr` — a call depends on the store and the treatment of targets only
  through the references it meets and the expansions it makes.
-/

namespace RpcSchema

open Relation

/-- A value and the frame it is walked in. -/
structure Call where
  frame : Frame
  value : Json

/-- The call that dereferences a value that stands at a path of a document. -/
def Call.start (context : Source) (path : String) (node : Json) : Call :=
  ⟨.start context path, node⟩

/-- Members make the reference that is spelled out in them. -/
theorem referenceOf?_eq_some_iff {fields : Fields Json} {reference : String} :
    referenceOf? fields = some reference ↔
      Fields.get? fields "$ref" = some (.string reference) := by
  rw [referenceOf?, Option.bind_eq_some_iff]
  constructor
  · rintro ⟨value, hvalue, hstring⟩
    cases value with
    | string text => rw [hvalue, Option.some.inj hstring]
    | _ => cases hstring
  · exact fun hget => ⟨_, hget, rfl⟩

/-- Members make a reference that has a target, as seen from a document. -/
structure RefersTo (store : Store) (source : Source) (fields : Fields Json)
    (reference : String) (target : Target) : Prop where
  made : referenceOf? fields = some reference
  found : store.locate? reference source = some target

/-- Members make one reference, and it has one target. -/
theorem RefersTo.unique {store : Store} {source : Source} {fields : Fields Json}
    {reference reference' : String} {target target' : Target}
    (h : RefersTo store source fields reference target)
    (h' : RefersTo store source fields reference' target') :
    reference' = reference ∧ target' = target := by
  obtain rfl : reference' = reference := Option.some.inj (h'.made.symm.trans h.made)
  exact ⟨rfl, Option.some.inj (h'.found.symm.trans h.found)⟩

/-- The frame of the members of an object.  What stands beside a reference is
walked in the frame of the reference. -/
def Frame.inside (frame : Frame) (fields : Fields Json) : Frame :=
  match referenceOf? fields with
  | some _ => frame
  | none => frame.enter fields

theorem Frame.inside_of_none {fields : Fields Json} (h : referenceOf? fields = none)
    (frame : Frame) : frame.inside fields = frame.enter fields := by
  rw [Frame.inside, h]

theorem Frame.inside_of_some {fields : Fields Json} {reference : String}
    (h : referenceOf? fields = some reference) (frame : Frame) : frame.inside fields = frame := by
  rw [Frame.inside, h]

@[simp] theorem Frame.inside_source (frame : Frame) (fields : Fields Json) :
    (frame.inside fields).source = frame.source := by
  unfold Frame.inside
  split <;> rfl

@[simp] theorem Frame.inside_path (frame : Frame) (fields : Fields Json) :
    (frame.inside fields).path = frame.path := by
  unfold Frame.inside
  split <;> rfl

@[simp] theorem Frame.inside_home (frame : Frame) (fields : Fields Json) :
    (frame.inside fields).home = frame.home := by
  unfold Frame.inside
  split <;> rfl

@[simp] theorem Frame.inside_expanding (frame : Frame) (fields : Fields Json) :
    (frame.inside fields).expanding = frame.expanding := by
  unfold Frame.inside
  split <;> rfl

/-- `Descends call part` says that `call` walks a part of its value by `part`. -/
inductive Descends : Call → Call → Prop
  /-- A member of an object, unless it holds data. -/
  | member {frame : Frame} {fields : Fields Json} {name : String} {part : Json}
      (hmem : (name, part) ∈ fields) (hname : isOpaqueKeyword name = false) :
      Descends ⟨frame, .object fields⟩ ⟨(frame.inside fields).member name, part⟩
  /-- An item of an array. -/
  | item {frame : Frame} {items : List Json} {index : Nat} {part : Json}
      (hitem : items[index]? = some part) :
      Descends ⟨frame, .array items⟩ ⟨frame.item index, part⟩

/-- `Expands setting call key next` says that `call` walks the target of the
reference that its value makes by `next`, and that `key` is the canonical form of
the reference. -/
inductive Expands (setting : WalkSetting) : Call → String → Call → Prop
  /-- The target takes the place of the reference. -/
  | inline {frame : Frame} {fields : Fields Json} {reference : String} {target : Target}
      (href : RefersTo setting.store frame.source fields reference target)
      (htreat : Walk.treatment setting.options frame reference target = .inline) :
      Expands setting ⟨frame, .object fields⟩ (target.canonical frame.home reference)
        ⟨frame.expand target.source (target.canonical frame.home reference), target.node⟩
  /-- The target is copied, unless there is a copy of it in the making. -/
  | copy {frame : Frame} {fields : Fields Json} {reference name : String} {target : Target}
      (href : RefersTo setting.store frame.source fields reference target)
      (htreat : Walk.treatment setting.options frame reference target = .copy name)
      (hnew : target.canonical frame.home reference ∉ frame.expanding) :
      Expands setting ⟨frame, .object fields⟩ (target.canonical frame.home reference)
        ⟨(frame.expand target.source (target.canonical frame.home reference)).goTo
          (Reference.toComponent name), target.node⟩

/-- `Reaches setting start keys call` says that `start` leads to `call` by a chain of
calls that expands the canonical references `keys`, the last one first. -/
inductive Reaches (setting : WalkSetting) (start : Call) : List String → Call → Prop
  | start : Reaches setting start [] start
  | descend {keys : List String} {call part : Call} (h : Reaches setting start keys call)
      (hpart : Descends call part) : Reaches setting start keys part
  | expand {keys : List String} {call next : Call} {key : String}
      (h : Reaches setting start keys call) (hnext : Expands setting call key next) :
      Reaches setting start (key :: keys) next

/-- `Calls setting call next` says that `call` makes the call `next`. -/
def Calls (setting : WalkSetting) (call next : Call) : Prop :=
  Descends call next ∨ ∃ key, Expands setting call key next

/-- `IsWalk setting start walk` says that `walk` is the walk without a bound, on all
calls that `start` leads to: it treats targets by itself. -/
def IsWalk (setting : WalkSetting) (start : Call) (walk : Frame → Json → Walking Json) : Prop :=
  ∀ keys call, Reaches setting start keys call →
    walk call.frame call.value = Walk.value setting walk call.frame call.value

/-! ### Treatments of references -/

section Treatment

variable {options : DereferenceOptions} {frame : Frame} {reference : String} {target : Target}

/-- A reference is kept only when it points into the document worked on. -/
theorem Walk.treatment_eq_keep_iff :
    Walk.treatment options frame reference target = .keep ↔
      options.externalOnly = true ∧ target.source.origin = frame.home := by
  unfold Walk.treatment
  grind

/-- A target is copied only when it stands in another document than the one worked on. -/
theorem Walk.origin_ne_context_of_copy {name : String}
    (h : Walk.treatment options frame reference target = .copy name) :
    options.localizeExternal = true ∧ target.source.origin ≠ frame.home := by
  unfold Walk.treatment at h
  grind

/-- Only a reference that is neither being expanded nor that of an enclosing schema
gives way to its target. -/
theorem Walk.not_cycle_of_inline (h : Walk.treatment options frame reference target = .inline) :
    Reference.fragment reference ≠ "#" ∧
      target.canonical frame.home reference ∉ frame.expanding ∧
        target.canonical frame.home reference ∉ frame.named := by
  unfold Walk.treatment at h
  grind

/-- Where references into the document worked on are kept, only targets in other documents take
the place of references. -/
theorem Walk.origin_ne_context_of_inline
    (h : Walk.treatment options frame reference target = .inline)
    (hexternal : options.externalOnly = true) : target.source.origin ≠ frame.home := by
  unfold Walk.treatment at h
  grind

end Treatment

/-! ### Chains of calls -/

section Chains

variable {setting : WalkSetting} {start call next : Call} {key : String} {keys : List String}

theorem Descends.hasPart {part : Call} (h : Descends call part) :
    Json.HasPart call.value part.value := by
  cases h with
  | member hmem => exact .member hmem
  | item hitem => exact .item (List.mem_of_getElem? hitem)

theorem Descends.source_eq {part : Call} (h : Descends call part) :
    part.frame.source = call.frame.source := by
  cases h with
  | member => exact Frame.inside_source _ _
  | item => rfl

theorem Descends.home_eq {part : Call} (h : Descends call part) :
    part.frame.home = call.frame.home := by
  cases h with
  | member => exact Frame.inside_home _ _
  | item => rfl

theorem Descends.expanding_eq {part : Call} (h : Descends call part) :
    part.frame.expanding = call.frame.expanding := by
  cases h with
  | member => exact Frame.inside_expanding _ _
  | item => rfl

theorem Expands.expanding_eq (h : Expands setting call key next) :
    next.frame.expanding = key :: call.frame.expanding := by
  cases h <;> rfl

/-- A reference that is being expanded is not expanded again. -/
theorem Expands.not_mem_expanding (h : Expands setting call key next) :
    key ∉ call.frame.expanding := by
  cases h with
  | inline _ htreat => exact (Walk.not_cycle_of_inline htreat).2.1
  | copy _ _ hnew => exact hnew

theorem Reaches.within {part : Call} (h : Reaches setting start keys call)
    (hpart : ReflTransGen Descends call part) : Reaches setting start keys part := by
  induction hpart with
  | refl => exact h
  | tail _ hpart ih => exact ih.descend hpart

/-- A call leads to all calls that are made one after another. -/
theorem exists_reaches (h : ReflTransGen (Calls setting) start call) :
    ∃ keys, Reaches setting start keys call := by
  induction h with
  | refl => exact ⟨[], .start⟩
  | tail _ hcall ih =>
    obtain ⟨keys, hreach⟩ := ih
    rcases hcall with hpart | ⟨key, hnext⟩
    · exact ⟨keys, hreach.descend hpart⟩
    · exact ⟨key :: keys, hreach.expand hnext⟩

/-- The references expanded on the way to a call are those being expanded there. -/
theorem Reaches.expanding_eq (h : Reaches setting start keys call) :
    call.frame.expanding = keys ++ start.frame.expanding := by
  induction h with
  | start => rfl
  | descend _ hpart ih => rw [hpart.expanding_eq, ih]
  | expand _ hnext ih => rw [hnext.expanding_eq, ih, List.cons_append]

/-- **A chain of calls expands no canonical reference twice.** -/
theorem Reaches.nodup (h : Reaches setting start keys call) : keys.Nodup := by
  induction h with
  | start => exact List.nodup_nil
  | descend _ _ ih => exact ih
  | expand h hnext ih =>
    refine List.nodup_cons.mpr ⟨fun hmem => hnext.not_mem_expanding ?_, ih⟩
    rw [h.expanding_eq]
    exact List.mem_append_left _ hmem

end Chains

/-! ### What a call depends on -/

/-- Two stores give the reference that the value of a call makes, if it makes one, the
same target. -/
def Call.SameTarget (store store' : Store) (call : Call) : Prop :=
  ∀ fields reference, call.value = .object fields → referenceOf? fields = some reference →
    store'.locate? reference call.frame.source = store.locate? reference call.frame.source

/-- Stores that give a reference the same target let it expand to the same calls. -/
theorem Expands.of_sameTarget {store store' : Store} {options : DereferenceOptions}
    {call next : Call} {key : String} (h : Expands ⟨store, options⟩ call key next)
    (hsame : call.SameTarget store store') : Expands ⟨store', options⟩ call key next := by
  have hrefers : ∀ {fields : Fields Json} {reference : String} {target : Target},
      call.value = .object fields → RefersTo store call.frame.source fields reference target →
        RefersTo store' call.frame.source fields reference target :=
    fun hvalue href => ⟨href.made, (hsame _ _ hvalue href.made).trans href.found⟩
  cases h with
  | inline href htreat => exact .inline (hrefers rfl href) htreat
  | copy href htreat hnew => exact .copy (hrefers rfl href) htreat hnew

/-- Stores that give the references met the same targets lead to the same calls. -/
theorem Reaches.of_sameTarget {store store' : Store} {options : DereferenceOptions}
    {start call : Call} {keys : List String} (h : Reaches ⟨store, options⟩ start keys call)
    (hsame : ∀ keys call, Reaches ⟨store, options⟩ start keys call →
      call.SameTarget store store') : Reaches ⟨store', options⟩ start keys call := by
  induction h with
  | start => exact .start
  | descend _ hpart ih => exact ih.descend hpart
  | expand hcall hnext ih => exact ih.expand (hnext.of_sameTarget (hsame _ _ hcall))

/-- Two stores, each with a treatment of targets, agree on a call: on the targets of the
references that it meets, in its value or in a part of it, and on their expansions. -/
structure AgreeWithin (store store' : Store) (options : DereferenceOptions)
    (inline inline' : Frame → Json → Walking Json) (call : Call) : Prop where
  targets : ∀ part, ReflTransGen Descends call part → part.SameTarget store store'
  expansions : ∀ part key next, ReflTransGen Descends call part →
    Expands ⟨store, options⟩ part key next →
      inline next.frame next.value = inline' next.frame next.value

section Congruence

variable {store store' : Store} {options : DereferenceOptions}
  {inline inline' : Frame → Json → Walking Json}

private theorem AgreeWithin.part {call part : Call}
    (h : AgreeWithin store store' options inline inline' call) (hpart : Descends call part) :
    AgreeWithin store store' options inline inline' part where
  targets := fun _ hdown => h.targets _ (ReflTransGen.head hpart hdown)
  expansions := fun _ _ _ hdown hnext =>
    h.expansions _ _ _ (ReflTransGen.head hpart hdown) hnext

/-- Replacing a reference depends on the treatment of targets only through its own
expansion. -/
private theorem replace_congr {frame : Frame} {fields : Fields Json} {reference : String}
    {target : Target} (href : RefersTo store frame.source fields reference target)
    (h : AgreeWithin store store' options inline inline' ⟨frame, .object fields⟩)
    (walked : Fields Json) :
    Walk.replace ⟨store, options⟩ inline frame reference target walked
      = Walk.replace ⟨store', options⟩ inline' frame reference target walked := by
  have hown : ∀ key next, Expands ⟨store, options⟩ ⟨frame, .object fields⟩ key next →
      inline next.frame next.value = inline' next.frame next.value :=
    fun key next hnext => h.expansions _ key next .refl hnext
  unfold Walk.replace
  dsimp only
  cases htreat : Walk.treatment options frame reference target with
  | keep => rfl
  | leave => rfl
  | inline =>
    have heq := hown _ _ (.inline href htreat)
    simp only [heq]
  | copy name =>
    by_cases hnew : target.canonical frame.home reference ∈ frame.expanding
    · simp [Walk.copy, hnew]
    · have heq := hown _ _ (.copy href htreat hnew)
      simp only [Walk.copy, heq]

mutual

/-- **A call depends on the store and on the treatment of targets only through the
references it meets and the expansions it makes**, directly or for a part of its value. -/
theorem Walk.value_congr : ∀ (frame : Frame) (value : Json),
    AgreeWithin store store' options inline inline' ⟨frame, value⟩ →
      Walk.value ⟨store, options⟩ inline frame value
        = Walk.value ⟨store', options⟩ inline' frame value
  | _, .null, _ => rfl
  | _, .bool _, _ => rfl
  | _, .number _, _ => rfl
  | _, .string _, _ => rfl
  | frame, .array items, h => by
    have hitems := Walk.items_congr frame 0 items fun index part hpart =>
      h.part (.item (by simpa using hpart))
    simp only [Walk.value, hitems]
  | frame, .object fields, h => by
    have hmembers := Walk.members_congr (frame.inside fields) fields fun name part hmem hname =>
      h.part (.member hmem hname)
    cases href : referenceOf? fields with
    | none =>
      rw [Frame.inside_of_none href] at hmembers
      simp only [Walk.value, href, hmembers]
    | some reference =>
      rw [Frame.inside_of_some href] at hmembers
      have hsame : store'.locate? reference frame.source = store.locate? reference frame.source :=
        h.targets _ .refl fields reference rfl href
      cases hfound : store.locate? reference frame.source with
      | none => simp only [Walk.value, href, hsame, hfound]
      | some target =>
        have hreplace := replace_congr ⟨href, hfound⟩ h
        simp only [Walk.value, href, hsame, hfound, hmembers, hreplace]

/-- The members of an object depend on the store and on the treatment of targets only
through the references they meet and the expansions they make. -/
theorem Walk.members_congr : ∀ (frame : Frame) (fields : Fields Json),
    (∀ name part, (name, part) ∈ fields → isOpaqueKeyword name = false →
      AgreeWithin store store' options inline inline' ⟨frame.member name, part⟩) →
      Walk.members ⟨store, options⟩ inline frame fields
        = Walk.members ⟨store', options⟩ inline' frame fields
  | _, [], _ => rfl
  | frame, (name, part) :: rest, h => by
    have hrest := Walk.members_congr frame rest fun other value hmem hother =>
      h other value (List.mem_cons_of_mem _ hmem) hother
    by_cases hname : isOpaqueKeyword name = true
    · simp only [Walk.members, hname, if_true, hrest]
    · have hpart := Walk.value_congr (frame.member name) part
        (h name part (List.mem_cons_self ..) (by simpa using hname))
      simp only [Walk.members, hname, hpart, hrest]

/-- The items of an array depend on the store and on the treatment of targets only
through the references they meet and the expansions they make. -/
theorem Walk.items_congr : ∀ (frame : Frame) (index : Nat) (items : List Json),
    (∀ offset part, items[offset]? = some part →
      AgreeWithin store store' options inline inline' ⟨frame.item (index + offset), part⟩) →
      Walk.items ⟨store, options⟩ inline frame index items
        = Walk.items ⟨store', options⟩ inline' frame index items
  | _, _, [], _ => rfl
  | frame, index, item :: rest, h => by
    have hitem := Walk.value_congr (frame.item index) item (h 0 item rfl)
    have hrest := Walk.items_congr frame (index + 1) rest fun offset part hpart => by
      have := h (offset + 1) part (by simpa using hpart)
      rwa [show index + (offset + 1) = index + 1 + offset by omega] at this
    simp only [Walk.items, hitem, hrest]

end

end Congruence

end RpcSchema
