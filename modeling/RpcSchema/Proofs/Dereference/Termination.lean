import Mathlib.Data.Finset.Card
import RpcSchema.Proofs.Dereference.Calls
import RpcSchema.Proofs.Store

/-!
# Dereferencing ends

Targets of references are parts of documents, so all references that a walk meets
are written in the value or in a document.  There are finitely many of them.  None
is expanded within itself, and so an expansion leaves fewer references that can be
expanded below it; a part of a value leaves as many, but is smaller than the value.

The bound on expansions within expansions exceeds the number of references, so it
is never met, and the walk with the bound is the walk without one.

## Main definitions

* `Store.written` — the references of a value and of all documents.
* `Call.InScope` — all references of the value of a call are written somewhere.
* `Store.pending` — the number of canonical references not being expanded.

## Main results

* `Reaches.nodup` — a chain of calls expands no canonical reference twice.
* `Call.InScope.acc` — calls end.
* `Store.isWalk_walkWithin` — the bound is never met.
* `dereferenceAt_terminates` — all of it, for dereferencing.
-/

namespace RpcSchema

open Relation

/-! ### References written in values and documents -/

namespace Store

/-- The references written in a value of the document worked on, and in all
documents, each with the document it is written in. -/
def written (store : Store) (context : Source) (node : Json) : List (Source × String) :=
  node.references.map (context, ·) ++
    (store.sources context).flatMap fun source =>
      source.document.root.references.map (source, ·)

/-- The canonical form of a reference written in a document, if it has a target. -/
def canonical? (store : Store) (home : Origin) (written : Source × String) : Option String :=
  (store.locate? written.2 written.1).map fun target => target.canonical home written.2

/-- The canonical references that can be expanded. -/
def keys (store : Store) (context : Source) (node : Json) : Finset String :=
  ((store.written context node).filterMap (store.canonical? context.origin)).toFinset

/-- The number of canonical references that a call can expand: those that are not
being expanded. -/
def pending (store : Store) (context : Source) (node : Json) (call : Call) : ℕ :=
  (store.keys context node \ call.frame.expanding.toFinset).card

variable {store : Store} {context : Source} {node : Json}

theorem length_written :
    (store.written context node).length = store.referenceCount context.document node := by
  simp only [written, sources, referenceCount, List.length_append, List.length_map,
    List.flatMap_cons, List.length_flatMap, List.map_map, Function.comp_def]
  omega

theorem card_keys_le :
    (store.keys context node).card ≤ store.referenceCount context.document node := by
  rw [← length_written]
  exact (List.toFinset_card_le _).trans (List.length_filterMap_le _ _)

end Store

/-- The references of a member are references of the object. -/
private theorem mem_references_of_member {name reference : String} {part : Json}
    (h : reference ∈ part.references) :
    ∀ {fields : Fields Json}, (name, part) ∈ fields → reference ∈ Json.referencesFields fields
  | (_, value) :: rest, hmem => by
    rw [Json.referencesFields, List.mem_append]
    rcases List.mem_cons.mp hmem with heq | hmem
    · obtain ⟨-, rfl⟩ := Prod.mk.inj heq
      exact Or.inl h
    · exact Or.inr (mem_references_of_member h hmem)

/-- The references of an item are references of the array. -/
private theorem mem_references_of_item {reference : String} {part : Json}
    (h : reference ∈ part.references) :
    ∀ {items : List Json}, part ∈ items → reference ∈ Json.referencesItems items
  | item :: rest, hmem => by
    rw [Json.referencesItems, List.mem_append]
    rcases List.mem_cons.mp hmem with rfl | hmem
    · exact Or.inl h
    · exact Or.inr (mem_references_of_item h hmem)

/-- The references of a part are references of the value. -/
theorem mem_references_of_hasPart {value part : Json} {reference : String}
    (hpart : ReflTransGen Json.HasPart value part) (h : reference ∈ part.references) :
    reference ∈ value.references := by
  induction hpart using ReflTransGen.head_induction_on with
  | refl => exact h
  | head hpart _ ih =>
    cases hpart with
    | member hmem =>
      rw [Json.references, List.mem_append]
      exact Or.inr (mem_references_of_member ih hmem)
    | item hmem =>
      rw [Json.references]
      exact mem_references_of_item ih hmem

/-! ### Calls whose references are written somewhere -/

namespace Call

variable {store : Store} {options : DereferenceOptions} {context : Source} {node : Json}

/-- All references of the value of a call are written somewhere, and its document is
in reach of the one worked on. -/
structure InScope (store : Store) (context : Source) (node : Json) (call : Call) : Prop where
  home_eq : call.frame.home = context.origin
  source_mem : call.frame.source ∈ store.sources context
  written : ∀ reference ∈ call.value.references,
    (call.frame.source, reference) ∈ store.written context node

theorem inScope_start (path : String) : InScope store context node (.start context path node) where
  home_eq := rfl
  source_mem := List.mem_cons_self ..
  written := fun _ h => List.mem_append_left _ (List.mem_map_of_mem h)

theorem InScope.descend {call part : Call} (h : InScope store context node call)
    (hpart : Descends call part) : InScope store context node part where
  home_eq := hpart.home_eq.trans h.home_eq
  source_mem := hpart.source_eq ▸ h.source_mem
  written := fun reference href =>
    hpart.source_eq ▸ h.written reference (mem_references_of_hasPart (.single hpart.hasPart) href)

/-- A target stands in a document in reach, and its references are written there. -/
private theorem inScope_target {call : Call} {fields : Fields Json} {reference : String}
    {target : Target} (h : InScope store context node call)
    (href : RefersTo store call.frame.source fields reference target) {frame : Frame}
    (hhome : frame.home = call.frame.home) (hframe : frame.source = target.source) :
    InScope store context node ⟨frame, target.node⟩ := by
  have hfound := (Store.locate?_eq_some_iff.mp href.found).2
  have hmem := Store.mem_sources_of_locate? href.found h.source_mem
  refine ⟨hhome.trans h.home_eq, hframe ▸ hmem, fun other hother => ?_⟩
  have hroot := mem_references_of_hasPart (Json.hasPart_of_locate? hfound) hother
  refine List.mem_append_right _ (List.mem_flatMap.mpr ⟨_, hframe ▸ hmem, ?_⟩)
  exact List.mem_map_of_mem (hframe ▸ hroot)

theorem InScope.expand {call next : Call} {key : String} (h : InScope store context node call)
    (hnext : Expands ⟨store, options⟩ call key next) : InScope store context node next := by
  cases hnext with
  | inline href => exact inScope_target h href rfl rfl
  | copy href => exact inScope_target h href rfl rfl

theorem InScope.within {call part : Call} (h : InScope store context node call)
    (hpart : ReflTransGen Descends call part) : InScope store context node part := by
  induction hpart with
  | refl => exact h
  | tail _ hpart ih => exact ih.descend hpart

/-- A call in scope expands references that are written somewhere. -/
theorem InScope.key_mem {call next : Call} {key : String} (h : InScope store context node call)
    (hnext : Expands ⟨store, options⟩ call key next) : key ∈ store.keys context node := by
  have hkey : ∀ {fields : Fields Json} {reference : String} {target : Target},
      call.value = .object fields →
      RefersTo store call.frame.source fields reference target →
        target.canonical call.frame.home reference ∈ store.keys context node := by
    intro fields reference target hvalue href
    have hwritten := h.written reference (by simp [hvalue, Json.references, href.made])
    refine List.mem_toFinset.mpr (List.mem_filterMap.mpr ⟨_, hwritten, ?_⟩)
    simp [Store.canonical?, href.found, h.home_eq]
  cases hnext with
  | inline href => exact hkey rfl href
  | copy href => exact hkey rfl href

end Call

/-! ### The measure -/

section Measure

variable {store : Store} {options : DereferenceOptions} {context : Source} {node : Json}
  {start call next part : Call} {key : String} {keys : List String}

theorem Reaches.inScope (hstart : start.InScope store context node)
    (h : Reaches ⟨store, options⟩ start keys call) : call.InScope store context node := by
  induction h with
  | start => exact hstart
  | descend _ hpart ih => exact ih.descend hpart
  | expand _ hnext ih => exact ih.expand hnext

theorem Store.pending_descend (h : Descends call part) :
    store.pending context node part = store.pending context node call := by
  rw [pending, pending, h.expanding_eq]

theorem Store.pending_within (h : ReflTransGen Descends call part) :
    store.pending context node part = store.pending context node call := by
  induction h with
  | refl => rfl
  | tail _ hpart ih => rw [pending_descend hpart, ih]

/-- **An expansion leaves fewer references to expand.** -/
theorem Store.pending_expand (hscope : call.InScope store context node)
    (h : Expands ⟨store, options⟩ call key next) :
    store.pending context node next < store.pending context node call := by
  have hkey := hscope.key_mem h
  have hnew := h.not_mem_expanding
  rw [pending, pending, h.expanding_eq]
  refine Finset.card_lt_card ((Finset.ssubset_iff_of_subset ?_).mpr ⟨key, ?_, ?_⟩)
  · intro other hother
    simp only [Finset.mem_sdiff, List.mem_toFinset, List.mem_cons, not_or] at hother ⊢
    exact ⟨hother.1, hother.2.2⟩
  · simp [hkey, hnew]
  · simp

/-- A part of a value is smaller than the value. -/
theorem Descends.sizeOf_lt (h : Descends call part) : sizeOf part.value < sizeOf call.value := by
  cases h with
  | member hmem =>
    have := List.sizeOf_lt_of_mem hmem
    simp only [Prod.mk.sizeOf_spec, Json.object.sizeOf_spec] at this ⊢
    omega
  | item hitem =>
    have := List.sizeOf_lt_of_mem (List.mem_of_getElem? hitem)
    simp only [Json.array.sizeOf_spec]
    omega

/-- **Calls end**: no call leads to an endless chain of calls. -/
theorem Call.InScope.acc {call : Call} (h : call.InScope store context node) :
    Acc (fun next call => Calls ⟨store, options⟩ call next) call := by
  refine Acc.intro _ fun next hcall => ?_
  rcases hcall with hpart | ⟨key, hnext⟩
  · have := hpart.sizeOf_lt
    have : store.pending context node next = store.pending context node call :=
      Store.pending_descend hpart
    exact (h.descend hpart).acc
  · have := Store.pending_expand h hnext
    exact (h.expand hnext).acc
termination_by (store.pending context node call, sizeOf call.value)
decreasing_by
  · rw [this]
    exact Prod.Lex.right _ ‹_›
  · exact Prod.Lex.left _ _ this

/-- A chain of calls is no deeper than there are references. -/
theorem Reaches.length_le (hstart : start.InScope store context node)
    (h : Reaches ⟨store, options⟩ start keys call) :
    keys.length ≤ store.referenceCount context.document node := by
  have hsubset : keys.toFinset ⊆ store.keys context node := by
    induction h with
    | start => simp
    | descend _ _ ih => exact ih
    | expand h hnext ih =>
      rw [List.toFinset_cons]
      exact Finset.insert_subset ((h.inScope hstart).key_mem hnext) ih
  rw [← List.toFinset_card_of_nodup h.nodup]
  exact (Finset.card_le_card hsubset).trans Store.card_keys_le

end Measure

/-! ### The bound -/

section Bound

variable {store : Store} {options : DereferenceOptions} {context : Source} {node : Json}
  {start : Call}

/-- More depth than a call has references to expand makes no difference to it. -/
theorem walkWithin_eq_of_pending_lt :
    ∀ {depth depth' : ℕ} {call : Call}, call.InScope store context node →
      store.pending context node call < depth → store.pending context node call < depth' →
        walkWithin ⟨store, options⟩ depth call.frame call.value
          = walkWithin ⟨store, options⟩ depth' call.frame call.value
  | depth + 1, depth' + 1, call, hscope, h, h' => by
    refine Walk.value_congr _ _ ⟨fun _ _ _ _ _ _ => rfl, fun part key next hpart hnext => ?_⟩
    have hless := Store.pending_expand (hscope.within hpart) hnext
    have hsame : store.pending context node part = store.pending context node call :=
      Store.pending_within hpart
    exact walkWithin_eq_of_pending_lt ((hscope.within hpart).expand hnext) (by omega) (by omega)

theorem Store.pending_le (call : Call) :
    store.pending context node call ≤ store.referenceCount context.document node :=
  (Finset.card_le_card Finset.sdiff_subset).trans card_keys_le

/-- **The bound is never met**: the walk within it satisfies the equation of the walk
without a bound. -/
theorem Store.isWalk_walkWithin (hstart : start.InScope store context node) :
    IsWalk ⟨store, options⟩ start
      (walkWithin ⟨store, options⟩ (store.referenceCount context.document node + 1)) := by
  intro keys call hcall
  have hle : store.pending context node call ≤ store.referenceCount context.document node :=
    Store.pending_le call
  change _ = walkWithin ⟨store, options⟩ (store.referenceCount context.document node + 2) _ _
  exact walkWithin_eq_of_pending_lt (hcall.inScope hstart) (by omega) (by omega)

/-- The equation of the walk determines it on all calls that are made, and depends on the
store only through the references that these meet. -/
theorem IsWalk.eq {store' : Store} {walk walk' : Frame → Json → Walking Json}
    (hstart : start.InScope store context node) (h : IsWalk ⟨store, options⟩ start walk)
    (h' : IsWalk ⟨store', options⟩ start walk')
    (hsame : ∀ keys call, Reaches ⟨store, options⟩ start keys call → call.SameTarget store store')
    {keys : List String} {call : Call} (hcall : Reaches ⟨store, options⟩ start keys call) :
    walk call.frame call.value = walk' call.frame call.value := by
  rw [h keys call hcall, h' keys call (hcall.of_sameTarget hsame)]
  refine Walk.value_congr _ _
    ⟨fun part hpart => hsame _ part (hcall.within hpart), fun part key next hpart hnext => ?_⟩
  have hreach := hcall.within hpart
  have hless := Store.pending_expand (hreach.inScope hstart) hnext
  have hequal : store.pending context node part = store.pending context node call :=
    Store.pending_within hpart
  have : store.pending context node next < store.pending context node call := hequal ▸ hless
  exact IsWalk.eq hstart h h' hsame (hreach.expand hnext)
termination_by store.pending context node call

end Bound

/-- **Dereferencing terminates**, whatever references a value and the documents hold
and whatever the options.  No chain of calls of the walk is endless; none expands a
canonical reference twice, and so none is deeper than there are references.  The walk
without a bound has exactly one solution on the calls it makes, and dereferencing
gives its result. -/
theorem dereferenceAt_terminates (store : Store) (options : DereferenceOptions)
    (context : store.Context) (node : Json) (path : String) :
    Acc (fun next call => Calls ⟨store, options⟩ call next) (.start context path node) ∧
      (∀ keys call, Reaches ⟨store, options⟩ (.start context path node) keys call →
        keys.Nodup ∧ keys.length ≤ store.referenceCount context.document node) ∧
      (∃ walk, IsWalk ⟨store, options⟩ (.start context path node) walk) ∧
      ∀ walk, IsWalk ⟨store, options⟩ (.start context path node) walk →
        store.dereferenceAt options node context path
          = ((walk (.start context path) node).run .empty).map .ofWalk := by
  have hstart : (Call.start context path node).InScope store context node :=
    Call.inScope_start path
  have hbound : IsWalk ⟨store, options⟩ (.start context path node)
      (walkWithin ⟨store, options⟩ (store.referenceCount context.document node + 1)) :=
    Store.isWalk_walkWithin hstart
  refine ⟨hstart.acc, fun keys call hcall => ⟨hcall.nodup, hcall.length_le hstart⟩,
    ⟨_, hbound⟩, fun walk hwalk => ?_⟩
  have heq := hbound.eq hstart hwalk (fun _ _ _ _ _ _ _ => rfl) .start
  simp only [Call.start] at heq
  rw [Store.dereferenceAt, heq]
  rfl

end RpcSchema
