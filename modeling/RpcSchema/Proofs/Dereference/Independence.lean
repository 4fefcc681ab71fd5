import RpcSchema.Proofs.Dereference.Canonical
import RpcSchema.Proofs.Dereference.Sites

/-!
# Content of bundles

Content of a bundle is dereferenced in that bundle.  So once a walk has entered a bundle,
the document that is worked on plays no part in it, and of the other bundles only those
do that a reference on the way names.

A value that is nothing but a reference into a bundle is walked in that bundle from the
first step on.  Whoever dereferences it from outside the store gets the same result, or
the same failure.

## Main definitions

* `Json.ofReference` — a value that is nothing but a reference.
* `Site.Names` — the ids of documents that are named on the way from a value.

## Main results

* `IsWalk.eq_of_agree` — two walks of a call are the same when the stores agree on the ids
  named on the way.
* `dereferenceAt_ofReference_eq` — content of a bundle does not depend on who inlines it.
-/

namespace RpcSchema

open Relation

/-- A value that is nothing but a reference. -/
def Json.ofReference (reference : String) : Json := .object [("$ref", .string reference)]

/-- `Names store start id` says that a reference that is reached from `start` names the
document with the id `id`. -/
def Site.Names (store : Store) (start : Site) (id : String) : Prop :=
  ∃ site reference, ReflTransGen (Site.Follows store) start site ∧
    site.made? = some reference ∧ (Reference.split reference).1 = some id

/-! ### Stores that agree -/

section Agree

variable {store store' : Store} {options : DereferenceOptions} {start call : Call}

/-- A reference has the same target in stores that agree on the id that it names. -/
theorem Store.locate?_congr {reference : String}
    (h : ∀ id, (Reference.split reference).1 = some id → store'.bundle? id = store.bundle? id)
    (within : Source) : store'.locate? reference within = store.locate? reference within := by
  have hsource : store'.source? within (Reference.split reference).1
      = store.source? within (Reference.split reference).1 := by
    cases hid : (Reference.split reference).1 with
    | none => rfl
    | some id => rw [source?, source?, h id hid]
  simp only [Store.locate?, hsource]

/-- A call leads to sites only that its own site leads to. -/
theorem Reaches.follows {setting : WalkSetting} {keys : List String}
    (h : Reaches setting start keys call) :
    ReflTransGen (Site.Follows setting.store) start.site call.site := by
  induction h with
  | start => exact .refl
  | descend _ hpart ih => exact ih.tail (Calls.follows (Or.inl hpart))
  | expand _ hnext ih => exact ih.tail (Calls.follows (Or.inr ⟨_, hnext⟩))

/-- Stores that agree on the ids named on the way give all references met the same
targets. -/
theorem Reaches.sameTarget {keys : List String}
    (h : Reaches ⟨store, options⟩ start keys call)
    (hagree : ∀ id, Site.Names store start.site id → store'.bundle? id = store.bundle? id) :
    call.SameTarget store store' := by
  intro fields reference hvalue hmade
  refine Store.locate?_congr (fun id hid => hagree id ⟨call.site, reference, h.follows, ?_, hid⟩) _
  rw [Site.made?, Call.site, hvalue]
  exact hmade

/-- What a call leads to, the call that leads to it does as well. -/
theorem Reaches.trans {setting : WalkSetting} {last : Call} {keys keys' : List String}
    (h : Reaches setting start keys call) (h' : Reaches setting call keys' last) :
    Reaches setting start (keys' ++ keys) last := by
  induction h' with
  | start => exact h
  | descend _ hpart ih => exact ih.descend hpart
  | expand _ hnext ih => exact ih.expand hnext

/-- A walk from a call is a walk from all calls that it leads to. -/
theorem IsWalk.of_reaches {setting : WalkSetting} {walk : Frame → Json → Walking Json}
    {keys : List String} (h : IsWalk setting start walk) (hcall : Reaches setting start keys call) :
    IsWalk setting call walk :=
  fun _ last hlast => h _ last (hcall.trans hlast)

/-- **Two walks of a call are the same when the stores agree on the ids named on the
way.** -/
theorem IsWalk.eq_of_agree {context : Source} {node : Json}
    {walk walk' : Frame → Json → Walking Json} (hstart : start.InScope store context node)
    (h : IsWalk ⟨store, options⟩ start walk) (h' : IsWalk ⟨store', options⟩ start walk')
    (hagree : ∀ id, Site.Names store start.site id → store'.bundle? id = store.bundle? id) :
    walk start.frame start.value = walk' start.frame start.value :=
  h.eq hstart h' (fun _ _ hcall => hcall.sameTarget hagree) .start

end Agree

/-! ### References into bundles -/

section OfReference

variable {store store' : Store} {options : DereferenceOptions} {context context' : Document}
  {reference path : String} {target : Target}

theorem refersTo_ofReference {source : Source}
    (hfound : store.locate? reference source = some target) :
    RefersTo store source [("$ref", .string reference)] reference target :=
  ⟨rfl, hfound⟩

/-- Nothing stands beside the reference, so that it is replaced at once. -/
theorem Walk.value_ofReference {inline : Frame → Json → Walking Json} {frame : Frame}
    (hfound : store.locate? reference frame.source = some target) :
    Walk.value ⟨store, options⟩ inline frame (.ofReference reference)
      = Walk.replace ⟨store, options⟩ inline frame reference target
          [("$ref", .string reference)] := by
  have hmade : referenceOf? [("$ref", .string reference)] = some reference := rfl
  have hopaque : isOpaqueKeyword "$ref" = true := by decide
  simp only [Json.ofReference, Walk.value, hmade, hfound, Walk.members, hopaque, if_true,
    pure_bind]

/-- The reference at the start expands to the same calls for all documents worked on. -/
theorem Expands.start_congr {next : Call} {key : String}
    (hfound : store.locate? reference context.asContext = some target)
    (hfound' : store'.locate? reference context'.asContext = some target)
    (h : Expands ⟨store, options⟩ (.start context.asContext path (.ofReference reference))
      key next) :
    Expands ⟨store', options⟩ (.start context'.asContext path (.ofReference reference))
      key next := by
  cases h with
  | inline href htreat =>
    obtain ⟨rfl, rfl⟩ := (refersTo_ofReference hfound).unique href
    exact .inline (refersTo_ofReference hfound') htreat
  | copy href htreat hnew =>
    obtain ⟨rfl, rfl⟩ := (refersTo_ofReference hfound).unique href
    exact .copy (refersTo_ofReference hfound') htreat hnew

/-- What becomes of the reference at the start depends on the document worked on, and on
the store, only through the expansion of its target. -/
theorem Walk.replace_start_congr {walk walk' : Frame → Json → Walking Json}
    (hfound : store.locate? reference context.asContext = some target)
    (hwalk : ∀ key next,
      Expands ⟨store, options⟩ (.start context.asContext path (.ofReference reference)) key next →
        walk next.frame next.value = walk' next.frame next.value) (fields : Fields Json) :
    Walk.replace ⟨store, options⟩ walk (.start context.asContext path) reference target fields
      = Walk.replace ⟨store', options⟩ walk' (.start context'.asContext path) reference target
          fields := by
  have hsame : Walk.treatment options (.start context'.asContext path) reference target
      = Walk.treatment options (.start context.asContext path) reference target := rfl
  unfold Walk.replace
  dsimp only
  rw [hsame]
  cases htreat : Walk.treatment options (.start context.asContext path) reference target with
  | keep => rfl
  | leave => rfl
  | inline =>
    have heq := hwalk _ _ (.inline (refersTo_ofReference hfound) htreat)
    simp only [Frame.start, Frame.expand, Document.asContext] at heq ⊢
    rw [heq]
  | copy name =>
    have heq := hwalk _ _ (.copy (refersTo_ofReference hfound) htreat List.not_mem_nil)
    simp only [Walk.copy, Frame.start, Frame.expand, Frame.goTo, Document.asContext] at heq ⊢
    rw [heq]
    rfl

/-- Without a document id of its own in the reference, it has the same target from every
document that does not go by that id. -/
theorem Store.locate?_of_foreign {id : String} {within within' : Source}
    (hid : (Reference.split reference).1 = some id) (hown : within.document.id ≠ some id)
    (hown' : within'.document.id ≠ some id) (hagree : store'.bundle? id = store.bundle? id) :
    store'.locate? reference within' = store.locate? reference within := by
  have hsource : store'.source? within' (Reference.split reference).1
      = store.source? within (Reference.split reference).1 := by
    rw [hid, source?, source?, if_neg hown, if_neg hown', hagree]
  simp only [Store.locate?, hsource]

end OfReference

/-- **Content of a bundle does not depend on who inlines it.**  A reference that names a
bundle, and not the document worked on, is dereferenced with the same outcome from any two
documents, at the same path, and in any two stores that agree on all ids named on the way:
the same schema, the same references left in place and the same copies, or else the same
failure. -/
theorem dereferenceAt_ofReference_eq {store store' : Store} {options : DereferenceOptions}
    {context context' : Document} {reference id path : String}
    (hid : (Reference.split reference).1 = some id) (hown : context.id ≠ some id)
    (hown' : context'.id ≠ some id)
    (hfound : (store.lookup reference context.asContext).isSome)
    (hagree : ∀ id, Site.Names store ⟨context.asContext, .ofReference reference⟩ id →
      store'.bundle? id = store.bundle? id) :
    store.dereferenceAt options (.ofReference reference) context path
      = store'.dereferenceAt options (.ofReference reference) context' path := by
  obtain ⟨target, hfound⟩ : ∃ target, store.locate? reference context.asContext = some target := by
    rw [Store.lookup, Option.isSome_map] at hfound
    exact Option.isSome_iff_exists.mp hfound
  have hfirst : store'.bundle? id = store.bundle? id :=
    hagree id ⟨_, reference, .refl, rfl, hid⟩
  have hfound' : store'.locate? reference context'.asContext = some target :=
    (Store.locate?_of_foreign hid hown hown' hfirst).trans hfound
  have hstart : Call.InScope store context.asContext (.ofReference reference)
      (.start context.asContext path (.ofReference reference)) := Call.inScope_start path
  have hstart' : Call.InScope store' context'.asContext (.ofReference reference)
      (.start context'.asContext path (.ofReference reference)) := Call.inScope_start path
  have hwalk : IsWalk ⟨store, options⟩ (.start context.asContext path (.ofReference reference))
      (walkWithin ⟨store, options⟩
        (store.referenceCount context (.ofReference reference) + 1)) :=
    Store.isWalk_walkWithin hstart
  have hwalk' : IsWalk ⟨store', options⟩ (.start context'.asContext path (.ofReference reference))
      (walkWithin ⟨store', options⟩
        (store'.referenceCount context' (.ofReference reference) + 1)) :=
    Store.isWalk_walkWithin hstart'
  -- The two walks part at the start, and come together in the target.
  have htarget : ∀ key next,
      Expands ⟨store, options⟩ (.start context.asContext path (.ofReference reference)) key next →
        walkWithin ⟨store, options⟩ (store.referenceCount context (.ofReference reference) + 1)
            next.frame next.value
          = walkWithin ⟨store', options⟩
              (store'.referenceCount context' (.ofReference reference) + 1)
              next.frame next.value := by
    intro key next hnext
    have hreach : Reaches ⟨store, options⟩ (.start context.asContext path (.ofReference reference))
        [key] next := .expand .start hnext
    have hreach' : Reaches ⟨store', options⟩
        (.start context'.asContext path (.ofReference reference)) [key] next :=
      .expand .start (hnext.start_congr hfound hfound')
    refine (hwalk.of_reaches hreach).eq_of_agree (hreach.inScope hstart)
      (hwalk'.of_reaches hreach') fun name hname => ?_
    obtain ⟨site, other, hsite, hmade, hother⟩ := hname
    exact hagree name ⟨site, other, hreach.follows.trans hsite, hmade, hother⟩
  have heq := hwalk [] _ .start
  have heq' := hwalk' [] _ .start
  simp only [Call.start] at heq heq'
  rw [Walk.value_ofReference hfound, Walk.replace_start_congr hfound htarget] at heq
  rw [Walk.value_ofReference hfound'] at heq'
  simp only [Store.dereferenceAt, Store.Context.own, Document.asContext] at heq heq' ⊢
  rw [heq, heq']

/-- The two bundles of `mutualBundles` in the other order, after a third one. -/
def reorderedBundles : Store :=
  ((Store.empty.register "third" plainDocument).register "second"
    ((mutualBundles.bundle? "second").getD plainDocument)).register "first"
      ((mutualBundles.bundle? "first").getD plainDocument)

/-- A document with an id, and with a schema that has the name of one in a bundle. -/
def namesakeDocument : Document := ⟨some "namesake", "Namesake", .object [("definitions", .object
  [("A", .object [("title", .string "A"), ("type", .string "boolean")])])]⟩

/-- All that the reference into the first bundle leads to. -/
private def mutualSites : List Site :=
  let first : Source := ⟨.bundle "first", (mutualBundles.bundle? "first").getD plainDocument⟩
  let second : Source := ⟨.bundle "second", (mutualBundles.bundle? "second").getD plainDocument⟩
  [⟨plainDocument.asContext, .ofReference "first#/definitions/A"⟩,
    ⟨first, .object [("items", .ofReference "second#/definitions/B")]⟩,
    ⟨first, .ofReference "second#/definitions/B"⟩,
    ⟨second, .object [("items", .ofReference "first#/definitions/A")]⟩,
    ⟨second, .ofReference "first#/definitions/A"⟩]

/-- The schema in the first bundle is the same to both documents, although the second has
a schema of the same name. -/
theorem dereferenceAt_ofReference_eq_mutualBundles :
    (Reference.split "first#/definitions/A").1 = some "first" ∧
      plainDocument.id ≠ some "first" ∧ namesakeDocument.id ≠ some "first" ∧
      (mutualBundles.lookup "first#/definitions/A" plainDocument.asContext).isSome ∧
      (∀ id, Site.Names mutualBundles
          ⟨plainDocument.asContext, .ofReference "first#/definitions/A"⟩ id →
        reorderedBundles.bundle? id = mutualBundles.bundle? id) ∧
      mutualBundles.dereferenceAt .standard (.ofReference "first#/definitions/A") plainDocument "#"
        = reorderedBundles.dereferenceAt .standard (.ofReference "first#/definitions/A")
            namesakeDocument "#" := by
  have hid : (Reference.split "first#/definitions/A").1 = some "first" := by decide +kernel
  have hown : plainDocument.id ≠ some "first" := by decide +kernel
  have hown' : namesakeDocument.id ≠ some "first" := by decide +kernel
  have hfound : (mutualBundles.lookup "first#/definitions/A" plainDocument.asContext).isSome := by
    decide +kernel
  have hagree : ∀ id, Site.Names mutualBundles
      ⟨plainDocument.asContext, .ofReference "first#/definitions/A"⟩ id →
        reorderedBundles.bundle? id = mutualBundles.bundle? id := by
    rintro id ⟨site, reference, hsite, hmade, hname⟩
    have hall : ∀ site ∈ mutualSites, ∀ reference ∈ site.made?,
        ∀ id ∈ (Reference.split reference).1,
          reorderedBundles.bundle? id = mutualBundles.bundle? id := by
      decide +kernel
    have hmem : site ∈ mutualSites :=
      Site.mem_of_follows (by decide +kernel) (by decide +kernel) hsite (by decide +kernel)
    exact hall site hmem reference hmade id hname
  exact ⟨hid, hown, hown', hfound, hagree,
    dereferenceAt_ofReference_eq hid hown hown' hfound hagree⟩

end RpcSchema
