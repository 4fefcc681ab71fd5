import RpcSchema.Proofs.Dereference.Walks
import RpcSchema.Proofs.Identity
import RpcSchema.Proofs.Reference

/-!
# References left in place

A reference that is left in place is written in the document it stands in, which may
be a bundle reached through other bundles, but it is read back from the document
worked on.  Its canonical form is made for that: the two readings find the same.

The document worked on is told apart from a bundle by the id in front of the fragment.
So no bundle may go by the empty id, nor another one by the id of the document worked on.

## Main definitions

* `Leaves` — a call leaves the reference that its value makes in place.
* `Store.Stands` — a document that references lead to.
* `Frame.Stands` — a frame in such a document.
* `Store.Context.Unrivalled` — no other document goes by the id of the one worked on.

## Main results

* `Walks.left` — all that is logged as left in place was left by some call.
* `Store.locate?_canonical` — a canonical reference has the target of the reference
  that it stands for.
* `locate?_of_mem_unresolved` — both together, for the result of dereferencing.
-/

namespace RpcSchema

open Relation

/-! ### Where broken cycles come from -/

/-- `Leaves setting call reference target` says that the value of `call` makes
`reference`, which has the target `target` and is left in place. -/
structure Leaves (setting : WalkSetting) (call : Call) (reference : String) (target : Target) :
    Prop where
  refersTo : ∃ fields, call.value = .object fields ∧
    RefersTo setting.store call.frame.source fields reference target
  leave : Walk.treatment setting.options call.frame reference target = .leave

/-- `LeftWithin setting call broken` says that a call that `call` leads to left a
reference in place as `broken`. -/
def LeftWithin (setting : WalkSetting) (call : Call) (broken : BrokenCycle) : Prop :=
  ∃ inner reference target, ReflTransGen (Calls setting) call inner ∧
    Leaves setting inner reference target ∧
    broken = ⟨inner.frame.path, target.canonical inner.frame.home reference⟩

section Left

variable {setting : WalkSetting}

theorem LeftWithin.head {call next : Call} {broken : BrokenCycle} (hcall : Calls setting call next)
    (h : LeftWithin setting next broken) : LeftWithin setting call broken := by
  obtain ⟨inner, reference, target, hinner, hleaves, hbroken⟩ := h
  exact ⟨inner, reference, target, hinner.head hcall, hleaves, hbroken⟩

/-- What members leave in place, the object that has them leaves in place. -/
private theorem LeftWithin.of_members {frame : Frame} {fields : Fields Json}
    {broken : BrokenCycle} {log : WalkLog}
    (h : broken ∈ log.unresolved ∨ ∃ name part, (name, part) ∈ fields ∧
      isOpaqueKeyword name = false ∧
        LeftWithin setting ⟨(frame.inside fields).member name, part⟩ broken) :
    broken ∈ log.unresolved ∨ LeftWithin setting ⟨frame, .object fields⟩ broken := by
  rcases h with h | ⟨name, part, hmem, hname, h⟩
  · exact Or.inl h
  · exact Or.inr (h.head (Or.inl (.member hmem hname)))

mutual

/-- **All that is logged as left in place was left by some call.** -/
theorem Walks.left {frame : Frame} {value walked : Json} {log log' : WalkLog}
    {broken : BrokenCycle} : Walks setting frame value log walked log' →
      broken ∈ log'.unresolved →
        broken ∈ log.unresolved ∨ LeftWithin setting ⟨frame, value⟩ broken
  | .scalar _ _, hbroken => Or.inl hbroken
  | .array hitems, hbroken => by
    rcases hitems.left hbroken with h | ⟨offset, part, hpart, h⟩
    · exact Or.inl h
    · rw [Nat.zero_add] at h
      exact Or.inr (h.head (Or.inl (.item hpart)))
  | .object hnone hmembers, hbroken => LeftWithin.of_members (hmembers.left hbroken)
  | .keep href htreat hmembers, hbroken => LeftWithin.of_members (hmembers.left hbroken)
  | .copied href htreat hmembers hold, hbroken => LeftWithin.of_members (hmembers.left hbroken)
  | .copy href htreat hmembers hnew hfresh htarget, hbroken => by
    rcases htarget.left hbroken with h | h
    · exact LeftWithin.of_members (hmembers.left h)
    · exact Or.inr (h.head (Or.inr ⟨_, .copy href htreat hfresh⟩))
  | .leave href htreat hmembers, hbroken => by
    rcases List.mem_append.mp hbroken with h | h
    · exact LeftWithin.of_members (hmembers.left h)
    · obtain rfl := List.mem_singleton.mp h
      exact Or.inr ⟨_, _, _, .refl, ⟨⟨_, rfl, href⟩, htreat⟩, rfl⟩
  | .inline href htreat hmembers htarget, hbroken => by
    rcases htarget.left hbroken with h | h
    · exact LeftWithin.of_members (hmembers.left h)
    · exact Or.inr (h.head (Or.inr ⟨_, .inline href htreat⟩))

theorem WalksMembers.left {frame : Frame} {fields fields' : Fields Json} {log log' : WalkLog}
    {broken : BrokenCycle} : WalksMembers setting frame fields log fields' log' →
      broken ∈ log'.unresolved →
        broken ∈ log.unresolved ∨ ∃ name part, (name, part) ∈ fields ∧
          isOpaqueKeyword name = false ∧ LeftWithin setting ⟨frame.member name, part⟩ broken
  | .nil, hbroken => Or.inl hbroken
  | .data _ hrest, hbroken => by
    rcases hrest.left hbroken with h | ⟨name, part, hmem, h⟩
    · exact Or.inl h
    · exact Or.inr ⟨name, part, List.mem_cons_of_mem _ hmem, h⟩
  | .member hname hpart hrest, hbroken => by
    rcases hrest.left hbroken with h | ⟨name, part, hmem, h⟩
    · rcases hpart.left h with h | h
      · exact Or.inl h
      · exact Or.inr ⟨_, _, List.mem_cons_self .., hname, h⟩
    · exact Or.inr ⟨name, part, List.mem_cons_of_mem _ hmem, h⟩

theorem WalksItems.left {frame : Frame} {index : Nat} {items items' : List Json}
    {log log' : WalkLog} {broken : BrokenCycle} :
    WalksItems setting frame index items log items' log' → broken ∈ log'.unresolved →
      broken ∈ log.unresolved ∨ ∃ offset part, items[offset]? = some part ∧
        LeftWithin setting ⟨frame.item (index + offset), part⟩ broken
  | .nil, hbroken => Or.inl hbroken
  | .item hitem hrest, hbroken => by
    rcases hrest.left hbroken with h | ⟨offset, part, hpart, h⟩
    · rcases hitem.left h with h | h
      · exact Or.inl h
      · exact Or.inr ⟨0, _, rfl, h⟩
    · rw [show index + 1 + offset = index + (offset + 1) by omega] at h
      exact Or.inr ⟨offset + 1, part, by simpa using hpart, h⟩

end

end Left

/-! ### Documents that references lead to -/

namespace Store

variable {store : Store} {context : store.Context} {within source : Source} {reference : String}
  {target : Target}

/-- `store.Stands context source` says that `source` is the document worked on or another
bundle, whose id can be the id of a reference. -/
def Stands (store : Store) (context source : Source) : Prop :=
  source = context ∨ source.origin ≠ context.origin ∧ ∃ id document,
    store.bundle? id = some document ∧ '#' ∉ id.toList ∧ source = ⟨.bundle id, document⟩

theorem Stands.source? (h : store.Stands context within)
    (hsource : store.source? within (Reference.split reference).1 = some source) :
    store.Stands context source := by
  rcases Store.source?_cases hsource with rfl | ⟨id, document, hid, hdocument, rfl⟩
  · exact h
  · by_cases horigin : Origin.bundle id = context.origin
    · -- Where the document worked on is registered under the id, it is the bundle of the id.
      have hsame := (context.held id horigin.symm).symm.trans hdocument
      exact Or.inl (Source.ext horigin (Option.some.inj hsame).symm)
    · exact Or.inr ⟨horigin, id, document, hdocument, Reference.hash_notMem_of_split hid, rfl⟩

theorem Stands.locate? (h : store.Stands context within)
    (htarget : store.locate? reference within = some target) :
    store.Stands context target.source :=
  h.source? (locate?_eq_some_iff.mp htarget).1

/-- A document that references lead to is in reach. -/
theorem Stands.mem_sources (h : store.Stands context source) :
    source ∈ store.sources context := by
  rcases h with rfl | ⟨-, id, bundle, hbundle, -, rfl⟩
  · exact List.mem_cons_self ..
  · exact List.mem_cons_of_mem _ (List.mem_map.mpr ⟨(id, bundle), Fields.mem_of_get? hbundle, rfl⟩)

/-- What stands where the document worked on does is that document. -/
theorem Stands.eq_of_origin (h : store.Stands context source)
    (horigin : source.origin = context.origin) : source = context :=
  h.resolve_right fun hother => hother.1 horigin

end Store

/-- A frame of a walk in a document that references lead to. -/
structure Frame.Stands {store : Store} (context : store.Context) (frame : Frame) : Prop where
  home : frame.home = context.origin
  source : store.Stands context frame.source

namespace Frame.Stands

variable {store : Store} {context : store.Context} {frame : Frame}

theorem start (path : String) : (Frame.start context path).Stands context := ⟨rfl, Or.inl rfl⟩

theorem goTo (h : frame.Stands context) (path : String) : (frame.goTo path).Stands context :=
  ⟨h.home, h.source⟩

theorem inside (h : frame.Stands context) (fields : Fields Json) :
    (frame.inside fields).Stands context :=
  ⟨(frame.inside_home fields).trans h.home, (frame.inside_source fields).symm ▸ h.source⟩

theorem expand {reference key : String} {target : Target} (h : frame.Stands context)
    (hfound : store.locate? reference frame.source = some target) :
    (frame.expand target.source key).Stands context :=
  ⟨h.home, h.source.locate? hfound⟩

/-- Every call stands in a document that references lead to. -/
theorem calls {options : DereferenceOptions} {start call : Call}
    (h : start.frame.Stands context)
    (hcalls : ReflTransGen (Calls ⟨store, options⟩) start call) : call.frame.Stands context := by
  induction hcalls with
  | refl => exact h
  | tail _ hcall ih =>
    rcases hcall with hpart | ⟨key, hnext⟩
    · cases hpart with
      | member => exact (ih.inside _).goTo _
      | item => exact ih.goTo _
    · cases hnext with
      | inline href => exact ih.expand href.found
      | copy href => exact (ih.expand href.found).goTo _

end Frame.Stands

namespace Store

variable {store : Store} {context : store.Context} {within source : Source} {reference : String}
  {target : Target}

/-- No bundle goes by the id of the document worked on, unless it is that document. -/
def Context.Unrivalled (context : store.Context) : Prop :=
  ∀ entry ∈ store.bundles, context.document.id = some entry.1 → context.origin = .bundle entry.1

theorem Context.Unrivalled.own {document : Document}
    (h : ∀ entry ∈ store.bundles, document.id ≠ some entry.1) :
    (Context.own document : store.Context).Unrivalled :=
  fun entry hmem heq => absurd heq (h entry hmem)

/-- The id of a bundle is the id under which it is found. -/
theorem id_of_bundle? {id : String} {document : Document} (h : store.bundle? id = some document) :
    document.id = some id :=
  store.id_eq _ (Fields.mem_of_get? h)

/-- **The canonical form of a reference, read from the document worked on, has the
target that the reference has in the document it stands in.** -/
theorem locate?_canonical (hids : ∀ entry ∈ store.bundles, entry.1 ≠ "") (hown : context.Unrivalled)
    (h : store.Stands context within) (htarget : store.locate? reference within = some target) :
    store.locate? (target.canonical context.origin reference) context = some target := by
  have hhash := Reference.startsHash_fragment reference
  have hfound := (locate?_eq_some_iff.mp htarget).2
  have hstands := h.locate? htarget
  rw [locate?_eq_some_iff, Target.canonical]
  rcases hstands with hcontext | ⟨horigin, id, document, hdocument, hid, hbundle⟩
  · -- In the document worked on the fragment alone is the canonical form.
    rw [Source.canonical, if_pos (congrArg Source.origin hcontext),
      Reference.split_of_startsHash hhash]
    refine ⟨?_, ?_⟩
    · rw [hcontext]
      rfl
    · rw [Reference.fragment, Reference.split_of_startsHash hhash]
      exact hfound
  · -- In another bundle the id of the bundle leads to it, as no other document goes by it.
    have hmem := Fields.mem_of_get? hdocument
    have hcanonical : target.source.canonical context.origin (Reference.fragment reference)
        = id ++ Reference.fragment reference := by
      rw [Source.canonical, if_neg horigin, hbundle, id_of_bundle? hdocument]
      rfl
    rw [hcanonical, Reference.split_append (hids _ hmem) hid hhash]
    refine ⟨?_, ?_⟩
    · have hne : context.document.id ≠ some id := fun hsame =>
        horigin (by rw [hbundle, hown _ hmem hsame])
      rw [Store.source?, if_neg hne, hdocument, hbundle]
      rfl
    · rw [Reference.fragment, Reference.split_append (hids _ hmem) hid hhash]
      exact hfound

end Store

/-- **What is left in place means what it meant.**  Each reference left in place was left
by a call of the walk, whose value makes a reference.  Where that one is written it has a
target, and the reference left in place has the same target when it is read from the
document worked on: the same part of the same document. -/
theorem locate?_of_mem_unresolved {store : Store} {options : DereferenceOptions}
    {context : store.Context} {node : Json} {path : String} {result : Dereferenced}
    (hids : ∀ entry ∈ store.bundles, entry.1 ≠ "") (hown : context.Unrivalled)
    (h : store.dereferenceAt options node context path = .ok result) :
    ∀ broken ∈ result.unresolved, ∃ call reference target,
      ReflTransGen (Calls ⟨store, options⟩) (.start context path node) call ∧
        Leaves ⟨store, options⟩ call reference target ∧
        broken = ⟨call.frame.path, target.canonical context.origin reference⟩ ∧
        (call.frame.source, reference) ∈ store.written context node ∧
        store.locate? reference call.frame.source = some target ∧
        store.locate? broken.reference context = some target ∧
        store.lookup broken.reference context = some (target.source, target.node) := by
  intro broken hbroken
  obtain ⟨walked, log, hwalks, rfl⟩ := dereferenceAt_eq_ok_iff.mp h
  obtain ⟨call, reference, target, hcalls, hleaves, rfl⟩ :=
    (hwalks.left hbroken).resolve_left List.not_mem_nil
  obtain ⟨fields, hvalue, href⟩ := hleaves.refersTo
  have hstands : call.frame.Stands context := Frame.Stands.calls (.start path) hcalls
  have hlocate := Store.locate?_canonical hids hown hstands.source href.found
  obtain ⟨keys, hreach⟩ := exists_reaches hcalls
  have hscope : call.InScope store context node := hreach.inScope (Call.inScope_start path)
  rw [hstands.home]
  refine ⟨call, reference, target, hcalls, hleaves, rfl, ?_, href.found, hlocate, ?_⟩
  · exact hscope.written reference (by simp [hvalue, Json.references, href.made])
  · rw [Store.lookup, hlocate]
    rfl

/-- Two bundles whose schemas refer to each other. -/
def mutualBundles : Store :=
  (Store.empty.register "first" ⟨none, "First", .object [("definitions", .object
    [("A", .object [("items", .object [("$ref", .string "second#/definitions/B")])])])]⟩).register
    "second" ⟨none, "Second", .object [("definitions", .object
      [("B", .object [("items", .object [("$ref", .string "first#/definitions/A")])])])]⟩

/-- A document without schemas. -/
def plainDocument : Document := ⟨none, "Plain", .object []⟩

/-- A reference to the schema in the first bundle. -/
def firstReference : Json := .object [("$ref", .string "first#/definitions/A")]

/-- In `mutualBundles` a reference written in the second bundle is left in place, and read
from a document that is neither of the two. -/
theorem locate?_of_mem_unresolved_mutualBundles :
    (∀ entry ∈ mutualBundles.bundles, entry.1 ≠ "") ∧
      (∀ entry ∈ mutualBundles.bundles, plainDocument.id ≠ some entry.1) ∧
      ∃ result, mutualBundles.dereferenceAt .standard firstReference plainDocument "#"
          = .ok result ∧
        result.unresolved = [⟨"#/items/items", "first#/definitions/A"⟩] ∧
        ∃ (call : Call) (reference : String) (target : Target),
          Leaves ⟨mutualBundles, .standard⟩ call reference target ∧
            call.frame.path = "#/items/items" ∧
            mutualBundles.locate? reference call.frame.source = some target ∧
            mutualBundles.lookup "first#/definitions/A" plainDocument.asContext
              = some (target.source, target.node) := by
  have hids : ∀ entry ∈ mutualBundles.bundles, entry.1 ≠ "" := by decide +kernel
  have hown : ∀ entry ∈ mutualBundles.bundles, plainDocument.id ≠ some entry.1 := by
    decide +kernel
  have hrun := @eq_ok_of_toOption
    (mutualBundles.dereferenceAt .standard firstReference plainDocument "#")
    ⟨.object [("items", .object [("items", .object [("$ref", .string "first#/definitions/A")])])],
      [⟨"#/items/items", "first#/definitions/A"⟩], []⟩ (by decide +kernel)
  obtain ⟨call, reference, target, -, hleaves, hbroken, -, hfound, -, hlookup⟩ :=
    locate?_of_mem_unresolved hids (.own hown) hrun _ (List.mem_singleton_self _)
  have hpath : call.frame.path = "#/items/items" := (congrArg BrokenCycle.path hbroken).symm
  exact ⟨hids, hown, _, hrun, rfl, call, reference, target, hleaves, hpath, hfound, hlookup⟩

/-- Where the first bundle itself is worked on, what the second one refers to is left in place
without an id. -/
example : ((mutualBundles.contextOf? "first").bind fun context =>
      (mutualBundles.dereferenceAt .standard firstReference context "#").toOption.map
        Dereferenced.unresolved)
    = some [⟨"#/items/items", "#/definitions/A"⟩] := by decide +kernel

end RpcSchema
