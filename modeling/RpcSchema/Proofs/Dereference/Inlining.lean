import RpcSchema.Proofs.Dereference.Markers
import RpcSchema.Proofs.Dereference.Overlay
import RpcSchema.Proofs.Dereference.Sites
import RpcSchema.Proofs.Dereference.Walks

/-!
# Inlining without cycles

The plain way to dereference a value is to replace every reference by its target, with
the references in the target replaced in the same way.  It keeps no record of what is
being expanded and of what encloses what, and so it does not end when references run
in a circle: however deep it may go, that is not enough.

Where they do not, dereferencing is the plain way: no reference is left in place, and
the result is the same.

## Main definitions

* `Store.inlinedWithin` — the plain way, down to a depth; none when it goes deeper or a
  target is missing.
* `Site.Requires` — from a reference to those that its target is made of.
* `Site.Acyclic` — a value from which no circle is reached.

## Main results

* `Call.Clear.treatment_eq` — where no circle is reached, references give way.
* `dereferenceAt_eq_inlined` — dereferencing is plain inlining where there are no circles.
-/

namespace RpcSchema

open Relation

mutual

/-- A value of a document with every reference replaced by its target, as `inline` makes
it, and what stands beside the reference laid over it. -/
def Store.inlineWith (store : Store) (inline : Source → Json → Option Json) (source : Source) :
    Json → Option Json
  | .object fields => do
    let members ← store.inlineMembersWith inline source fields
    match referenceOf? fields with
    | some reference =>
      let target ← store.locate? reference source
      let inlined ← inline target.source target.node
      pure (overlayTarget (Fields.swapErase members "$ref") inlined)
    | none => pure (.object members)
  | .array items => do
    let items ← store.inlineItemsWith inline source items
    pure (.array items)
  | other => pure other

/-- Members with every reference replaced by its target, but for those that hold data. -/
def Store.inlineMembersWith (store : Store) (inline : Source → Json → Option Json)
    (source : Source) : List (String × Json) → Option (Fields Json)
  | [] => pure []
  | (name, part) :: rest => do
    let inlined ←
      if isOpaqueKeyword name then pure part else store.inlineWith inline source part
    let others ← store.inlineMembersWith inline source rest
    pure ((name, inlined) :: others)

/-- Items with every reference replaced by its target. -/
def Store.inlineItemsWith (store : Store) (inline : Source → Json → Option Json)
    (source : Source) : List Json → Option (List Json)
  | [] => pure []
  | item :: rest => do
    let inlined ← store.inlineWith inline source item
    let others ← store.inlineItemsWith inline source rest
    pure (inlined :: others)

end

/-- A value of a document with every reference replaced by its target, and the references
in the target in the same way, as long as these are at most `depth` deep. -/
def Store.inlinedWithin (store : Store) : Nat → Source → Json → Option Json
  | 0, _, _ => none
  | depth + 1, source, value => store.inlineWith (store.inlinedWithin depth) source value

/-! ### Circles -/

namespace Site

variable (store : Store)

/-- `Requires store start key key'` says that, in what is reached from `start`, the
target of a reference `key` holds a reference `key'`, in canonical form for the document
that `start` stands in. -/
def Requires (start : Site) (key key' : String) : Prop :=
  ∃ site target inner next, ReflTransGen (Follows store) start site ∧
    site.refers? store start.source.origin = some (key, target) ∧
      ReflTransGen HasPart target inner ∧
        inner.refers? store start.source.origin = some (key', next)

/-- What is reached from a site gives no reason to leave a reference in place. -/
structure Acyclic (start : Site) : Prop where
  /-- Every reference has a target. -/
  found : ∀ site reference, ReflTransGen (Follows store) start site →
    site.made? = some reference → (store.locate? reference site.source).isSome
  /-- No reference requires itself, through however many others. -/
  acyclic : ∀ key, ¬ TransGen (Requires store start) key key
  /-- No reference is to a whole document. -/
  notWhole : ∀ site reference, ReflTransGen (Follows store) start site →
    site.made? = some reference → Reference.fragment reference ≠ "#"
  /-- No reference is to the named schema that an enclosing object has the title of. -/
  notEnclosing : ∀ outer fields inner key target, ReflTransGen (Follows store) start outer →
    outer.value = .object fields → referenceOf? fields = none →
    TransGen (Follows store) outer inner →
      inner.refers? store start.source.origin = some (key, target) →
        outer.source.namedKey? start.source.origin fields ≠ some key

end Site

/-! ### Calls that have no reason to leave a reference in place -/

namespace Call

variable {store : Store} {context : Source} {node : Json} {call : Call}

/-- The two stacks of a call hold what led to it: the references being expanded require
every reference in its value, and the named schemas enclose its value. -/
structure Clear (store : Store) (context : Source) (node : Json) (call : Call) : Prop where
  scope : call.InScope store context node
  reached : ReflTransGen (Site.Follows store) ⟨context, node⟩ call.site
  lacks : call.value.Lacks markerKeyword
  requires : ∀ key ∈ call.frame.expanding, ∀ inner key' next,
    ReflTransGen Site.HasPart call.site inner →
      inner.refers? store context.origin = some (key', next) →
        TransGen (Site.Requires store ⟨context, node⟩) key key'
  encloses : ∀ key ∈ call.frame.named, ∃ outer fields,
    ReflTransGen (Site.Follows store) ⟨context, node⟩ outer ∧
      outer.value = .object fields ∧ referenceOf? fields = none ∧
        outer.source.namedKey? context.origin fields = some key ∧
          TransGen (Site.Follows store) outer call.site

theorem clear_start (hnode : node.Lacks markerKeyword) (path : String) :
    Clear store context node (.start context path node) where
  scope := inScope_start path
  reached := .refl
  lacks := hnode
  requires := List.forall_mem_nil _
  encloses := List.forall_mem_nil _

/-- The canonical form of a reference that a call meets is the one that counts for circles. -/
theorem Clear.refers? {frame : Frame} {fields : Fields Json} {reference : String}
    {target : Target} (h : Clear store context node ⟨frame, .object fields⟩)
    (href : RefersTo store frame.source fields reference target) :
    Site.refers? store context.origin ⟨frame.source, .object fields⟩
      = some (target.canonical frame.home reference, ⟨target.source, target.node⟩) := by
  have hhome : frame.home = context.origin := h.scope.home_eq
  rw [hhome]
  exact href.refers? _

/-- Where no circle is reached, a reference that a call meets gives way to its target. -/
theorem Clear.treatment_eq {frame : Frame} {fields : Fields Json} {reference : String}
    {target : Target} (h : Clear store context node ⟨frame, .object fields⟩)
    (hacyclic : Site.Acyclic store ⟨context, node⟩)
    (href : RefersTo store frame.source fields reference target) :
    Walk.treatment .standard frame reference target = .inline := by
  have hwhole : Reference.fragment reference ≠ "#" :=
    hacyclic.notWhole _ _ h.reached href.made
  have hexpanding : target.canonical frame.home reference ∉ frame.expanding := by
    intro hkey
    exact hacyclic.acyclic _ (h.requires _ hkey _ _ _ .refl (h.refers? href))
  have hnamed : target.canonical frame.home reference ∉ frame.named := by
    intro hkey
    obtain ⟨outer, titled, houter, hvalue, hnone, hname, hinner⟩ := h.encloses _ hkey
    exact hacyclic.notEnclosing outer titled _ _ _ houter hvalue hnone hinner (h.refers? href) hname
  simp [Walk.treatment, DereferenceOptions.standard, hwhole, hexpanding, hnamed]

/-- The stacks of a part hold what led to it. -/
theorem Clear.descend {part : Call} (h : Clear store context node call)
    (hpart : Descends call part) : Clear store context node part where
  scope := h.scope.descend hpart
  reached := h.reached.tail (Or.inl hpart.hasPart_site)
  lacks := h.lacks.of_hasPart hpart.hasPart
  requires := fun key hkey inner key' next hinner hrefers =>
    h.requires key (hpart.expanding_eq ▸ hkey) inner key' next
      (ReflTransGen.head hpart.hasPart_site hinner) hrefers
  encloses := by
    have hstep : Site.Follows store call.site part.site := Or.inl hpart.hasPart_site
    have hold : ∀ key ∈ call.frame.named, ∃ outer fields,
        ReflTransGen (Site.Follows store) ⟨context, node⟩ outer ∧
          outer.value = .object fields ∧ referenceOf? fields = none ∧
            outer.source.namedKey? context.origin fields = some key ∧
              TransGen (Site.Follows store) outer part.site := by
      intro key hkey
      obtain ⟨outer, titled, houter, hvalue, hnone, hname, hinner⟩ := h.encloses key hkey
      exact ⟨outer, titled, houter, hvalue, hnone, hname, hinner.tail hstep⟩
    cases hpart with
    | item => exact hold
    | @member frame fields name part hmem hname =>
      intro key hkey
      change key ∈ (frame.inside fields).named at hkey
      cases hmade : referenceOf? fields with
      | some reference =>
        rw [Frame.inside_of_some hmade] at hkey
        exact hold key hkey
      | none =>
        have hhome : frame.home = context.origin := h.scope.home_eq
        rw [Frame.inside_of_none hmade, Frame.enter, hhome] at hkey
        rcases List.mem_append.mp hkey with hown | hkey
        · -- The object whose part this is has the title of a named schema.
          exact ⟨_, fields, h.reached, rfl, hmade, Option.mem_toList.mp hown, .single hstep⟩
        · exact hold key hkey

/-- The stacks of a target hold what led to it. -/
theorem Clear.expand {frame : Frame} {fields : Fields Json} {reference : String}
    {target : Target} (h : Clear store context node ⟨frame, .object fields⟩)
    (hroots : ∀ source ∈ store.sources context,
      source.document.root.Lacks markerKeyword)
    (href : RefersTo store frame.source fields reference target)
    (htreat : Walk.treatment .standard frame reference target = .inline) :
    Clear store context node
      ⟨frame.expand target.source (target.canonical frame.home reference), target.node⟩ where
  scope := h.scope.expand (.inline href htreat)
  reached := h.reached.tail (Or.inr href.target?)
  lacks := Store.everyObject_of_locate? href.found h.scope.source_mem hroots
  requires := by
    intro key hkey inner key' next hinner hrefers
    have hstep : Site.Requires store ⟨context, node⟩ (target.canonical frame.home reference) key' :=
      ⟨_, _, inner, next, h.reached, h.refers? href, hinner, hrefers⟩
    rcases List.mem_cons.mp hkey with rfl | hkey
    · exact .single hstep
    · exact (h.requires key hkey _ _ _ .refl (h.refers? href)).tail hstep
  encloses := by
    intro key hkey
    obtain ⟨outer, titled, houter, hvalue, hnone, hname, hinner⟩ := h.encloses key hkey
    exact ⟨outer, titled, houter, hvalue, hnone, hname,
      hinner.tail (Or.inr href.target?)⟩

end Call

/-! ### Walks that inline -/

/-- The walk of a call succeeds with the value that the plain way gives from some depth on,
and logs nothing. -/
def Call.Inlines (store : Store) (least : Nat) (call : Call) : Prop :=
  ∃ inlined, (∀ depth, least ≤ depth →
      store.inlineWith (store.inlinedWithin depth) call.frame.source call.value = some inlined) ∧
    inlined.Lacks markerKeyword ∧
      ∀ log, Walks ⟨store, .standard⟩ call.frame call.value log inlined log

section Inlines

variable {store : Store} {least : Nat}

/-- A value that is neither an object nor an array stays as it is. -/
private theorem Call.Inlines.scalar {frame : Frame} {value : Json}
    (hlacks : value.Lacks markerKeyword) (hobject : value.object? = none)
    (harray : value.array? = none) : Call.Inlines store least ⟨frame, value⟩ := by
  refine ⟨value, fun depth _ => ?_, hlacks, fun _ => .scalar hobject harray⟩
  cases value with
  | object fields => cases hobject
  | array items => cases harray
  | _ => rfl

/-- Members are inlined when each of them is. -/
private theorem members_inline {frame : Frame} {fields : Fields Json}
    (hlacks : ∀ name part, (name, part) ∈ fields → part.Lacks markerKeyword)
    (hparts : ∀ name part, (name, part) ∈ fields → isOpaqueKeyword name = false →
      Call.Inlines store least ⟨frame.member name, part⟩) :
    ∃ inlined, (∀ depth, least ≤ depth →
        store.inlineMembersWith (store.inlinedWithin depth) frame.source fields = some inlined) ∧
      (∀ name part, (name, part) ∈ inlined → part.Lacks markerKeyword) ∧
        ∀ log, WalksMembers ⟨store, .standard⟩ frame fields log inlined log := by
  induction fields with
  | nil => exact ⟨[], fun _ _ => rfl, fun _ _ hmem => absurd hmem List.not_mem_nil, fun _ => .nil⟩
  | cons entry rest ih =>
    obtain ⟨name, part⟩ := entry
    obtain ⟨others, hothers, hrest, hwalks⟩ := ih
      (fun other value hmem => hlacks other value (List.mem_cons_of_mem _ hmem))
      fun other value hmem => hparts other value (List.mem_cons_of_mem _ hmem)
    have hcons : ∀ {value : Json}, value.Lacks markerKeyword →
        ∀ other part, (other, part) ∈ (name, value) :: others → part.Lacks markerKeyword := by
      intro value hvalue other part hmem
      rcases List.mem_cons.mp hmem with heq | hmem
      · exact (Prod.mk.inj heq).2 ▸ hvalue
      · exact hrest other part hmem
    -- What stands under an opaque keyword is data, which is neither inlined nor walked.
    by_cases hopaque : isOpaqueKeyword name = true
    · refine ⟨(name, part) :: others, fun depth hdepth => ?_,
        hcons (hlacks name part (List.mem_cons_self ..)), fun log => .data hopaque (hwalks log)⟩
      rw [Store.inlineMembersWith, hothers depth hdepth, if_pos hopaque]
      rfl
    · have hopaque : isOpaqueKeyword name = false := by simpa using hopaque
      obtain ⟨inlined, hinlined, hpart, hwalk⟩ :=
        hparts name part (List.mem_cons_self ..) hopaque
      refine ⟨(name, inlined) :: others, fun depth hdepth => ?_, hcons hpart,
        fun log => .member hopaque (hwalk log) (hwalks log)⟩
      have hvalue : store.inlineWith (store.inlinedWithin depth) frame.source part = some inlined :=
        hinlined depth hdepth
      rw [Store.inlineMembersWith, hothers depth hdepth, hopaque, hvalue]
      rfl

/-- Items are inlined when each of them is. -/
private theorem items_inline {frame : Frame} {index : Nat} {items : List Json}
    (hparts : ∀ offset part, items[offset]? = some part →
      Call.Inlines store least ⟨frame.item (index + offset), part⟩) :
    ∃ inlined, (∀ depth, least ≤ depth →
        store.inlineItemsWith (store.inlinedWithin depth) frame.source items = some inlined) ∧
      (∀ part ∈ inlined, part.Lacks markerKeyword) ∧
        ∀ log, WalksItems ⟨store, .standard⟩ frame index items log inlined log := by
  induction items generalizing index with
  | nil => exact ⟨[], fun _ _ => rfl, List.forall_mem_nil _, fun _ => .nil⟩
  | cons item rest ih =>
    obtain ⟨inlined, hinlined, hitem, hwalk⟩ := hparts 0 item rfl
    obtain ⟨others, hothers, hrest, hwalks⟩ := @ih (index + 1) fun offset part hpart => by
      rw [show index + 1 + offset = index + (offset + 1) by omega]
      exact hparts (offset + 1) part (by simpa using hpart)
    refine ⟨inlined :: others, fun depth hdepth => ?_, fun part hmem => ?_,
      fun log => .item (hwalk log) (hwalks log)⟩
    · have hvalue : store.inlineWith (store.inlinedWithin depth) frame.source item = some inlined :=
        hinlined depth hdepth
      rw [Store.inlineItemsWith, hvalue, hothers depth hdepth]
      rfl
    · rcases List.mem_cons.mp hmem with rfl | hmem
      · exact hitem
      · exact hrest part hmem

/-- **A call inlines** when the calls that it makes do: those for its members or items, and
that for the target of its reference if it makes one. -/
private theorem Call.Clear.inlines_of_calls {context : Source} {node : Json} {call : Call}
    (h : call.Clear store context node)
    (hroots : ∀ source ∈ store.sources context,
      source.document.root.Lacks markerKeyword)
    (hacyclic : Site.Acyclic store ⟨context, node⟩)
    (ih : ∀ next, Calls ⟨store, .standard⟩ call next → next.Clear store context node →
      Call.Inlines store (store.pending context node next) next) :
    Call.Inlines store (store.pending context node call) call := by
  -- Parts have as many references to expand as the value.
  have hpart : ∀ part, Descends call part →
      Call.Inlines store (store.pending context node call) part := by
    intro part hpart
    rw [← Store.pending_descend hpart]
    exact ih part (Or.inl hpart) (h.descend hpart)
  obtain ⟨frame, value⟩ := call
  cases value with
  | null => exact .scalar h.lacks rfl rfl
  | bool b => exact .scalar h.lacks rfl rfl
  | number n => exact .scalar h.lacks rfl rfl
  | string s => exact .scalar h.lacks rfl rfl
  | array items =>
    obtain ⟨inlined, hinlined, hlacks, hwalks⟩ :=
      @items_inline store _ frame 0 items fun offset part hitem =>
        hpart _ (.item (by simpa using hitem))
    refine ⟨.array inlined, fun depth hdepth => ?_, Json.everyObject_array_iff.mpr hlacks,
      fun log => .array (hwalks log)⟩
    rw [Store.inlineWith, hinlined depth hdepth]
    rfl
  -- Beside a reference the members are inlined as they are, and laid over the target.
  | object fields =>
    obtain ⟨hnames, hvalues⟩ := Json.everyObject_object_iff.mp h.lacks
    obtain ⟨beside, hbeside, hlacks, hwalks⟩ := members_inline hvalues
      fun name part hmem hname => hpart _ (.member hmem hname)
    rw [Frame.inside_source] at hbeside
    have hobject : (Json.object beside).Lacks markerKeyword := by
      rw [Json.Lacks, Json.everyObject_object_iff, (hwalks .empty).keys_eq]
      exact ⟨hnames, hlacks⟩
    cases hmade : referenceOf? fields with
    | none =>
      refine ⟨.object beside, fun depth hdepth => ?_, hobject,
        fun log => .object hmade (hwalks log)⟩
      rw [Store.inlineWith, hbeside depth hdepth, hmade]
      rfl
    | some reference =>
      have hsome : (store.locate? reference frame.source).isSome :=
        hacyclic.found _ _ h.reached hmade
      obtain ⟨target, hfound⟩ := Option.isSome_iff_exists.mp hsome
      have href : RefersTo store frame.source fields reference target := ⟨hmade, hfound⟩
      have hexpands : Expands ⟨store, .standard⟩ ⟨frame, .object fields⟩ _ _ :=
        .inline href (h.treatment_eq hacyclic href)
      obtain ⟨inlined, hinlined, htarget, hwalk⟩ := ih _ (Or.inr ⟨_, hexpands⟩)
        (h.expand hroots href (h.treatment_eq hacyclic href))
      refine ⟨overlayTarget (Fields.swapErase beside "$ref") inlined, fun depth hdepth => ?_,
        (hobject.swapErase _).overlayTarget htarget,
        fun log => .inline href (h.treatment_eq hacyclic href) (hwalks log) (hwalk log)⟩
      -- The target has fewer references to expand, so there is depth left for it.
      have hless := Store.pending_expand h.scope hexpands
      obtain ⟨below, rfl⟩ : ∃ below, depth = below + 1 := ⟨depth - 1, by omega⟩
      have hvalue : store.inlinedWithin (below + 1) target.source target.node = some inlined :=
        hinlined below (by omega)
      rw [Store.inlineWith, hbeside _ hdepth, hmade]
      simp only [Option.bind_eq_bind, Option.bind_some, hfound, hvalue]
      rfl

end Inlines

/-- **Where there are no circles, dereferencing is plain inlining.**  It succeeds, leaves
no reference in place, and gives the schema that the plain way gives at every depth that
exceeds the number of references. -/
theorem dereferenceAt_eq_inlined {store : Store} {context : store.Context} {node : Json}
    (hnode : node.Lacks markerKeyword)
    (hroots : ∀ source ∈ store.sources context,
      source.document.root.Lacks markerKeyword)
    (hacyclic : Site.Acyclic store ⟨context, node⟩) (path : String) :
    ∃ schema, (∀ depth, store.referenceCount context.document node < depth →
        store.inlinedWithin depth context node = some schema) ∧
      store.dereferenceAt .standard node context path = .ok ⟨schema, [], []⟩ := by
  have hinlines : ∀ call, Acc (fun next call => Calls ⟨store, .standard⟩ call next) call →
      call.Clear store context node →
        Call.Inlines store (store.pending context node call) call := by
    intro call hacc
    induction hacc with
    | intro call _ ih => exact fun h => h.inlines_of_calls hroots hacyclic ih
  obtain ⟨schema, hschema, hlacks, hwalks⟩ :=
    hinlines _ (Call.inScope_start path).acc (Call.clear_start hnode path)
  refine ⟨schema, fun depth hdepth => ?_,
    dereferenceAt_eq_ok_iff.mpr ⟨schema, .empty, hwalks .empty, ?_⟩⟩
  · obtain ⟨below, rfl⟩ : ∃ below, depth = below + 1 := ⟨depth - 1, by omega⟩
    have hle : store.pending context node (.start context path node)
        ≤ store.referenceCount context.document node := Store.pending_le _
    exact hschema below (by omega)
  · rw [Dereferenced.ofWalk, Json.restoreMarkers_of_lacks hlacks]
    rfl

/-! ### Two references, one after the other -/

/-- A bundle with a schema that refers to another. -/
def namesBundle : Document := ⟨some "names", "Names", .object [("definitions", .object
  [("Person", .object [("$ref", .string "#/definitions/Name"), ("nullable", .bool true)]),
    ("Name", .object [("title", .string "Name")])])]⟩

/-- A store with just the bundle. -/
def namesStore : Store := Store.empty.register "names" namesBundle

/-- A document without schemas. -/
def blankDocument : Document := ⟨none, "Blank", .object []⟩

/-- A reference to the schema that refers to another. -/
def personReference : Json := .object [("$ref", .string "names#/definitions/Person")]

/-- The schema that refers to another, with what stands beside the reference. -/
private def personSites : List Site :=
  [⟨⟨.bundle "names", namesBundle⟩,
      .object [("$ref", .string "#/definitions/Name"), ("nullable", .bool true)]⟩,
    ⟨⟨.bundle "names", namesBundle⟩, .bool true⟩]

/-- The other schema. -/
private def nameSites : List Site :=
  [⟨⟨.bundle "names", namesBundle⟩, .object [("title", .string "Name")]⟩,
    ⟨⟨.bundle "names", namesBundle⟩, .string "Name"⟩]

/-- All that is reached from the reference. -/
private theorem mem_sites_of_reached {site : Site}
    (h : ReflTransGen (Site.Follows namesStore) ⟨blankDocument.asContext, personReference⟩ site) :
    site ∈ ⟨blankDocument.asContext, personReference⟩ :: personSites ++ nameSites :=
  Site.mem_of_follows (by decide +kernel) (by decide +kernel) h (by simp)

private theorem requires_eq {key key' : String}
    (h : Site.Requires namesStore ⟨blankDocument.asContext, personReference⟩ key key') :
    key = "names#/definitions/Person" ∧ key' = "names#/definitions/Name" := by
  obtain ⟨site, target, inner, next, hsite, htarget, hinner, hnext⟩ := h
  have hcases : ∀ site ∈ ⟨blankDocument.asContext, personReference⟩ :: personSites ++ nameSites,
      ∀ entry ∈ site.refers? namesStore .context,
        entry.1 = "names#/definitions/Person" ∧ entry.2 ∈ personSites ∨ entry.2 ∈ nameSites := by
    decide +kernel
  rcases hcases site (mem_sites_of_reached hsite) _ htarget with ⟨hkey, hmem⟩ | hmem
  · have hown : ∀ site ∈ personSites, ∀ entry ∈ site.refers? namesStore .context,
        entry.1 = "names#/definitions/Name" := by decide +kernel
    have hclosed : ∀ site ∈ personSites, ∀ next ∈ site.parts, next ∈ personSites := by
      decide +kernel
    exact ⟨hkey, hown inner (Site.mem_of_hasPart hclosed hinner hmem) _ hnext⟩
  · have hown : ∀ site ∈ nameSites, site.refers? namesStore .context = none := by decide +kernel
    have hclosed : ∀ site ∈ nameSites, ∀ next ∈ site.parts, next ∈ nameSites := by
      decide +kernel
    cases hnext.symm.trans (hown inner (Site.mem_of_hasPart hclosed hinner hmem))

/-- No circle is reached from the reference. -/
private theorem acyclic_personReference :
    Site.Acyclic namesStore ⟨blankDocument.asContext, personReference⟩ where
  found := by
    intro site reference hsite hmade
    have hall : ∀ site ∈ ⟨blankDocument.asContext, personReference⟩ :: personSites ++ nameSites,
        ∀ reference ∈ site.made?, (namesStore.locate? reference site.source).isSome := by
      decide +kernel
    exact hall site (mem_sites_of_reached hsite) reference hmade
  acyclic := by
    intro key h
    obtain ⟨next, hfirst, -⟩ := TransGen.head'_iff.mp h
    obtain ⟨last, -, hlast⟩ := TransGen.tail'_iff.mp h
    have heq := (requires_eq hfirst).1.symm.trans (requires_eq hlast).2
    exact absurd heq (by decide)
  notWhole := by
    intro site reference hsite hmade
    have hall : ∀ site ∈ ⟨blankDocument.asContext, personReference⟩ :: personSites ++ nameSites,
        ∀ reference ∈ site.made?, Reference.fragment reference ≠ "#" := by decide +kernel
    exact hall site (mem_sites_of_reached hsite) reference hmade
  notEnclosing := by
    intro outer fields inner key target houter hvalue hnone hinner htarget
    -- What makes no reference itself does not lead to a reference.
    have hplain : ∀ site ∈ ⟨blankDocument.asContext, personReference⟩ :: personSites ++ nameSites,
        site.made? = none → site ∈ ⟨⟨.bundle "names", namesBundle⟩, .bool true⟩ :: nameSites := by
      decide +kernel
    have hown : ∀ site ∈ ⟨⟨.bundle "names", namesBundle⟩, .bool true⟩ :: nameSites,
        site.refers? namesStore .context = none := by decide +kernel
    have hmade : outer.made? = none := by
      rw [Site.made?, hvalue]
      exact hnone
    have hmem := Site.mem_of_follows (by decide +kernel) (by decide +kernel)
      hinner.to_reflTransGen (hplain outer (mem_sites_of_reached houter) hmade)
    cases htarget.symm.trans (hown inner hmem)

/-- Both references give way to their targets, with what stands beside the second. -/
theorem dereferenceAt_eq_inlined_personReference :
    personReference.Lacks markerKeyword ∧
      (∀ source ∈ namesStore.sources blankDocument.asContext,
        source.document.root.Lacks markerKeyword) ∧
      Site.Acyclic namesStore ⟨blankDocument.asContext, personReference⟩ ∧
      ∃ schema, schema = .object [("nullable", .bool true), ("title", .string "Name")] ∧
        namesStore.inlinedWithin 3 blankDocument.asContext personReference = some schema ∧
        namesStore.dereferenceAt .standard personReference blankDocument "#"
          = .ok ⟨schema, [], []⟩ := by
  have hnode : personReference.Lacks markerKeyword := by decide +kernel
  have hroots : ∀ source ∈ namesStore.sources blankDocument.asContext,
      source.document.root.Lacks markerKeyword := by decide +kernel
  have hrun : (namesStore.dereferenceAt .standard personReference blankDocument "#").toOption
      = some ⟨.object [("nullable", .bool true), ("title", .string "Name")], [], []⟩ := by
    decide +kernel
  obtain ⟨schema, hschema, hok⟩ :=
    @dereferenceAt_eq_inlined namesStore blankDocument _ hnode hroots acyclic_personReference "#"
  rw [hok, Except.toOption, Option.some.injEq, Dereferenced.mk.injEq] at hrun
  exact ⟨hnode, hroots, acyclic_personReference, schema, hrun.1, hschema 3 (by decide +kernel), hok⟩

end RpcSchema
