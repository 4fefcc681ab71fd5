import RpcSchema.Proofs.Dereference.Qualification
import RpcSchema.Proofs.Dereference.Simulation
import RpcSchema.Proofs.Identity

/-!
# Bare and qualified references are interchangeable

Within its own document a reference finds the same with and without the id of the document, and has
the same canonical form.  So a walk treats it the same, and the text itself does not last: the
reference gives way to its target or is left in place in canonical form.

Two walks of interchangeable values are thus alike as long as they come to interchangeable values
again.  They do, unless a pointer leads to the text of a reference.

## Main definitions

* `Walk.Alike` — a relation of calls in two stores whose values are walked alike.
* `Call.Interchangeable` — interchangeable values in frames that agree.

## Main results

* `Walks.alike` — calls that are related come to the same value, with the same log.
* `dereferenceAt_interchangeable` — interchangeable values have the same results.
-/

namespace RpcSchema

/-! ### The same members but for one name -/

/-- The same members in the same order, but for what stands under a name. -/
inductive Fields.AgreeBut (name : String) : Fields Json → Fields Json → Prop
  | nil : Fields.AgreeBut name [] []
  | same (entry : String × Json) {rest rest' : Fields Json}
      (hrest : Fields.AgreeBut name rest rest') :
      Fields.AgreeBut name (entry :: rest) (entry :: rest')
  | other (part part' : Json) {rest rest' : Fields Json}
      (hrest : Fields.AgreeBut name rest rest') :
      Fields.AgreeBut name ((name, part) :: rest) ((name, part') :: rest')

namespace Fields.AgreeBut

variable {name : String} {fields fields' : Fields Json}

theorem eq_of_notMem (h : AgreeBut name fields fields') (hname : name ∉ keys fields) :
    fields' = fields := by
  induction h with
  | nil => rfl
  | same entry _ ih => rw [ih fun hmem => hname (List.mem_cons_of_mem _ hmem)]
  | other => exact absurd List.mem_cons_self hname

/-- They are the same when the same is found under the name, too. -/
theorem eq_of_get? (h : AgreeBut name fields fields') (hnodup : (keys fields).Nodup)
    (hget : get? fields' name = get? fields name) : fields' = fields := by
  induction h with
  | nil => rfl
  | same entry hrest ih =>
    obtain ⟨hentry, hnodup⟩ := List.nodup_cons.mp hnodup
    by_cases hname : entry.1 = name
    · rw [hrest.eq_of_notMem (hname ▸ hentry)]
    · rw [get?_cons, get?_cons, if_neg hname, if_neg hname] at hget
      rw [ih hnodup hget]
  | other part part' hrest =>
    rw [get?_cons, get?_cons, if_pos rfl, if_pos rfl] at hget
    rw [Option.some.inj hget, hrest.eq_of_notMem (List.nodup_cons.mp hnodup).1]

/-- Without the name they are the same. -/
theorem swapErase_eq (h : AgreeBut name fields fields') (hnodup : (keys fields).Nodup) :
    swapErase fields' name = swapErase fields name := by
  induction h with
  | nil => rfl
  | same entry hrest ih =>
    obtain ⟨hentry, hnodup⟩ := List.nodup_cons.mp hnodup
    by_cases hname : entry.1 = name
    · rw [hrest.eq_of_notMem (hname ▸ hentry)]
    · rw [swapErase_cons_of_ne hname, swapErase_cons_of_ne hname, ih hnodup]
  | other part part' hrest =>
    have hname := (List.nodup_cons.mp hnodup).1
    rw [hrest.eq_of_notMem hname, swapErase_cons_self hname, swapErase_cons_self hname]

end Fields.AgreeBut

/-! ### Walks of related calls -/

/-- Members whose parts are related by `r`.  Data are the same, but for texts of references. -/
inductive Walk.MembersAlike (r : Call → Call → Prop) (frame frame' : Frame) :
    Fields Json → Fields Json → Prop
  | nil : Walk.MembersAlike r frame frame' [] []
  | reference (part part' : Json) {rest rest' : Fields Json}
      (hrest : Walk.MembersAlike r frame frame' rest rest') :
      Walk.MembersAlike r frame frame' (("$ref", part) :: rest) (("$ref", part') :: rest')
  | data {name : String} {part : Json} {rest rest' : Fields Json}
      (hname : isOpaqueKeyword name = true)
      (hrest : Walk.MembersAlike r frame frame' rest rest') :
      Walk.MembersAlike r frame frame' ((name, part) :: rest) ((name, part) :: rest')
  | member {name : String} {part part' : Json} {rest rest' : Fields Json}
      (hname : isOpaqueKeyword name = false)
      (hpart : r ⟨frame.member name, part⟩ ⟨frame'.member name, part'⟩)
      (hrest : Walk.MembersAlike r frame frame' rest rest') :
      Walk.MembersAlike r frame frame' ((name, part) :: rest) ((name, part') :: rest')

theorem Walk.MembersAlike.flip {r : Call → Call → Prop} {frame frame' : Frame}
    {fields fields' : Fields Json} (h : Walk.MembersAlike r frame frame' fields fields') :
    Walk.MembersAlike (flip r) frame' frame fields' fields := by
  induction h with
  | nil => exact .nil
  | reference part part' _ ih => exact .reference part' part ih
  | data hname _ ih => exact .data hname ih
  | member hname hpart _ ih => exact .member hname hpart ih

/-- Calls that are related by `r` walk their values alike: parts are related again, and references
are treated alike and have related targets. -/
structure Walk.Alike (store store' : Store) (r : Call → Call → Prop) : Prop where
  path : ∀ {call call' : Call}, r call call' → call'.frame.path = call.frame.path
  scalar : ∀ {call call' : Call}, r call call' → call.value.object? = none →
    call.value.array? = none → call'.value = call.value
  array : ∀ {frame frame' : Frame} {items : List Json} {value' : Json},
    r ⟨frame, .array items⟩ ⟨frame', value'⟩ → ∃ items', value' = .array items' ∧
      List.Forall₂ (fun part part' =>
        ∀ index, r ⟨frame.item index, part⟩ ⟨frame'.item index, part'⟩) items items'
  object : ∀ {frame frame' : Frame} {fields : Fields Json} {value' : Json},
    r ⟨frame, .object fields⟩ ⟨frame', value'⟩ → (Fields.keys fields).Nodup ∧
      ∃ fields', value' = .object fields' ∧
        MembersAlike r (frame.inside fields) (frame'.inside fields') fields fields'
  plain : ∀ {frame frame' : Frame} {fields fields' : Fields Json},
    r ⟨frame, .object fields⟩ ⟨frame', .object fields'⟩ → referenceOf? fields = none →
      referenceOf? fields' = none ∧ Fields.get? fields' "$ref" = Fields.get? fields "$ref"
  refers : ∀ {frame frame' : Frame} {fields fields' : Fields Json} {reference : String}
    {target : Target}, r ⟨frame, .object fields⟩ ⟨frame', .object fields'⟩ →
      RefersTo store frame.source fields reference target →
      ∃ reference' target', RefersTo store' frame'.source fields' reference' target' ∧
        target'.canonical frame'.home reference' = target.canonical frame.home reference ∧
        treatment .standard frame' reference' target'
          = treatment .standard frame reference target ∧
        (treatment .standard frame reference target = .inline →
          r ⟨frame.expand target.source (target.canonical frame.home reference), target.node⟩
            ⟨frame'.expand target'.source (target'.canonical frame'.home reference'),
              target'.node⟩)

section Alike

variable {store store' : Store} {r : Call → Call → Prop}

mutual

/-- **Related calls come to the same value**, with the same log. -/
theorem Walks.alike (h : Walk.Alike store store' r) {frame frame' : Frame}
    {value value' walked : Json} {log log' : WalkLog} :
    Walks ⟨store, .standard⟩ frame value log walked log' → r ⟨frame, value⟩ ⟨frame', value'⟩ →
      Walks ⟨store', .standard⟩ frame' value' log walked log'
  | .scalar hobject harray, hr => by
    obtain rfl : value' = value := h.scalar hr hobject harray
    exact .scalar hobject harray
  | .array hitems, hr => by
    obtain ⟨items', rfl, hparts⟩ := h.array hr
    exact .array (hitems.alike h hparts)
  | .object hnone hmembers, hr => by
    obtain ⟨hnodup, fields', rfl, hparts⟩ := h.object hr
    obtain ⟨walked', hmembers', hagree⟩ := hmembers.alike h hparts
    obtain ⟨hnone', hget⟩ := h.plain hr hnone
    have hopaque : isOpaqueKeyword "$ref" = true := by decide
    obtain rfl := hagree.eq_of_get? (hmembers.keys_eq ▸ hnodup)
      (by rw [hmembers'.get?_of_opaque hopaque, hmembers.get?_of_opaque hopaque, hget])
    exact .object hnone' hmembers'
  | .keep _ htreat _, _ => absurd htreat Walk.treatment_standard_ne_keep
  | .copied _ htreat _ _, _ => absurd htreat Walk.treatment_standard_ne_copy
  | .copy _ htreat _ _ _ _, _ => absurd htreat Walk.treatment_standard_ne_copy
  -- Where a reference is left in place the marker is its canonical text, which both have.
  | .leave href htreat hmembers, hr => by
    obtain ⟨hnodup, fields', rfl, hparts⟩ := h.object hr
    obtain ⟨walked', hmembers', hagree⟩ := hmembers.alike h hparts
    obtain ⟨reference', target', href', hcanonical, htreat', -⟩ := h.refers hr href
    have hleave := Walks.leave href' (htreat'.trans htreat) hmembers'
    have hpath : frame'.path = frame.path := h.path hr
    rw [hagree.swapErase_eq (hmembers.keys_eq ▸ hnodup), hcanonical, hpath] at hleave
    exact hleave
  | .inline href htreat hmembers htarget, hr => by
    obtain ⟨hnodup, fields', rfl, hparts⟩ := h.object hr
    obtain ⟨walked', hmembers', hagree⟩ := hmembers.alike h hparts
    obtain ⟨reference', target', href', -, htreat', hinline⟩ := h.refers hr href
    have htarget' := htarget.alike h (hinline htreat)
    have hwalks := Walks.inline href' (htreat'.trans htreat) hmembers' htarget'
    rw [hagree.swapErase_eq (hmembers.keys_eq ▸ hnodup)] at hwalks
    exact hwalks

theorem WalksMembers.alike (h : Walk.Alike store store' r) {frame frame' : Frame}
    {fields fields' walked : Fields Json} {log log' : WalkLog} :
    WalksMembers ⟨store, .standard⟩ frame fields log walked log' →
      Walk.MembersAlike r frame frame' fields fields' →
      ∃ walked', WalksMembers ⟨store', .standard⟩ frame' fields' log walked' log' ∧
        Fields.AgreeBut "$ref" walked walked'
  | .nil, .nil => ⟨[], .nil, .nil⟩
  | .data hname hrest, .data _ hparts => by
    obtain ⟨rest', hrest', hagree⟩ := hrest.alike h hparts
    exact ⟨_, .data hname hrest', .same _ hagree⟩
  | .data hname hrest, .reference part part' hparts => by
    obtain ⟨rest', hrest', hagree⟩ := hrest.alike h hparts
    exact ⟨_, .data hname hrest', .other part part' hagree⟩
  | .data hname _, .member hopen _ _ => by
    rw [hname] at hopen
    cases hopen
  | .member hname hpart hrest, .member _ hr hparts => by
    obtain ⟨rest', hrest', hagree⟩ := hrest.alike h hparts
    exact ⟨_, .member hname (hpart.alike h hr) hrest', .same _ hagree⟩
  | .member hname _ _, .data hopaque _ => by
    rw [hname] at hopaque
    cases hopaque
  | .member hname _ _, .reference _ _ _ => by cases hname

theorem WalksItems.alike (h : Walk.Alike store store' r) {frame frame' : Frame} {first : Nat}
    {items items' walked : List Json} {log log' : WalkLog} :
    WalksItems ⟨store, .standard⟩ frame first items log walked log' →
      List.Forall₂ (fun part part' =>
        ∀ index, r ⟨frame.item index, part⟩ ⟨frame'.item index, part'⟩) items items' →
      WalksItems ⟨store', .standard⟩ frame' first items' log walked log'
  | .nil, .nil => .nil
  | .item hitem hrest, .cons hr hparts =>
    .item (hitem.alike h (hr first)) (hrest.alike h hparts)

end

end Alike

/-! ### Interchangeable calls -/

/-- Interchangeable values in frames that agree, the first one met when a node is dereferenced. -/
structure Call.Interchangeable (store : Store) (context : Source) (node : Json)
    (call call' : Call) : Prop where
  home : call'.frame.home = call.frame.home
  source : call.frame.source.Interchangeable call'.frame.source
  path : call'.frame.path = call.frame.path
  expanding : call'.frame.expanding = call.frame.expanding
  named : call'.frame.named = call.frame.named
  value : Json.Interchangeable call.frame.source.document.id call.value call'.value
  scope : call.InScope store context node
  names : call.value.DistinctNames

/-- The documents in reach have ids that references can be qualified with, if any, and no reference
leads through the keyword of references. -/
structure Store.Navigable (store : Store) (context : store.Context) (node : Json) : Prop where
  ids : ∀ source ∈ store.sources context, ∀ own ∈ source.document.id, Reference.Qualifies own
  names : ∀ source ∈ store.sources context, source.document.root.DistinctNames
  steps : ∀ written ∈ store.written context node, ∀ target ∈ store.locate? written.2 written.1,
    .member "$ref" ∉ target.steps

section Interchangeable

variable {store store' : Store} {context : store.Context} {node : Json} {frame frame' : Frame}
  {fields fields' : Fields Json} {reference : String} {target : Target}

namespace Call.Interchangeable

/-- The frames within interchangeable objects agree. -/
theorem named_inside (h : Call.Interchangeable store context node ⟨frame, .object fields⟩
      ⟨frame', .object fields'⟩)
    (hmembers : Json.MembersInterchangeable frame.source.document.id fields fields') :
    (frame'.inside fields').named = (frame.inside fields).named := by
  have hnamed : frame'.named = frame.named := h.named
  cases hmade : referenceOf? fields with
  | some text =>
    obtain ⟨text', hmade', -⟩ := hmembers.referenceOf? hmade
    rw [Frame.inside_of_some hmade, Frame.inside_of_some hmade', hnamed]
  | none =>
    have hmade' := hmembers.referenceOf?_eq_none hmade
    have hhome : frame'.home = frame.home := h.home
    have hkey : frame'.source.namedKey? frame'.home fields'
        = frame.source.namedKey? frame.home fields :=
      hhome ▸ h.source.namedKey?_eq frame'.home hmembers
    rw [Frame.inside_of_none hmade, Frame.inside_of_none hmade', Frame.enter, Frame.enter, hkey,
      hnamed]

theorem member (h : Call.Interchangeable store context node ⟨frame, .object fields⟩
      ⟨frame', .object fields'⟩)
    (hmembers : Json.MembersInterchangeable frame.source.document.id fields fields')
    {name : String} {part part' : Json} (hmem : (name, part) ∈ fields)
    (hname : isOpaqueKeyword name = false)
    (hpart : Json.Interchangeable frame.source.document.id part part') :
    Call.Interchangeable store context node ⟨(frame.inside fields).member name, part⟩
      ⟨(frame'.inside fields').member name, part'⟩ := by
  have hsource : ((frame.inside fields).member name).source = frame.source :=
    Frame.inside_source _ _
  have hsource' : ((frame'.inside fields').member name).source = frame'.source :=
    Frame.inside_source _ _
  have hhome : frame'.home = frame.home := h.home
  have hpath : frame'.path = frame.path := h.path
  have hexpanding : frame'.expanding = frame.expanding := h.expanding
  refine ⟨?_, ?_, ?_, ?_, h.named_inside hmembers, ?_, h.scope.descend (.member hmem hname),
    (Json.everyObject_object_iff.mp h.names).2 name part hmem⟩
  · simp only [Frame.member, Frame.goTo, Frame.inside_home, hhome]
  · rw [hsource, hsource']
    exact h.source
  · simp only [Frame.member, Frame.goTo, Frame.inside_path, hpath]
  · simp only [Frame.member, Frame.goTo, Frame.inside_expanding, hexpanding]
  · rw [hsource]
    exact hpart

/-- The members of interchangeable objects are walked alike. -/
theorem membersAlike (h : Call.Interchangeable store context node ⟨frame, .object fields⟩
      ⟨frame', .object fields'⟩)
    (hmembers : Json.MembersInterchangeable frame.source.document.id fields fields') :
    Walk.MembersAlike (Call.Interchangeable store context node) (frame.inside fields)
      (frame'.inside fields') fields fields' := by
  have hparts : ∀ {rest rest' : Fields Json}, rest ⊆ fields →
      Json.MembersInterchangeable frame.source.document.id rest rest' →
        Walk.MembersAlike (Call.Interchangeable store context node) (frame.inside fields)
          (frame'.inside fields') rest rest' := by
    intro rest
    induction rest with
    | nil =>
      intro rest' _ hrest
      cases hrest
      exact .nil
    | cons entry rest ih =>
      intro rest' hsubset hrest
      obtain ⟨hmem, hothers⟩ := List.cons_subset.mp hsubset
      cases hrest with
      | cons hpart hrest =>
        cases hpart with
        | reference => exact .reference _ _ (ih hothers hrest)
        | data hname => exact .data hname (ih hothers hrest)
        | member hname hinter =>
          exact .member hname (h.member hmembers hmem hname hinter) (ih hothers hrest)
  exact hparts (List.Subset.refl _) hmembers

/-- The items of interchangeable arrays are walked alike. -/
theorem itemsAlike {items items' : List Json}
    (h : Call.Interchangeable store context node ⟨frame, .array items⟩ ⟨frame', .array items'⟩)
    (hitems : Json.ItemsInterchangeable frame.source.document.id items items') :
    List.Forall₂ (fun part part' => ∀ index, Call.Interchangeable store context node
      ⟨frame.item index, part⟩ ⟨frame'.item index, part'⟩) items items' := by
  have hpath : frame'.path = frame.path := h.path
  have hparts : ∀ {rest rest' : List Json}, rest ⊆ items →
      Json.ItemsInterchangeable frame.source.document.id rest rest' →
        List.Forall₂ (fun part part' => ∀ index, Call.Interchangeable store context node
          ⟨frame.item index, part⟩ ⟨frame'.item index, part'⟩) rest rest' := by
    intro rest
    induction rest with
    | nil =>
      intro rest' _ hrest
      cases hrest
      exact .nil
    | cons part rest ih =>
      intro rest' hsubset hrest
      obtain ⟨hmem, hothers⟩ := List.cons_subset.mp hsubset
      cases hrest with
      | cons hinter hrest =>
        refine .cons (fun index => ?_) (ih hothers hrest)
        obtain ⟨position, hposition⟩ := List.mem_iff_getElem?.mp hmem
        have hscope := h.scope.descend (.item hposition)
        refine ⟨h.home, h.source, ?_, h.expanding, h.named, hinter,
          ⟨hscope.home_eq, hscope.source_mem, hscope.written⟩,
          Json.everyObject_array_iff.mp h.names part hmem⟩
        simp only [Frame.item, Frame.goTo, hpath]
  exact hparts (List.Subset.refl _) hitems

/-- **Interchangeable references are treated alike**, and have interchangeable targets. -/
theorem refers (hstore : store.Interchangeable store') (hplain : store.Navigable context node)
    (h : Call.Interchangeable store context node ⟨frame, .object fields⟩
      ⟨frame', .object fields'⟩)
    (href : RefersTo store frame.source fields reference target) :
    ∃ reference' target', RefersTo store' frame'.source fields' reference' target' ∧
      target'.canonical frame'.home reference' = target.canonical frame.home reference ∧
      Walk.treatment .standard frame' reference' target'
        = Walk.treatment .standard frame reference target ∧
      (Walk.treatment .standard frame reference target = .inline →
        Call.Interchangeable store context node
          ⟨frame.expand target.source (target.canonical frame.home reference), target.node⟩
          ⟨frame'.expand target'.source (target'.canonical frame'.home reference'),
            target'.node⟩) := by
  obtain ⟨_, heq, hmembers⟩ := h.value.exists_members
  obtain rfl := Json.object.inj heq
  obtain ⟨reference', hmade', hinter⟩ := hmembers.referenceOf? href.made
  have hids := hplain.ids _ h.scope.source_mem
  obtain ⟨target', hfound', htarget⟩ := hstore.locate? h.source hids hinter href.found
  have hfragment := hinter.fragment_eq hids
  have hcanonical : target'.canonical frame'.home reference'
      = target.canonical frame.home reference :=
    (h.home : frame'.home = frame.home) ▸ htarget.canonical_eq frame'.home hfragment
  have hexpanding : frame'.expanding = frame.expanding := h.expanding
  have hnamed : frame'.named = frame.named := h.named
  refine ⟨reference', target', ⟨hmade', hfound'⟩, hcanonical, ?_, fun htreat => ?_⟩
  · simp only [Walk.treatment_standard_eq, hfragment, hcanonical, hexpanding, hnamed]
  · have hwritten := h.scope.written reference (by simp [Json.references, href.made])
    have hnext : Expands ⟨store, .standard⟩ ⟨frame, .object fields⟩
        (target.canonical frame.home reference)
        ⟨frame.expand target.source (target.canonical frame.home reference), target.node⟩ :=
      .inline href htreat
    have hscope := h.scope.expand hnext
    refine ⟨h.home, htarget.source, h.path, ?_, hnamed,
      htarget.node (hplain.steps _ hwritten _ href.found), hscope, ?_⟩
    · simp only [Frame.expand, hcanonical, hexpanding]
    · exact Store.everyObject_of_locate? href.found h.scope.source_mem hplain.names

end Call.Interchangeable

/-- Documents from outside the stores stand in the same place. -/
theorem Document.Interchangeable.own {document document' : Document}
    (h : document.Interchangeable document') : Source.Interchangeable
      (.own document : store.Context) (.own document' : store'.Context) := ⟨rfl, h⟩

section Interchange

variable (hstore : store.Interchangeable store') (hplain : store.Navigable context node)
include hstore hplain

/-- What is found from an interchangeable object is found from the object. -/
private theorem exists_refersTo (h : Call.Interchangeable store context node
      ⟨frame, .object fields⟩ ⟨frame', .object fields'⟩)
    {reference' : String} {target' : Target}
    (href' : RefersTo store' frame'.source fields' reference' target') :
    ∃ reference target, RefersTo store frame.source fields reference target := by
  obtain ⟨_, heq, hmembers⟩ := h.value.exists_members
  obtain rfl := Json.object.inj heq
  obtain ⟨reference, hmade, hinter⟩ := hmembers.symm.referenceOf? href'.made
  have hids : ∀ own ∈ frame'.source.document.id, Reference.Qualifies own :=
    h.source.document.id ▸ hplain.ids _ h.scope.source_mem
  have hinter' : Reference.Interchangeable frame'.source.document.id reference' reference :=
    h.source.document.id ▸ hinter
  obtain ⟨target, hfound, -⟩ := hstore.symm.locate? h.source.symm hids hinter' href'.found
  exact ⟨reference, target, hmade, hfound⟩

/-- **The second of two interchangeable values is walked as the first one is.** -/
theorem Call.Interchangeable.alike :
    Walk.Alike store store' (Call.Interchangeable store context node) where
  path h := h.path
  scalar h := h.value.eq_of_scalar
  array h := by
    obtain ⟨items', rfl, hitems⟩ := h.value.exists_items
    exact ⟨items', rfl, h.itemsAlike hitems⟩
  object h := by
    obtain ⟨fields', rfl, hmembers⟩ := h.value.exists_members
    exact ⟨(Json.everyObject_object_iff.mp h.names).1, fields', rfl, h.membersAlike hmembers⟩
  plain h hnone := by
    obtain ⟨_, heq, hmembers⟩ := h.value.exists_members
    obtain rfl := Json.object.inj heq
    exact ⟨hmembers.referenceOf?_eq_none hnone, hmembers.get?_ref hnone⟩
  refers h href := h.refers hstore hplain href

/-- **The first of two interchangeable values is walked as the second one is.** -/
theorem Call.Interchangeable.alike_flip :
    Walk.Alike store' store (flip (Call.Interchangeable store context node)) where
  path h := (h : Call.Interchangeable store context node _ _).path.symm
  scalar {_ _} h := by
    have h : Call.Interchangeable store context node _ _ := h
    exact h.value.symm.eq_of_scalar
  array {frame' frame items' value} h := by
    have h : Call.Interchangeable store context node ⟨frame, value⟩ ⟨frame', .array items'⟩ := h
    obtain ⟨items, rfl, hitems⟩ := h.value.symm.exists_items
    exact ⟨items, rfl, (h.itemsAlike hitems.symm).flip⟩
  object {frame' frame fields' value} h := by
    have h : Call.Interchangeable store context node ⟨frame, value⟩ ⟨frame', .object fields'⟩ := h
    obtain ⟨fields, rfl, hmembers⟩ := h.value.symm.exists_members
    refine ⟨?_, fields, rfl, (h.membersAlike hmembers.symm).flip⟩
    exact hmembers.keys_eq ▸ (Json.everyObject_object_iff.mp h.names).1
  plain {frame' frame fields' fields} h hnone := by
    have h : Call.Interchangeable store context node ⟨frame, .object fields⟩
      ⟨frame', .object fields'⟩ := h
    obtain ⟨_, heq, hmembers⟩ := h.value.symm.exists_members
    obtain rfl := Json.object.inj heq
    exact ⟨hmembers.referenceOf?_eq_none hnone, hmembers.get?_ref hnone⟩
  refers {frame' frame fields' fields reference' target'} h href' := by
    have h : Call.Interchangeable store context node ⟨frame, .object fields⟩
      ⟨frame', .object fields'⟩ := h
    -- What the second one finds, the first one finds, too; and then the two agree.
    obtain ⟨reference, target, href⟩ := exists_refersTo hstore hplain h href'
    obtain ⟨_, _, hother, hcanonical, htreat, hinline⟩ := h.refers hstore hplain href
    obtain ⟨rfl, rfl⟩ := href'.unique hother
    exact ⟨reference, target, href, hcanonical.symm, htreat.symm,
      fun htreat' => hinline (htreat.symm.trans htreat')⟩

/-- **Bare and qualified references are interchangeable.**  Where they are written one way or the
other, in a node and in all documents, dereferencing has the same results: the same values with the
same references left in place. -/
theorem dereferenceAt_interchangeable {context' : store'.Context} {node' : Json} {path : String}
    {result : Dereferenced} (hcontext : Source.Interchangeable context context')
    (hnode : Json.Interchangeable context.document.id node node') (hnames : node.DistinctNames) :
    store'.dereferenceAt .standard node' context' path = .ok result ↔
      store.dereferenceAt .standard node context path = .ok result := by
  have hstart : Call.Interchangeable store context node (.start context path node)
      (.start context' path node') :=
    ⟨hcontext.origin, hcontext, rfl, rfl, rfl, hnode, Call.inScope_start path, hnames⟩
  rw [dereferenceAt_eq_ok_iff, dereferenceAt_eq_ok_iff]
  constructor
  · rintro ⟨walked, log, hwalks, rfl⟩
    exact ⟨walked, log, hwalks.alike (Call.Interchangeable.alike_flip hstore hplain) hstart, rfl⟩
  · rintro ⟨walked, log, hwalks, rfl⟩
    exact ⟨walked, log, hwalks.alike (Call.Interchangeable.alike hstore hplain) hstart, rfl⟩

end Interchange

end Interchangeable

/-- A document with a schema that refers to itself by a text, and to one in a bundle. -/
def petsDocument (reference : String) : Document := ⟨some "pets", "Pets", .object
  [("components", .object [("schemas", .object [("Pet", .object [("properties", .object
    [("parent", .object [("$ref", .string reference)]),
      ("kind", .object [("$ref", .string "kinds#/definitions/Kind")])])])])])]⟩

/-- A bundle with a schema that refers to another by a text. -/
def kindsDocument (reference : String) : Document := ⟨none, "Kinds", .object
  [("definitions", .object [("Kind", .object [("$ref", .string reference)]),
    ("Name", .object [("type", .string "string")])])]⟩

/-- A store with the bundle. -/
def kindsStore (reference : String) : Store :=
  Store.empty.register "kinds" (kindsDocument reference)

/-- A reference to the schema of the document. -/
def petReference (reference : String) : Json := .object [("$ref", .string reference)]

theorem petsDocument_interchangeable {text text' : String}
    (h : Reference.Interchangeable (some "pets") text text') :
    (petsDocument text).Interchangeable (petsDocument text') where
  id := rfl
  root := .object (.cons (.member rfl (.object (.cons (.member rfl (.object (.cons (.member rfl
    (.object (.cons (.member rfl (.object (.cons (.member rfl (.object (.cons (.reference h) .nil)))
      (.cons (.member rfl (.same _)) .nil)))) .nil))) .nil))) .nil))) .nil)

theorem kindsStore_interchangeable {text text' : String}
    (h : Reference.Interchangeable (some "kinds") text text') :
    (kindsStore text).Interchangeable (kindsStore text') :=
  .cons ⟨rfl, rfl, .object (.cons (.member rfl (.object (.cons (.member rfl
    (.object (.cons (.reference h) .nil))) (.cons (.member rfl (.same _)) .nil)))) .nil)⟩ .nil

/-- With bare references and with qualified ones the schema comes to the same. -/
theorem dereferenceAt_interchangeable_pets :
    let self := "#/components/schemas/Pet"
    let name := "#/definitions/Name"
    (kindsStore name).Interchangeable (kindsStore ("kinds" ++ name)) ∧
      (kindsStore name).Navigable (petsDocument self) (petReference self) ∧
      (petsDocument self).Interchangeable (petsDocument ("pets" ++ self)) ∧
      Json.Interchangeable (some "pets") (petReference self) (petReference ("pets" ++ self)) ∧
      (petReference self).DistinctNames ∧
      (kindsStore ("kinds" ++ name)).dereferenceAt .standard (petReference ("pets" ++ self))
          (petsDocument ("pets" ++ self)) "#"
        = .ok ⟨.object [("properties", .object [("parent", petReference self),
            ("kind", .object [("type", .string "string")])])],
          [⟨"#/properties/parent", self⟩], []⟩ := by
  intro self name
  have hself : Reference.Interchangeable (some "pets") self ("pets" ++ self) :=
    .qualified rfl ⟨"/components/schemas/Pet".toList, by decide +kernel⟩
  have hname : Reference.Interchangeable (some "kinds") name ("kinds" ++ name) :=
    .qualified rfl ⟨"/definitions/Name".toList, by decide +kernel⟩
  have hstore := kindsStore_interchangeable hname
  have hplain : (kindsStore name).Navigable (petsDocument self) (petReference self) :=
    ⟨by decide +kernel, by decide +kernel, by decide +kernel⟩
  have hcontext := petsDocument_interchangeable hself
  have hnode : Json.Interchangeable (some "pets") (petReference self)
      (petReference ("pets" ++ self)) := .object (.cons (.reference hself) .nil)
  have hnames : (petReference self).DistinctNames := by decide
  have hrun : (kindsStore name).dereferenceAt .standard (petReference self) (petsDocument self) "#"
      = .ok ⟨.object [("properties", .object [("parent", petReference self),
            ("kind", .object [("type", .string "string")])])],
          [⟨"#/properties/parent", self⟩], []⟩ := eq_ok_of_toOption (by decide +kernel)
  exact ⟨hstore, hplain, hcontext, hnode, hnames,
    (dereferenceAt_interchangeable hstore hplain hcontext.own hnode hnames).mpr hrun⟩

end RpcSchema
