import RpcSchema.Proofs.Dereference.Walks
import RpcSchema.Proofs.Outcome

/-!
# Two walks of one value

A walk depends on the document that is worked on through two things only: what the references
that it meets find, and which named schemas enclose them.  Where these agree, two walks of one
value in two documents come to the same value, wherever the value stands in them.

## Main definitions

* `Walk.Simulation` — a relation of frames in which a value is walked alike.
* `Store.Meets` — the references that a walk meets in the document worked on.
* `Document.Twins` — two documents that look alike to a walk, but for hidden keys.

## Main results

* `Walks.simulate` — frames that are related walk a value to the same value.
* `dereferenceAt_twins` — dereferencing a value in two documents that look alike to it.
-/

namespace RpcSchema

open Relation

/-! ### Simulations -/

namespace Walk

/-- Wherever a value is walked in the first of two related frames, the second one walks it
alike: parts are walked in related frames again, and references are treated alike and give way to
the same values. -/
structure Simulation (store : Store) (r : Frame → Frame → Json → Prop) : Prop where
  member : ∀ {frame frame' : Frame} {fields : Fields Json} {name : String} {part : Json},
    r frame frame' (.object fields) → (name, part) ∈ fields → isOpaqueKeyword name = false →
      r ((frame.inside fields).member name) ((frame'.inside fields).member name) part
  item : ∀ {frame frame' : Frame} {items : List Json} {index : Nat} {part : Json},
    r frame frame' (.array items) → items[index]? = some part →
      r (frame.item index) (frame'.item index) part
  refers : ∀ {frame frame' : Frame} {fields : Fields Json} {reference : String} {target : Target},
    r frame frame' (.object fields) → RefersTo store frame.source fields reference target →
      ∃ target', RefersTo store frame'.source fields reference target' ∧
        target'.canonical frame'.home reference = target.canonical frame.home reference ∧
        treatment .standard frame' reference target' = treatment .standard frame reference target ∧
        (treatment .standard frame reference target = .inline →
          target'.node = target.node ∧
            r (frame.expand target.source (target.canonical frame.home reference))
              (frame'.expand target'.source (target.canonical frame.home reference)) target.node)

end Walk

section Simulate

variable {store : Store} {r : Frame → Frame → Json → Prop}

/-- Under the standard options references are left in place or give way to their targets. -/
theorem Walk.treatment_standard_eq (frame : Frame) (reference : String) (target : Target) :
    Walk.treatment .standard frame reference target =
      if Reference.fragment reference = "#" ∨
          target.canonical frame.home reference ∈ frame.expanding ∨
          target.canonical frame.home reference ∈ frame.named then .leave else .inline := by
  unfold Walk.treatment
  simp [DereferenceOptions.standard, or_assoc]

theorem Walk.treatment_standard {frame : Frame} {reference : String} {target : Target} :
    Walk.treatment .standard frame reference target = .leave ∨
      Walk.treatment .standard frame reference target = .inline := by
  rw [Walk.treatment_standard_eq]
  split
  · exact .inl rfl
  · exact .inr rfl

/-- Under the standard options no reference is kept as it is written. -/
theorem Walk.treatment_standard_ne_keep {frame : Frame} {reference : String} {target : Target} :
    Walk.treatment .standard frame reference target ≠ .keep := by
  intro hkeep
  rcases hkeep ▸ Walk.treatment_standard with h | h <;> cases h

/-- Under the standard options no reference is turned into a local one. -/
theorem Walk.treatment_standard_ne_copy {frame : Frame} {reference name : String}
    {target : Target} : Walk.treatment .standard frame reference target ≠ .copy name := by
  intro hcopy
  rcases hcopy ▸ Walk.treatment_standard with h | h <;> cases h

mutual

/-- **Related frames walk a value to the same value.** -/
theorem Walks.simulate (hsim : Walk.Simulation store r) {frame frame' : Frame}
    {value walked : Json} {log log' : WalkLog} :
    Walks ⟨store, .standard⟩ frame value log walked log' → r frame frame' value →
      ∀ other, ∃ other', Walks ⟨store, .standard⟩ frame' value other walked other'
  | .scalar hobject harray, _, other => ⟨other, .scalar hobject harray⟩
  | .array hitems, hr, other => by
    obtain ⟨other', hitems'⟩ := hitems.simulate hsim (fun index part hpart => by
      rw [Nat.zero_add]
      exact hsim.item hr hpart) other
    exact ⟨other', .array hitems'⟩
  | .object hnone hmembers, hr, other => by
    obtain ⟨other', hmembers'⟩ :=
      hmembers.simulate hsim (fun name part hmem hname => hsim.member hr hmem hname) other
    exact ⟨other', .object hnone hmembers'⟩
  | .keep _ htreat _, _, _ => absurd htreat Walk.treatment_standard_ne_keep
  | .copied _ htreat _ _, _, _ => absurd htreat Walk.treatment_standard_ne_copy
  | .copy _ htreat _ _ _ _, _, _ => absurd htreat Walk.treatment_standard_ne_copy
  | .leave href htreat hmembers, hr, other => by
    obtain ⟨other', hmembers'⟩ :=
      hmembers.simulate hsim (fun name part hmem hname => hsim.member hr hmem hname) other
    obtain ⟨target', href', hcanonical, htreat', -⟩ := hsim.refers hr href
    have hleave := Walks.leave href' (htreat'.trans htreat) hmembers'
    rw [hcanonical] at hleave
    exact ⟨_, hleave⟩
  | .inline href htreat hmembers htarget, hr, other => by
    obtain ⟨other', hmembers'⟩ :=
      hmembers.simulate hsim (fun name part hmem hname => hsim.member hr hmem hname) other
    obtain ⟨target', href', hcanonical, htreat', hinline⟩ := hsim.refers hr href
    obtain ⟨hnode, hr'⟩ := hinline htreat
    obtain ⟨last, htarget'⟩ := htarget.simulate hsim hr' other'
    rw [← hcanonical, ← hnode] at htarget'
    exact ⟨last, .inline href' (htreat'.trans htreat) hmembers' htarget'⟩

theorem WalksMembers.simulate (hsim : Walk.Simulation store r) {frame frame' : Frame}
    {fields fields' : Fields Json} {log log' : WalkLog} :
    WalksMembers ⟨store, .standard⟩ frame fields log fields' log' →
      (∀ name part, (name, part) ∈ fields → isOpaqueKeyword name = false →
        r (frame.member name) (frame'.member name) part) →
      ∀ other, ∃ other', WalksMembers ⟨store, .standard⟩ frame' fields other fields' other'
  | .nil, _, other => ⟨other, .nil⟩
  | .data hname hrest, hr, other => by
    obtain ⟨last, hrest'⟩ :=
      hrest.simulate hsim (fun name part hmem => hr name part (List.mem_cons_of_mem _ hmem)) other
    exact ⟨last, .data hname hrest'⟩
  | .member hname hpart hrest, hr, other => by
    obtain ⟨other', hpart'⟩ := hpart.simulate hsim (hr _ _ List.mem_cons_self hname) other
    obtain ⟨last, hrest'⟩ :=
      hrest.simulate hsim (fun name part hmem => hr name part (List.mem_cons_of_mem _ hmem)) other'
    exact ⟨last, .member hname hpart' hrest'⟩

theorem WalksItems.simulate (hsim : Walk.Simulation store r) {frame frame' : Frame} {first : Nat}
    {items items' : List Json} {log log' : WalkLog} :
    WalksItems ⟨store, .standard⟩ frame first items log items' log' →
      (∀ index part, items[index]? = some part →
        r (frame.item (first + index)) (frame'.item (first + index)) part) →
      ∀ other, ∃ other', WalksItems ⟨store, .standard⟩ frame' first items other items' other'
  | .nil, _, other => ⟨other, .nil⟩
  | .item hitem hrest, hr, other => by
    obtain ⟨other', hitem'⟩ := hitem.simulate hsim (hr 0 _ rfl) other
    obtain ⟨last, hrest'⟩ := hrest.simulate hsim (fun index part hpart => by
      rw [Nat.add_assoc, Nat.add_comm 1 index]
      exact hr (index + 1) part hpart) other'
    exact ⟨last, .item hitem' hrest'⟩

end

/-- What can be dereferenced in a document can be dereferenced with the same result in a related
one. -/
theorem dereferenceAt_simulate (hsim : Walk.Simulation store r) (context context' : store.Context)
    {value : Json} {path path' : String} {result : Dereferenced}
    (hr : r (.start context path) (.start context' path') value)
    (h : store.dereferenceAt .standard value context path = .ok result) :
    ∃ result', store.dereferenceAt .standard value context' path' = .ok result' ∧
      result'.schema = result.schema := by
  obtain ⟨walked, log, hwalks, rfl⟩ := dereferenceAt_eq_ok_iff.mp h
  obtain ⟨other, hwalks'⟩ := hwalks.simulate hsim hr .empty
  exact ⟨_, dereferenceAt_eq_ok_iff.mpr ⟨walked, other, hwalks', rfl⟩, rfl⟩

end Simulate

/-! ### Documents that look alike -/

/-- The walk of the value at a pointer of a document meets a reference, in the document or in a
bundle. -/
def Store.Meets (store : Store) (document : Document) (value : Json) (pointer : String)
    (source : Source) (reference : String) : Prop :=
  ∃ call fields,
    ReflTransGen (Calls ⟨store, .standard⟩) (.start document.asContext pointer value) call ∧
    call.value = .object fields ∧ call.frame.source = source ∧ referenceOf? fields = some reference

/-- Two documents look alike to the walk of a value: references find the same in both, but for
those to a whole document, which are left in place, and all schemas go by the same pointers, but
for hidden ones that no reference leads to. -/
structure Document.Twins (store : Store) (document document' : Document) (hidden : Set String)
    (value : Json) (pointer : String) : Prop where
  id : document'.id = document.id
  named : ∀ title, ∀ key ∉ hidden,
    document'.pointerOf? title = some key ↔ document.pointerOf? title = some key
  found : ∀ reference, store.Meets document value pointer document.asContext reference →
    Reference.fragment reference = "#" ∨
      (store.lookup reference document'.asContext).map Prod.snd
        = (store.lookup reference document.asContext).map Prod.snd
  shown : ∀ source reference target, store.Meets document value pointer source reference →
    store.locate? reference source = some target → target.canonical .context reference ∉ hidden

/-- The same place in two documents: in both of them, or in one bundle. -/
def Source.Twin (document document' : Document) (source source' : Source) : Prop :=
  source = document.asContext ∧ source' = document'.asContext ∨
    source.origin ≠ .context ∧ source' = source

/-- Frames at the same place in two documents, within the same schemas but for hidden ones. -/
structure Frame.Twin (document document' : Document) (hidden : Set String) (frame frame' : Frame) :
    Prop where
  home : frame.home = .context
  home' : frame'.home = .context
  source : frame.source.Twin document document' frame'.source
  expanding : frame'.expanding = frame.expanding
  named : ∀ key ∉ hidden, key ∈ frame'.named ↔ key ∈ frame.named

section Twins

variable {store : Store} {document document' : Document} {hidden : Set String} {value : Json}
  {pointer : String} {frame frame' : Frame} {fields : Fields Json} {reference : String}
  {target target' : Target}

theorem Frame.Twin.goTo (h : frame.Twin document document' hidden frame') (path path' : String) :
    (frame.goTo path).Twin document document' hidden (frame'.goTo path') :=
  ⟨h.home, h.home', h.source, h.expanding, h.named⟩

/-- The key of the schema that an object is taken for, in the document worked on. -/
theorem Source.namedKey?_asContext (document : Document) (fields : Fields Json) :
    document.asContext.namedKey? .context fields
      = ((Fields.get? fields "title").bind Json.string?).bind document.pointerOf? := by
  have hcanonical : document.asContext.canonical .context = id := rfl
  rw [Source.namedKey?, hcanonical, Option.map_id]
  rfl

theorem Frame.Twin.inside (hnamed : ∀ title, ∀ key ∉ hidden,
      document'.pointerOf? title = some key ↔ document.pointerOf? title = some key)
    (h : frame.Twin document document' hidden frame') (fields : Fields Json) :
    (frame.inside fields).Twin document document' hidden (frame'.inside fields) := by
  refine ⟨by simpa using h.home, by simpa using h.home', by simpa using h.source,
    by simpa using h.expanding, fun key hkey => ?_⟩
  unfold Frame.inside
  cases referenceOf? fields with
  | some _ => exact h.named key hkey
  | none =>
    simp only [Frame.enter, List.mem_append, Option.mem_toList, h.named key hkey, h.home, h.home']
    refine or_congr_left ?_
    rcases h.source with ⟨hsource, hsource'⟩ | ⟨-, hsource'⟩
    · rw [hsource, hsource', Source.namedKey?_asContext, Source.namedKey?_asContext,
        Option.bind_eq_some_iff, Option.bind_eq_some_iff]
      exact exists_congr fun title => and_congr_right fun _ => hnamed title key hkey
    · rw [hsource']

/-- A reference goes to the same place from the same place. -/
theorem Store.source?_twin (hid : document'.id = document.id) {within within' source : Source}
    {id : Option String} (h : within.Twin document document' within')
    (hsource : store.source? within id = some source) :
    ∃ source', store.source? within' id = some source' ∧ source.Twin document document' source' := by
  rcases h with ⟨rfl, rfl⟩ | ⟨hbundle, rfl⟩
  · cases id with
    | none =>
      obtain rfl := Option.some.inj hsource
      exact ⟨_, rfl, .inl ⟨rfl, rfl⟩⟩
    | some name =>
      rw [Store.source?] at hsource ⊢
      have hown : document'.asContext.document.id = document.asContext.document.id := hid
      rw [hown]
      split at hsource
      · next heq =>
        obtain rfl := Option.some.inj hsource
        exact ⟨_, if_pos heq, .inl ⟨rfl, rfl⟩⟩
      · next hne =>
        obtain ⟨bundle, hbundle, rfl⟩ := Option.map_eq_some_iff.mp hsource
        exact ⟨_, (if_neg hne).trans hsource, .inr ⟨fun h => (by cases h), rfl⟩⟩
  · refine ⟨source, hsource, .inr ⟨fun hcontext => hbundle ?_, rfl⟩⟩
    rcases Store.source?_cases hsource with heq | ⟨name, bundle, -, -, heq⟩
    · exact heq ▸ hcontext
    · rw [heq] at hcontext
      cases hcontext

/-- The same reference has the same canonical form. -/
theorem Target.canonical_twin (h : target.source.Twin document document' target'.source)
    (reference : String) :
    target'.canonical .context reference = target.canonical .context reference := by
  rcases h with ⟨hsource, hsource'⟩ | ⟨-, hsource'⟩
  · rw [Target.canonical, Target.canonical, hsource, hsource']
    rfl
  · rw [Target.canonical, Target.canonical, hsource']

/-- What is found from the one place is found from the other. -/
theorem Source.Twin.locate? (hid : document'.id = document.id) {within within' : Source}
    (h : within.Twin document document' within')
    (hsame : within = document.asContext → Reference.fragment reference = "#" ∨
      (store.lookup reference document'.asContext).map Prod.snd
        = (store.lookup reference document.asContext).map Prod.snd)
    (hfound : store.locate? reference within = some target) :
    ∃ target', store.locate? reference within' = some target' ∧
      target.source.Twin document document' target'.source ∧
        (Reference.fragment reference = "#" ∨ target'.node = target.node) := by
  obtain ⟨hsource, hlocate⟩ := Store.locate?_eq_some_iff.mp hfound
  obtain ⟨source', hsource', htwin⟩ := Store.source?_twin hid h hsource
  by_cases hwhole : Reference.fragment reference = "#"
  · -- A whole document is always found.
    refine ⟨⟨source', [], source'.document.root⟩, Store.locate?_eq_some_iff.mpr ⟨hsource', ?_⟩,
      htwin, .inl hwhole⟩
    rw [hwhole]
    rfl
  · have hnode : ∃ target', store.locate? reference within' = some target' ∧
        target'.node = target.node := by
      rcases h with ⟨rfl, rfl⟩ | ⟨-, rfl⟩
      · have hlookup := (hsame rfl).resolve_left hwhole
        rw [Store.lookup, Store.lookup, hfound, Option.map_map, Option.map_some, Option.map_some]
          at hlookup
        obtain ⟨target', hfound', hnode⟩ := Option.map_eq_some_iff.mp hlookup
        exact ⟨target', hfound', hnode⟩
      · exact ⟨target, hfound, rfl⟩
    obtain ⟨target', hfound', hnode⟩ := hnode
    have hsource'' := (Store.locate?_eq_some_iff.mp hfound').1
    obtain rfl := Option.some.inj (hsource'.symm.trans hsource'')
    exact ⟨target', hfound', htwin, .inr hnode⟩

theorem Source.Twin.symm {within within' : Source} (h : within.Twin document document' within') :
    within'.Twin document' document within := by
  rcases h with ⟨hsource, hsource'⟩ | ⟨hbundle, rfl⟩
  · exact .inl ⟨hsource', hsource⟩
  · exact .inr ⟨hbundle, rfl⟩

namespace Document.Twins

/-- A frame in the second document that is reached by walking the value in the first one. -/
def Related (store : Store) (document document' : Document) (hidden : Set String) (value : Json)
    (pointer : String) (frame frame' : Frame) (part : Json) : Prop :=
  frame.Twin document document' hidden frame' ∧
    ReflTransGen (Calls ⟨store, .standard⟩) (.start document.asContext pointer value)
      ⟨frame, part⟩

variable (h : document.Twins store document' hidden value pointer)

include h

/-- A reference that is met is treated the same in both documents. -/
theorem refers (hrelated : Related store document document' hidden value pointer frame frame'
      (.object fields)) (href : RefersTo store frame.source fields reference target) :
    ∃ target', RefersTo store frame'.source fields reference target' ∧
      target'.canonical frame'.home reference = target.canonical frame.home reference ∧
      Walk.treatment .standard frame' reference target'
        = Walk.treatment .standard frame reference target ∧
      (Walk.treatment .standard frame reference target = .inline →
        target'.node = target.node ∧
          Related store document document' hidden value pointer
            (frame.expand target.source (target.canonical frame.home reference))
            (frame'.expand target'.source (target.canonical frame.home reference))
            target.node) := by
  obtain ⟨htwin, hreach⟩ := hrelated
  have hmeets : store.Meets document value pointer frame.source reference :=
    ⟨⟨frame, .object fields⟩, fields, hreach, rfl, rfl, href.made⟩
  obtain ⟨target', hfound, hsource, hnode⟩ := htwin.source.locate? h.id
    (fun hcontext => h.found reference (hcontext ▸ hmeets)) href.found
  have hcanonical : target'.canonical frame'.home reference
      = target.canonical frame.home reference := by
    rw [htwin.home, htwin.home', Target.canonical_twin hsource]
  have hshown : target.canonical frame.home reference ∉ hidden := by
    rw [htwin.home]
    exact h.shown _ _ _ hmeets href.found
  refine ⟨target', ⟨href.made, hfound⟩, hcanonical, ?_, fun htreat => ?_⟩
  · simp only [Walk.treatment_standard_eq, hcanonical, htwin.expanding,
      htwin.named _ hshown]
  · have hwhole := (Walk.not_cycle_of_inline htreat).1
    refine ⟨hnode.resolve_left hwhole, ⟨htwin.home, htwin.home', hsource, ?_, htwin.named⟩,
      hreach.tail (.inr ⟨_, .inline href htreat⟩)⟩
    exact congrArg (target.canonical frame.home reference :: ·) htwin.expanding

theorem related_member {name : String} {part : Json}
    (hrelated : Related store document document' hidden value pointer frame frame'
      (.object fields)) (hmem : (name, part) ∈ fields) (hname : isOpaqueKeyword name = false) :
    Related store document document' hidden value pointer ((frame.inside fields).member name)
      ((frame'.inside fields).member name) part :=
  ⟨(hrelated.1.inside h.named fields).goTo _ _, hrelated.2.tail (.inl (.member hmem hname))⟩

omit h in
theorem related_item {items : List Json} {index : Nat} {part : Json}
    (hrelated : Related store document document' hidden value pointer frame frame' (.array items))
    (hpart : items[index]? = some part) :
    Related store document document' hidden value pointer (frame.item index) (frame'.item index)
      part :=
  ⟨hrelated.1.goTo _ _, hrelated.2.tail (.inl (.item hpart))⟩

/-- **The second document walks the value as the first one does.** -/
theorem simulation : Walk.Simulation store
    (Related store document document' hidden value pointer) where
  member := h.related_member
  item := related_item
  refers := h.refers

/-- **The first document walks the value as the second one does.** -/
theorem simulation_symm : Walk.Simulation store fun frame' frame part =>
    Related store document document' hidden value pointer frame frame' part where
  member := h.related_member
  item := related_item
  refers := by
    intro frame' frame fields reference target' hrelated href'
    -- What the second document finds, the first one finds, too; and then the two agree.
    obtain ⟨target, hfound, -⟩ := hrelated.1.source.symm.locate? h.id.symm (fun hcontext' => by
      rcases hrelated.1.source with ⟨hcontext, -⟩ | ⟨hbundle, hsource⟩
      · exact (h.found reference ⟨_, fields, hrelated.2, rfl, hcontext, href'.made⟩).imp_right
          Eq.symm
      · rw [← hsource, hcontext'] at hbundle
        exact absurd rfl hbundle) href'.found
    obtain ⟨other, hother, hcanonical, htreat, hinline⟩ := h.refers hrelated ⟨href'.made, hfound⟩
    obtain rfl := (href'.unique hother).2
    refine ⟨target, ⟨href'.made, hfound⟩, hcanonical.symm, htreat.symm, fun htreat' => ?_⟩
    obtain ⟨hnode, hrelated'⟩ := hinline (htreat.symm.trans htreat')
    rw [hcanonical, hnode]
    exact ⟨rfl, hrelated'⟩

end Document.Twins

/-- **Dereferencing a value in two documents that look alike to it**: both results are the same,
or there is none in either. -/
theorem dereferenceAt_twins (h : document.Twins store document' hidden value pointer)
    (pointer' : String) :
    (store.dereferenceAt .standard value document' pointer').toOption.map Dereferenced.schema
      = (store.dereferenceAt .standard value document pointer).toOption.map Dereferenced.schema := by
  have hstart : Document.Twins.Related store document document' hidden value pointer
      (.start document.asContext pointer) (.start document'.asContext pointer') value :=
    ⟨⟨rfl, rfl, .inl ⟨rfl, rfl⟩, rfl, fun _ _ => Iff.rfl⟩, .refl⟩
  refine Option.ext fun schema => ?_
  simp only [Option.map_eq_some_iff, toOption_eq_some_iff]
  constructor
  · rintro ⟨result', hresult', rfl⟩
    obtain ⟨result, hresult, hschema⟩ :=
      dereferenceAt_simulate h.simulation_symm document' document hstart hresult'
    exact ⟨result, hresult, hschema⟩
  · rintro ⟨result, hresult, rfl⟩
    obtain ⟨result', hresult', hschema⟩ :=
      dereferenceAt_simulate h.simulation document document' hstart hresult
    exact ⟨result', hresult', hschema⟩

end Twins

end RpcSchema
