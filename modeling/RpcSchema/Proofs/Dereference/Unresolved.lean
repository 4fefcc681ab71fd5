import RpcSchema.Proofs.Dereference.Accounts
import RpcSchema.Proofs.Dereference.Canonical
import RpcSchema.Proofs.Dereference.Sites
import RpcSchema.Proofs.Dereference.Walks

/-!
# No reference is left without saying so

Where no reference is turned into a local one, a reference in the result has one of two
reasons.  Either it is a reference into the document worked on that was to be kept, or
it was left in place and is logged with the pointer to it.

The pointer that is logged is that of the object that makes the reference when it is
walked.  Its target takes its place, so a reference within the target is at the right
place too, and putting properties together moves none.  Putting lists of required names
together does move the items beside the reference.  So these must be nothing but names,
also where the `required` keyword beside a reference only finds its list through another.

Objects are taken to give their members distinct names, as all that are read from text do.

## Main definitions

* `Site.RequiresNames` — all such lists hold nothing but names.
* `Call.Sound` — what is promised of a value and the documents, for a call.
* `Store.LeadsBack` — a reference into the document worked on, from another document.
* `Call.Kept`, `Frame.Logged` — the two reasons for a reference in the result.

## Main results

* `Call.Sound.accounts_of_calls` — a call accounts for what it leaves when the calls that
  it makes do.
* `dereferenceAt_accounts` — the result holds no markers, and a reason for all its
  references.
-/

namespace RpcSchema

open Relation

/-- The lists that `required` keywords beside references hold, written out or found through
references, hold only strings. -/
def Site.RequiresNames (store : Store) (start : Site) : Prop :=
  ∀ site fields reference value list items, ReflTransGen (Site.Follows store) start site →
    site.value = .object fields → referenceOf? fields = some reference →
    Fields.get? fields "required" = some value →
    ReflTransGen (Site.Leads store) ⟨site.source, value⟩ list → list.value = .array items →
      ∀ item ∈ items, item.isString = true

/-! ### Sound calls -/

namespace Call

variable {store : Store} {options : DereferenceOptions} {context : store.Context} {node : Json}

/-- What is promised of a value and the documents, for a call: no object has a marker, the
members of every object have distinct names, and required names are names. -/
structure Sound (store : Store) (context : Source) (node : Json) (call : Call) : Prop where
  scope : call.InScope store context node
  lacks : call.value.Lacks markerKeyword
  distinct : call.value.DistinctNames
  required : Site.RequiresNames store call.site

/-- What is promised of all documents in reach. -/
def SoundRoots (store : Store) (context : Source) : Prop :=
  ∀ source ∈ store.sources context,
    source.document.root.Lacks markerKeyword ∧ source.document.root.DistinctNames

theorem Sound.calls {call next : Call} (h : call.Sound store context node)
    (hroots : SoundRoots store context) (hcall : Calls ⟨store, options⟩ call next) :
    next.Sound store context node := by
  have hrequired : Site.RequiresNames store next.site := by
    intro site fields reference value list items hsite
    exact h.required site fields reference value list items (hsite.head hcall.follows)
  rcases hcall with hpart | ⟨key, hnext⟩
  · exact ⟨h.scope.descend hpart, h.lacks.of_hasPart hpart.hasPart,
      h.distinct.of_hasPart hpart.hasPart, hrequired⟩
  · have hscope := h.scope.expand hnext
    obtain ⟨found, steps, hfound⟩ : ∃ fragment steps,
        next.frame.source.document.root.locate? fragment = some (steps, next.value) := by
      cases hnext with
      | inline href => exact ⟨_, _, (Store.locate?_eq_some_iff.mp href.found).2⟩
      | copy href => exact ⟨_, _, (Store.locate?_eq_some_iff.mp href.found).2⟩
    obtain ⟨hlacks, hdistinct⟩ := hroots _ hscope.source_mem
    exact ⟨hscope, hlacks.of_locate? hfound, hdistinct.of_locate? hfound, hrequired⟩

end Call

/-! ### Lists that are found through references -/

section Lists

variable {setting : WalkSetting}

/-- Only an array stays an array when keywords are laid over it. -/
private theorem eq_array_of_overlayTarget {beside : Fields Json} {target : Json}
    {items : List Json} (h : overlayTarget beside target = .array items) :
    target = .array items := by
  unfold overlayTarget at h
  split at h
  · cases h
  · split at h
    · exact h
    · cases h

/-- Strings stay as they are. -/
theorem WalksItems.isString_of_mem {frame : Frame} {index : Nat} {items items' : List Json}
    {log log' : WalkLog} (h : WalksItems setting frame index items log items' log')
    (hitems : ∀ item ∈ items, item.isString = true) : ∀ item ∈ items', item.isString = true := by
  intro item hmem
  obtain ⟨offset, hoffset⟩ := List.mem_iff_getElem?.mp hmem
  obtain ⟨part, before, after, hpart, hwalk, -⟩ := h.of_getElem? hoffset
  have hstring := hitems part (List.mem_of_getElem? hpart)
  cases hwalk with
  | scalar => exact hstring
  | _ => cases hstring

/-- **A walk comes to a list of strings** where all lists that references lead to are such,
if it comes to a list. -/
theorem Call.isString_of_leads {call : Call}
    (hacc : Acc (fun next call => Calls setting call next) call) {log log' : WalkLog}
    {items : List Json} (hwalk : Walks setting call.frame call.value log (.array items) log')
    (hlists : ∀ list written, ReflTransGen (Site.Leads setting.store) call.site list →
      list.value = .array written → ∀ item ∈ written, item.isString = true) :
    ∀ item ∈ items, item.isString = true := by
  induction hacc generalizing log log' with
  | intro call _ ih =>
    obtain ⟨frame, value⟩ := call
    generalize hwalked : Json.array items = walked at hwalk
    cases hwalk with
    | scalar _ harray =>
      rw [← hwalked] at harray
      cases harray
    | array hitems =>
      obtain rfl := Json.array.inj hwalked
      exact hitems.isString_of_mem (hlists _ _ .refl rfl)
    | inline href htreat _ htarget =>
      have hnext : Expands setting _ _ _ := .inline href htreat
      rw [eq_array_of_overlayTarget hwalked.symm] at htarget
      exact ih _ (Or.inr ⟨_, hnext⟩) htarget fun list written hleads =>
        hlists list written (hleads.head hnext.leads)
    | _ => cases hwalked

end Lists

/-- **The list of required names beside a walked reference holds only names.** -/
theorem Call.Sound.isString_of_required {store : Store} {options : DereferenceOptions}
    {context : store.Context} {node : Json} {frame : Frame} {fields fields' : Fields Json}
    {log log' : WalkLog} {reference : String} {items : List Json}
    (h : Call.Sound store context node ⟨frame, .object fields⟩)
    (hmade : referenceOf? fields = some reference)
    (hmembers : WalksMembers ⟨store, options⟩ (frame.inside fields) fields log fields' log')
    (hget : Fields.get? fields' "required" = some (.array items)) :
    ∀ item ∈ items, item.isString = true := by
  have hopen : isOpaqueKeyword "required" = false := by decide
  obtain ⟨part, before, after, hpart, hwalk, -⟩ := hmembers.of_get? hopen hget
  have hdescends : Descends ⟨frame, .object fields⟩
      ⟨(frame.inside fields).member "required", part⟩ := .member (Fields.mem_of_get? hpart) hopen
  refine Call.isString_of_leads (h.scope.descend hdescends).acc hwalk ?_
  intro list written hleads hlist
  rw [Call.site, Frame.member, Frame.goTo, Frame.inside_source] at hleads
  exact h.required _ fields reference part list written .refl rfl hmade hpart hleads hlist

/-! ### The reasons for references -/

/-- The document worked on is a bundle, and another document holds a reference into it. -/
def Store.LeadsBack (store : Store) (context : Source) (node : Json) (reference : String) : Prop :=
  (∃ id, context.origin = .bundle id) ∧ ∃ source target,
    (source, reference) ∈ store.written context node ∧ source.origin ≠ context.origin ∧
      store.locate? reference source = some target ∧ target.source = context

/-- What leads back to the document worked on from another one leads to a bundle. -/
theorem Store.leadsBack_of_locate? {store : Store} {context : store.Context} {node : Json}
    {source : Source} {reference : String} {target : Target}
    (hwritten : (source, reference) ∈ store.written context node)
    (hother : source.origin ≠ context.origin)
    (hfound : store.locate? reference source = some target)
    (hback : target.source.origin = context.origin) : store.LeadsBack context node reference := by
  rcases source?_cases (locate?_eq_some_iff.mp hfound).1 with heq | ⟨id, document, -, hid, heq⟩
  · exact absurd (heq ▸ hback) hother
  · have horigin : context.origin = .bundle id := by rw [← hback, heq]
    have hsame : context.document = document :=
      Option.some.inj ((context.held id horigin).symm.trans hid)
    exact ⟨⟨id, horigin⟩, source, target, hwritten, hother, hfound,
      Source.ext hback (by rw [heq, hsame])⟩

/-- A value holds, at the end of some steps, a reference of the document worked on into
itself, or it comes to one that leads back to that document, and such references are to be
kept. -/
def Call.Kept (setting : WalkSetting) (context : Source) (node : Json) (call : Call)
    (steps : List Step) (reference : String) : Prop :=
  setting.options.externalOnly = true ∧
    ((∃ fields target, call.value.at? steps = some (.object fields) ∧
      RefersTo setting.store call.frame.source fields reference target ∧
        target.source.origin = context.origin) ∨ setting.store.LeadsBack context node reference)

/-- A log has an entry for a canonical reference at the end of some steps. -/
def Frame.Logged (frame : Frame) (log : WalkLog) (steps : List Step) (key : String) : Prop :=
  ⟨Pointer.below frame.path steps, key⟩ ∈ log.unresolved

/-- The walk of a call gives every object distinct names, and there is a reason for every
reference and marker that it leaves. -/
def Call.Accounts (setting : WalkSetting) (context : Source) (node : Json) (call : Call) : Prop :=
  ∀ log walked log', Walks setting call.frame call.value log walked log' →
    walked.DistinctNames ∧
      walked.Accounted (Call.Kept setting context node call) (call.frame.Logged log')

section Reasons

variable {setting : WalkSetting} {context : Source} {node : Json} {frame : Frame}
  {fields fields' : Fields Json} {log log' : WalkLog}

/-- What is kept in a part is kept in the value, one step further down. -/
private theorem Call.Kept.of_part {call part : Call} {step : Step} {steps : List Step}
    {reference : String} (h : Call.Kept setting context node part steps reference)
    (hpart : Descends call part) (hchild : call.value.child? step = some part.value) :
    Call.Kept setting context node call (step :: steps) reference := by
  obtain ⟨hexternal, ⟨fields, target, hat, href, hcontext⟩ | hback⟩ := h
  · have hat' : call.value.at? (step :: steps) = some (.object fields) := by
      rw [Json.at?, hchild]
      exact hat
    exact ⟨hexternal, Or.inl ⟨fields, target, hat', hpart.source_eq ▸ href, hcontext⟩⟩
  · exact ⟨hexternal, Or.inr hback⟩

/-- A walked object has distinct names when its members have. -/
private theorem distinctNames_members
    (h : WalksMembers setting (frame.inside fields) fields log fields' log')
    (hnames : (Json.object fields).DistinctNames)
    (hparts : ∀ part, Descends ⟨frame, .object fields⟩ part → part.Accounts setting context node) :
    (Json.object fields').DistinctNames := by
  obtain ⟨hown, hvalues⟩ := Json.everyObject_object_iff.mp hnames
  have hown' : (Fields.keys fields').Nodup := h.keys_eq ▸ hown
  refine Json.everyObject_object_iff.mpr ⟨hown', fun name walked hmem => ?_⟩
  have hget := Fields.get?_of_mem hown' hmem
  by_cases hname : isOpaqueKeyword name = true
  · rw [h.get?_of_opaque hname] at hget
    exact hvalues name walked (Fields.mem_of_get? hget)
  · have hname : isOpaqueKeyword name = false := by simpa using hname
    obtain ⟨part, before, after, hpart, hwalk, -⟩ := h.of_get? hname hget
    exact (hparts _ (.member (Fields.mem_of_get? hpart) hname) _ _ _ hwalk).1

/-- The walked members of an object are accounted for. -/
private theorem accounted_members
    (h : WalksMembers setting (frame.inside fields) fields log fields' log')
    (hparts : ∀ part, Descends ⟨frame, .object fields⟩ part → part.Accounts setting context node)
    {name : String} {walked : Json} (hname : isOpaqueKeyword name = false)
    (hget : Fields.get? fields' name = some walked) :
    walked.Accounted
      (fun steps => Call.Kept setting context node ⟨frame, .object fields⟩ (.member name :: steps))
      (fun steps => frame.Logged log' (.member name :: steps)) := by
  obtain ⟨part, before, after, hpart, hwalk, hsubset⟩ := h.of_get? hname hget
  have hdescends : Descends ⟨frame, .object fields⟩ ⟨(frame.inside fields).member name, part⟩ :=
    .member (Fields.mem_of_get? hpart) hname
  refine (hparts _ hdescends _ _ _ hwalk).2.mono ?_ ?_
  · exact fun steps reference hkept => hkept.of_part hdescends hpart
  · intro steps key hlogged
    rw [Frame.Logged, Frame.member, Frame.goTo, Frame.inside_path] at hlogged
    exact hsubset hlogged

/-- A walked object is accounted for when the reference that it makes, if any, is one that is
kept. -/
private theorem accounted_object
    (h : WalksMembers setting (frame.inside fields) fields log fields' log')
    (hparts : ∀ part, Descends ⟨frame, .object fields⟩ part → part.Accounts setting context node)
    (hmarker : markerKeyword ∉ Fields.keys fields)
    (hmade : ∀ reference, referenceOf? fields = some reference →
      Call.Kept setting context node ⟨frame, .object fields⟩ [] reference) :
    (Json.object fields').Accounted (Call.Kept setting context node ⟨frame, .object fields⟩)
      (frame.Logged log') := by
  refine Json.accounted_object_iff.mpr ⟨⟨?_, ?_⟩, fun name part hname hget =>
    accounted_members h hparts hname hget⟩
  · intro reference href
    rw [referenceOf?, h.get?_of_opaque (by decide), ← referenceOf?] at href
    exact hmade reference href
  · intro marker hget
    have hmem := Fields.mem_keys_of_mem (Fields.mem_of_get? hget)
    exact absurd (h.keys_eq ▸ hmem) hmarker

/-- What stands beside a reference is accounted for, without the reference. -/
private theorem accounted_beside
    (h : WalksMembers setting (frame.inside fields) fields log fields' log')
    (hparts : ∀ part, Descends ⟨frame, .object fields⟩ part → part.Accounts setting context node)
    (hnames : (Fields.keys fields).Nodup) (hmarker : markerKeyword ∉ Fields.keys fields) :
    (Json.object (Fields.swapErase fields' "$ref")).Accounted
      (Call.Kept setting context node ⟨frame, .object fields⟩) (frame.Logged log') := by
  have hnames' : (Fields.keys fields').Nodup := h.keys_eq ▸ hnames
  refine Json.accounted_object_iff.mpr ⟨⟨?_, ?_⟩, ?_⟩
  · intro reference href
    rw [referenceOf?, Fields.get?_swapErase_self hnames'] at href
    cases href
  · intro marker hget
    rw [Fields.get?_swapErase_of_ne hnames' markerKeyword_ne] at hget
    have hmem := Fields.mem_keys_of_mem (Fields.mem_of_get? hget)
    exact absurd (h.keys_eq ▸ hmem) hmarker
  · intro name walked hname hget
    have hne : name ≠ "$ref" := by
      rintro rfl
      cases hname
    rw [Fields.get?_swapErase_of_ne hnames' hne] at hget
    exact accounted_members h hparts hname hget

/-- Walked items are accounted for. -/
private theorem accounted_items {items items' : List Json}
    (h : WalksItems setting frame 0 items log items' log')
    (hparts : ∀ part, Descends ⟨frame, .array items⟩ part → part.Accounts setting context node) :
    (Json.array items').DistinctNames ∧
      (Json.array items').Accounted (Call.Kept setting context node ⟨frame, .array items⟩)
        (frame.Logged log') := by
  refine ⟨Json.everyObject_array_iff.mpr fun walked hmem => ?_,
    Json.accounted_array_iff.mpr fun index walked hget => ?_⟩
  · obtain ⟨index, hget⟩ := List.mem_iff_getElem?.mp hmem
    obtain ⟨part, before, after, hpart, hwalk, -⟩ := h.of_getElem? hget
    rw [Nat.zero_add] at hwalk
    exact (hparts _ (.item hpart) _ _ _ hwalk).1
  · obtain ⟨part, before, after, hpart, hwalk, hsubset⟩ := h.of_getElem? hget
    rw [Nat.zero_add] at hwalk
    have hdescends : Descends ⟨frame, .array items⟩ ⟨frame.item index, part⟩ := .item hpart
    exact (hparts _ hdescends _ _ _ hwalk).2.mono
      (fun steps reference hkept => hkept.of_part hdescends hpart)
      fun _ _ hlogged => hsubset hlogged

end Reasons

variable {store : Store} {options : DereferenceOptions} {context : store.Context} {node : Json}

/-- **A call accounts for what it leaves** when the calls that it makes do. -/
theorem Call.Sound.accounts_of_calls {call : Call} (hlocal : options.localizeExternal = false)
    (h : call.Sound store context node)
    (ih : ∀ next, Calls ⟨store, options⟩ call next → next.Accounts ⟨store, options⟩ context node) :
    call.Accounts ⟨store, options⟩ context node := by
  intro log walked log' hwalks
  have hparts : ∀ part, Descends call part → part.Accounts ⟨store, options⟩ context node :=
    fun part hpart => ih part (Or.inl hpart)
  obtain ⟨frame, value⟩ := call
  -- What all objects have in common.
  have hobject : ∀ {fields : Fields Json}, value = .object fields →
      (Fields.keys fields).Nodup ∧ markerKeyword ∉ Fields.keys fields := by
    rintro fields rfl
    exact ⟨(Json.everyObject_object_iff.mp h.distinct).1,
      (Json.everyObject_object_iff.mp h.lacks).1⟩
  -- No reference is turned into a local one here, so none is copied.
  cases hwalks with
  | scalar hobject harray =>
    exact ⟨Json.everyObject_scalar hobject harray, Json.accounted_scalar hobject harray⟩
  | array hitems => exact accounted_items hitems hparts
  | @object _ fields fields' _ _ hnone hmembers =>
    refine ⟨distinctNames_members hmembers h.distinct hparts,
      accounted_object hmembers hparts (hobject rfl).2 fun reference hmade => ?_⟩
    rw [hnone] at hmade
    cases hmade
  | @keep _ fields fields' reference target _ _ href htreat hmembers =>
    obtain ⟨hexternal, hcontext⟩ := Walk.treatment_eq_keep_iff.mp htreat
    refine ⟨distinctNames_members hmembers h.distinct hparts,
      accounted_object hmembers hparts (hobject rfl).2 fun other hmade => ?_⟩
    obtain rfl := Option.some.inj (hmade.symm.trans href.made)
    exact ⟨hexternal, Or.inl ⟨fields, target, rfl, href, hcontext.trans h.scope.home_eq⟩⟩
  | copied _ htreat =>
    exact absurd (Walk.origin_ne_context_of_copy htreat).1 (by simp [hlocal])
  | copy _ htreat =>
    exact absurd (Walk.origin_ne_context_of_copy htreat).1 (by simp [hlocal])
  | @leave _ fields fields' reference target _ between href htreat hmembers =>
    obtain ⟨hnames, hmarker⟩ := hobject rfl
    have hdistinct := (distinctNames_members hmembers h.distinct hparts).swapErase "$ref"
    have hbeside := accounted_beside hmembers hparts hnames hmarker
    have hstring : (Json.string (target.canonical frame.home reference)).DistinctNames :=
      Json.everyObject_scalar rfl rfl
    refine ⟨hdistinct.set hstring markerKeyword, accounted_mark ?_ ?_⟩
    · exact hbeside.mono (fun _ _ hkept => hkept)
        fun _ _ hlogged => List.mem_append_left _ hlogged
    · exact List.mem_append_right _ (List.mem_singleton_self _)
  | @inline _ fields fields' reference target _ between _ expanded href htreat hmembers htarget =>
    obtain ⟨hnames, hmarker⟩ := hobject rfl
    have hdistinct := distinctNames_members hmembers h.distinct hparts
    obtain ⟨htargetNames, htargetAccount⟩ :=
      ih _ (Or.inr ⟨_, .inline href htreat⟩) _ _ _ htarget
    refine ⟨(hdistinct.swapErase _).overlayTarget htargetNames,
      Json.Accounted.overlayTarget (hdistinct.swapErase _) htargetNames ?_ ?_ ?_⟩
    · exact (accounted_beside hmembers hparts hnames hmarker).mono (fun _ _ hkept => hkept)
        fun _ _ hlogged => htarget.unresolved_subset hlogged
    · -- A target does not stand in the document worked on.  What is kept in it leads back there.
      have hhome : frame.home = context.origin := h.scope.home_eq
      have htargetScope := h.scope.expand (.inline href htreat)
      refine htargetAccount.mono ?_ fun _ _ hlogged => hlogged
      rintro steps other ⟨hexternal, ⟨inner, last, hat, hinner, hlast⟩ | hback⟩
      · have hother := hhome ▸ Walk.origin_ne_context_of_inline htreat hexternal
        have hwritten := htargetScope.written other (mem_references_of_hasPart
          (Json.hasPart_of_at? hat) (by simp [Json.references, hinner.made]))
        exact ⟨hexternal, Or.inr (Store.leadsBack_of_locate? hwritten hother hinner.found hlast)⟩
      · exact ⟨hexternal, Or.inr hback⟩
    · intro items hget
      have hne : "required" ≠ "$ref" := by decide
      rw [Fields.get?_swapErase_of_ne (hmembers.keys_eq ▸ hnames) hne] at hget
      exact h.isString_of_required href.made hmembers hget

/-! ### Results -/

mutual

/-- Where no reference is turned into a local one, no target is copied. -/
theorem Walks.components_eq {setting : WalkSetting} {frame : Frame} {value walked : Json}
    {log log' : WalkLog} (hlocal : setting.options.localizeExternal = false) :
    Walks setting frame value log walked log' → log'.components = log.components
  | .scalar _ _ => rfl
  | .array hitems => hitems.components_eq hlocal
  | .object _ hmembers => hmembers.components_eq hlocal
  | .keep _ _ hmembers => hmembers.components_eq hlocal
  | .copied _ htreat _ _ => by
    rw [(Walk.origin_ne_context_of_copy htreat).1] at hlocal
    cases hlocal
  | .copy _ htreat _ _ _ _ => by
    rw [(Walk.origin_ne_context_of_copy htreat).1] at hlocal
    cases hlocal
  | .leave _ _ hmembers => by
    have heq := hmembers.components_eq hlocal
    exact heq
  | .inline _ _ hmembers htarget =>
    (htarget.components_eq hlocal).trans (hmembers.components_eq hlocal)

theorem WalksMembers.components_eq {setting : WalkSetting} {frame : Frame}
    {fields fields' : Fields Json} {log log' : WalkLog}
    (hlocal : setting.options.localizeExternal = false) :
    WalksMembers setting frame fields log fields' log' → log'.components = log.components
  | .nil => rfl
  | .data _ hrest => hrest.components_eq hlocal
  | .member _ hpart hrest => (hrest.components_eq hlocal).trans (hpart.components_eq hlocal)

theorem WalksItems.components_eq {setting : WalkSetting} {frame : Frame} {index : Nat}
    {items items' : List Json} {log log' : WalkLog}
    (hlocal : setting.options.localizeExternal = false) :
    WalksItems setting frame index items log items' log' → log'.components = log.components
  | .nil => rfl
  | .item hitem hrest => (hrest.components_eq hlocal).trans (hitem.components_eq hlocal)

end

/-- **Every call accounts for what it leaves**, by induction on the calls that it makes. -/
theorem Call.Sound.accounts {call : Call} (hlocal : options.localizeExternal = false)
    (hroots : ∀ source ∈ store.sources context,
      source.document.root.Lacks markerKeyword ∧ source.document.root.DistinctNames)
    (h : call.Sound store context node)
    (hacc : Acc (fun next call => Calls ⟨store, options⟩ call next) call) :
    call.Accounts ⟨store, options⟩ context node := by
  induction hacc with
  | intro call _ ih =>
    exact h.accounts_of_calls hlocal fun next hcall => ih next hcall (h.calls hroots hcall)

/-- **No reference is left without saying so.**  Where no reference is turned into a local
one, the result holds no markers.  Every reference in it that is reached through schemas
only is a reference of the document worked on into itself that was to be kept, and stood
at the same place before, or it is logged with the pointer to it.

Where the document worked on is a bundle itself, other documents can refer to it.  Such a
reference is kept as well, wherever the walk comes to it. -/
theorem dereferenceAt_accounts {path : String} {result : Dereferenced}
    (hlocal : options.localizeExternal = false) (hmarker : node.Lacks markerKeyword)
    (hnames : node.DistinctNames)
    (hroots : ∀ source ∈ store.sources context,
      source.document.root.Lacks markerKeyword ∧ source.document.root.DistinctNames)
    (hrequired : Site.RequiresNames store ⟨context, node⟩)
    (h : store.dereferenceAt options node context path = .ok result) :
    result.schema.Lacks markerKeyword ∧ result.components = [] ∧
      ∀ steps fields reference, (∀ step ∈ steps, step.isOpen = true) →
        result.schema.at? steps = some (.object fields) → referenceOf? fields = some reference →
          (options.externalOnly = true ∧
            ((∃ written target, node.at? steps = some (.object written) ∧
              RefersTo store context written reference target ∧ target.source = context) ∨
                store.LeadsBack context node reference)) ∨
            ⟨Pointer.below path steps, reference⟩ ∈ result.unresolved := by
  have hscope : (Call.start context path node).InScope store context node :=
    Call.inScope_start path
  obtain ⟨walked, log, hwalks, rfl⟩ := dereferenceAt_eq_ok_iff.mp h
  have hsound : (Call.start context path node).Sound store context node :=
    ⟨hscope, hmarker, hnames, hrequired⟩
  obtain ⟨hdistinct, haccount⟩ := hsound.accounts hlocal hroots hscope.acc _ _ _ hwalks
  refine ⟨Json.lacks_restoreMarkers hdistinct, ?_, ?_⟩
  · rw [Dereferenced.ofWalk, hwalks.components_eq hlocal]
    rfl
  · intro steps fields reference hopen hat href
    rcases haccount.restoreMarkers hdistinct hopen hat href with hkept | hlogged
    · obtain ⟨hexternal, hkept⟩ := hkept
      refine Or.inl ⟨hexternal, hkept.imp_left ?_⟩
      rintro ⟨written, target, hwritten, hrefers, hcontext⟩
      have hstands : store.Stands context target.source :=
        Store.Stands.locate? (Or.inl rfl) hrefers.found
      exact ⟨written, target, hwritten, hrefers, hstands.eq_of_origin hcontext⟩
    · exact Or.inr hlogged

/-- Where the first of two bundles that refer to each other is worked on, and references into it
are kept, the one in the second bundle is. -/
example : ((mutualBundles.contextOf? "first").bind fun context =>
      (mutualBundles.dereferenceAt ⟨true, false⟩
        (.object [("$ref", .string "second#/definitions/B")]) context "#").toOption.map
          Dereferenced.schema)
    = some (.object [("items", firstReference)]) := by decide +kernel

/-! ### Required names beside a reference -/

/-- A document with a schema that contains itself. -/
def treeDocument : Document := ⟨none, "Trees", .object [("components", .object [("schemas", .object
  [("Tree", .object [("title", .string "Tree"),
    ("properties", .object [("left", .object [("$ref", .string "#/components/schemas/Tree")])]),
    ("required", .array [.string "left"])])])])]⟩

/-- A reference to the schema, with another required name. -/
def treeReference : Json := .object
  [("$ref", .string "#/components/schemas/Tree"), ("required", .array [.string "right"])]

/-- All that the reference leads to. -/
private def treeSites : List Site :=
  [treeReference, .array [.string "right"], .string "right",
    .object [("title", .string "Tree"),
      ("properties", .object [("left", .object [("$ref", .string "#/components/schemas/Tree")])]),
      ("required", .array [.string "left"])],
    .string "Tree",
    .object [("left", .object [("$ref", .string "#/components/schemas/Tree")])],
    .object [("$ref", .string "#/components/schemas/Tree")],
    .array [.string "left"], .string "left"].map fun value => ⟨treeDocument.asContext, value⟩

private theorem requiresNames_treeReference :
    Site.RequiresNames Store.empty ⟨treeDocument.asContext, treeReference⟩ := by
  intro site fields reference value list items hsite hvalue hmade hrequired hlist hitems
  have hmem : site ∈ treeSites :=
    Site.mem_of_follows (by decide +kernel) (by decide +kernel) hsite (by decide +kernel)
  -- Beside the only reference that has a list of required names, the list is written out.
  have hall : ∀ site ∈ treeSites, site.made?.isSome = true →
      ∀ value ∈ site.value.field? "required", value = .array [.string "right"] ∧
        Site.target? Store.empty ⟨site.source, value⟩ = none := by
    decide +kernel
  have hfield : value ∈ site.value.field? "required" := by
    rw [hvalue]
    exact hrequired
  have hsome : site.made?.isSome = true := by
    rw [Site.made?, hvalue, Json.object?_object, Option.bind_some, hmade]
    rfl
  obtain ⟨heq, hnone⟩ := hall site hmem hsome value hfield
  rcases hlist.cases_head with hhead | ⟨next, hnext, -⟩
  · rw [← hhead, heq] at hitems
    obtain rfl := Json.array.inj hitems
    decide +kernel
  · cases hnext.symm.trans hnone

/-- The reference within the schema is left in place where it stands in the result, beside
the required names of both. -/
theorem dereferenceAt_accounts_treeReference :
    treeReference.Lacks markerKeyword ∧ treeReference.DistinctNames ∧
      (∀ source ∈ Store.empty.sources treeDocument.asContext,
        source.document.root.Lacks markerKeyword ∧ source.document.root.DistinctNames) ∧
      Site.RequiresNames Store.empty ⟨treeDocument.asContext, treeReference⟩ ∧
      ∃ result, Store.empty.dereferenceAt .standard treeReference treeDocument "#" = .ok result ∧
        result.schema.field? "required" = some (.array [.string "left", .string "right"]) ∧
        result.schema.Lacks markerKeyword ∧
        ⟨"#/properties/left", "#/components/schemas/Tree"⟩ ∈ result.unresolved := by
  have hmarker : treeReference.Lacks markerKeyword := by decide +kernel
  have hnames : treeReference.DistinctNames := by decide +kernel
  have hroots : ∀ source ∈ Store.empty.sources treeDocument.asContext,
      source.document.root.Lacks markerKeyword ∧ source.document.root.DistinctNames := by
    decide +kernel
  have hrun := @eq_ok_of_toOption
    (Store.empty.dereferenceAt .standard treeReference treeDocument "#")
    ⟨.object [("required", .array [.string "left", .string "right"]), ("title", .string "Tree"),
      ("properties", .object [("left", .object [("$ref", .string "#/components/schemas/Tree")])])],
      [⟨"#/properties/left", "#/components/schemas/Tree"⟩], []⟩ (by decide +kernel)
  obtain ⟨hlacks, -, hreasons⟩ :=
    dereferenceAt_accounts rfl hmarker hnames hroots requiresNames_treeReference hrun
  refine ⟨hmarker, hnames, hroots, requiresNames_treeReference, _, hrun, rfl, hlacks, ?_⟩
  have hleft := hreasons [.member "properties", .member "left"]
    [("$ref", .string "#/components/schemas/Tree")] "#/components/schemas/Tree"
    (by decide +kernel) (by decide +kernel) (by decide +kernel)
  rcases hleft with ⟨hexternal, -⟩ | hlogged
  · cases hexternal
  · have hpointer : Pointer.below "#" [.member "properties", .member "left"]
        = "#/properties/left" := by decide +kernel
    exact hpointer ▸ hlogged

/-- A `required` keyword is a list of names, if it is a list. -/
def listsNames (fields : Fields Json) : Bool :=
  ((Fields.get? fields "required").bind Json.array?).all fun items => items.all Json.isString

/-- A document with a named schema, and with a list that holds a reference. -/
def listedDocument : Document := ⟨none, "Lists", .object
  [("info", .object [("title", .string "Lists")]),
    ("components", .object [("schemas", .object
      [("A", .object [("required", .array [.string "a"]), ("title", .string "A")])])]),
    ("lists", .object [("references", .array [.object [("$ref", .string "#")]])])]⟩

/-- A reference to the schema.  The required names beside it are those of the list. -/
def listedReference : Json := .object [("$ref", .string "#/components/schemas/A"),
  ("required", .object [("$ref", .string "#/lists/references")])]

/-- Where required names beside a reference are found through another, the list may hold a
reference although every written `required` list holds only names.  It is left in place,
but not where the log says: names of the target stand before it. -/
theorem not_logged_listedReference :
    (∀ value ∈ [listedReference, listedDocument.root],
      value.Lacks markerKeyword ∧ value.DistinctNames ∧
        value.EveryObject fun fields => listsNames fields = true) ∧
      ∃ result, Store.empty.dereferenceAt .standard listedReference listedDocument "#"
          = .ok result ∧
        result.schema.at? [.member "required", .item 1]
          = some (.object [("$ref", .string "#")]) ∧
        Pointer.below "#" [.member "required", .item 1] = "#/required/1" ∧
        result.unresolved = [⟨"#/required/0", "#"⟩] := by
  have hrun := @eq_ok_of_toOption
    (Store.empty.dereferenceAt .standard listedReference listedDocument "#")
    ⟨.object [("required", .array [.string "a", .object [("$ref", .string "#")]]),
      ("title", .string "A")], [⟨"#/required/0", "#"⟩], []⟩ (by decide +kernel)
  exact ⟨by decide +kernel, _, hrun, by decide +kernel, by decide +kernel, rfl⟩

end RpcSchema
