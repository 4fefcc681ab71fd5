import RpcSchema.Proofs.Localization.Redirection

/-!
# Copies

The components of a log are localized targets, each under the name that references to it
are turned to.  While a target is being copied it has no entry yet; a reference to it that
is met meanwhile counts on the entry to come.  So every reference in what has been walked
is either to a component that is there, or to a target whose canonical reference is being
expanded.  When a copy is done it gets its entry, and the references that counted on it
are settled: a canonical reference belongs to one target only, and so to one name.

When the walk of a document is done nothing is being expanded any more.

## Main definitions

* `Site.Covered` — every reference in a value has a target, and a component if the target
  is in a bundle, or one to come.
* `WalkLog.Copies` — the components of a log, with what they are copies of.
* `Store.Copied` — what has been copied when a document is localized.

## Main results

* `Walks.copies` — a walk covers the references in its value and in all copies.
* `localize_eq_ok` — what a localized document consists of.
-/

namespace RpcSchema

open Relation

/-- A target as it is copied: with its references into bundles turned into local ones. -/
def Store.localizedTarget (store : Store) (home : Origin) (target : Target) : Json :=
  store.localized home target.source target.node

/-- Every reference in `site` has a target.  If that is not in the document worked on, which
stands at `home`, the name that the reference is turned to is one of `names`, or its canonical
form is one of `keys`. -/
def Site.Covered (store : Store) (home : Origin) (names keys : List String) (site : Site) : Prop :=
  ∀ inner reference, ReflTransGen Site.HasPart site inner → inner.made? = some reference →
    ∃ target, store.locate? reference inner.source = some target ∧
      (target.source.origin ≠ home →
        Walk.componentName target (Reference.fragment reference) ∈ names ∨
          target.canonical home reference ∈ keys)

/-- The components of a log are copies of the targets `copies`, which references reached
from `start` are turned to the names of.  The references in them are covered while `keys`
are being expanded. -/
structure WalkLog.Copies (store : Store) (home : Origin) (start : Site) (keys : List String)
    (log : WalkLog) (copies : Fields Target) : Prop where
  components : log.components = Fields.mapValues (store.localizedTarget home) copies
  stems : ∀ entry ∈ copies, ∃ site, ReflTransGen (Site.Follows store) start site ∧
    site.Redirects store home entry.1 entry.2
  covered : ∀ entry ∈ copies,
    Site.Covered store home (Fields.keys copies) keys ⟨entry.2.source, entry.2.node⟩

/-! ### Covered values -/

section Covered

variable {store : Store} {home : Origin} {names names' keys keys' : List String}
  {source : Source} {fields : Fields Json} {items : List Json} {site : Site}

theorem Site.Covered.mono (h : Site.Covered store home names keys site) (hnames : names ⊆ names')
    (hkeys : keys ⊆ keys') : Site.Covered store home names' keys' site := by
  intro inner reference hinner hmade
  obtain ⟨target, hfound, htarget⟩ := h inner reference hinner hmade
  exact ⟨target, hfound, fun horigin =>
    (htarget horigin).imp (fun hname => hnames hname) fun hkey => hkeys hkey⟩

/-- What holds no references is covered. -/
theorem Site.covered_scalar {value : Json} (hobject : value.object? = none)
    (harray : value.array? = none) : Site.Covered store home names keys ⟨source, value⟩ := by
  intro inner reference hinner hmade
  have hparts : Site.parts ⟨source, value⟩ = [] := by
    cases value with
    | object fields => cases hobject
    | array items => cases harray
    | _ => rfl
  rcases hinner.cases_head with rfl | ⟨part, hpart, -⟩
  · rw [Site.made?, hobject] at hmade
    cases hmade
  · rw [Site.HasPart, hparts] at hpart
    exact absurd hpart List.not_mem_nil

/-- An array is covered when its items are. -/
theorem Site.covered_array (h : ∀ item ∈ items, Site.Covered store home names keys ⟨source, item⟩) :
    Site.Covered store home names keys ⟨source, .array items⟩ := by
  intro inner reference hinner hmade
  rcases hinner.cases_head with rfl | ⟨part, hpart, hinner⟩
  · cases hmade
  · obtain ⟨item, hitem, rfl⟩ := List.mem_map.mp hpart
    exact h item hitem inner reference hinner hmade

/-- An object is covered when its members are that hold schemas, and its own reference is,
if it makes one. -/
theorem Site.covered_object
    (hown : ∀ reference, referenceOf? fields = some reference →
      ∃ target, store.locate? reference source = some target ∧ (target.source.origin ≠ home →
        Walk.componentName target (Reference.fragment reference) ∈ names ∨
          target.canonical home reference ∈ keys))
    (h : ∀ name part, (name, part) ∈ fields → isOpaqueKeyword name = false →
      Site.Covered store home names keys ⟨source, part⟩) :
    Site.Covered store home names keys ⟨source, .object fields⟩ := by
  intro inner reference hinner hmade
  rcases hinner.cases_head with rfl | ⟨part, hpart, hinner⟩
  · exact hown reference hmade
  · obtain ⟨entry, hentry, rfl⟩ := List.mem_map.mp hpart
    obtain ⟨hmem, hname⟩ := List.mem_filter.mp hentry
    exact h entry.1 entry.2 hmem (by simpa using hname) inner reference hinner hmade

theorem Site.source_eq_of_hasPart {inner : Site} (h : ReflTransGen Site.HasPart site inner) :
    inner.source = site.source := by
  induction h with
  | refl => rfl
  | @tail middle part _ hpart ih =>
    rw [← ih]
    obtain ⟨source, value⟩ := middle
    cases value with
    | object fields =>
      obtain ⟨entry, -, rfl⟩ := List.mem_map.mp hpart
      rfl
    | array items =>
      obtain ⟨item, -, rfl⟩ := List.mem_map.mp hpart
      rfl
    | _ => exact absurd hpart List.not_mem_nil

theorem Store.Stands.follows {context : store.Context} {next : Site}
    (h : store.Stands context site.source)
    (hfollows : ReflTransGen (Site.Follows store) site next) :
    store.Stands context next.source := by
  induction hfollows with
  | refl => exact h
  | tail _ hstep ih =>
    rcases hstep with hpart | hleads
    · rwa [Site.source_eq_of_hasPart (.single hpart)]
    · obtain ⟨reference, -, hleads⟩ := Option.bind_eq_some_iff.mp hleads
      obtain ⟨target, hfound, hleads⟩ := Option.bind_eq_some_iff.mp hleads
      obtain rfl := Option.some.inj hleads
      exact ih.locate? hfound

/-- **A canonical reference into a bundle belongs to one name.** -/
theorem Walk.componentName_eq_of_canonical {context : store.Context} {target target' : Target}
    {reference reference' : String} (h : store.Stands context target.source)
    (h' : store.Stands context target'.source) (horigin : target.source.origin ≠ context.origin)
    (horigin' : target'.source.origin ≠ context.origin)
    (heq : target.canonical context.origin reference
      = target'.canonical context.origin reference') :
    Walk.componentName target (Reference.fragment reference)
      = Walk.componentName target' (Reference.fragment reference') := by
  have hbundle : ∀ {target : Target} (reference : String), store.Stands context target.source →
      target.source.origin ≠ context.origin → ∃ id document, store.bundle? id = some document ∧
        '#' ∉ id.toList ∧ target.source = ⟨.bundle id, document⟩ ∧
          target.canonical context.origin reference = id ++ Reference.fragment reference := by
    intro target reference hstands horigin
    rcases hstands with hcontext | ⟨-, id, document, hdocument, hid, hsource⟩
    · exact absurd (congrArg Source.origin hcontext) horigin
    · refine ⟨id, document, hdocument, hid, hsource, ?_⟩
      rw [Target.canonical, Source.canonical, if_neg horigin, hsource,
        Store.id_of_bundle? hdocument]
      rfl
  obtain ⟨id, document, hdocument, hid, hsource, hkey⟩ := hbundle reference h horigin
  obtain ⟨id', document', hdocument', hid', hsource', hkey'⟩ :=
    hbundle reference' h' horigin'
  -- Ids hold no `#`, so they end where the fragments start.
  rw [hkey, hkey'] at heq
  obtain ⟨rfl, hfragment⟩ := Reference.append_inj hid (Reference.startsHash_fragment reference) hid'
    (Reference.startsHash_fragment reference') heq
  obtain rfl := Option.some.inj (hdocument.symm.trans hdocument')
  rw [Walk.componentName, Walk.componentName, hfragment, hsource, hsource']

/-- When a copy gets its entry, the references that counted on it are settled. -/
theorem Site.Covered.settle {context : store.Context} {target : Target} {reference : String}
    (h : Site.Covered store context.origin names
      (target.canonical context.origin reference :: keys) site)
    (hsite : store.Stands context site.source) (htarget : store.Stands context target.source)
    (horigin : target.source.origin ≠ context.origin) (hnames : names ⊆ names')
    (hname : Walk.componentName target (Reference.fragment reference) ∈ names') :
    Site.Covered store context.origin names' keys site := by
  intro inner other hinner hmade
  obtain ⟨found, hfound, hcovered⟩ := h inner other hinner hmade
  refine ⟨found, hfound, fun hbundle => ?_⟩
  rcases hcovered hbundle with hold | hkey
  · exact Or.inl (hnames hold)
  · rcases List.mem_cons.mp hkey with heq | hkey
    · have hstands : store.Stands context found.source := by
        rw [← Site.source_eq_of_hasPart hinner] at hsite
        exact hsite.locate? hfound
      rw [Walk.componentName_eq_of_canonical hstands htarget hbundle horigin heq]
      exact Or.inl hname
    · exact Or.inr hkey

end Covered

/-! ### What a walk copies -/

section Copies

variable {store : Store} {context : store.Context} {start : Site}

theorem WalkLog.Copies.mono {keys keys' : List String} {log : WalkLog} {copies : Fields Target}
    (h : log.Copies store context.origin start keys copies) (hkeys : keys ⊆ keys') :
    log.Copies store context.origin start keys' copies where
  components := h.components
  stems := h.stems
  covered := fun entry hentry => (h.covered entry hentry).mono (List.Subset.refl _) hkeys

theorem WalkLog.Copies.contains_iff {keys : List String} {log : WalkLog} {copies : Fields Target}
    {name : String} (h : log.Copies store context.origin start keys copies) :
    Fields.contains log.components name = true ↔ name ∈ Fields.keys copies := by
  rw [Fields.contains_iff, h.components, Fields.keys_mapValues]

/-- When a target has been walked it becomes a component. -/
theorem WalkLog.Copies.add {keys : List String} {log : WalkLog} {copies : Fields Target}
    {site : Site} {reference key name : String} {target : Target}
    (h : log.Copies store context.origin start (key :: keys) copies)
    (hkey : key = target.canonical context.origin reference)
    (hstart : store.Stands context start.source)
    (hsite : ReflTransGen (Site.Follows store) start site) (hmade : site.made? = some reference)
    (hfound : store.locate? reference site.source = some target)
    (horigin : target.source.origin ≠ context.origin)
    (hname : name = Walk.componentName target (Reference.fragment reference))
    (hcovered : Site.Covered store context.origin (Fields.keys copies) (key :: keys)
      ⟨target.source, target.node⟩) :
    WalkLog.Copies store context.origin start keys
      ⟨log.unresolved, Fields.set log.components name (store.localizedTarget context.origin target)⟩
      (Fields.set copies name target) where
  components := by
    rw [h.components, Fields.set_mapValues]
  stems := by
    intro entry hentry
    rcases Fields.mem_set hentry with rfl | hentry
    · exact ⟨site, hsite, reference, hmade, hfound, horigin, hname⟩
    · exact h.stems entry hentry
  covered := by
    -- What was covered because the target was being copied now has a copy of its name.
    subst hkey
    have htarget : store.Stands context target.source := (hstart.follows hsite).locate? hfound
    have hnew := Fields.mem_keys_set_self copies name target
    intro entry hentry
    rcases Fields.mem_set hentry with rfl | hentry
    · exact hcovered.settle htarget htarget horigin (Fields.subset_keys_set _ _ _) (hname ▸ hnew)
    · obtain ⟨other, hother, second, -, hsecond, -⟩ := h.stems entry hentry
      exact (h.covered entry hentry).settle ((hstart.follows hother).locate? hsecond) htarget
        horigin (Fields.subset_keys_set _ _ _) (hname ▸ hnew)

/-- What leads to an object leads to its members that hold schemas. -/
private theorem reaches_members {source : Source} {fields : Fields Json}
    (h : ReflTransGen (Site.Follows store) start ⟨source, .object fields⟩) (name : String)
    (part : Json) (hmem : (name, part) ∈ fields) (hname : isOpaqueKeyword name = false) :
    ReflTransGen (Site.Follows store) start ⟨source, part⟩ := by
  refine h.tail (Or.inl (List.mem_map.mpr ⟨(name, part), List.mem_filter.mpr ⟨hmem, ?_⟩, rfl⟩))
  simp [hname]

mutual

/-- **A walk covers the references in its value and in all copies**, and no copy goes. -/
theorem Walks.copies (hstart : store.Stands context start.source) {frame : Frame}
    {value walked : Json} {log log' : WalkLog} {copies : Fields Target} :
    Walks ⟨store, .localizing⟩ frame value log walked log' → frame.home = context.origin →
      ReflTransGen (Site.Follows store) start ⟨frame.source, value⟩ →
      log.Copies store context.origin start frame.expanding copies →
        ∃ copies', log'.Copies store context.origin start frame.expanding copies' ∧
          Fields.keys copies ⊆ Fields.keys copies' ∧
            Site.Covered store context.origin (Fields.keys copies') frame.expanding
              ⟨frame.source, value⟩
  | .scalar hobject harray, _, _, hcopies =>
    ⟨copies, hcopies, List.Subset.refl _, Site.covered_scalar hobject harray⟩
  | .array hitems, hhome, hreach, hcopies => by
    obtain ⟨copies', hcopies', hkeys, hcovered⟩ := hitems.copies hstart hhome
      (fun item hitem => hreach.tail (Or.inl (List.mem_map.mpr ⟨item, hitem, rfl⟩))) hcopies
    exact ⟨copies', hcopies', hkeys, Site.covered_array hcovered⟩
  | .object hnone hmembers, hhome, hreach, hcopies => by
    obtain ⟨copies', hcopies', hkeys, hcovered⟩ := hmembers.copies hstart
      ((Frame.inside_home _ _).trans hhome) (Frame.inside_source _ _) (Frame.inside_expanding _ _)
      (reaches_members hreach) hcopies
    refine ⟨copies', hcopies', hkeys, Site.covered_object (fun reference hmade => ?_) hcovered⟩
    rw [hnone] at hmade
    cases hmade
  | .keep href htreat hmembers, hhome, hreach, hcopies => by
    obtain ⟨copies', hcopies', hkeys, hcovered⟩ := hmembers.copies hstart
      ((Frame.inside_home _ _).trans hhome) (Frame.inside_source _ _) (Frame.inside_expanding _ _)
      (reaches_members hreach) hcopies
    refine ⟨copies', hcopies', hkeys, Site.covered_object (fun reference hmade => ?_) hcovered⟩
    obtain rfl := Option.some.inj (href.made.symm.trans hmade)
    exact ⟨_, href.found,
      fun horigin => absurd ((Walk.treatment_eq_keep_iff.mp htreat).2.trans hhome) horigin⟩
  | .copied href htreat hmembers hold, hhome, hreach, hcopies => by
    obtain ⟨copies', hcopies', hkeys, hcovered⟩ := hmembers.copies hstart
      ((Frame.inside_home _ _).trans hhome) (Frame.inside_source _ _) (Frame.inside_expanding _ _)
      (reaches_members hreach) hcopies
    obtain ⟨reference, hmade, hfound, -, hname⟩ := href.redirects_of_copy htreat
    refine ⟨copies', hcopies', hkeys, Site.covered_object (fun other hother => ?_) hcovered⟩
    obtain rfl := Option.some.inj (hmade.symm.trans hother)
    obtain rfl := Option.some.inj (href.made.symm.trans hother)
    rw [hcopies'.contains_iff, hname, hhome] at hold
    exact ⟨_, hfound, fun _ => hold⟩
  | .copy href htreat hmembers _ _ htarget, hhome, hreach, hcopies => by
    obtain ⟨copies', hcopies', hkeys, hcovered⟩ := hmembers.copies hstart
      ((Frame.inside_home _ _).trans hhome) (Frame.inside_source _ _) (Frame.inside_expanding _ _)
      (reaches_members hreach) hcopies
    obtain ⟨reference, hmade, hfound, horigin, hname⟩ := href.redirects_of_copy htreat
    obtain rfl := Option.some.inj (href.made.symm.trans hmade)
    have hleads : Site.Leads store ⟨frame.source, _⟩ ⟨_, _⟩ := href.target?
    -- Within the target, references back to it count on the entry to come.
    obtain ⟨copies'', hcopies'', hkeys', hcovered'⟩ := htarget.copies hstart hhome
      (hreach.tail (Or.inr hleads)) (hcopies'.mono (List.subset_cons_self _ _))
    have hsubset := Fields.subset_keys_set copies''
    have hadd := hcopies''.add (congrArg (Target.canonical _ · _) hhome) hstart hreach hmade hfound
      (hhome ▸ horigin) hname hcovered'
    have hwalked : _ = store.localizedTarget frame.home _ := htarget.eq_localized
    rw [hhome] at hwalked
    rw [← hwalked] at hadd
    refine ⟨_, hadd, List.Subset.trans hkeys (List.Subset.trans hkeys' (hsubset _ _)),
      Site.covered_object (fun other hother => ?_) fun part value hmem hopaque =>
        (hcovered part value hmem hopaque).mono (List.Subset.trans hkeys' (hsubset _ _))
          (List.Subset.refl _)⟩
    obtain rfl := Option.some.inj (hmade.symm.trans hother)
    exact ⟨_, hfound, fun _ => Or.inl (hname ▸ Fields.mem_keys_set_self _ _ _)⟩
  | .leave _ htreat _, _, _, _ => by
    rw [Walk.treatment_localizing] at htreat
    split at htreat <;> cases htreat
  | .inline _ htreat _ _, _, _, _ => by
    rw [Walk.treatment_localizing] at htreat
    split at htreat <;> cases htreat

theorem WalksMembers.copies (hstart : store.Stands context start.source) {frame : Frame}
    {source : Source} {keys : List String} {fields fields' : Fields Json} {log log' : WalkLog}
    {copies : Fields Target} : WalksMembers ⟨store, .localizing⟩ frame fields log fields' log' →
      frame.home = context.origin → frame.source = source → frame.expanding = keys →
      (∀ name part, (name, part) ∈ fields → isOpaqueKeyword name = false →
        ReflTransGen (Site.Follows store) start ⟨source, part⟩) →
      log.Copies store context.origin start keys copies →
        ∃ copies', log'.Copies store context.origin start keys copies' ∧
          Fields.keys copies ⊆ Fields.keys copies' ∧
            ∀ name part, (name, part) ∈ fields → isOpaqueKeyword name = false →
              Site.Covered store context.origin (Fields.keys copies') keys ⟨source, part⟩
  | .nil, _, _, _, _, hcopies =>
    ⟨copies, hcopies, List.Subset.refl _, fun _ _ hmem => absurd hmem List.not_mem_nil⟩
  | .data hopaque hrest, hhome, hsource, hexpanding, hreach, hcopies => by
    obtain ⟨copies', hcopies', hkeys, hcovered⟩ := hrest.copies hstart hhome hsource hexpanding
      (fun name part hmem => hreach name part (List.mem_cons_of_mem _ hmem)) hcopies
    refine ⟨copies', hcopies', hkeys, fun name part hmem hname => ?_⟩
    rcases List.mem_cons.mp hmem with heq | hmem
    · rw [(Prod.mk.inj heq).1, hopaque] at hname
      cases hname
    · exact hcovered name part hmem hname
  | .member hopaque hpart hrest, hhome, hsource, hexpanding, hreach, hcopies => by
    subst hsource hexpanding
    obtain ⟨copies', hcopies', hkeys, hcovered⟩ :=
      hpart.copies hstart hhome (hreach _ _ (List.mem_cons_self ..) hopaque) hcopies
    obtain ⟨copies'', hcopies'', hkeys', hcovered'⟩ := hrest.copies hstart hhome rfl rfl
      (fun name part hmem => hreach name part (List.mem_cons_of_mem _ hmem)) hcopies'
    refine ⟨copies'', hcopies'', List.Subset.trans hkeys hkeys', fun name part hmem hname => ?_⟩
    rcases List.mem_cons.mp hmem with heq | hmem
    · obtain ⟨-, rfl⟩ := Prod.mk.inj heq
      exact hcovered.mono hkeys' (List.Subset.refl _)
    · exact hcovered' name part hmem hname

theorem WalksItems.copies (hstart : store.Stands context start.source) {frame : Frame}
    {index : Nat} {items items' : List Json} {log log' : WalkLog} {copies : Fields Target} :
    WalksItems ⟨store, .localizing⟩ frame index items log items' log' →
      frame.home = context.origin →
      (∀ item ∈ items, ReflTransGen (Site.Follows store) start ⟨frame.source, item⟩) →
      log.Copies store context.origin start frame.expanding copies →
        ∃ copies', log'.Copies store context.origin start frame.expanding copies' ∧
          Fields.keys copies ⊆ Fields.keys copies' ∧ ∀ item ∈ items,
            Site.Covered store context.origin (Fields.keys copies') frame.expanding
              ⟨frame.source, item⟩
  | .nil, _, _, hcopies =>
    ⟨copies, hcopies, List.Subset.refl _, List.forall_mem_nil _⟩
  | .item hitem hrest, hhome, hreach, hcopies => by
    obtain ⟨copies', hcopies', hkeys, hcovered⟩ :=
      hitem.copies hstart hhome (hreach _ (List.mem_cons_self ..)) hcopies
    obtain ⟨copies'', hcopies'', hkeys', hcovered'⟩ := hrest.copies hstart hhome
      (fun item hmem => hreach item (List.mem_cons_of_mem _ hmem)) hcopies'
    refine ⟨copies'', hcopies'', List.Subset.trans hkeys hkeys', fun item hmem => ?_⟩
    rcases List.mem_cons.mp hmem with rfl | hmem
    · exact hcovered.mono hkeys' (List.Subset.refl _)
    · exact hcovered' item hmem

end

end Copies

/-! ### Localized documents -/

/-- What has been copied when a document is localized: targets in bundles that references
reached from the document are turned to the names of.  No reference in the document or in
a copy is left without an entry. -/
structure Store.Copied (store : Store) (context : Source) (copies : Fields Target) : Prop where
  stems : ∀ entry ∈ copies, ∃ site,
    ReflTransGen (Site.Follows store) ⟨context, context.document.root⟩ site ∧
      site.Redirects store context.origin entry.1 entry.2
  root : Site.Covered store context.origin (Fields.keys copies) []
    ⟨context, context.document.root⟩
  targets : ∀ entry ∈ copies,
    Site.Covered store context.origin (Fields.keys copies) [] ⟨entry.2.source, entry.2.node⟩

/-- A document with its references into bundles turned into local ones, before the copies
are added. -/
def Store.redirected (store : Store) (context : Source) : Json :=
  store.turned context.origin context context.document.root

/-- The component that a target is copied to. -/
def Store.copyOf (store : Store) (home : Origin) (target : Target) : Json :=
  store.turned home target.source target.node

/-- **What a localized document consists of**: the document with its references turned, and
the copies of what they point to. -/
theorem localize_eq_ok {store : Store} {context : store.Context} {output : Json}
    (h : store.localize context = .ok output) :
    ∃ copies, store.Copied context copies ∧
      output = insertComponents (Fields.mapValues (store.copyOf context.origin) copies)
        (store.redirected context) := by
  cases hresult : store.dereference .localizing context.document.root context with
  | error failure =>
    rw [Store.localize, show (⟨true, true⟩ : DereferenceOptions) = .localizing from rfl,
      hresult] at h
    cases h
  | ok result =>
    rw [Store.localize, show (⟨true, true⟩ : DereferenceOptions) = .localizing from rfl,
      hresult] at h
    obtain rfl := Except.ok.inj h
    obtain ⟨walked, log, hwalks, rfl⟩ := dereferenceAt_eq_ok_iff.mp hresult
    have hnone : WalkLog.empty.Copies store context.origin ⟨context, context.document.root⟩ [] [] :=
      ⟨rfl, List.forall_mem_nil _, List.forall_mem_nil _⟩
    have hcontext : store.Stands context context := Or.inl rfl
    obtain ⟨copies, hcopies, -, hcovered⟩ := hwalks.copies hcontext rfl .refl hnone
    refine ⟨copies, ⟨hcopies.stems, hcovered, hcopies.covered⟩, ?_⟩
    obtain rfl := hwalks.eq_localized
    rw [Dereferenced.ofWalk, hcopies.components, Fields.mapValues, Fields.mapValues, List.map_map]
    rfl

end RpcSchema
