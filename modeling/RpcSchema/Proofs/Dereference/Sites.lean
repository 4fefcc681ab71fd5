import RpcSchema.Proofs.Dereference.Calls
import RpcSchema.Proofs.Identity

/-!
# Values in their documents

What a value refers to depends on the document it stands in.  A value together with
its document leads to its parts, and to the target of the reference that it makes; this
says what the walk of the value can come to, whatever led to it.

## Main definitions

* `Site` — a value and the document it stands in.
* `Site.parts`, `Site.target?` — the parts of a value, and the target of its reference.
* `Site.refers?` — that target with the canonical form of the reference.
* `Site.Leads`, `Site.Follows` — from a value to that target, and to its parts as well.
* `Call.site` — where a call of the walk is.

## Main results

* `Site.mem_of_follows` — a way to list all that a value leads to.
* `Calls.follows` — the walk only goes where values lead.
-/

namespace RpcSchema

open Relation

/-- A value and the document it stands in. -/
structure Site where
  source : Source
  value : Json
  deriving DecidableEq

namespace Site

/-- The parts of a value that hold schemas: its items, and its members but for those of
`$ref` and of data. -/
def parts (site : Site) : List Site :=
  match site.value with
  | .object fields => (fields.filter fun entry => !isOpaqueKeyword entry.1).map fun entry =>
      ⟨site.source, entry.2⟩
  | .array items => items.map fun item => ⟨site.source, item⟩
  | _ => []

/-- The reference that a value makes. -/
def made? (site : Site) : Option String := site.value.object?.bind referenceOf?

/-- The target of the reference that a value makes. -/
def target? (store : Store) (site : Site) : Option Site := do
  let reference ← site.made?
  let target ← store.locate? reference site.source
  pure ⟨target.source, target.node⟩

/-- The canonical form of the reference that a value makes, and its target, where the
document worked on stands at `home`. -/
def refers? (store : Store) (home : Origin) (site : Site) : Option (String × Site) := do
  let reference ← site.made?
  let target ← store.locate? reference site.source
  pure (target.canonical home reference, ⟨target.source, target.node⟩)

/-- `HasPart site part` says that `part` is a part of `site` that holds schemas. -/
def HasPart (site part : Site) : Prop := part ∈ site.parts

instance (site part : Site) : Decidable (HasPart site part) :=
  inferInstanceAs (Decidable (part ∈ site.parts))

variable (store : Store)

/-- `Leads store site target` says that `site` makes a reference to `target`. -/
def Leads (site target : Site) : Prop := site.target? store = some target

/-- `Follows store site next` says that `next` is a part of `site` or the target of the
reference that it makes. -/
def Follows (site next : Site) : Prop := HasPart site next ∨ Leads store site next

variable {store} {sites : List Site} {site next : Site}

/-- Parts are led to. -/
theorem follows_of_hasPart (h : ReflTransGen HasPart site next) :
    ReflTransGen (Follows store) site next := by
  induction h with
  | refl => exact .refl
  | tail _ hpart ih => exact ih.tail (Or.inl hpart)

/-- Parts do not lead out of a list of sites that holds the parts of its members. -/
theorem mem_of_hasPart (hparts : ∀ site ∈ sites, ∀ part ∈ site.parts, part ∈ sites)
    (h : ReflTransGen HasPart site next) (hsite : site ∈ sites) : next ∈ sites := by
  induction h with
  | refl => exact hsite
  | tail _ hstep ih => exact hparts _ ih _ hstep

/-- Nothing leads out of a list of sites that holds the parts and targets of its members. -/
theorem mem_of_follows (hparts : ∀ site ∈ sites, ∀ part ∈ site.parts, part ∈ sites)
    (htargets : ∀ site ∈ sites, ∀ target ∈ site.target? store, target ∈ sites)
    (h : ReflTransGen (Follows store) site next) (hsite : site ∈ sites) : next ∈ sites := by
  induction h with
  | refl => exact hsite
  | tail _ hstep ih =>
    rcases hstep with hpart | htarget
    · exact hparts _ ih _ hpart
    · exact htargets _ ih _ htarget

end Site

/-! ### Where calls are -/

/-- Where a call is, whatever led to it. -/
def Call.site (call : Call) : Site := ⟨call.frame.source, call.value⟩

theorem Descends.hasPart_site {call part : Call} (h : Descends call part) :
    Site.HasPart call.site part.site := by
  cases h with
  | member hmem hname =>
    rw [Call.site, Call.site, Frame.member, Frame.goTo, Frame.inside_source]
    exact List.mem_map.mpr ⟨_, List.mem_filter.mpr ⟨hmem, by simp [hname]⟩, rfl⟩
  | item hitem => exact List.mem_map.mpr ⟨_, List.mem_of_getElem? hitem, rfl⟩

section Target

variable {store : Store} {source : Source} {fields : Fields Json} {reference : String}
  {target : Target}

theorem RefersTo.target? (h : RefersTo store source fields reference target) :
    Site.target? store ⟨source, .object fields⟩ = some ⟨target.source, target.node⟩ := by
  have hmade : Site.made? ⟨source, .object fields⟩ = some reference := h.made
  rw [Site.target?, hmade]
  simp [h.found]

theorem RefersTo.refers? (h : RefersTo store source fields reference target) (home : Origin) :
    Site.refers? store home ⟨source, .object fields⟩
      = some (target.canonical home reference, ⟨target.source, target.node⟩) := by
  have hmade : Site.made? ⟨source, .object fields⟩ = some reference := h.made
  rw [Site.refers?, hmade]
  simp [h.found]

end Target

theorem Expands.leads {setting : WalkSetting} {call next : Call} {key : String}
    (h : Expands setting call key next) : Site.Leads setting.store call.site next.site := by
  cases h with
  | inline href => exact href.target?
  | copy href => exact href.target?

/-- **The walk only goes where values lead.** -/
theorem Calls.follows {setting : WalkSetting} {call next : Call} (h : Calls setting call next) :
    Site.Follows setting.store call.site next.site := by
  rcases h with hpart | ⟨key, hnext⟩
  · exact Or.inl hpart.hasPart_site
  · exact Or.inr hnext.leads

end RpcSchema
