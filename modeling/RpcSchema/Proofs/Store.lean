import RpcSchema.Proofs.Json.Objects
import RpcSchema.Store.Basic

/-!
# Targets of references

A reference points into the document it stands in, or into a bundle; its target is a part
of that document.  So references never lead out of the documents in reach, which are the
bundles and the document that the first reference stands in.

## Main results

* `Store.mem_sources_of_locate?` — targets stand in documents in reach.
* `Store.everyObject_of_locate?` — so what holds of all objects in reach holds of theirs.
* `Store.id_of_source?` — a document that is found by an id goes by it.
-/

namespace RpcSchema

namespace Store

variable {store : Store} {base within source : Source} {id : Option String}
  {reference : String} {target : Target}

/-- The document that a reference points into is that it stands in, or a bundle. -/
theorem source?_cases (h : store.source? within id = some source) :
    source = within ∨ ∃ name document, id = some name ∧ store.bundle? name = some document ∧
      source = ⟨.bundle name, document⟩ := by
  cases id with
  | none =>
    rw [source?, Option.some.injEq] at h
    exact Or.inl h.symm
  | some name =>
    rw [source?] at h
    split at h
    · exact Or.inl (Option.some.inj h).symm
    · obtain ⟨document, hdocument, rfl⟩ := Option.map_eq_some_iff.mp h
      exact Or.inr ⟨name, document, rfl, hdocument, rfl⟩

/-- A target is a part of its document. -/
theorem locate?_eq_some_iff :
    store.locate? reference within = some target ↔
      store.source? within (Reference.split reference).1 = some target.source ∧
        target.source.document.root.locate? (Reference.fragment reference)
          = some (target.steps, target.node) := by
  simp only [locate?, Option.bind_eq_some_iff, Option.map_eq_some_iff, Reference.fragment]
  constructor
  · rintro ⟨source, hsource, found, hfound, rfl⟩
    exact ⟨hsource, hfound⟩
  · rintro ⟨hsource, hfound⟩
    exact ⟨_, hsource, _, hfound, rfl⟩

/-- **Targets stand in documents in reach.** -/
theorem mem_sources_of_locate? (h : store.locate? reference within = some target)
    (hwithin : within ∈ store.sources base) : target.source ∈ store.sources base := by
  rcases source?_cases (locate?_eq_some_iff.mp h).1 with heq | ⟨name, document, -, hfound, heq⟩
  · exact heq ▸ hwithin
  · have hmem := Fields.mem_of_get? hfound
    exact heq ▸ List.mem_cons_of_mem _ (List.mem_map.mpr ⟨(name, document), hmem, rfl⟩)

/-- **What holds of all objects in reach** holds of those of a target. -/
theorem everyObject_of_locate? {p : Fields Json → Prop}
    (h : store.locate? reference within = some target)
    (hwithin : within ∈ store.sources base)
    (hroots : ∀ source ∈ store.sources base, source.document.root.EveryObject p) :
    target.node.EveryObject p :=
  (hroots _ (mem_sources_of_locate? h hwithin)).of_locate? (locate?_eq_some_iff.mp h).2

/-- The document that a reference with an id points into goes by that id. -/
theorem id_of_source? {name : String} (h : store.source? within (some name) = some source) :
    source.document.id = some name := by
  rw [source?] at h
  split at h
  · next hown => exact Option.some.inj h ▸ hown
  · obtain ⟨document, hdocument, rfl⟩ := Option.map_eq_some_iff.mp h
    exact store.id_eq _ (Fields.mem_of_get? hdocument)

end Store

end RpcSchema
