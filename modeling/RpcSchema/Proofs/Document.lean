import RpcSchema.Document.Basic
import RpcSchema.Proofs.Json.Objects
import RpcSchema.Proofs.Json.Pointer
import RpcSchema.Proofs.Reference

/-!
# Where named schemas stand

A document finds its named schemas in two places, and makes the pointer to each of them
from the pointer to the place and the name.  Whatever signs the name has, the pointer leads
to the schema.

## Main results

* `Document.mem_named_iff` — what the named schemas are.
* `Document.locate?_of_mem_named` — the pointer to a named schema leads to it.
-/

namespace RpcSchema

namespace Document

variable {document : Document} {entry : NamedNode}

theorem mem_named_iff :
    entry ∈ document.named ↔
      ∃ container ∈ containerPointers, ∃ fields,
        document.root.navigate? container = some (.object fields) ∧
          (entry.name, entry.node) ∈ fields ∧
            entry.pointer = Pointer.child container entry.name := by
  rw [named, List.mem_flatMap]
  constructor
  · rintro ⟨container, hcontainer, hmem⟩
    split at hmem
    · next fields hfields =>
      obtain ⟨member, hmember, rfl⟩ := List.mem_map.mp hmem
      exact ⟨container, hcontainer, fields, hfields, hmember, rfl⟩
    · exact absurd hmem List.not_mem_nil
  · rintro ⟨container, hcontainer, fields, hfields, hmember, hpointer⟩
    refine ⟨container, hcontainer, ?_⟩
    rw [hfields]
    obtain ⟨name, pointer, node⟩ := entry
    obtain rfl : pointer = Pointer.child container name := hpointer
    exact List.mem_map.mpr ⟨(name, node), hmember, rfl⟩

/-- **The pointer to a named schema leads to it.** -/
theorem locate?_of_mem_named (hnames : document.root.DistinctNames) (h : entry ∈ document.named) :
    ∃ steps, document.root.locate? entry.pointer = some (steps, entry.node) := by
  obtain ⟨container, hcontainer, fields, hfields, hmember, hpointer⟩ := mem_named_iff.mp h
  obtain ⟨⟨steps, found⟩, hlocate, rfl⟩ := Option.map_eq_some_iff.mp hfields
  have hpath : (container.toList.dropWhile (· = '#')).dropWhile (· = '/') ≠ [] := by
    have hall : ∀ container ∈ containerPointers,
        (container.toList.dropWhile (· = '#')).dropWhile (· = '/') ≠ [] := by decide
    exact hall container hcontainer
  have hkeys := (Json.everyObject_object_iff.mp (hnames.of_locate? hlocate)).1
  rw [hpointer]
  exact ⟨_, Json.locate?_child hpath hlocate (Fields.get?_of_mem hkeys hmember)⟩

/-- The pointer to a named schema is a reference within the document. -/
theorem startsHash_of_mem_named (h : entry ∈ document.named) :
    Reference.StartsHash entry.pointer := by
  obtain ⟨container, hcontainer, -, -, -, hpointer⟩ := mem_named_iff.mp h
  have hall : ∀ container ∈ containerPointers, ∃ rest, container.toList = '#' :: rest := by
    intro container hcontainer
    rcases List.mem_cons.mp hcontainer with rfl | hcontainer
    · exact ⟨_, rfl⟩
    · obtain rfl := List.mem_singleton.mp hcontainer
      exact ⟨_, rfl⟩
  obtain ⟨rest, hrest⟩ := hall container hcontainer
  refine ⟨rest ++ '/' :: (Pointer.escape entry.name).toList, ?_⟩
  simp [hpointer, Pointer.child, hrest]

end Document

end RpcSchema
