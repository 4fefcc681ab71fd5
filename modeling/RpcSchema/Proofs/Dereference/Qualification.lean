import RpcSchema.Dereference
import RpcSchema.Proofs.Json.Objects
import RpcSchema.Proofs.Reference
import RpcSchema.Proofs.Store

/-!
# References qualified by the document they stand in

Within its own document a reference may be written as a fragment, or as the fragment behind the id
of the document.  Values that differ in this only are interchangeable: a pointer leads to the same
place in both, and unless that is a reference itself, to parts that are interchangeable again.
References stand nowhere but in members called `$ref`, outside of data.

## Main definitions

* `Reference.Interchangeable` — two texts of one reference.
* `Json.Interchangeable` — values with the same references but for their texts.
* `Document.Interchangeable`, `Store.Interchangeable` — documents and stores of such values.

## Main results

* `Json.Interchangeable.descend?` — pointers lead to the same places.
* `Document.Interchangeable.pointerOf?_eq` — schemas go by the same names.
* `Store.Interchangeable.locate?` — references have targets at the same places.
-/

namespace RpcSchema

/-! ### Texts of references -/

/-- An id that references can be qualified with. -/
def Reference.Qualifies (own : String) : Prop := own ≠ "" ∧ '#' ∉ own.toList

instance (own : String) : Decidable (Reference.Qualifies own) :=
  inferInstanceAs (Decidable (own ≠ "" ∧ '#' ∉ own.toList))

/-- Two texts of one reference in a document with an id: the same text, or a fragment and the
fragment behind the id. -/
inductive Reference.Interchangeable (id : Option String) : String → String → Prop
  | same (text : String) : Reference.Interchangeable id text text
  | qualified {own text : String} (hown : id = some own) (htext : Reference.StartsHash text) :
      Reference.Interchangeable id text (own ++ text)
  | bare {own text : String} (hown : id = some own) (htext : Reference.StartsHash text) :
      Reference.Interchangeable id (own ++ text) text

namespace Reference.Interchangeable

variable {id : Option String} {text text' : String}

theorem symm (h : Reference.Interchangeable id text text') :
    Reference.Interchangeable id text' text := by
  cases h with
  | same => exact .same _
  | qualified hown htext => exact .bare hown htext
  | bare hown htext => exact .qualified hown htext

/-- Both texts have the same fragment. -/
theorem fragment_eq (hid : ∀ own ∈ id, Reference.Qualifies own)
    (h : Reference.Interchangeable id text text') :
    Reference.fragment text' = Reference.fragment text := by
  cases h with
  | same => rfl
  | qualified hown htext | bare hown htext =>
    obtain ⟨hne, hhash⟩ := hid _ hown
    rw [Reference.fragment, Reference.fragment, Reference.split_append hne hhash htext,
      Reference.split_of_startsHash htext]

/-- Both texts lead to the same document from the one they stand in. -/
theorem source?_eq {store : Store} {within : Source}
    (hid : ∀ own ∈ within.document.id, Reference.Qualifies own)
    (h : Reference.Interchangeable within.document.id text text') :
    store.source? within (Reference.split text').1
      = store.source? within (Reference.split text).1 := by
  cases h with
  | same => rfl
  | qualified hown htext | bare hown htext =>
    obtain ⟨hne, hhash⟩ := hid _ hown
    rw [Reference.split_append hne hhash htext, Reference.split_of_startsHash htext]
    simp only [Store.source?, if_pos hown]

end Reference.Interchangeable

/-! ### Values -/

mutual

/-- Values of a document with an id that differ in the texts of references only, and not within
data. -/
inductive Json.Interchangeable (id : Option String) : Json → Json → Prop
  | same (value : Json) : Json.Interchangeable id value value
  | array {items items' : List Json} (h : Json.ItemsInterchangeable id items items') :
      Json.Interchangeable id (.array items) (.array items')
  | object {fields fields' : Fields Json} (h : Json.MembersInterchangeable id fields fields') :
      Json.Interchangeable id (.object fields) (.object fields')

inductive Json.ItemsInterchangeable (id : Option String) : List Json → List Json → Prop
  | nil : Json.ItemsInterchangeable id [] []
  | cons {item item' : Json} {rest rest' : List Json} (hitem : Json.Interchangeable id item item')
      (hrest : Json.ItemsInterchangeable id rest rest') :
      Json.ItemsInterchangeable id (item :: rest) (item' :: rest')

inductive Json.MembersInterchangeable (id : Option String) : Fields Json → Fields Json → Prop
  | nil : Json.MembersInterchangeable id [] []
  | cons {name : String} {part part' : Json} {rest rest' : Fields Json}
      (hpart : Json.MemberInterchangeable id name part part')
      (hrest : Json.MembersInterchangeable id rest rest') :
      Json.MembersInterchangeable id ((name, part) :: rest) ((name, part') :: rest')

/-- The parts of such values under one name. -/
inductive Json.MemberInterchangeable (id : Option String) : String → Json → Json → Prop
  | reference {text text' : String} (h : Reference.Interchangeable id text text') :
      Json.MemberInterchangeable id "$ref" (.string text) (.string text')
  | data {name : String} {part : Json} (hname : isOpaqueKeyword name = true) :
      Json.MemberInterchangeable id name part part
  | member {name : String} {part part' : Json} (hname : isOpaqueKeyword name = false)
      (h : Json.Interchangeable id part part') : Json.MemberInterchangeable id name part part'

end

namespace Json

variable {id : Option String} {value value' part : Json} {fields fields' : Fields Json}
  {items items' : List Json} {name text : String}

mutual

theorem Interchangeable.symm : ∀ {value value' : Json}, Interchangeable id value value' →
    Interchangeable id value' value
  | _, _, .same value => .same value
  | _, _, .array h => .array h.symm
  | _, _, .object h => .object h.symm

theorem ItemsInterchangeable.symm : ∀ {items items' : List Json},
    ItemsInterchangeable id items items' → ItemsInterchangeable id items' items
  | _, _, .nil => .nil
  | _, _, .cons hitem hrest => .cons hitem.symm hrest.symm

theorem MembersInterchangeable.symm : ∀ {fields fields' : Fields Json},
    MembersInterchangeable id fields fields' → MembersInterchangeable id fields' fields
  | _, _, .nil => .nil
  | _, _, .cons hpart hrest => .cons hpart.symm hrest.symm

theorem MemberInterchangeable.symm : ∀ {name : String} {part part' : Json},
    MemberInterchangeable id name part part' → MemberInterchangeable id name part' part
  | _, _, _, .reference h => .reference h.symm
  | _, _, _, .data hname => .data hname
  | _, _, _, .member hname h => .member hname h.symm

end

theorem MembersInterchangeable.refl (fields : Fields Json) :
    MembersInterchangeable id fields fields := by
  induction fields with
  | nil => exact .nil
  | cons entry rest ih =>
    obtain ⟨name, part⟩ := entry
    cases hname : isOpaqueKeyword name with
    | true => exact .cons (.data hname) ih
    | false => exact .cons (.member hname (.same part)) ih

theorem ItemsInterchangeable.refl (items : List Json) : ItemsInterchangeable id items items := by
  induction items with
  | nil => exact .nil
  | cons item rest ih => exact .cons (.same item) ih

/-! ### One level -/

theorem Interchangeable.exists_members (h : Interchangeable id (.object fields) value') :
    ∃ fields', value' = .object fields' ∧ MembersInterchangeable id fields fields' := by
  cases h with
  | same => exact ⟨fields, rfl, .refl fields⟩
  | object h => exact ⟨_, rfl, h⟩

theorem Interchangeable.exists_items (h : Interchangeable id (.array items) value') :
    ∃ items', value' = .array items' ∧ ItemsInterchangeable id items items' := by
  cases h with
  | same => exact ⟨items, rfl, .refl items⟩
  | array h => exact ⟨_, rfl, h⟩

theorem Interchangeable.eq_of_scalar (h : Interchangeable id value value')
    (hobject : value.object? = none) (harray : value.array? = none) : value' = value := by
  cases h with
  | same => rfl
  | array => simp at harray
  | object => simp at hobject

theorem Interchangeable.string?_eq (h : Interchangeable id value value') :
    value'.string? = value.string? := by
  cases h <;> rfl

theorem MembersInterchangeable.keys_eq (h : MembersInterchangeable id fields fields') :
    Fields.keys fields' = Fields.keys fields := by
  induction fields generalizing fields' with
  | nil =>
    cases h
    rfl
  | cons entry rest ih =>
    cases h with
    | cons _ hrest => rw [Fields.keys_cons, Fields.keys_cons, ih hrest]

theorem MembersInterchangeable.get? (h : MembersInterchangeable id fields fields')
    (hget : Fields.get? fields name = some part) :
    ∃ part', Fields.get? fields' name = some part' ∧ MemberInterchangeable id name part part' := by
  induction fields generalizing fields' with
  | nil => cases hget
  | cons entry rest ih =>
    cases h with
    | @cons other _ part' _ _ hpart hrest =>
      rw [Fields.get?_cons] at hget
      by_cases hname : other = name
      · rw [if_pos hname] at hget
        obtain rfl := Option.some.inj hget
        exact ⟨part', by rw [Fields.get?_cons, if_pos hname], hname ▸ hpart⟩
      · rw [if_neg hname] at hget
        rw [Fields.get?_cons, if_neg hname]
        exact ih hrest hget

theorem MembersInterchangeable.get?_eq_none (h : MembersInterchangeable id fields fields')
    (hget : Fields.get? fields name = none) : Fields.get? fields' name = none := by
  rw [Fields.get?_eq_none_iff] at hget ⊢
  rwa [h.keys_eq]

theorem ItemsInterchangeable.getElem? (h : ItemsInterchangeable id items items') {index : Nat}
    (hpart : items[index]? = some part) :
    ∃ part', items'[index]? = some part' ∧ Interchangeable id part part' := by
  induction items generalizing items' index with
  | nil => cases hpart
  | cons item rest ih =>
    cases h with
    | cons hitem hrest =>
      cases index with
      | zero =>
        obtain rfl := Option.some.inj hpart
        exact ⟨_, rfl, hitem⟩
      | succ index => exact ih hrest hpart

/-- Interchangeable members make references with interchangeable texts. -/
theorem MembersInterchangeable.referenceOf? (h : MembersInterchangeable id fields fields')
    (hmade : referenceOf? fields = some text) :
    ∃ text', RpcSchema.referenceOf? fields' = some text' ∧
      Reference.Interchangeable id text text' := by
  obtain ⟨part, hget, hpart⟩ := Option.bind_eq_some_iff.mp hmade
  obtain ⟨part', hget', hmember⟩ := h.get? hget
  rw [RpcSchema.referenceOf?, hget']
  cases hmember with
  | reference href =>
    obtain rfl := Option.some.inj hpart
    exact ⟨_, rfl, href⟩
  | data => exact ⟨text, hpart, .same text⟩
  | member hname => cases hname

theorem MembersInterchangeable.referenceOf?_eq_none (h : MembersInterchangeable id fields fields')
    (hnone : RpcSchema.referenceOf? fields = none) : RpcSchema.referenceOf? fields' = none := by
  cases hmade : RpcSchema.referenceOf? fields' with
  | none => rfl
  | some text' =>
    obtain ⟨text, htext, -⟩ := h.symm.referenceOf? hmade
    rw [hnone] at htext
    cases htext

/-- Under the keyword of references stands the same, unless it is a reference. -/
theorem MembersInterchangeable.get?_ref (h : MembersInterchangeable id fields fields')
    (hnone : RpcSchema.referenceOf? fields = none) :
    Fields.get? fields' "$ref" = Fields.get? fields "$ref" := by
  cases hget : Fields.get? fields "$ref" with
  | none => exact h.get?_eq_none hget
  | some part =>
    obtain ⟨part', hget', hmember⟩ := h.get? hget
    rw [hget']
    cases hmember with
    | reference => simp [RpcSchema.referenceOf?, hget] at hnone
    | data => rfl
    | member hname => cases hname

/-- Titles and other texts are the same. -/
theorem MembersInterchangeable.bind_string? (h : MembersInterchangeable id fields fields')
    (hname : isOpaqueKeyword name = false) :
    (Fields.get? fields' name).bind string? = (Fields.get? fields name).bind string? := by
  cases hget : Fields.get? fields name with
  | none => rw [h.get?_eq_none hget]
  | some part =>
    obtain ⟨part', hget', hmember⟩ := h.get? hget
    rw [hget']
    cases hmember with
    | reference => cases hname
    | data => rfl
    | member _ hpart => exact hpart.string?_eq

theorem Interchangeable.stringField?_eq (h : Interchangeable id value value')
    (hname : isOpaqueKeyword name = false) :
    value'.stringField? name = value.stringField? name := by
  cases h with
  | same => rfl
  | array => rfl
  | object h => exact h.bind_string? hname

/-! ### Pointers -/

theorem Interchangeable.step?_eq (h : Interchangeable id value value') (segment : String) :
    value'.step? segment = value.step? segment := by
  cases h <;> rfl

/-- One step down leads to interchangeable parts, or to the texts of a reference. -/
theorem Interchangeable.child? {step : Step} (h : Interchangeable id value value')
    (hchild : value.child? step = some part) :
    ∃ part', value'.child? step = some part' ∧ (Interchangeable id part part' ∨
      step = .member "$ref" ∧ ∃ text text', part = .string text ∧ part' = .string text') := by
  cases h with
  | same => exact ⟨part, hchild, .inl (.same part)⟩
  | array h =>
    cases step with
    | member => cases hchild
    | item index =>
      obtain ⟨part', hpart', hinter⟩ := h.getElem? hchild
      exact ⟨part', hpart', .inl hinter⟩
  | object h =>
    cases step with
    | item => cases hchild
    | member name =>
      obtain ⟨part', hpart', hmember⟩ := h.get? hchild
      refine ⟨part', hpart', ?_⟩
      cases hmember with
      | reference => exact .inr ⟨rfl, _, _, rfl, rfl⟩
      | data => exact .inl (.same part)
      | member _ hinter => exact .inl hinter

/-- **A pointer leads to the same place in interchangeable values**, and to interchangeable parts
unless it passes through the keyword of references. -/
theorem Interchangeable.descend? {segments : List String} {steps : List Step}
    (h : Interchangeable id value value')
    (hfound : value.descend? segments = some (steps, part)) :
    ∃ part', value'.descend? segments = some (steps, part') ∧
      (.member "$ref" ∉ steps → Interchangeable id part part') := by
  induction segments generalizing value value' steps with
  | nil =>
    obtain ⟨rfl, rfl⟩ := Prod.mk.inj (Option.some.inj hfound)
    exact ⟨value', rfl, fun _ => h⟩
  | cons segment rest ih =>
    obtain ⟨step, hstep, hfound⟩ := Option.bind_eq_some_iff.mp hfound
    obtain ⟨below, hbelow, hfound⟩ := Option.bind_eq_some_iff.mp hfound
    obtain ⟨⟨more, last⟩, hlast, heq⟩ := Option.map_eq_some_iff.mp hfound
    obtain ⟨rfl, rfl⟩ := Prod.mk.inj heq
    obtain ⟨below', hbelow', hinter⟩ := h.child? hbelow
    have hdescend : ∀ found', below'.descend? rest = some found' →
        value'.descend? (segment :: rest) = some (step :: found'.1, found'.2) := by
      intro found' hfound'
      rw [Json.descend?, h.step?_eq, hstep, Option.bind_some, hbelow', Option.bind_some, hfound',
        Option.map_some]
    rcases hinter with hinter | ⟨rfl, text, text', rfl, rfl⟩
    · obtain ⟨part', hpart', hpart⟩ := ih hinter hlast
      exact ⟨part', hdescend _ hpart', fun hmem =>
        hpart fun hmore => hmem (List.mem_cons_of_mem _ hmore)⟩
    · -- The text of a reference has no parts.
      cases rest with
      | nil =>
        obtain ⟨rfl, rfl⟩ := Prod.mk.inj (Option.some.inj hlast)
        exact ⟨.string text', hdescend ([], _) rfl, fun hmem => absurd List.mem_cons_self hmem⟩
      | cons => cases hlast

/-- Steps to members go by the names in the segments. -/
theorem exists_segment_of_descend? {segments : List String} {steps : List Step}
    (hfound : value.descend? segments = some (steps, part)) (hmem : .member name ∈ steps) :
    ∃ segment ∈ segments, Pointer.unescape segment = name := by
  induction segments generalizing value steps with
  | nil =>
    obtain ⟨rfl, -⟩ := Prod.mk.inj (Option.some.inj hfound)
    cases hmem
  | cons segment rest ih =>
    obtain ⟨step, hstep, hfound⟩ := Option.bind_eq_some_iff.mp hfound
    obtain ⟨below, -, hfound⟩ := Option.bind_eq_some_iff.mp hfound
    obtain ⟨⟨more, last⟩, hlast, heq⟩ := Option.map_eq_some_iff.mp hfound
    obtain ⟨rfl, rfl⟩ := Prod.mk.inj heq
    rcases List.mem_cons.mp hmem with rfl | hmem
    · cases value with
      | object =>
        rw [step?, Option.some.injEq, Step.member.injEq] at hstep
        exact ⟨segment, List.mem_cons_self, hstep⟩
      | array => simp [step?] at hstep
      | _ => cases hstep
    · obtain ⟨segment', hsegment', hname⟩ := ih hlast hmem
      exact ⟨segment', List.mem_cons_of_mem _ hsegment', hname⟩

end Json

/-! ### Documents -/

/-- Documents of one id whose roots are interchangeable. -/
structure Document.Interchangeable (document document' : Document) : Prop where
  id : document'.id = document.id
  root : Json.Interchangeable document.id document.root document'.root

/-- The pointers to named schemas do not pass through the keyword of references. -/
private theorem unescape_ne_of_container :
    ∀ container ∈ Document.containerPointers, ∀ segment ∈ Pointer.segments container,
      Pointer.unescape segment ≠ "$ref" := by
  decide +kernel

/-- Named schemas that are told apart by their nodes only, but go by the same titles. -/
private def SameName (entry entry' : NamedNode) : Prop :=
  entry'.pointer = entry.pointer ∧ ∀ title, entry'.goesBy title = entry.goesBy title

private theorem forall₂_entries {id : Option String} {fields fields' : Fields Json}
    (h : Json.MembersInterchangeable id fields fields') (container : String) :
    List.Forall₂ SameName
      (fields.map fun entry => ⟨entry.1, Pointer.child container entry.1, entry.2⟩)
      (fields'.map fun entry => ⟨entry.1, Pointer.child container entry.1, entry.2⟩) := by
  induction fields generalizing fields' with
  | nil =>
    cases h
    exact .nil
  | cons entry rest ih =>
    cases h with
    | cons hpart hrest =>
      refine .cons ⟨rfl, fun title => ?_⟩ (ih hrest)
      have htitle : isOpaqueKeyword "title" = false := by decide
      cases hpart with
      | reference | data => rfl
      | member _ hinter => rw [NamedNode.goesBy, NamedNode.goesBy, hinter.stringField?_eq htitle]

namespace Document.Interchangeable

variable {document document' : Document} (h : document.Interchangeable document')
include h

theorem symm : document'.Interchangeable document := ⟨h.id.symm, h.id ▸ h.root.symm⟩

theorem navigate? {container : String} (hmem : container ∈ containerPointers) {part : Json}
    (hpart : document.root.navigate? container = some part) :
    ∃ part', document'.root.navigate? container = some part' ∧
      Json.Interchangeable document.id part part' := by
  obtain ⟨⟨steps, part⟩, hfound, rfl⟩ := Option.map_eq_some_iff.mp hpart
  obtain ⟨part', hfound', hinter⟩ := h.root.descend? hfound
  refine ⟨part', by rw [Json.navigate?, Json.locate?, hfound']; rfl, hinter fun href => ?_⟩
  obtain ⟨segment, hsegment, hname⟩ := Json.exists_segment_of_descend? hfound href
  exact unescape_ne_of_container container hmem segment hsegment hname

/-- The named schemas go by the same names. -/
private theorem forall₂_named : List.Forall₂ SameName document.named document'.named := by
  refine List.rel_flatMap (R := fun container container' =>
      container = container' ∧ container ∈ containerPointers)
    (List.forall₂_same.mpr fun container hmem => ⟨rfl, hmem⟩) ?_
  rintro container _ ⟨rfl, hmem⟩
  dsimp only
  cases hpart : document.root.navigate? container with
  | none =>
    cases hpart' : document'.root.navigate? container with
    | none => exact .nil
    | some part' =>
      obtain ⟨part, hfound, -⟩ := h.symm.navigate? hmem hpart'
      rw [hpart] at hfound
      cases hfound
  | some part =>
    obtain ⟨part', hpart', hinter⟩ := h.navigate? hmem hpart
    rw [hpart']
    cases part with
    | object fields =>
      obtain ⟨fields', rfl, hmembers⟩ := hinter.exists_members
      exact forall₂_entries hmembers container
    | array =>
      obtain ⟨items', rfl, -⟩ := hinter.exists_items
      exact .nil
    | _ =>
      obtain rfl := hinter.eq_of_scalar rfl rfl
      exact .nil

/-- **Schemas go by the same names** in both documents, at the same pointers. -/
theorem pointerOf?_eq (title : String) :
    document'.pointerOf? title = document.pointerOf? title := by
  have hfind : ∀ {entries entries' : List NamedNode}, List.Forall₂ SameName entries entries' →
      (entries'.find? fun entry => entry.goesBy title).map NamedNode.pointer
        = (entries.find? fun entry => entry.goesBy title).map NamedNode.pointer := by
    intro entries entries' hnamed
    induction hnamed with
    | nil => rfl
    | cons hentry _ ih =>
      rw [List.find?_cons, List.find?_cons, hentry.2 title]
      split
      · exact congrArg some hentry.1
      · exact ih
  exact hfind h.forall₂_named

end Document.Interchangeable

/-! ### Stores -/

/-- Interchangeable documents that stand in the same place. -/
structure Source.Interchangeable (source source' : Source) : Prop where
  origin : source'.origin = source.origin
  document : source.document.Interchangeable source'.document

/-- Bundles registered under the same ids, each interchangeable with the other. -/
def Store.Interchangeable (store store' : Store) : Prop :=
  List.Forall₂ (fun entry entry' => entry'.1 = entry.1 ∧ entry.2.Interchangeable entry'.2)
    store.bundles store'.bundles

/-- Targets at the same place of interchangeable documents. -/
structure Target.Interchangeable (target target' : Target) : Prop where
  source : target.source.Interchangeable target'.source
  steps : target'.steps = target.steps
  node : .member "$ref" ∉ target.steps →
    Json.Interchangeable target.source.document.id target.node target'.node

namespace Source.Interchangeable

variable {source source' : Source} (h : source.Interchangeable source')
include h

theorem symm : source'.Interchangeable source := ⟨h.origin.symm, h.document.symm⟩

theorem canonical_eq (home : Origin) (fragment : String) :
    source'.canonical home fragment = source.canonical home fragment := by
  rw [Source.canonical, Source.canonical, h.origin, h.document.id]

/-- Interchangeable members are taken for the same named schema. -/
theorem namedKey?_eq (home : Origin) {id : Option String} {fields fields' : Fields Json}
    (hmembers : Json.MembersInterchangeable id fields fields') :
    source'.namedKey? home fields' = source.namedKey? home fields := by
  have htitle : isOpaqueKeyword "title" = false := by decide
  rw [Source.namedKey?, Source.namedKey?, hmembers.bind_string? htitle,
    funext (h.canonical_eq home), funext h.document.pointerOf?_eq]

end Source.Interchangeable

/-- A reference has the same canonical form. -/
theorem Target.Interchangeable.canonical_eq {target target' : Target}
    (h : target.Interchangeable target') (home : Origin) {text text' : String}
    (htext : Reference.fragment text' = Reference.fragment text) :
    target'.canonical home text' = target.canonical home text := by
  rw [Target.canonical, Target.canonical, htext, h.source.canonical_eq]

namespace Store.Interchangeable

variable {store store' : Store} (h : store.Interchangeable store')
include h

theorem symm : store'.Interchangeable store :=
  .flip (h.imp fun _ _ hentry => ⟨hentry.1.symm, hentry.2.symm⟩)

theorem bundle? {id : String} {document : Document} (hfound : store.bundle? id = some document) :
    ∃ document', store'.bundle? id = some document' ∧ document.Interchangeable document' := by
  rw [Store.bundle?] at hfound ⊢
  rw [Store.Interchangeable] at h
  generalize store.bundles = bundles, store'.bundles = bundles' at h hfound ⊢
  induction h with
  | nil => cases hfound
  | @cons entry entry' _ _ hentry _ ih =>
    obtain ⟨name, bundle⟩ := entry
    obtain ⟨name', bundle'⟩ := entry'
    obtain ⟨rfl, hinter⟩ := hentry
    rw [Fields.get?_cons] at hfound ⊢
    by_cases hname : name' = id
    · rw [if_pos hname] at hfound ⊢
      obtain rfl := Option.some.inj hfound
      exact ⟨bundle', rfl, hinter⟩
    · rw [if_neg hname] at hfound ⊢
      exact ih hfound

theorem source? {within within' source : Source} (hwithin : within.Interchangeable within')
    {id : Option String} (hfound : store.source? within id = some source) :
    ∃ source', store'.source? within' id = some source' ∧ source.Interchangeable source' := by
  cases id with
  | none =>
    obtain rfl := Option.some.inj hfound
    exact ⟨within', rfl, hwithin⟩
  | some name =>
    rw [Store.source?] at hfound ⊢
    rw [hwithin.document.id]
    split at hfound
    · next hown =>
      obtain rfl := Option.some.inj hfound
      exact ⟨within', if_pos hown, hwithin⟩
    · next hother =>
      obtain ⟨bundle, hbundle, rfl⟩ := Option.map_eq_some_iff.mp hfound
      obtain ⟨bundle', hbundle', hinter⟩ := h.bundle? hbundle
      exact ⟨⟨.bundle name, bundle'⟩, by rw [if_neg hother, hbundle']; rfl, rfl, hinter⟩

/-- **Interchangeable references have targets at the same places.** -/
theorem locate? {within within' : Source} (hwithin : within.Interchangeable within')
    (hid : ∀ own ∈ within.document.id, Reference.Qualifies own) {text text' : String}
    (htext : Reference.Interchangeable within.document.id text text') {target : Target}
    (hfound : store.locate? text within = some target) :
    ∃ target', store'.locate? text' within' = some target' ∧ target.Interchangeable target' := by
  obtain ⟨hsource, hroot⟩ := Store.locate?_eq_some_iff.mp hfound
  obtain ⟨source', hsource', hinter⟩ := h.source? hwithin hsource
  obtain ⟨node', hnode', hpart⟩ := hinter.document.root.descend? hroot
  have hid' : ∀ own ∈ within'.document.id, Reference.Qualifies own := hwithin.document.id ▸ hid
  have htext' : Reference.Interchangeable within'.document.id text text' :=
    hwithin.document.id ▸ htext
  refine ⟨⟨source', target.steps, node'⟩, Store.locate?_eq_some_iff.mpr ⟨?_, ?_⟩, hinter, rfl,
    hpart⟩
  · rw [htext'.source?_eq hid', hsource']
  · rw [htext.fragment_eq hid]
    exact hnode'

end Store.Interchangeable

end RpcSchema
