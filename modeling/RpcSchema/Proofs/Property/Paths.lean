import Mathlib.Data.List.Nodup
import Mathlib.Logic.Relation
import RpcSchema.Proofs.Json.Pointer
import RpcSchema.Proofs.Property.Chains

/-!
# Paths of property names

A search along a path of names enters a property for each name, and in between it turns to the parts
of intersections, and of these to their parts, until one of them is that of an object.  A turn
takes no name off the path, so a search could go on for ever where intersections nest without an
end; it is cut off after as many turns in a row as there are intersections in reach.

Where intersections do not nest without an end, no intersection is met twice in a row of turns, and
so nothing is cut off.  Then two paths can be searched one after the other: what the first path
finds is where the search along both comes through.  Each part of an intersection is searched for
the whole of the path; a part in which the first path leads nowhere is passed over by both
searches, and so they choose the same part.

## Main definitions

* `Json.intersectionParts` — the parts of an intersection.
* `Store.Turns`, `Store.Enters` — one step of a search, to a part or to a property.
* `Store.Founded` — schemas in which intersections do not nest without an end.
* `Store.Shallow` — schemas from which there are not too many turns in a row.

## Main results

* `Store.shallow_of_reached` — there are no more turns in a row than intersections in reach.
* `Store.descend_congr` — the limit of turns does not matter if it is large enough.
* `Store.descend_append` — a search along two paths comes through what the first one finds.
* `Store.propertySchema?_append` — paths are searched one after the other.
-/

namespace RpcSchema

open Relation

/-- The parts of an intersection; none of any other schema. -/
def Json.intersectionParts (node : Json) : List Json :=
  match node.field? "allOf" with
  | some (.array parts) => parts
  | _ => []

namespace Store

variable {store : Store} {matching : String → String → Bool} {limit budget : Nat}
  {within source : Source} {node last : Json} {segment : String} {rest segments : List String}
  {found : Source × Json}

/-! ### One step of a search -/

theorem follow?_of_reference?_eq_none (h : node.reference? = none) :
    store.follow? within node = some (within, node) := by
  rw [follow?, followUnmet, h]

/-- What a chain of references ends in is no reference. -/
theorem follow?_again (h : store.follow? within node = some (source, last)) :
    store.follow? source last = some (source, last) := by
  obtain ⟨-, -, -, hlast⟩ := endsIn_of_followUnmet h
  exact follow?_of_reference?_eq_none hlast

theorem follow?_of_lookup {reference : String}
    (hreference : node.reference? = some reference)
    (hlookup : store.lookup reference within = some (source, last))
    (hlast : last.reference? = none) : store.follow? within node = some (source, last) := by
  obtain ⟨target, htarget, heq⟩ := Option.map_eq_some_iff.mp hlookup
  obtain ⟨rfl, rfl⟩ := Prod.mk.inj heq
  rw [follow?, followUnmet, hreference]
  simp only [htarget, hlast, Option.isNone_none, if_true]

theorem descend_lost (h : store.follow? within node = none) :
    store.descend matching limit budget segments within node = none := by
  rw [descend, h]

theorem descend_nil (h : store.follow? within node = some found) :
    store.descend matching limit budget [] within node = some found := by
  rw [descend, h]

/-- An empty name ends the search. -/
theorem descend_halt (h : store.follow? within node = some found)
    (hsegment : segment.isEmpty = true) :
    store.descend matching limit budget (segment :: rest) within node = some found := by
  rw [descend, h]
  exact if_pos hsegment

/-- In an object the search enters the property of the name. -/
theorem descend_enter (h : store.follow? within node = some (source, last))
    (hsegment : segment.isEmpty = false) (hobject : last.isObjectSchema = true) :
    store.descend matching limit budget (segment :: rest) within node
      = (propertyBelow? matching last segment).bind fun part =>
          store.descend matching limit limit rest source part := by
  rw [descend, h]
  simp only [hsegment, hobject, if_true, Bool.false_eq_true, if_false]
  cases propertyBelow? matching last segment <;> rfl

/-- In any other schema it turns to the parts. -/
theorem descend_turn (h : store.follow? within node = some (source, last))
    (hsegment : segment.isEmpty = false) (hobject : last.isObjectSchema = false) :
    store.descend matching limit (budget + 1) (segment :: rest) within node
      = last.intersectionParts.findSome? fun part =>
          store.descend matching limit budget (segment :: rest) source part := by
  rw [descend, h, Json.intersectionParts]
  simp only [hsegment, hobject, Bool.false_eq_true, if_false]
  split
  · next parts b hparts hbudget =>
    obtain rfl := Nat.succ.inj hbudget
    rw [hparts]
  · next hnone =>
    split
    · next parts hparts => exact absurd rfl (hnone parts budget hparts)
    · rfl

theorem descend_stop (h : store.follow? within node = some (source, last))
    (hsegment : segment.isEmpty = false) (hobject : last.isObjectSchema = false)
    (hstop : budget = 0 ∨ last.intersectionParts = []) :
    store.descend matching limit budget (segment :: rest) within node = none := by
  cases budget with
  | zero =>
    rw [descend, h]
    simp [hsegment, hobject]
  | succ budget =>
    rw [descend_turn h hsegment hobject, hstop.resolve_left (Nat.succ_ne_zero _)]
    rfl

end Store

/-! ### Where a search comes to -/

namespace Json

variable {node part : Json}

theorem exists_at?_of_mem_intersectionParts (h : part ∈ node.intersectionParts) :
    ∃ steps, node.at? steps = some part := by
  unfold intersectionParts at h
  split at h
  · next parts hparts =>
    obtain ⟨index, hindex⟩ := List.mem_iff_getElem?.mp h
    obtain ⟨fields, hfields, hget⟩ := Option.bind_eq_some_iff.mp hparts
    cases node with
    | object _ =>
      obtain rfl := Option.some.inj hfields
      refine ⟨[.member "allOf", .item index], ?_⟩
      rw [at?_member, hget, Option.bind_some, at?_cons, child?, hindex]
      rfl
    | _ => cases hfields
  · exact absurd h List.not_mem_nil

/-- Only an intersection has parts. -/
theorem exists_object_of_intersectionParts (h : node.intersectionParts ≠ []) :
    ∃ fields, node = .object fields ∧ holdsIntersection fields = true := by
  unfold intersectionParts at h
  split at h
  · next parts hparts =>
    obtain ⟨fields, hfields, hget⟩ := Option.bind_eq_some_iff.mp hparts
    cases node with
    | object _ =>
      obtain rfl := Option.some.inj hfields
      exact ⟨_, rfl, by rw [holdsIntersection, hget]; rfl⟩
    | _ => cases hfields
  · exact absurd rfl h

end Json

/-- The first entry whose name passes a test is the first of its name. -/
theorem Fields.get?_of_find? {α : Type} (test : String → Bool) {fields : Fields α}
    {entry : String × α} (h : fields.find? (fun entry => test entry.1) = some entry) :
    Fields.get? fields entry.1 = some entry.2 := by
  induction fields with
  | nil => cases h
  | cons first rest ih =>
    obtain ⟨name, value⟩ := first
    rw [get?_cons]
    rw [List.find?_cons] at h
    split at h
    · obtain rfl := Option.some.inj h
      exact if_pos rfl
    · next htest =>
      have hname := List.find?_some h
      rw [if_neg, ih h]
      rintro rfl
      exact absurd (hname.symm.trans htest) (by decide)

theorem exists_at?_of_propertyBelow? {matching : String → String → Bool} {node part : Json}
    {name : String} (h : propertyBelow? matching node name = some part) :
    ∃ steps, node.at? steps = some part := by
  have hfield : ∀ {key : String} {value : Json}, node.field? key = some value →
      node.at? [.member key] = some value := by
    intro key value hvalue
    cases node with
    | object fields => rwa [Json.at?_member_nil]
    | _ => cases hvalue
  unfold propertyBelow? at h
  dsimp only at h
  rcases Option.or_eq_some_iff.mp h with h | ⟨-, hundeclared⟩
  · rcases Option.or_eq_some_iff.mp h with hdeclared | ⟨-, hmatched⟩
    · obtain ⟨properties, hproperties, hpart⟩ := Option.bind_eq_some_iff.mp hdeclared
      obtain ⟨fields, hfields, hget⟩ := Option.bind_eq_some_iff.mp hpart
      cases properties with
      | object _ =>
        obtain rfl := Option.some.inj hfields
        exact ⟨[.member "properties"] ++ [.member name], by
          rw [Json.at?_append, hfield hproperties, Option.bind_some, Json.at?_member_nil, hget]⟩
      | _ => cases hfields
    · obtain ⟨patterns, hpatterns, hfind⟩ := Option.bind_eq_some_iff.mp hmatched
      obtain ⟨value, hvalue, hobject⟩ := Option.bind_eq_some_iff.mp hpatterns
      obtain ⟨entry, hentry, rfl⟩ := Option.map_eq_some_iff.mp hfind
      have hget := Fields.get?_of_find? (fun pattern => matching pattern name) hentry
      cases value with
      | object _ =>
        obtain rfl := Option.some.inj hobject
        exact ⟨[.member "patternProperties"] ++ [.member entry.1], by
          rw [Json.at?_append, hfield hvalue, Option.bind_some, Json.at?_member_nil, hget]⟩
      | _ => cases hobject
  · exact ⟨_, hfield (Option.filter_eq_some_iff.mp hundeclared).1⟩

namespace Store

variable {store : Store} {matching : String → String → Bool} {limit budget : Nat}
  {base within source : Source} {top node last part : Json} {segment : String}
  {rest segments : List String} {x y z : Source × Json}

/-- A schema stands in a document in reach from `base`, or in the value `top` that a search from
there started at. -/
def Standing (store : Store) (base : Source) (top : Json) (x : Source × Json) : Prop :=
  (x.1 = base ∧ ∃ steps, top.at? steps = some x.2) ∨
    (x.1 ∈ store.sources base ∧ ∃ steps, x.1.document.root.at? steps = some x.2)

theorem Standing.mem_sources (h : store.Standing base top x) : x.1 ∈ store.sources base := by
  rcases h with ⟨heq, -⟩ | ⟨hmem, -⟩
  · exact heq ▸ List.mem_cons_self ..
  · exact hmem

theorem Standing.below {steps : List Step} (h : store.Standing base top (source, last))
    (hpart : last.at? steps = some part) : store.Standing base top (source, part) := by
  rcases h with ⟨heq, way, hat⟩ | ⟨hmem, way, hat⟩
  · exact Or.inl ⟨heq, way ++ steps, by rw [Json.at?_append, hat, Option.bind_some, hpart]⟩
  · exact Or.inr ⟨hmem, way ++ steps, by rw [Json.at?_append, hat, Option.bind_some, hpart]⟩

theorem Standing.follow? (h : store.Standing base top x)
    (hfollow : store.follow? x.1 x.2 = some y) : store.Standing base top y := by
  obtain ⟨chain, hchain, hend, -⟩ := endsIn_of_followUnmet hfollow
  rcases hchain.chainEnd_cases with hself | ⟨target, hmem, htarget⟩
  · obtain rfl : y = x := hend.symm.trans hself
    exact h
  · obtain rfl : y = (target.source, target.node) := hend.symm.trans htarget
    exact Or.inr ⟨hchain.mem_sources h.mem_sources hmem, _, hchain.at?_of_mem hmem⟩

/-- A search turns from a schema to a part of the intersection that it stands for. -/
def Turns (store : Store) (x y : Source × Json) : Prop :=
  ∃ last, store.follow? x.1 x.2 = some (y.1, last) ∧ last.isObjectSchema = false ∧
    y.2 ∈ last.intersectionParts

/-- A search enters a property of the object that a schema stands for. -/
def Enters (store : Store) (matching : String → String → Bool) (x y : Source × Json) : Prop :=
  ∃ last name, store.follow? x.1 x.2 = some (y.1, last) ∧ last.isObjectSchema = true ∧
    propertyBelow? matching last name = some y.2

/-- One step of a search. -/
def Advances (store : Store) (matching : String → String → Bool) (x y : Source × Json) : Prop :=
  store.Turns x y ∨ store.Enters matching x y

/-- **Intersections do not nest without an end** in a schema: wherever searches come to from it,
they cannot turn to parts of intersections for ever. -/
def Founded (store : Store) (matching : String → String → Bool) (x : Source × Json) : Prop :=
  ∀ y, ReflTransGen (store.Advances matching) x y → Acc (Function.swap store.Turns) y

/-- From a schema there are at most so many turns in a row. -/
def Shallow (store : Store) : Nat → Source × Json → Prop
  | 0, x => ∀ y, ¬store.Turns x y
  | depth + 1, x => ∀ y, store.Turns x y → store.Shallow depth y

theorem Standing.advances (h : store.Standing base top x) (hstep : store.Advances matching x y) :
    store.Standing base top y := by
  rcases hstep with ⟨last, hfollow, -, hpart⟩ | ⟨last, name, hfollow, -, hpart⟩
  · obtain ⟨steps, hat⟩ := Json.exists_at?_of_mem_intersectionParts hpart
    exact (h.follow? hfollow).below hat
  · obtain ⟨steps, hat⟩ := exists_at?_of_propertyBelow? hpart
    exact (h.follow? hfollow).below hat

theorem standing_of_reached (h : ReflTransGen (store.Advances matching) (base, top) x) :
    store.Standing base top x := by
  induction h with
  | refl => exact Or.inl ⟨rfl, [], rfl⟩
  | tail _ hstep ih => exact ih.advances hstep

/-! ### References before a step -/

theorem turns_iff_of_follow? (h : store.follow? x.1 x.2 = some z) :
    store.Turns z y ↔ store.Turns x y := by
  rw [Turns, Turns, follow?_again h, h]

theorem enters_iff_of_follow? (h : store.follow? x.1 x.2 = some z) :
    store.Enters matching z y ↔ store.Enters matching x y := by
  rw [Enters, Enters, follow?_again h, h]

theorem Turns.cases (h : store.follow? within node = some (source, last))
    (hturn : store.Turns (within, node) y) :
    last.isObjectSchema = false ∧ ∃ part ∈ last.intersectionParts, y = (source, part) := by
  obtain ⟨_, hfollow, hobject, hpart⟩ := hturn
  obtain ⟨rfl, rfl⟩ := Prod.mk.inj (Option.some.inj (h.symm.trans hfollow))
  exact ⟨hobject, y.2, hpart, rfl⟩

theorem Enters.cases (h : store.follow? within node = some (source, last))
    (henter : store.Enters matching (within, node) y) :
    last.isObjectSchema = true ∧
      ∃ name part, propertyBelow? matching last name = some part ∧ y = (source, part) := by
  obtain ⟨_, name, hfollow, hobject, hpart⟩ := henter
  obtain ⟨rfl, rfl⟩ := Prod.mk.inj (Option.some.inj (h.symm.trans hfollow))
  exact ⟨hobject, name, y.2, hpart, rfl⟩

/-! ### Turns in a row -/

/-- All intersections in reach from a document and in a value. -/
def intersections (store : Store) (base : Source) (top : Json) : List (Source × Option Json) :=
  ((store.sources base).flatMap fun source =>
      (source.document.root.objectsWith holdsIntersection []).map fun steps =>
        (source, source.document.root.at? steps))
    ++ (top.objectsWith holdsIntersection []).map fun steps => (base, top.at? steps)

theorem length_intersections (store : Store) (base : Source) (top : Json) :
    (store.intersections base top).length
      = (store.placesWith holdsIntersection base).length
        + (top.objectsWith holdsIntersection []).length := by
  simp [intersections, placesWith, List.length_flatMap]

theorem mem_intersections (h : store.Standing base top x) (hparts : x.2.intersectionParts ≠ []) :
    (x.1, some x.2) ∈ store.intersections base top := by
  obtain ⟨fields, hfields, htest⟩ := Json.exists_object_of_intersectionParts hparts
  rcases h with ⟨hbase, steps, hat⟩ | ⟨hsource, steps, hat⟩
  · refine List.mem_append_right _ (List.mem_map.mpr ⟨steps, ?_, by rw [hbase, hat]⟩)
    exact Json.mem_objectsWith (hfields ▸ hat) htest
  · refine List.mem_append_left _ (List.mem_flatMap.mpr ⟨x.1, hsource, ?_⟩)
    exact List.mem_map.mpr ⟨steps, Json.mem_objectsWith (hfields ▸ hat) htest, by rw [hat]⟩

theorem not_transGen_turns_self (h : Acc (Function.swap store.Turns) x) :
    ¬TransGen store.Turns x x := by
  intro hcircle
  have hacc : Acc (TransGen (Function.swap store.Turns)) x := h.transGen
  induction hacc with
  | intro x _ ih => exact ih x (transGen_swap.mpr hcircle) h hcircle

/-- The intersections that were met in a row of turns to a schema from which intersections do not
nest without an end. -/
structure Crossed (store : Store) (base : Source) (top : Json) (path : List (Source × Json))
    (x : Source × Json) : Prop where
  nodup : path.Nodup
  standing : ∀ z ∈ path, store.Standing base top z ∧ z.2.intersectionParts ≠ []
  turns : ∀ z ∈ path, TransGen store.Turns z x

theorem Crossed.nil : store.Crossed base top [] x :=
  ⟨List.nodup_nil, List.forall_mem_nil _, List.forall_mem_nil _⟩

theorem Crossed.length_le {path : List (Source × Json)} (h : store.Crossed base top path x) :
    path.length ≤ (store.intersections base top).length := by
  have hinjective : Function.Injective fun z : Source × Json => (z.1, some z.2) := by
    rintro ⟨source, node⟩ ⟨source', node'⟩ heq
    simpa using heq
  have hsubset : path.map (fun z => (z.1, some z.2)) ⊆ store.intersections base top := by
    intro entry hentry
    obtain ⟨z, hz, rfl⟩ := List.mem_map.mp hentry
    exact mem_intersections (h.standing z hz).1 (h.standing z hz).2
  have hlength := (List.subperm_of_subset (List.Nodup.map hinjective h.nodup) hsubset).length_le
  rwa [List.length_map] at hlength

/-- **A turn meets a new intersection.** -/
theorem Crossed.turn {path : List (Source × Json)} (h : store.Crossed base top path x)
    (hx : store.Standing base top x) (hacc : Acc (Function.swap store.Turns) x)
    (hturn : store.Turns x y) : ∃ z, store.Crossed base top (z :: path) y := by
  obtain ⟨last, hfollow, hobject, hpart⟩ := hturn
  have hz : store.Turns (y.1, last) y :=
    (turns_iff_of_follow? hfollow).mpr ⟨last, hfollow, hobject, hpart⟩
  refine ⟨(y.1, last), List.nodup_cons.mpr ⟨fun hmem => ?_, h.nodup⟩, ?_, ?_⟩
  · -- Had it been met, the turns from it to `x` would lead from `x` to itself.
    obtain ⟨next, hnext, hback⟩ := TransGen.head'_iff.mp (h.turns _ hmem)
    have hnext' := (turns_iff_of_follow? hfollow).mp hnext
    exact not_transGen_turns_self hacc (TransGen.head' hnext' hback)
  · exact List.forall_mem_cons.mpr
      ⟨⟨hx.follow? hfollow, List.ne_nil_of_mem hpart⟩, h.standing⟩
  · refine List.forall_mem_cons.mpr ⟨.single hz, fun z hmem => (h.turns z hmem).tail ?_⟩
    exact ⟨last, hfollow, hobject, hpart⟩

theorem Crossed.shallow {path : List (Source × Json)}
    (hfounded : store.Founded matching (base, top))
    (hx : ReflTransGen (store.Advances matching) (base, top) x)
    (h : store.Crossed base top path x)
    (hbudget : (store.intersections base top).length ≤ path.length + budget) :
    store.Shallow budget x := by
  induction budget generalizing path x with
  | zero =>
    -- All intersections are met, and one more turn would meet another.
    intro y hturn
    obtain ⟨z, hnext⟩ := h.turn (standing_of_reached hx) (hfounded x hx) hturn
    have hlength := hnext.length_le
    rw [List.length_cons] at hlength
    omega
  | succ budget ih =>
    intro y hturn
    obtain ⟨z, hnext⟩ := h.turn (standing_of_reached hx) (hfounded x hx) hturn
    refine ih (hx.tail (Or.inl hturn)) hnext ?_
    rw [List.length_cons]
    omega

/-- **There are no more turns in a row than intersections in reach.** -/
theorem shallow_of_reached (hfounded : store.Founded matching (base, top))
    (hx : ReflTransGen (store.Advances matching) (base, top) x) :
    store.Shallow (store.intersections base top).length x :=
  Crossed.nil.shallow hfounded hx (by simp)

/-! ### The limit of turns -/

/-- At one schema the limit does not matter if it matters neither in the properties nor in the parts
that the search goes on to. -/
theorem descend_cons_congr {limit' budget' : Nat}
    (henter : ∀ y, store.Enters matching x y →
      store.descend matching limit limit rest y.1 y.2
        = store.descend matching limit' limit' rest y.1 y.2)
    (hturn : ∀ y, store.Turns x y → ∃ left left', budget = left + 1 ∧ budget' = left' + 1 ∧
      store.descend matching limit left (segment :: rest) y.1 y.2
        = store.descend matching limit' left' (segment :: rest) y.1 y.2) :
    store.descend matching limit budget (segment :: rest) x.1 x.2
      = store.descend matching limit' budget' (segment :: rest) x.1 x.2 := by
  -- The budget is looked at only where the search turns to the parts of an intersection.
  cases hfollow : store.follow? x.1 x.2 with
  | none => rw [descend_lost hfollow, descend_lost hfollow]
  | some found =>
  obtain ⟨source, last⟩ := found
  cases hsegment : segment.isEmpty with
  | true => rw [descend_halt hfollow hsegment, descend_halt hfollow hsegment]
  | false =>
  cases hobject : last.isObjectSchema with
  | true =>
    rw [descend_enter hfollow hsegment hobject, descend_enter hfollow hsegment hobject]
    exact Option.bind_congr fun part hpart =>
      henter (source, part) ⟨last, segment, hfollow, hobject, hpart⟩
  | false =>
    have hparts : ∀ part ∈ last.intersectionParts, store.Turns x (source, part) :=
      fun part hpart => ⟨last, hfollow, hobject, hpart⟩
    by_cases hnone : last.intersectionParts = []
    · rw [descend_stop hfollow hsegment hobject (Or.inr hnone),
        descend_stop hfollow hsegment hobject (Or.inr hnone)]
    · obtain ⟨first, hfirst⟩ := List.exists_mem_of_ne_nil _ hnone
      obtain ⟨left, left', rfl, rfl, -⟩ := hturn _ (hparts first hfirst)
      rw [descend_turn hfollow hsegment hobject, descend_turn hfollow hsegment hobject]
      rw [← List.head?_filterMap, ← List.head?_filterMap]
      refine congrArg List.head? (List.filterMap_congr fun part hpart => ?_)
      obtain ⟨_, _, hleft, hleft', heq⟩ := hturn _ (hparts part hpart)
      obtain rfl := Nat.succ.inj hleft
      obtain rfl := Nat.succ.inj hleft'
      exact heq

/-- **The limit of turns does not matter** if it is not less than the turns that there can be. -/
theorem descend_congr {limit' budget' : Nat}
    (hlimit : ∀ y, ReflTransGen (store.Advances matching) x y →
      store.Shallow limit y ∧ store.Shallow limit' y)
    (hbudget : store.Shallow budget x) (hbudget' : store.Shallow budget' x) :
    store.descend matching limit budget segments x.1 x.2
      = store.descend matching limit' budget' segments x.1 x.2 := by
  -- On the names, and for each name on the turns left: entering a property starts them anew.
  induction segments generalizing x budget budget' with
  | nil =>
    cases hfollow : store.follow? x.1 x.2 with
    | none => rw [descend_lost hfollow, descend_lost hfollow]
    | some found => rw [descend_nil hfollow, descend_nil hfollow]
  | cons segment rest ihrest =>
    have hnext : ∀ {x y}, (∀ z, ReflTransGen (store.Advances matching) x z →
        store.Shallow limit z ∧ store.Shallow limit' z) → store.Advances matching x y →
        ∀ z, ReflTransGen (store.Advances matching) y z →
          store.Shallow limit z ∧ store.Shallow limit' z :=
      fun h hstep z hreached => h z (.head hstep hreached)
    induction budget generalizing x budget' with
    | zero =>
      refine descend_cons_congr (fun y hy => ?_) fun y hy => absurd hy (hbudget y)
      obtain ⟨hy₁, hy₂⟩ := hlimit y (.single (Or.inr hy))
      exact ihrest (hnext hlimit (Or.inr hy)) hy₁ hy₂
    | succ left ih =>
      refine descend_cons_congr (fun y hy => ?_) fun y hy => ?_
      · obtain ⟨hy₁, hy₂⟩ := hlimit y (.single (Or.inr hy))
        exact ihrest (hnext hlimit (Or.inr hy)) hy₁ hy₂
      · cases budget' with
        | zero => exact absurd hy (hbudget' y)
        | succ left' =>
          exact ⟨left, left', rfl, rfl,
            ih (hnext hlimit (Or.inl hy)) (hbudget y hy) (hbudget' y hy)⟩

/-! ### Paths one after the other -/

/-- What a search that finds something does with a name. -/
theorem descend_cons_cases
    (h : store.descend matching limit budget (segment :: rest) x.1 x.2 = some y) :
    (segment.isEmpty = true ∧ store.follow? x.1 x.2 = some y) ∨
      ∃ source last, store.follow? x.1 x.2 = some (source, last) ∧ segment.isEmpty = false ∧
        ((last.isObjectSchema = true ∧ ∃ part, propertyBelow? matching last segment = some part ∧
            store.descend matching limit limit rest source part = some y) ∨
          (last.isObjectSchema = false ∧ ∃ left, budget = left + 1 ∧
            (last.intersectionParts.findSome? fun part =>
              store.descend matching limit left (segment :: rest) source part) = some y)) := by
  cases hfollow : store.follow? x.1 x.2 with
  | none => rw [descend_lost hfollow] at h; cases h
  | some found =>
  obtain ⟨source, last⟩ := found
  cases hsegment : segment.isEmpty with
  | true => rw [descend_halt hfollow hsegment] at h; exact Or.inl ⟨rfl, h⟩
  | false =>
  refine Or.inr ⟨source, last, rfl, rfl, ?_⟩
  cases hobject : last.isObjectSchema with
  | true =>
    rw [descend_enter hfollow hsegment hobject] at h
    exact Or.inl ⟨rfl, Option.bind_eq_some_iff.mp h⟩
  | false =>
    cases budget with
    | zero => rw [descend_stop hfollow hsegment hobject (Or.inl rfl)] at h; cases h
    | succ left =>
      rw [descend_turn hfollow hsegment hobject] at h
      exact Or.inr ⟨rfl, left, rfl, h⟩

/-- A search depends only on what a chain of references ends in. -/
theorem descend_of_follow? (h : store.follow? x.1 x.2 = some y) :
    store.descend matching limit budget segments x.1 x.2
      = store.descend matching limit budget segments y.1 y.2 := by
  rw [descend.eq_1, descend.eq_1 store matching limit budget segments y.1 y.2, h, follow?_again h]

/-- Where a longer path leads somewhere, its beginning does. -/
theorem isSome_descend_of_append {first second : List String}
    (h : store.descend matching limit budget (first ++ second) x.1 x.2 = some z) :
    (store.descend matching limit budget first x.1 x.2).isSome := by
  induction first generalizing x budget with
  | nil =>
    cases hfollow : store.follow? x.1 x.2 with
    | none => rw [descend_lost hfollow] at h; cases h
    | some found => rw [descend_nil hfollow]; rfl
  | cons segment rest ihrest =>
    induction budget using Nat.strongRecOn generalizing x with
    | ind budget ih =>
    obtain ⟨hsegment, hfollow⟩ | ⟨source, last, hfollow, hsegment, hgoes⟩ := descend_cons_cases h
    · rw [descend_halt hfollow hsegment]
      rfl
    · obtain ⟨hobject, part, hpart, hrest⟩ | ⟨hobject, left, rfl, hparts⟩ := hgoes
      · rw [descend_enter hfollow hsegment hobject, hpart, Option.bind_some]
        exact ihrest (x := (source, part)) hrest
      · rw [descend_turn hfollow hsegment hobject, List.findSome?_isSome_iff]
        obtain ⟨part, hmem, hpart⟩ := List.exists_of_findSome?_eq_some hparts
        exact ⟨part, hmem, ih left (Nat.lt_succ_self left) (x := (source, part)) hpart⟩

theorem descend_append_eq_none {first second : List String}
    (h : store.descend matching limit budget first x.1 x.2 = none) :
    store.descend matching limit budget (first ++ second) x.1 x.2 = none := by
  cases hboth : store.descend matching limit budget (first ++ second) x.1 x.2 with
  | none => rfl
  | some found =>
    have hfirst := isSome_descend_of_append hboth
    rw [h] at hfirst
    cases hfirst

/-- **Two paths are searched one after the other.**  A part of an intersection that the first path
does not come through is not one that both come through. -/
theorem descend_append {first second : List String}
    (hfirst : ∀ segment ∈ first, segment.isEmpty = false) (hbudget : first ≠ [] ∨ budget = limit)
    (hfound : store.descend matching limit budget first x.1 x.2 = some y)
    (hnext : store.descend matching limit limit second y.1 y.2 = some z) :
    store.descend matching limit budget (first ++ second) x.1 x.2 = some z := by
  induction first generalizing x budget with
  | nil =>
    -- Here the second path starts, with all turns left.
    obtain rfl : budget = limit := hbudget.resolve_left fun hne => hne rfl
    cases hfollow : store.follow? x.1 x.2 with
    | none => rw [descend_lost hfollow] at hfound; cases hfound
    | some found =>
      rw [descend_nil hfollow] at hfound
      obtain rfl := Option.some.inj hfound
      rw [List.nil_append, descend_of_follow? hfollow, hnext]
  | cons segment rest ihrest =>
    obtain ⟨hsegment, hrest⟩ := List.forall_mem_cons.mp hfirst
    induction budget using Nat.strongRecOn generalizing x with
    | ind budget ih =>
    obtain ⟨hempty, -⟩ | ⟨source, last, hfollow, -, hgoes⟩ := descend_cons_cases hfound
    · exact absurd (hsegment.symm.trans hempty) (by decide)
    · obtain ⟨hobject, part, hpart, hgo⟩ | ⟨hobject, left, rfl, hparts⟩ := hgoes
      · rw [List.cons_append, descend_enter hfollow hsegment hobject, hpart, Option.bind_some]
        exact ihrest hrest (Or.inr rfl) (x := (source, part)) hgo
      · obtain ⟨before, part, after, hsplit, hpart, hbefore⟩ :=
          List.findSome?_eq_some_iff.mp hparts
        -- The parts in front lead nowhere along the first path, and so along both.
        have hboth := ih left (Nat.lt_succ_self left) (x := (source, part)) (Or.inl nofun) hpart
        rw [List.cons_append, descend_turn hfollow hsegment hobject]
        exact List.findSome?_eq_some_iff.mpr ⟨before, part, after, hsplit, hboth,
          fun other hmem => descend_append_eq_none (x := (source, other)) (hbefore other hmem)⟩

/-- What a search finds is what a schema stands for that it came to. -/
theorem exists_reached_of_descend
    (h : store.descend matching limit budget segments x.1 x.2 = some y) :
    ∃ z, ReflTransGen (store.Advances matching) x z ∧ store.follow? z.1 z.2 = some y := by
  induction segments generalizing x budget with
  | nil =>
    cases hfollow : store.follow? x.1 x.2 with
    | none => rw [descend_lost hfollow] at h; cases h
    | some found => rw [descend_nil hfollow] at h; exact ⟨x, .refl, hfollow.trans h⟩
  | cons segment rest ihrest =>
    induction budget using Nat.strongRecOn generalizing x with
    | ind budget ih =>
    obtain ⟨-, hfollow⟩ | ⟨source, last, hfollow, -, hgoes⟩ := descend_cons_cases h
    · exact ⟨x, .refl, hfollow⟩
    · obtain ⟨hobject, part, hpart, hgo⟩ | ⟨hobject, left, rfl, hparts⟩ := hgoes
      · obtain ⟨z, hreached, hz⟩ := ihrest (x := (source, part)) hgo
        exact ⟨z, .head (Or.inr ⟨last, segment, hfollow, hobject, hpart⟩) hreached, hz⟩
      · obtain ⟨part, hmem, hpart⟩ := List.exists_of_findSome?_eq_some hparts
        obtain ⟨z, hreached, hz⟩ := ih left (Nat.lt_succ_self left) (x := (source, part)) hpart
        exact ⟨z, .head (Or.inl ⟨last, hfollow, hobject, hmem⟩) hreached, hz⟩

/-! ### What holds on from there -/

theorem shallow_of_follow? {depth : Nat} (h : store.follow? x.1 x.2 = some z)
    (hx : store.Shallow depth x) : store.Shallow depth z := by
  cases depth with
  | zero => exact fun y hturn => hx y ((turns_iff_of_follow? h).mp hturn)
  | succ depth => exact fun y hturn => hx y ((turns_iff_of_follow? h).mp hturn)

theorem acc_of_follow? (h : store.follow? x.1 x.2 = some z)
    (hx : Acc (Function.swap store.Turns) x) : Acc (Function.swap store.Turns) z :=
  ⟨z, fun _ hturn => hx.inv ((turns_iff_of_follow? h).mp hturn)⟩

/-- What is reached from the end of a chain of references is reached from its start. -/
theorem eq_or_reached_of_follow? (h : store.follow? x.1 x.2 = some z)
    (hreached : ReflTransGen (store.Advances matching) z y) :
    y = z ∨ ReflTransGen (store.Advances matching) x y := by
  rcases hreached.cases_head with rfl | ⟨next, hstep, hrest⟩
  · exact Or.inl rfl
  · exact Or.inr (.head (hstep.imp (turns_iff_of_follow? h).mp (enters_iff_of_follow? h).mp) hrest)

/-- Intersections do not nest without an end in what a search finds, if they do not where it
starts. -/
theorem Founded.of_descend (hfounded : store.Founded matching x)
    (h : store.descend matching limit budget segments x.1 x.2 = some z) :
    store.Founded matching z := by
  obtain ⟨start, hstart, hfollow⟩ := exists_reached_of_descend h
  intro y hy
  rcases eq_or_reached_of_follow? hfollow hy with rfl | hreached
  · exact acc_of_follow? hfollow (hfounded start hstart)
  · exact hfounded y (hstart.trans hreached)

/-- There are no more turns in a row from what a search finds than intersections in reach from where
it starts. -/
theorem shallow_of_descend (hfounded : store.Founded matching (base, top))
    (h : store.descend matching limit budget segments base top = some z)
    (hy : ReflTransGen (store.Advances matching) z y) :
    store.Shallow (store.intersections base top).length y := by
  obtain ⟨start, hstart, hfollow⟩ := exists_reached_of_descend (x := (base, top)) h
  rcases eq_or_reached_of_follow? hfollow hy with rfl | hreached
  · exact shallow_of_follow? hfollow (shallow_of_reached hfounded hstart)
  · exact shallow_of_reached hfounded (hstart.trans hreached)

/-! ### Dotted paths -/

theorem propertySchema?_eq_descend {path : String} :
    store.propertySchema? matching node path within
      = store.descend matching (store.intersections within node).length
          (store.intersections within node).length (splitText '.' path) within node := by
  rw [length_intersections, propertySchema?]

/-- A dotted path is that of its two halves one after the other. -/
theorem splitText_append_dot (first second : String) :
    splitText '.' (first ++ "." ++ second) = splitText '.' first ++ splitText '.' second := by
  have hdot : (first ++ "." ++ second).toList = first.toList ++ '.' :: second.toList := by simp
  rw [splitText, hdot, splitChars_append, List.map_append]
  rfl

theorem splitText_ne_nil (text : String) : splitText '.' text ≠ [] := by
  rw [splitText, Ne, List.map_eq_nil_iff]
  exact splitChars_ne_nil '.' text.toList

/-- **Dotted paths compose**: what a path finds is where the search along a longer path comes
through, and only where the shorter path finds something can the longer one do so. -/
theorem propertySchema?_append {first second : String}
    (hfounded : store.Founded matching (within, node))
    (hfirst : ∀ segment ∈ splitText '.' first, segment ≠ "") :
    (∀ source last found,
      store.propertySchema? matching node first within = some (source, last) →
      store.propertySchema? matching last second source = some found →
      store.propertySchema? matching node (first ++ "." ++ second) within = some found) ∧
    ((store.propertySchema? matching node (first ++ "." ++ second) within).isSome →
      (store.propertySchema? matching node first within).isSome) := by
  simp only [propertySchema?_eq_descend, splitText_append_dot]
  refine ⟨fun source last found hthrough hfound => ?_, fun hsome => ?_⟩
  · have hsame : store.descend matching (store.intersections within node).length
        (store.intersections within node).length (splitText '.' second) source last
          = some found := by
      have hthere : store.Founded matching (source, last) := hfounded.of_descend hthrough
      rw [← hfound]
      exact descend_congr (x := (source, last))
        (fun y hy => ⟨shallow_of_descend hfounded hthrough hy, shallow_of_reached hthere hy⟩)
        (shallow_of_descend hfounded hthrough .refl) (shallow_of_reached hthere .refl)
    exact descend_append (x := (within, node)) (y := (source, last))
      (fun segment hmem => by simpa using hfirst segment hmem)
      (Or.inl (splitText_ne_nil first)) hthrough hsame
  · obtain ⟨found, hfound⟩ := Option.isSome_iff_exists.mp hsome
    exact isSome_descend_of_append (x := (within, node)) hfound

/-! ### Intersections of no intersections -/

/-- Where no part of an intersection is an intersection, intersections do not nest without an
end. -/
theorem founded_of_flat {Comes : Source × Json → Prop} (hx : Comes x)
    (hclosed : ∀ y z, Comes y → store.Advances matching y z → Comes z)
    (hflat : ∀ y z, Comes y → store.Turns y z → ∀ part, ¬store.Turns z part) :
    store.Founded matching x := by
  intro y hreached
  have hy : Comes y := by
    induction hreached with
    | refl => exact hx
    | tail _ hstep ih => exact hclosed _ _ ih hstep
  exact ⟨y, fun z hz => ⟨z, fun part hpart => absurd hpart (hflat y z hy hz part)⟩⟩

def blankPart : Json := .object [("type", .string "object")]

def jointReference : Json := .object [("$ref", .string "#/definitions/Joint")]

def partReference : Json := .object [("$ref", .string "kit#/definitions/Part")]

def partSchema : Json := .object [("allOf", .array [blankPart, jointReference])]

def jointSchema : Json :=
  .object [("type", .string "object"), ("properties", .object [("next", partReference)])]

/-- A bundle in which every part of a machine is joined to the next. -/
def kitBundle : Document where
  id := some "kit"
  title := "Kit"
  root := .object [("definitions", .object [("Part", partSchema), ("Joint", jointSchema)])]

def kitStore : Store := empty.register "kit" kitBundle

def kitSource : Source := ⟨.bundle "kit", kitBundle⟩

def machineDocument : Document := ⟨none, "Machine", .object []⟩

/-- The schemas that a search from a part comes to. -/
def MachineSchema (x : Source × Json) : Prop :=
  (∃ source ∈ [machineDocument.asContext, kitSource], x = (source, partReference)) ∨
    x = (kitSource, blankPart) ∨ x = (kitSource, jointReference)

theorem follow?_partReference (hsource : source ∈ [machineDocument.asContext, kitSource]) :
    kitStore.follow? source partReference = some (kitSource, partSchema) := by
  rcases List.mem_pair.mp hsource with rfl | rfl <;> exact follow?_of_lookup rfl rfl rfl

theorem follow?_blankPart : kitStore.follow? kitSource blankPart = some (kitSource, blankPart) :=
  follow?_of_reference?_eq_none rfl

theorem follow?_jointReference :
    kitStore.follow? kitSource jointReference = some (kitSource, jointSchema) :=
  follow?_of_lookup rfl rfl rfl

theorem founded_machine (hx : MachineSchema x) : kitStore.Founded matching x := by
  refine founded_of_flat hx (fun y z hy hstep => ?_) (fun y z hy hturn part hpart => ?_)
  · rcases hy with ⟨source, hsource, rfl⟩ | rfl | rfl <;> rcases hstep with hturn | henter
    · obtain ⟨-, part, hmem, rfl⟩ := hturn.cases (follow?_partReference hsource)
      rcases List.mem_pair.mp hmem with rfl | rfl
      · exact Or.inr (Or.inl rfl)
      · exact Or.inr (Or.inr rfl)
    · exact absurd (henter.cases (follow?_partReference hsource)).1 (by decide)
    · exact absurd (hturn.cases follow?_blankPart).1 (by decide)
    · obtain ⟨-, name, part, hproperty, -⟩ := henter.cases follow?_blankPart
      cases hproperty
    · exact absurd (hturn.cases follow?_jointReference).1 (by decide)
    · obtain ⟨-, name, part, hproperty, rfl⟩ := henter.cases follow?_jointReference
      refine Or.inl ⟨kitSource, by simp, ?_⟩
      simp [propertyBelow?, jointSchema, Json.field?, Json.object?, Fields.get?] at hproperty
      rw [hproperty.2]
  · rcases hy with ⟨source, hsource, rfl⟩ | rfl | rfl
    · obtain ⟨-, last, hmem, rfl⟩ := hturn.cases (follow?_partReference hsource)
      rcases List.mem_pair.mp hmem with rfl | rfl
      · exact absurd (hpart.cases follow?_blankPart).1 (by decide)
      · exact absurd (hpart.cases follow?_jointReference).1 (by decide)
    · exact absurd (hturn.cases follow?_blankPart).1 (by decide)
    · exact absurd (hturn.cases follow?_jointReference).1 (by decide)

/-- In a part of the machine a search comes through the joint to the next part. -/
theorem descend_next {first : Source} {schema : Json}
    (h : kitStore.follow? first schema = some (kitSource, partSchema)) :
    kitStore.descend matching (limit + 1) (limit + 1) ["next"] first schema
      = some (kitSource, partSchema) := by
  have hmiss : propertyBelow? matching blankPart "next" = none := rfl
  have hhit : propertyBelow? matching jointSchema "next" = some partReference := rfl
  rw [descend_turn h rfl rfl]
  change List.findSome? _ [blankPart, jointReference] = _
  rw [List.findSome?_cons, descend_enter follow?_blankPart rfl rfl, hmiss, Option.bind_none,
    List.findSome?_cons, descend_enter follow?_jointReference rfl rfl, hhit, Option.bind_some,
    descend_nil (follow?_partReference (by simp))]

theorem propertySchema?_append_machine :
    kitStore.Founded (fun _ _ => false) (machineDocument.asContext, partReference) ∧
      (∀ segment ∈ splitText '.' "next", segment ≠ "") ∧
      kitStore.propertySchema? (fun _ _ => false) partReference "next.next"
        machineDocument.asContext = some (kitSource, partSchema) := by
  have hfounded : kitStore.Founded (fun _ _ => false)
      (machineDocument.asContext, partReference) :=
    founded_machine (Or.inl ⟨_, by simp, rfl⟩)
  have hsegments : ∀ segment ∈ splitText '.' "next", segment ≠ "" := by decide
  have hfirst : kitStore.propertySchema? (fun _ _ => false) partReference "next"
      machineDocument.asContext = some (kitSource, partSchema) :=
    descend_next (follow?_partReference (by simp))
  have hsecond : kitStore.propertySchema? (fun _ _ => false) partSchema "next" kitSource
      = some (kitSource, partSchema) :=
    descend_next (follow?_of_reference?_eq_none rfl)
  exact ⟨hfounded, hsegments, (propertySchema?_append hfounded hsegments).1 _ _ _ hfirst hsecond⟩

end Store

end RpcSchema
