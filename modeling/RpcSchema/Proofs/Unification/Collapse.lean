import RpcSchema.Proofs.Unification.Disjunction
import RpcSchema.Proofs.Unification.Merging

/-!
# What collapsing keeps

The union of two schemas, collapsed into one, comes down to one of a few things: one of both
shapes is kept, both stand side by side, or parts of both are merged.  Which one it is does
not depend on how parts are merged.

So two facts pass from the merges of parts to the whole: what holds at every depth of both
schemas, for properties that go through unions, and that there is no more than before of what is
counted.  Unions cannot be counted, because two schemas side by side take a union around them.
Atoms can, the schemas in a schema that are no unions, and so can arrays of one kind.

## Main definitions

* `Unifying.Ensures p x` — what the computation gives satisfies `p`, whatever is registered.
* `Schema.tally count` — what is counted in a schema and all schemas within it.
* `Union.Closed`, `Union.Counts` — the properties of schemas that unions keep, and what they make
  no more of.
* `Union.Course` — what a union of two schemas comes down to.
* `Union.Frugal` — merging makes no atoms, and keeps a property at every depth.

## Main results

* `Union.course` — there is nothing else that a union can come down to.
* `Union.Accounting.uniteWithin` — what is kept and counted, for whatever is said of computations.
* `Schema.frugal_uniteWithin` — unions are frugal, at whatever depth they stop.
-/

namespace RpcSchema

/-! ### What a computation ensures -/

/-- Whatever is registered already, what the computation gives satisfies `p`. -/
def Unifying.Ensures {α : Type} (p : α → Prop) (x : Unifying α) : Prop :=
  ∀ (registry : Registry) (value : α) (registry' : Registry),
    x.run.run registry = (.ok value, registry') → p value

namespace Unifying

variable {α β : Type} {p : α → Prop} {q : β → Prop} {x : Unifying α} {f g : α → Unifying β}

theorem run_bind (x : Unifying α) (f : α → Unifying β) (registry : Registry) :
    (x >>= f).run.run registry = match x.run.run registry with
      | (.ok value, registry') => (f value).run.run registry'
      | (.error conflict, registry') => (.error conflict, registry') := by
  rw [ExceptT.run_bind, StateT.run_bind]
  change (match x.run.run registry with | (outcome, registry') => _) = _
  cases x.run.run registry with
  | mk outcome registry' => cases outcome <;> rfl

theorem Ensures.pure {value : α} (h : p value) : Ensures p (Pure.pure value) := by
  intro registry found registry' hrun
  obtain rfl := Except.ok.inj (Prod.mk.inj hrun).1
  exact h

theorem Ensures.throw (conflict : Conflict) : Ensures p (throw conflict : Unifying α) := by
  intro registry found registry' hrun
  cases (Prod.mk.inj hrun).1

theorem Ensures.bind (hx : Ensures p x) (hf : ∀ value, p value → Ensures q (f value)) :
    Ensures q (x >>= f) := by
  intro registry found registry' hrun
  rw [run_bind] at hrun
  split at hrun
  · next value middle hvalue => exact hf value (hx _ _ _ hvalue) _ _ _ hrun
  · cases (Prod.mk.inj hrun).1

theorem Ensures.of_outcome {outcome : Except Conflict α} (h : ∀ value, outcome = .ok value → p value) :
    Ensures p (ExceptT.mk (Pure.pure outcome)) := by
  intro registry found registry' hrun
  exact h found (Prod.mk.inj hrun).1

theorem judgement_ensures : Judgement Ensures := ⟨.pure, .bind⟩

theorem Ensures.mono {p' : α → Prop} (hx : Ensures p x) (h : ∀ value, p value → p' value) :
    Ensures p' x :=
  fun registry value registry' hrun => h value (hx registry value registry' hrun)

theorem Ensures.and {p' : α → Prop} (hx : Ensures p x) (hx' : Ensures p' x) :
    Ensures (fun value => p value ∧ p' value) x :=
  fun registry value registry' hrun =>
    ⟨hx registry value registry' hrun, hx' registry value registry' hrun⟩

/-- Only what the first computation can give matters to the second. -/
theorem Ensures.bind_congr (hx : Ensures p x) (h : ∀ value, p value → f value = g value) :
    x >>= f = x >>= g := by
  refine ExceptT.ext (StateT.ext fun registry => ?_)
  rw [run_bind, run_bind]
  split
  · next value middle hvalue => rw [h value (hx _ _ _ hvalue)]
  · rfl

end Unifying

/-! ### Counting -/

/-- What is counted in a schema and all schemas within it. -/
def Schema.tally (count : Kind → ℕ) (schema : Schema) : ℕ :=
  (schema.all.map fun inner => count inner.kind).sum

/-- What is counted in some schemas. -/
abbrev Schema.tallyAll (count : Kind → ℕ) (schemas : List Schema) : ℕ :=
  (schemas.map (Schema.tally count)).sum

namespace Schema

variable {count : Kind → ℕ}

/-- A schema counts by itself, and by its parts. -/
theorem tally_eq (schema : Schema) :
    schema.tally count = count schema.kind + tallyAll count schema.kind.parts := by
  obtain ⟨title, description, kind, extra⟩ := schema
  rw [tally, Schema.all, Kind.all_eq, List.map_cons, List.sum_cons, List.map_flatMap,
    List.flatMap_def, List.sum_flatten, List.map_map]
  rfl

theorem tallyAll_cons (schema : Schema) (rest : List Schema) :
    tallyAll count (schema :: rest) = schema.tally count + tallyAll count rest :=
  List.sum_cons

theorem tallyAll_singleton (schema : Schema) : tallyAll count [schema] = schema.tally count :=
  List.sum_singleton

theorem tally_le_tallyAll {schemas : List Schema} {schema : Schema} (h : schema ∈ schemas) :
    schema.tally count ≤ tallyAll count schemas :=
  List.le_sum_of_mem (List.mem_map_of_mem h)

theorem tally_le_of_mem_parts {schema part : Schema} (h : part ∈ schema.kind.parts) :
    part.tally count ≤ schema.tally count := by
  rw [schema.tally_eq]
  exact Nat.le_add_left_of_le (tally_le_tallyAll h)

theorem tallyAll_le_of_sublist {schemas others : List Schema} (h : schemas.Sublist others) :
    tallyAll count schemas ≤ tallyAll count others :=
  (h.map _).sum_le_sum fun _ _ => Nat.zero_le _

/-- Parts of which each counts no more than the one in its place. -/
theorem tallyAll_le_of_forall₂ {schemas others : List Schema}
    (h : List.Forall₂ (fun schema other => other.tally count ≤ schema.tally count) schemas others) :
    tallyAll count others ≤ tallyAll count schemas := by
  induction h with
  | nil => exact Nat.le_refl _
  | cons hle _ ih =>
    rw [tallyAll_cons, tallyAll_cons]
    exact Nat.add_le_add hle ih

/-- Only the shape counts. -/
theorem tally_congr {a b : Schema} (h : a.kind = b.kind) : a.tally count = b.tally count := by
  rw [tally_eq, tally_eq, h]

theorem tally_joined (a b : Schema) (extra : Fields Json) (kind : Kind) :
    (a.joined b extra kind).tally count = count kind + tallyAll count kind.parts :=
  tally_eq _

end Schema

/-- A shape that takes the place of two has no parts that neither has. -/
theorem Kind.Keeps.tallyAll_le {count : Kind → ℕ} {k l kind : Kind} (h : Kind.Keeps k l kind) :
    Schema.tallyAll count kind.parts ≤
      Schema.tallyAll count k.parts + Schema.tallyAll count l.parts := by
  cases h with
  | left => exact Nat.le_add_right _ _
  | right => exact Nat.le_add_left _ _
  | literals _ _ => exact Nat.zero_le _

/-! ### Atoms -/

/-- A shape is one atom unless it is a union. -/
def Kind.ownAtoms : Kind → ℕ
  | .anyOf _ => 0
  | _ => 1

theorem Schema.atoms_eq (schema : Schema) : schema.atoms = schema.kind.atoms := by
  obtain ⟨title, description, kind, extra⟩ := schema
  rw [Schema.atoms]

theorem Schema.atomsItems_eq (items : List Schema) :
    Schema.atomsItems items = (items.map Schema.atoms).sum := by
  induction items with
  | nil => rfl
  | cons item rest ih => rw [atomsItems, ih, List.map_cons, List.sum_cons]

theorem Schema.atomsFields_eq (fields : Fields Schema) :
    Schema.atomsFields fields = ((Fields.values fields).map Schema.atoms).sum := by
  induction fields with
  | nil => rfl
  | cons entry rest ih =>
    obtain ⟨name, schema⟩ := entry
    rw [atomsFields, ih]
    rfl

theorem ObjectSchema.atoms_eq (shape : ObjectSchema) :
    shape.atoms = (shape.parts.map Schema.atoms).sum := by
  obtain ⟨properties, required, additional, patterns, names⟩ := shape
  have hadditional : additional.atoms = (additional.schema?.toList.map Schema.atoms).sum := by
    cases additional with
    | schema value => exact List.sum_singleton.symm
    | _ => rfl
  rw [ObjectSchema.atoms, Schema.atomsFields_eq, Schema.atomsFields_eq, hadditional,
    ObjectSchema.parts, List.map_append, List.map_append, List.sum_append, List.sum_append,
    Nat.add_assoc]

theorem Kind.atoms_eq (kind : Kind) :
    kind.atoms = kind.ownAtoms + (kind.parts.map Schema.atoms).sum := by
  cases kind with
  | object shape => rw [Kind.atoms, shape.atoms_eq, Nat.add_comm]; rfl
  | listOf item => rw [Kind.atoms, Nat.add_comm]; rfl
  | tuple items => rw [Kind.atoms, Schema.atomsItems_eq, Nat.add_comm]; rfl
  | allOf parts => rw [Kind.atoms, Schema.atomsItems_eq, Nat.add_comm]; rfl
  | anyOf branches => rw [Kind.atoms, Schema.atomsItems_eq]; exact (Nat.zero_add _).symm
  | _ => rfl

/-- Atoms are counted like anything else. -/
theorem Schema.tally_ownAtoms (schema : Schema) : schema.tally Kind.ownAtoms = schema.atoms := by
  induction schema using Schema.induction_parts with
  | h schema ih =>
    rw [tally_eq, schema.atoms_eq, Kind.atoms_eq, tallyAll, List.map_congr_left ih]

theorem Schema.tallyAll_ownAtoms (schemas : List Schema) :
    tallyAll Kind.ownAtoms schemas = atomsItems schemas := by
  rw [atomsItems_eq, tallyAll, List.map_congr_left fun schema _ => schema.tally_ownAtoms]

theorem Schema.atoms_le_atomsItems {items : List Schema} {schema : Schema} (h : schema ∈ items) :
    schema.atoms ≤ atomsItems items := by
  rw [← tally_ownAtoms, ← tallyAll_ownAtoms]
  exact tally_le_tallyAll h

/-- Parts of an object shape. -/
theorem ObjectSchema.atoms_le_of_mem_parts {shape : ObjectSchema} {part : Schema}
    (h : part ∈ shape.parts) : part.atoms ≤ shape.atoms := by
  rw [shape.atoms_eq]
  exact List.le_sum_of_mem (List.mem_map_of_mem h)

/-! ### What a merge gives -/

namespace Union

/-- The shape that the union of two shapes takes: one of them, the values of both, or an
object or an array made of the parts of both. -/
inductive Merges : Kind → Kind → Kind → Prop
  | keep {k l kind : Kind} (h : Kind.Keeps k l kind) : Merges k l kind
  | objects (x y shape : ObjectSchema) : Merges (.object x) (.object y) (.object shape)
  | items (x y item : Schema) : Merges (.listOf x) (.listOf y) (.listOf item)

theorem Merges.literals_subset {k l kind : Kind} (h : Merges k l kind) :
    kind.literals ⊆ k.literals ++ l.literals := by
  cases h with
  | keep h => exact h.literals_subset
  | objects x y shape => exact List.nil_subset _
  | items x y item => exact List.nil_subset _

/-- A property of schemas that unions keep: it holds of the schema that takes the place of two,
of a union, and of a reference to a registered schema. -/
structure Closed (q : Schema → Prop) : Prop where
  namesApart : ∀ schema, q schema → schema.NamesApart
  joined : ∀ a b kind, q a → q b → Merges a.kind b.kind kind →
    (∀ fields ∈ kind.maps, (Fields.keys fields).Nodup) → q (a.joined b (a.agreedExtra b) kind)
  union : ∀ branches, q (.ofKind (.anyOf branches))
  registered : ∀ name, q (Schema.registered name)

/-- **Unions keep names apart.** -/
theorem closed_namesApart : Closed Schema.NamesApart where
  namesApart _ h := h
  joined a b kind ha hb h hmaps := by
    refine ⟨Schema.distinctNames_agreedExtra ha, fun value hvalue => ?_, hmaps⟩
    exact (List.mem_append.mp (h.literals_subset hvalue)).elim (ha.literals value)
      (hb.literals value)
  union _ := .ofKind rfl rfl
  registered name := by
    have hbare : (Schema.reference (Reference.toComponent name)).NamesApart := .ofKind rfl rfl
    exact ⟨hbare.extra, hbare.literals, hbare.maps⟩

/-- With another property that unions keep. -/
theorem Closed.namesApart_and {q : Schema → Prop}
    (hjoined : ∀ a b kind, q a → q b → Merges a.kind b.kind kind →
      q (a.joined b (a.agreedExtra b) kind))
    (hunion : ∀ branches, q (.ofKind (.anyOf branches)))
    (hregistered : ∀ name, q (Schema.registered name)) :
    Closed fun schema => schema.NamesApart ∧ q schema where
  namesApart _ h := h.1
  joined a b kind ha hb h hmaps :=
    ⟨closed_namesApart.joined a b kind ha.1 hb.1 h hmaps, hjoined a b kind ha.2 hb.2 h⟩
  union branches := ⟨closed_namesApart.union branches, hunion branches⟩
  registered name := ⟨closed_namesApart.registered name, hregistered name⟩

/-- What unions make no more of.  Unions themselves do not count. -/
structure Counts (count : Kind → ℕ) : Prop where
  union : ∀ branches, count (.anyOf branches) = 0
  merges : ∀ k l kind, Merges k l kind → count kind ≤ count k + count l
  refs : ∀ x y z, count (.ref z) ≤ count (.ref x) + count (.ref y)

theorem counts_ownAtoms : Counts Kind.ownAtoms where
  union _ := rfl
  merges k l kind h := by
    cases h with
    | objects _ _ _ | items _ _ _ => exact Nat.le_add_right 1 1
    | keep h =>
      cases h with
      | left => exact Nat.le_add_right _ _
      | right => exact Nat.le_add_left _ _
      | literals hk _ =>
        have hown : k.ownAtoms = 1 := by
          cases k with
          | const _ | enum _ _ => rfl
          | _ => cases hk
        rw [hown]
        exact Nat.le_add_right _ _
  refs _ _ _ := Nat.le_add_right 1 1

/-- Merging makes no more atoms, and keeps a property at every depth. -/
def Frugal (q : Schema → Prop) (merge : Schema → Schema → Unifying Schema) : Prop :=
  ∀ a b : Schema, a.Every q → b.Every q →
    (merge a b).Ensures fun m => m.Every q ∧ m.atoms ≤ a.atoms + b.atoms

/-- Arrays that are never merged: one of them goes by position, and the other one says something
of its items. -/
inductive Clash : Kind → Kind → Prop
  | tuples (xs ys : List Schema) : Clash (.tuple xs) (.tuple ys)
  | tupleItems (xs : List Schema) (y : Schema) : Clash (.tuple xs) (.listOf y)
  | itemsTuple (x : Schema) (ys : List Schema) : Clash (.listOf x) (.tuple ys)

/-! ### The courses of a merge -/

variable {q : Schema → Prop} {branches incoming : List Schema}

/-- The branches of a union, and what is merged into them. -/
inductive Sides (a b : Schema) : List Schema → List Schema → Prop
  | both {branches incoming : List Schema} (ha : a.kind = .anyOf branches)
      (hb : b.kind = .anyOf incoming) : Sides a b branches incoming
  | left {branches : List Schema} (ha : a.kind = .anyOf branches) : Sides a b branches [b]
  | right {branches : List Schema} (hb : b.kind = .anyOf branches) : Sides a b branches [a]

/-- What the union of two schemas comes down to. -/
inductive Course (a b : Schema) : Prop
  | keep {kind : Kind} (h : Kind.Keeps a.kind b.kind kind)
      (heq : ∀ merge, combine merge a b = pure (a.joined b (a.agreedExtra b) kind))
  | apart (heq : ∀ merge, combine merge a b = pure (.ofKind (.anyOf [a, b])))
  | branches {branches incoming : List Schema} (h : Sides a b branches incoming)
      (heq : ∀ merge, combine merge a b = joinBranches merge branches incoming)
  | references {x y : String} (ha : a.kind = .ref x) (hb : b.kind = .ref y)
      (heq : ∀ merge, combine merge a b = wrapReferences x y)
  | objects {x y : ObjectSchema} (ha : a.kind = .object x) (hb : b.kind = .object y)
      (heq : ∀ merge, combine merge a b = objects merge x y >>= fun shape =>
        pure (a.joined b (a.agreedExtra b) (.object shape)))
  | items {x y : Schema} (ha : a.kind = .listOf x) (hb : b.kind = .listOf y)
      (heq : ∀ merge, combine merge a b = merge x y >>= fun item =>
        pure (a.joined b (a.agreedExtra b) (.listOf item)))
  | tuples (h : Clash a.kind b.kind) (heq : ∀ merge, combine merge a b = throw .tuples)

/-- **Everything that a union of two schemas can come down to.** -/
theorem course {a b : Schema} (ha : a.NamesApart) (hb : b.NamesApart) : Course a b := by
  have hscalars : a.kind.isScalar = true → b.kind.isScalar = true → Course a b := by
    intro hk hl
    rcases combine_scalars hk hl ha hb with ⟨kind, hspans, heq⟩ | heq
    · exact .keep hspans.keeps heq
    · exact .apart heq
  -- Which case it is depends on the two shapes alone, so they are gone through in pairs.
  obtain ⟨title, description, k, extra⟩ := a
  obtain ⟨title', description', l, extra'⟩ := b
  cases k with
  | never => exact .keep .right fun _ => rfl
  | empty =>
    cases l with
    | never => exact .keep .left fun _ => rfl
    | _ => exact .keep .right fun _ => rfl
  | anyOf branches =>
    cases l with
    | never | empty => exact .keep .left fun _ => rfl
    | anyOf incoming => exact .branches (.both rfl rfl) fun _ => rfl
    | _ => exact .branches (.left rfl) fun _ => rfl
  | ref x =>
    cases l with
    | never | empty => exact .keep .left fun _ => rfl
    | anyOf incoming => exact .branches (.right rfl) fun _ => rfl
    | ref y =>
      by_cases hxy : x = y
      · exact .keep .left fun _ => if_pos hxy
      · exact .references rfl rfl fun _ => if_neg hxy
    | _ => exact .apart fun _ => rfl
  | object x =>
    cases l with
    | never | empty => exact .keep .left fun _ => rfl
    | anyOf incoming => exact .branches (.right rfl) fun _ => rfl
    | object y => exact .objects rfl rfl fun _ => rfl
    | _ => exact .apart fun _ => rfl
  | list =>
    cases l with
    | never | empty | list => exact .keep .left fun _ => rfl
    | listOf _ | tuple _ => exact .keep .right fun _ => rfl
    | anyOf incoming => exact .branches (.right rfl) fun _ => rfl
    | _ => exact .apart fun _ => rfl
  | listOf x =>
    cases l with
    | never | empty | list => exact .keep .left fun _ => rfl
    | listOf y => exact .items rfl rfl fun _ => rfl
    | tuple ys => exact .tuples (.itemsTuple x ys) fun _ => rfl
    | anyOf incoming => exact .branches (.right rfl) fun _ => rfl
    | _ => exact .apart fun _ => rfl
  | tuple xs =>
    cases l with
    | never | empty | list => exact .keep .left fun _ => rfl
    | listOf y => exact .tuples (.tupleItems xs y) fun _ => rfl
    | tuple ys => exact .tuples (.tuples xs ys) fun _ => rfl
    | anyOf incoming => exact .branches (.right rfl) fun _ => rfl
    | _ => exact .apart fun _ => rfl
  | allOf parts =>
    cases l with
    | never | empty => exact .keep .left fun _ => rfl
    | anyOf incoming => exact .branches (.right rfl) fun _ => rfl
    | _ => exact .apart fun _ => rfl
  | const _ | enum _ _ | primitive _ =>
    cases l with
    | empty => exact .keep .left fun _ => rfl
    | anyOf incoming => exact .branches (.right rfl) fun _ => rfl
    | never | const _ | enum _ _ | primitive _ => exact hscalars rfl rfl
    | _ => exact .apart fun _ => rfl

section Sides

variable {a b : Schema} (h : Sides a b branches incoming)
include h

theorem Sides.tally_eq {count : Kind → ℕ} (hcount : Counts count) :
    Schema.tallyAll count branches + Schema.tallyAll count incoming =
      a.tally count + b.tally count := by
  have hunion : ∀ {schema : Schema} {branches : List Schema}, schema.kind = .anyOf branches →
      schema.tally count = Schema.tallyAll count branches := by
    intro schema branches hkind
    rw [Schema.tally_eq, hkind, hcount.union, Nat.zero_add]
    rfl
  cases h with
  | both ha hb => rw [hunion ha, hunion hb]
  | left ha => rw [hunion ha, Schema.tallyAll_singleton]
  | right hb => rw [hunion hb, Schema.tallyAll_singleton, Nat.add_comm]

theorem Sides.atoms_eq : Schema.atomsItems branches + Schema.atomsItems incoming =
    a.atoms + b.atoms := by
  rw [← Schema.tallyAll_ownAtoms, ← Schema.tallyAll_ownAtoms, h.tally_eq counts_ownAtoms,
    a.tally_ownAtoms, b.tally_ownAtoms]

theorem Sides.every (ha : a.Every q) (hb : b.Every q) :
    (∀ branch ∈ branches, branch.Every q) ∧ ∀ schema ∈ incoming, schema.Every q := by
  cases h with
  | both hka hkb => exact ⟨ha.parts_of_kind_eq hka, hb.parts_of_kind_eq hkb⟩
  | left hka => exact ⟨ha.parts_of_kind_eq hka, List.forall_mem_singleton.mpr hb⟩
  | right hkb => exact ⟨hb.parts_of_kind_eq hkb, List.forall_mem_singleton.mpr ha⟩

end Sides

/-! ### What is kept and counted -/

theorem Closed.every_ofBranches (hq : Closed q) (h : ∀ branch ∈ branches, branch.Every q) :
    (ofBranches branches).Every q := by
  unfold ofBranches
  split
  · exact h _ (List.mem_singleton_self _)
  · exact .intro (hq.union branches) h

theorem Closed.every_apart (hq : Closed q) {a b : Schema} (ha : a.Every q) (hb : b.Every q) :
    (Schema.ofKind (.anyOf [a, b])).Every q :=
  .intro (hq.union [a, b]) (List.forall_mem_cons.mpr ⟨ha, List.forall_mem_singleton.mpr hb⟩)

theorem Counts.tally_ofBranches {count : Kind → ℕ} (hcount : Counts count) (branches : List Schema) :
    (ofBranches branches).tally count = Schema.tallyAll count branches := by
  unfold ofBranches
  split
  · exact (Schema.tallyAll_singleton _).symm
  · rw [Schema.tally_eq, Schema.ofKind, hcount.union, Nat.zero_add]
    rfl

theorem Counts.tally_apart {count : Kind → ℕ} (hcount : Counts count) (a b : Schema) :
    (Schema.ofKind (.anyOf [a, b])).tally count = a.tally count + b.tally count := by
  rw [Schema.tally_eq, Schema.ofKind, hcount.union, Nat.zero_add, Kind.parts, Schema.tallyAll_cons,
    Schema.tallyAll_singleton]

/-- What merging keeps and counts: `q` at every depth, and `count`, of which there is no more than
before.  The statement is made with `T`, for schemas in which no more than `bound` is counted. -/
def Thrifty (T : ∀ {α : Type}, (α → Prop) → Unifying α → Prop) (q : Schema → Prop)
    (count : Kind → ℕ) (bound : ℕ) (merge : Schema → Schema → Unifying Schema) : Prop :=
  ∀ a b : Schema, a.Every q → b.Every q → a.tally count + b.tally count ≤ bound →
    T (fun m => m.Every q ∧ m.tally count ≤ a.tally count + b.tally count) (merge a b)

/-- What is needed of a way to speak of computations, of a property and of what is counted, to
speak of all that merging does. -/
structure Accounting (T : ∀ {α : Type}, (α → Prop) → Unifying α → Prop) (q : Schema → Prop)
    (count : Kind → ℕ) (bound : ℕ) : Prop where
  judgement : Unifying.Judgement T
  closed : Closed q
  counts : Counts count
  wraps : ∀ x y, T (fun m => ∃ name, m = Schema.registered name) (wrapReferences x y)
  clash : ∀ a b : Schema, Clash a.kind b.kind → a.tally count + b.tally count ≤ bound →
    T (fun _ => False) (throw .tuples : Unifying Schema)

namespace Accounting

variable {T : ∀ {α : Type}, (α → Prop) → Unifying α → Prop} {count : Kind → ℕ} {bound : ℕ}
  {merge : Schema → Schema → Unifying Schema} (h : Accounting T q count bound)
include h

theorem joinBranches (hmerge : Thrifty T q count bound merge)
    (hincoming : ∀ schema ∈ incoming, schema.Every q)
    (hbranches : ∀ branch ∈ branches, branch.Every q)
    (hbound : Schema.tallyAll count branches + Schema.tallyAll count incoming ≤ bound) :
    T (fun m => m.Every q ∧
        m.tally count ≤ Schema.tallyAll count branches + Schema.tallyAll count incoming)
      (Union.joinBranches merge branches incoming) := by
  have hfold : T (fun joined => (∀ branch ∈ joined, branch.Every q) ∧ Schema.tallyAll count joined ≤
        Schema.tallyAll count branches + Schema.tallyAll count incoming)
      (incoming.foldlM (fun branches schema => joinBranch merge schema branches) branches) := by
    -- What comes in is counted once: it joins a branch, or it becomes a branch of its own.
    induction incoming generalizing branches with
    | nil => exact h.judgement.pure ⟨hbranches, Nat.le_add_right _ _⟩
    | cons schema rest ih =>
      obtain ⟨hschema, hrest⟩ := List.forall_mem_cons.mp hincoming
      rw [Schema.tallyAll_cons] at hbound ⊢
      rw [List.foldlM_cons]
      refine h.judgement.bind (h.judgement.joinBranch (r := fun a b m => m.Every q ∧
        m.tally count ≤ a.tally count + b.tally count) fun branch hbranch _ => ?_)
        fun joined hjoined => ?_
      · have hle : branch.tally count ≤ _ := Schema.tally_le_tallyAll hbranch
        exact hmerge branch schema (hbranches branch hbranch) hschema (by omega)
      · have hle : Schema.tallyAll count joined ≤ Schema.tallyAll count branches + schema.tally count :=
          hjoined.sum_le fun _ _ _ hm => hm.2
        refine h.judgement.mono (ih hrest (hjoined.forall_mem hbranches hschema
          fun _ _ _ _ _ hm => hm.1) (by omega)) fun all hall => ⟨hall.1, ?_⟩
        have hle' := hall.2
        omega
  refine h.judgement.bind hfold fun joined hjoined => h.judgement.pure ?_
  rw [h.counts.tally_ofBranches]
  exact ⟨h.closed.every_ofBranches hjoined.1, hjoined.2⟩

/-- One schema in the place of two keeps and counts what its parts keep and count. -/
theorem every_joined {a b : Schema} {kind : Kind} (ha : a.Every q) (hb : b.Every q)
    (hmerges : Merges a.kind b.kind kind)
    (hmaps : ∀ fields ∈ kind.maps, (Fields.keys fields).Nodup)
    (hparts : ∀ part ∈ kind.parts, part.Every q)
    (htally : Schema.tallyAll count kind.parts ≤
      Schema.tallyAll count a.kind.parts + Schema.tallyAll count b.kind.parts) :
    (a.joined b (a.agreedExtra b) kind).Every q ∧
      (a.joined b (a.agreedExtra b) kind).tally count ≤ a.tally count + b.tally count := by
  refine ⟨.intro (h.closed.joined a b kind ha.own hb.own hmerges hmaps) hparts, ?_⟩
  have hown := h.counts.merges _ _ _ hmerges
  rw [Schema.tally_joined, a.tally_eq, b.tally_eq]
  omega

/-- **A union keeps and counts** what the merges of parts keep and count. -/
theorem combine (hmerge : Thrifty T q count bound merge) :
    Thrifty T q count bound (Union.combine merge) := by
  intro a b ha hb hbound
  have hT := h.judgement
  have hnames := h.closed.namesApart a ha.own
  have hnames' := h.closed.namesApart b hb.own
  cases course hnames hnames' with
  | @keep kind hkeeps heq =>
    have hmaps : ∀ fields ∈ kind.maps, (Fields.keys fields).Nodup := fun fields hmem =>
      (List.mem_append.mp (hkeeps.maps_subset hmem)).elim (hnames.maps fields) (hnames'.maps fields)
    rw [heq]
    exact hT.pure (h.every_joined ha hb (.keep hkeeps) hmaps
      (hkeeps.forall_parts ha.parts hb.parts) hkeeps.tallyAll_le)
  | apart heq =>
    rw [heq]
    exact hT.pure ⟨h.closed.every_apart ha hb, Nat.le_of_eq (h.counts.tally_apart a b)⟩
  | branches hsides heq =>
    obtain ⟨hbranches, hincoming⟩ := hsides.every ha hb
    rw [← hsides.tally_eq h.counts] at hbound ⊢
    rw [heq]
    exact h.joinBranches hmerge hincoming hbranches hbound
  | @references x y hka hkb heq =>
    rw [heq]
    refine hT.mono (h.wraps x y) ?_
    rintro _ ⟨name, rfl⟩
    refine ⟨.intro (h.closed.registered name) (List.forall_mem_nil _), ?_⟩
    have hcount := h.counts.refs x y (Reference.toComponent name)
    rw [a.tally_eq, b.tally_eq, hka, hkb]
    exact Nat.le_trans hcount (Nat.add_le_add (Nat.le_add_right _ _) (Nat.le_add_right _ _))
  | @objects x y hka hkb heq =>
    have hmaps := hka ▸ hnames.maps
    have hmaps' := hkb ▸ hnames'.maps
    have hparts := ha.parts_of_kind_eq hka
    have hparts' := hb.parts_of_kind_eq hkb
    -- The parts that are merged are among all that is counted.
    have hpart : ∀ s ∈ x.parts, ∀ t ∈ y.parts, T (fun m => m.Every q ∧
        m.tally count ≤ s.tally count + t.tally count) (merge s t) := by
      intro s hs t ht
      have hle : s.tally count ≤ a.tally count := Schema.tally_le_of_mem_parts (hka ▸ hs)
      have hle' : t.tally count ≤ b.tally count := Schema.tally_le_of_mem_parts (hkb ▸ ht)
      exact hmerge s t (hparts s hs) (hparts' t ht) (by omega)
    rw [heq]
    refine hT.bind (hT.objects hmaps hmaps' hpart) fun shape hshape => hT.pure ?_
    refine h.every_joined ha hb (hka ▸ hkb ▸ .objects x y shape) hshape.nodup_maps
      (hshape.forall_parts hparts hparts' fun _ _ _ _ _ hm => hm.1) ?_
    rw [hka, hkb]
    exact hshape.sum_le hmaps hmaps' fun _ _ _ hm => hm.2
  | @items x y hka hkb heq =>
    have hle : x.tally count ≤ a.tally count :=
      Schema.tally_le_of_mem_parts (hka ▸ List.mem_singleton_self x)
    have hle' : y.tally count ≤ b.tally count :=
      Schema.tally_le_of_mem_parts (hkb ▸ List.mem_singleton_self y)
    rw [heq]
    refine hT.bind (hmerge x y (ha.item hka) (hb.item hkb) (by omega)) fun item hitem => hT.pure ?_
    refine h.every_joined ha hb (hka ▸ hkb ▸ .items x y item)
      (List.forall_mem_nil _) (List.forall_mem_singleton.mpr hitem.1) ?_
    simp only [hka, hkb, Kind.parts, Schema.tallyAll_singleton]
    exact hitem.2
  | tuples hclash heq =>
    rw [heq]
    exact hT.mono (h.clash a b hclash hbound) fun _ hfalse => hfalse.elim

/-- **Unions keep and count**, at whatever depth they stop. -/
theorem uniteWithin (depth : Nat) : Thrifty T q count bound (Schema.uniteWithin depth) := by
  induction depth with
  | zero =>
    intro a b ha hb _
    exact h.judgement.pure ⟨h.closed.every_apart ha hb, Nat.le_of_eq (h.counts.tally_apart a b)⟩
  | succ depth ih =>
    intro a b ha hb hbound
    rw [Schema.uniteWithin]
    split
    · exact h.judgement.pure ⟨ha, Nat.le_add_right _ _⟩
    · exact h.combine ih a b ha hb hbound

/-- **The union of a list keeps and counts**, too. -/
theorem uniteAll {first : Schema} {rest : List Schema} (hfirst : first.Every q)
    (hrest : ∀ schema ∈ rest, schema.Every q)
    (hbound : first.tally count + Schema.tallyAll count rest ≤ bound) :
    T (fun m => m.Every q ∧ m.tally count ≤ first.tally count + Schema.tallyAll count rest)
      (Schema.uniteAll first rest) := by
  induction rest generalizing first with
  | nil => exact h.judgement.pure ⟨hfirst, Nat.le_add_right _ _⟩
  | cons next rest ih =>
    obtain ⟨hnext, hrest⟩ := List.forall_mem_cons.mp hrest
    rw [Schema.tallyAll_cons] at hbound ⊢
    refine h.judgement.bind (h.uniteWithin _ first next hfirst hnext (by omega)) fun merged hmerged => ?_
    have hle := hmerged.2
    refine h.judgement.mono (ih hmerged.1 hrest (by omega)) fun all hall => ⟨hall.1, ?_⟩
    have hle' := hall.2
    omega

end Accounting

/-! ### Frugal merges -/

/-- Results are accounted for, whatever fails. -/
theorem accounting_ensures (hq : Closed q) {count : Kind → ℕ} (hcount : Counts count) (bound : ℕ) :
    Accounting Unifying.Ensures q count bound where
  judgement := Unifying.judgement_ensures
  closed := hq
  counts := hcount
  wraps x y := by
    refine Unifying.Ensures.bind (p := fun _ => True) (fun _ _ _ _ => trivial) fun name _ =>
      .pure ⟨name, rfl⟩
  clash _ _ _ _ := .throw _

theorem ensures_joinBranch {merge : Schema → Schema → Unifying Schema} {schema : Schema}
    (hmerge : Frugal q merge) (hschema : schema.Every q)
    (hbranches : ∀ branch ∈ branches, branch.Every q) :
    (joinBranch merge schema branches).Ensures fun joined =>
      (∀ branch ∈ joined, branch.Every q) ∧
        Schema.atomsItems joined ≤ Schema.atomsItems branches + schema.atoms := by
  refine (Unifying.judgement_ensures.joinBranch (r := fun a b m => m.Every q ∧
    m.atoms ≤ a.atoms + b.atoms) fun branch hbranch _ =>
      hmerge branch schema (hbranches branch hbranch) hschema).mono fun joined hjoined => ?_
  rw [Schema.atomsItems_eq, Schema.atomsItems_eq]
  exact ⟨hjoined.forall_mem hbranches hschema fun _ _ _ _ _ hm => hm.1,
    hjoined.sum_le fun _ _ _ hm => hm.2⟩

end Union

/-- **Unions make no more atoms**, and keep what holds at every depth. -/
theorem Schema.frugal_uniteWithin {q : Schema → Prop} (hq : Union.Closed q) (depth : Nat) :
    Union.Frugal q (Schema.uniteWithin depth) := by
  intro a b ha hb
  have haccounting := Union.accounting_ensures hq Union.counts_ownAtoms (a.atoms + b.atoms)
  have hunite := haccounting.uniteWithin depth a b ha hb
  simp only [Schema.tally_ownAtoms] at hunite
  exact hunite (Nat.le_refl _)

end RpcSchema
