import RpcSchema.Proofs.Unification.NormalForm

/-!
# Collapsed unions of scalars

Collapsing a list of scalar schemas loses no value and admits no other.  Two scalars become
one when the wider one admits the narrower one or both spell their values out, and are
listed side by side otherwise.  A scalar that meets a union goes into the first branch of
its class, which may turn that branch into a union itself.

So unions of scalars to any depth are carried along, and every merge is exact: it accepts
what one of its operands accepts.

## Main definitions

* `Kind.isScalar`, `Kind.isScalarUnion` — the shapes that are collapsed here.
* `Schema.ScalarUnion` — a union of scalars, to any depth.
* `Kind.Keeps` — a shape is one of two, or lists the values of both.
* `Kind.Spans` — a scalar shape stands for two.
* `Schema.Joins` — a union of scalars accepts what one of two schemas accepts.

## Main results

* `Union.combine_scalars` — two scalars become one, or stand side by side.
* `Schema.exact_uniteWithin` — every merge is exact.
* `combine_any_accepts` — so is the union of a list of scalars.
-/

namespace RpcSchema

/-! ### Scalars -/

/-- Whether the shape is a scalar: some values that are spelled out, a primitive type, or
no value at all. -/
def Kind.isScalar : Kind → Bool
  | .const _ | .enum _ _ | .primitive _ | .never => true
  | _ => false

/-- Whether the shape is a scalar or a union. -/
def Kind.isScalarUnion : Kind → Bool
  | .anyOf _ => true
  | kind => kind.isScalar

/-- The schema is made of scalars by unions, and its maps have distinct names. -/
def Schema.ScalarUnion (schema : Schema) : Prop :=
  schema.Every fun schema => schema.NamesApart ∧ schema.kind.isScalarUnion = true

/-- Whether the shape spells its values out. -/
def Kind.isLiteral : Kind → Bool
  | .const _ | .enum _ _ => true
  | _ => false

variable {ρ : Interpretation} {value : Json}

/-- A shape that spells its values out accepts these. -/
theorem Kind.accepts_literal_iff {kind : Kind} (h : kind.isLiteral = true) :
    kind.Accepts ρ value ↔ kind.literals.contains value = true := by
  cases kind with
  | const constant =>
    rw [Kind.accepts_const_iff, Kind.literals, List.contains_cons, List.contains_nil,
      Bool.or_false]
  | enum type values => exact Kind.accepts_enum_iff
  | _ => cases h

/-- The third shape is one of the other two, or it lists the values that both spell out. -/
inductive Kind.Keeps : Kind → Kind → Kind → Prop
  | left {k l : Kind} : Keeps k l k
  | right {k l : Kind} : Keeps k l l
  | literals {k l : Kind} (hk : k.isLiteral = true) (hl : l.isLiteral = true) :
      Keeps k l (.enumOf (unionOf k.literals l.literals))

namespace Kind.Keeps

variable {k l kind : Kind} (h : Keeps k l kind)
include h

theorem literals_subset : kind.literals ⊆ k.literals ++ l.literals := by
  cases h with
  | left => exact List.subset_append_left _ _
  | right => exact List.subset_append_right _ _
  | literals _ _ => exact fun value hvalue => List.mem_append.mpr (mem_of_mem_unionOf hvalue)

theorem maps_subset : kind.maps ⊆ k.maps ++ l.maps := by
  cases h with
  | left => exact List.subset_append_left _ _
  | right => exact List.subset_append_right _ _
  | literals _ _ => exact List.nil_subset _

theorem parts_subset : kind.parts ⊆ k.parts ++ l.parts := by
  cases h with
  | left => exact List.subset_append_left _ _
  | right => exact List.subset_append_right _ _
  | literals _ _ => exact List.nil_subset _

end Kind.Keeps

/-- The third shape stands for the other two: the wider one of them, or the values that
both spell out. -/
inductive Kind.Spans : Kind → Kind → Kind → Prop
  | left {k l : Kind} (h : l.Narrower k) : Spans k l k
  | right {k l : Kind} (h : k.Narrower l) : Spans k l l
  | literals {k l : Kind} (hk : k.isLiteral = true) (hl : l.isLiteral = true) :
      Spans k l (.enumOf (unionOf k.literals l.literals))

namespace Kind.Spans

variable {k l kind : Kind}

theorem isScalarUnion (h : Spans k l kind) (hk : k.isScalarUnion = true)
    (hl : l.isScalarUnion = true) : kind.isScalarUnion = true := by
  cases h with
  | left _ => exact hk
  | right _ => exact hl
  | literals _ _ => rfl

theorem keeps (h : Spans k l kind) : Keeps k l kind := by
  cases h with
  | left _ => exact .left
  | right _ => exact .right
  | literals hk hl => exact .literals hk hl

theorem accepts_iff (h : Spans k l kind) :
    kind.Accepts ρ value ↔ k.Accepts ρ value ∨ l.Accepts ρ value := by
  cases h with
  | left hnarrower => exact ⟨Or.inl, fun h => h.elim id (hnarrower.within value)⟩
  | right hnarrower => exact ⟨Or.inr, fun h => h.elim (hnarrower.within value) id⟩
  | literals hk hl =>
    rw [Kind.accepts_literal_iff hk, Kind.accepts_literal_iff hl]
    exact Kind.accepts_enum_iff.trans Json.contains_unionOf

end Kind.Spans

/-! ### Exact merges -/

/-- A union of scalars accepts what one of two schemas accepts. -/
structure Schema.Joins (m a b : Schema) : Prop where
  scalarUnion : m.ScalarUnion
  accepts_iff : ∀ (ρ : Interpretation) (value : Json), value.DistinctNames →
    (m.Accepts ρ value ↔ a.Accepts ρ value ∨ b.Accepts ρ value)

/-- Unions of scalars are merged into unions of scalars, exactly. -/
def Union.Exact (merge : Schema → Schema → Unifying Schema) : Prop :=
  ∀ a b : Schema, a.ScalarUnion → b.ScalarUnion → ∃ m, merge a b = pure m ∧ m.Joins a b

variable {a b m : Schema} {merge : Schema → Schema → Unifying Schema}

theorem Schema.distinctNames_agreedExtra (ha : a.NamesApart) :
    (Json.object (a.agreedExtra b)).DistinctNames := by
  obtain ⟨hnames, hvalues⟩ := Json.everyObject_object_iff.mp ha.extra
  have hsublist : (a.agreedExtra b).Sublist a.extra := List.filter_sublist
  exact Json.everyObject_object_iff.mpr ⟨(hsublist.map Prod.fst).nodup hnames,
    fun name part hmem => hvalues name part (hsublist.mem hmem)⟩

theorem Kind.Keeps.namesApart {kind : Kind} (h : Kind.Keeps a.kind b.kind kind) (ha : a.NamesApart)
    (hb : b.NamesApart) : (a.joined b (a.agreedExtra b) kind).NamesApart where
  extra := Schema.distinctNames_agreedExtra ha
  literals value hvalue :=
    (List.mem_append.mp (h.literals_subset hvalue)).elim (ha.literals value) (hb.literals value)
  maps fields hfields :=
    (List.mem_append.mp (h.maps_subset hfields)).elim (ha.maps fields) (hb.maps fields)

/-- What holds of the parts of both schemas. -/
theorem Kind.Keeps.forall_parts {p : Schema → Prop} {k l kind : Kind} (h : Kind.Keeps k l kind)
    (hk : ∀ part ∈ k.parts, p part) (hl : ∀ part ∈ l.parts, p part) : ∀ part ∈ kind.parts, p part :=
  fun part hpart => (List.mem_append.mp (h.parts_subset hpart)).elim (hk part) (hl part)

/-- A shape that stands for those of two schemas makes an exact union of them. -/
theorem Kind.Spans.joins {kind : Kind} (h : Kind.Spans a.kind b.kind kind) (ha : a.ScalarUnion)
    (hb : b.ScalarUnion) : (a.joined b (a.agreedExtra b) kind).Joins a b := by
  have hkind := h.isScalarUnion ha.own.2 hb.own.2
  have hnames := h.keeps.namesApart ha.own.1 hb.own.1
  exact ⟨.intro ⟨hnames, hkind⟩ (h.keeps.forall_parts ha.parts hb.parts),
    fun ρ value _ => h.accepts_iff⟩

/-- Schemas side by side are a union of scalars when each of them is one. -/
theorem Schema.ScalarUnion.anyOf {branches : List Schema}
    (h : ∀ branch ∈ branches, branch.ScalarUnion) :
    (Schema.ofKind (.anyOf branches)).ScalarUnion :=
  .intro ⟨.ofKind rfl rfl, rfl⟩ h

/-- Two schemas side by side are an exact union of both. -/
theorem Schema.joins_apart (ha : a.ScalarUnion) (hb : b.ScalarUnion) :
    (Schema.ofKind (.anyOf [a, b])).Joins a b := by
  refine ⟨.anyOf ?_, fun ρ value _ => ?_⟩
  · exact List.forall_mem_cons.mpr ⟨ha, List.forall_mem_singleton.mpr hb⟩
  · refine Kind.accepts_anyOf_iff.trans ?_
    simp only [List.mem_cons, List.not_mem_nil, or_false, exists_eq_or_imp, exists_eq_left]

/-- A type is within the type that it is widened to. -/
theorem Primitive.spans_widen? {p q type : Primitive} (h : p.widen? q = some type) :
    Kind.Spans (.primitive p) (.primitive q) (.primitive type) := by
  unfold Primitive.widen? at h
  split at h
  · obtain rfl := Option.some.inj h
    exact .right .integer
  · obtain rfl := Option.some.inj h
    exact .left .integer
  · split at h
    · next heq =>
      subst heq
      obtain rfl := Option.some.inj h
      exact .left (.primitive p)
    · cases h

/-- A primitive type is wider than what it admits all values of. -/
theorem Kind.narrower_of_admits {k : Kind} {p : Primitive} (hk : k.isLiteral = true)
    (h : k.literals.all p.admits = true) : k.Narrower (.primitive p) := by
  cases k with
  | const x => exact .constOfPrimitive (by simpa [Kind.literals] using h)
  | enum type xs => exact .enumOfPrimitive type h
  | _ => cases hk

/-- Values that are spelled out before a primitive type. -/
theorem Union.combine_literals_type {p : Primitive} (ha : a.kind.isLiteral = true)
    (hb : b.kind = .primitive p) :
    Union.combine merge a b = pure (if a.kind.literals.all p.admits then
      a.joined b (a.agreedExtra b) (.primitive p) else .ofKind (.anyOf [a, b])) := by
  obtain ⟨title, description, k, extra⟩ := a
  obtain ⟨title', description', l, extra'⟩ := b
  obtain rfl : l = .primitive p := hb
  cases k with
  | const x => simp only [Union.combine, Kind.literals, List.all_cons, List.all_nil, Bool.and_true]
  | enum type xs => rfl
  | _ => cases ha

/-- A primitive type before values that are spelled out. -/
theorem Union.combine_type_literals {p : Primitive} (ha : a.kind = .primitive p)
    (hb : b.kind.isLiteral = true) :
    Union.combine merge a b = pure (if b.kind.literals.all p.admits then
      a.joined b (a.agreedExtra b) (.primitive p) else .ofKind (.anyOf [a, b])) := by
  obtain ⟨title, description, k, extra⟩ := a
  obtain ⟨title', description', l, extra'⟩ := b
  obtain rfl : k = .primitive p := ha
  cases l with
  | const y => simp only [Union.combine, Kind.literals, List.all_cons, List.all_nil, Bool.and_true]
  | enum type ys => rfl
  | _ => cases hb

/-- Two constants that differ are listed both. -/
private theorem unionOf_singletons {x y : Json} (hy : y.DistinctNames) (hxy : ¬(x == y) = true) :
    unionOf [x] [y] = [x, y] := by
  have hyx : ¬([x] : List Json).contains y = true := by
    rw [List.contains_cons, List.contains_nil, Bool.or_false]
    exact fun hyx => hxy (Json.beq_symm hy hyx)
  rw [unionOf_cons, unionOf_nil, appendNew, if_neg hyx, List.singleton_append]

/-- **Two scalars become one**, or they stand side by side.  Nothing is merged below them. -/
theorem Union.combine_scalars (ha : a.kind.isScalar = true) (hb : b.kind.isScalar = true)
    (hnames : a.NamesApart) (hnames' : b.NamesApart) :
    (∃ kind, Kind.Spans a.kind b.kind kind ∧
      ∀ merge, Union.combine merge a b = pure (a.joined b (a.agreedExtra b) kind)) ∨
    ∀ merge, Union.combine merge a b = pure (.ofKind (.anyOf [a, b])) := by
  -- A type beside values that are spelled out stands for them if it admits all of them.
  have hadmitted : ∀ {admitted : Bool} {kind : Kind},
      (admitted = true → Kind.Spans a.kind b.kind kind) →
      (∀ merge, Union.combine merge a b = pure (if admitted then
        a.joined b (a.agreedExtra b) kind else .ofKind (.anyOf [a, b]))) →
      (∃ kind, Kind.Spans a.kind b.kind kind ∧
        ∀ merge, Union.combine merge a b = pure (a.joined b (a.agreedExtra b) kind)) ∨
      ∀ merge, Union.combine merge a b = pure (.ofKind (.anyOf [a, b])) := by
    intro admitted kind hspans heq
    cases admitted with
    | true => exact .inl ⟨kind, hspans rfl, heq⟩
    | false => exact .inr heq
  obtain ⟨title, description, k, extra⟩ := a
  obtain ⟨title', description', l, extra'⟩ := b
  cases k with
  | never => exact .inl ⟨l, .right (.never l), fun _ => rfl⟩
  | const x =>
    cases l with
    | never => exact .inl ⟨_, .left (.never _), fun _ => rfl⟩
    | const y =>
      by_cases hxy : (x == y) = true
      · have hyx := Json.beq_symm (hnames.literals x (List.mem_singleton_self _)) hxy
        refine .inl ⟨.const x, .left (.const hyx), fun _ => ?_⟩
        simp only [Union.combine, hxy, if_true]
      · have hunion := unionOf_singletons (hnames'.literals y (List.mem_singleton_self _)) hxy
        refine .inl ⟨_, .literals rfl rfl, fun _ => ?_⟩
        simp only [Union.combine, hxy, Kind.literals, hunion]
        rfl
    | enum q ys => exact .inl ⟨_, .literals rfl rfl, fun _ => rfl⟩
    | primitive q =>
      exact hadmitted (fun h => .right (Kind.narrower_of_admits rfl h)) fun _ =>
        Union.combine_literals_type rfl rfl
    | _ => cases hb
  | enum p xs =>
    cases l with
    | never => exact .inl ⟨_, .left (.never _), fun _ => rfl⟩
    | const _ | enum _ _ => exact .inl ⟨_, .literals rfl rfl, fun _ => rfl⟩
    | primitive q =>
      exact hadmitted (fun h => .right (Kind.narrower_of_admits rfl h)) fun _ =>
        Union.combine_literals_type rfl rfl
    | _ => cases hb
  | primitive p =>
    cases l with
    | never => exact .inl ⟨_, .left (.never _), fun _ => rfl⟩
    | const _ | enum _ _ =>
      exact hadmitted (fun h => .left (Kind.narrower_of_admits rfl h)) fun _ =>
        Union.combine_type_literals rfl rfl
    | primitive q =>
      cases hwiden : p.widen? q with
      | some type =>
        refine .inl ⟨_, Primitive.spans_widen? hwiden, fun _ => ?_⟩
        simp only [Union.combine, hwiden]
      | none =>
        refine .inr fun _ => ?_
        simp only [Union.combine, hwiden]
    | _ => cases hb
  | _ => cases ha

/-! ### Merging into branches -/

/-- Branches that accept what other branches or a further schema accept, and are unions of
scalars as they are. -/
structure Schema.Joined (joined branches incoming : List Schema) : Prop where
  scalarUnion : ∀ branch ∈ joined, branch.ScalarUnion
  accepts_iff : ∀ (ρ : Interpretation) (value : Json), value.DistinctNames →
    ((∃ branch ∈ joined, branch.Accepts ρ value) ↔
      (∃ branch ∈ branches, branch.Accepts ρ value) ∨
        ∃ schema ∈ incoming, schema.Accepts ρ value)

namespace Union

variable {branches incoming : List Schema} {schema : Schema}

/-- A schema joins the first branch of its class, or becomes a branch. -/
theorem exists_joinBranch (hmerge : Exact merge) (hschema : schema.ScalarUnion)
    (hbranches : ∀ branch ∈ branches, branch.ScalarUnion) :
    ∃ joined, joinBranch merge schema branches = pure joined ∧
      Schema.Joined joined branches [schema] := by
  induction branches with
  | nil =>
    refine ⟨[schema], rfl, List.forall_mem_singleton.mpr hschema, fun ρ value _ => ?_⟩
    simp only [List.not_mem_nil, false_and, exists_false, false_or]
  | cons branch rest ih =>
    obtain ⟨hbranch, hrest⟩ := List.forall_mem_cons.mp hbranches
    rw [joinBranch]
    split
    · obtain ⟨m, hm, hjoins⟩ := hmerge branch schema hbranch hschema
      refine ⟨m :: rest, by rw [hm, pure_bind],
        List.forall_mem_cons.mpr ⟨hjoins.scalarUnion, hrest⟩, fun ρ value hvalue => ?_⟩
      simp only [List.exists_mem_cons_iff, hjoins.accepts_iff ρ value hvalue,
        List.not_mem_nil, false_and, exists_false, or_false]
      exact or_right_comm
    · obtain ⟨joined, hjoined, hspec⟩ := ih hrest
      refine ⟨branch :: joined, by rw [hjoined, pure_bind],
        List.forall_mem_cons.mpr ⟨hbranch, hspec.scalarUnion⟩, fun ρ value hvalue => ?_⟩
      simp only [List.exists_mem_cons_iff, hspec.accepts_iff ρ value hvalue, or_assoc]

/-- A lone branch stands for itself. -/
theorem accepts_ofBranches_iff :
    (ofBranches branches).Accepts ρ value ↔ ∃ branch ∈ branches, branch.Accepts ρ value := by
  unfold ofBranches
  split
  · simp only [List.mem_singleton, exists_eq_left]
  · exact Kind.accepts_anyOf_iff

theorem scalarUnion_ofBranches (h : ∀ branch ∈ branches, branch.ScalarUnion) :
    (ofBranches branches).ScalarUnion := by
  unfold ofBranches
  split
  · exact h _ (List.mem_singleton_self _)
  · exact .anyOf h

/-- Schemas join the branches one after the other. -/
theorem exists_joinBranches (hmerge : Exact merge)
    (hincoming : ∀ schema ∈ incoming, schema.ScalarUnion)
    (hbranches : ∀ branch ∈ branches, branch.ScalarUnion) :
    ∃ m, joinBranches merge branches incoming = pure m ∧ m.ScalarUnion ∧
      ∀ (ρ : Interpretation) (value : Json), value.DistinctNames → (m.Accepts ρ value ↔
        (∃ branch ∈ branches, branch.Accepts ρ value) ∨
          ∃ schema ∈ incoming, schema.Accepts ρ value) := by
  have hfold : ∃ joined, incoming.foldlM (fun branches schema => joinBranch merge schema branches)
      branches = pure joined ∧ Schema.Joined joined branches incoming := by
    induction incoming generalizing branches with
    | nil =>
      refine ⟨branches, rfl, hbranches, fun ρ value _ => ?_⟩
      simp only [List.not_mem_nil, false_and, exists_false, or_false]
    | cons schema rest ih =>
      obtain ⟨hschema, hrest⟩ := List.forall_mem_cons.mp hincoming
      obtain ⟨joined, hjoined, hspec⟩ := exists_joinBranch hmerge hschema hbranches
      obtain ⟨all, hall, hspec'⟩ := ih hrest hspec.scalarUnion
      refine ⟨all, by rw [List.foldlM_cons, hjoined, pure_bind, hall], hspec'.scalarUnion,
        fun ρ value hvalue => ?_⟩
      rw [hspec'.accepts_iff ρ value hvalue, hspec.accepts_iff ρ value hvalue]
      simp only [List.exists_mem_cons_iff, List.not_mem_nil, false_and, exists_false, or_false,
        or_assoc]
  obtain ⟨joined, hjoined, hspec⟩ := hfold
  refine ⟨ofBranches joined, by rw [joinBranches, hjoined, pure_bind],
    scalarUnion_ofBranches hspec.scalarUnion, fun ρ value hvalue => ?_⟩
  rw [accepts_ofBranches_iff, hspec.accepts_iff ρ value hvalue]

/-- Every merge of unions of scalars is exact, if the merges of their branches are. -/
theorem exists_combine (hmerge : Exact merge) (ha : a.ScalarUnion) (hb : b.ScalarUnion) :
    ∃ m, combine merge a b = pure m ∧ m.Joins a b := by
  have hscalars : a.kind.isScalar = true → b.kind.isScalar = true →
      ∃ m, combine merge a b = pure m ∧ m.Joins a b := by
    intro hk hl
    rcases combine_scalars hk hl ha.own.1 hb.own.1 with ⟨kind, hspans, heq⟩ | heq
    · exact ⟨_, heq merge, hspans.joins ha hb⟩
    · exact ⟨_, heq merge, Schema.joins_apart ha hb⟩
  have hbranches : ∀ {branches incoming : List Schema},
      (∀ branch ∈ branches, branch.ScalarUnion) → (∀ schema ∈ incoming, schema.ScalarUnion) →
      (∀ (ρ : Interpretation) (value : Json),
        (∃ branch ∈ branches, branch.Accepts ρ value) ∨ (∃ schema ∈ incoming, schema.Accepts ρ value)
          ↔ a.Accepts ρ value ∨ b.Accepts ρ value) →
      ∃ m, joinBranches merge branches incoming = pure m ∧ m.Joins a b := by
    intro branches incoming hleft hright hsides
    obtain ⟨m, hm, hunion, haccepts⟩ := exists_joinBranches hmerge hright hleft
    exact ⟨m, hm, hunion, fun ρ value hvalue => (haccepts ρ value hvalue).trans (hsides ρ value)⟩
  obtain ⟨title, description, k, extra⟩ := a
  obtain ⟨title', description', l, extra'⟩ := b
  have hlone : ∀ {schema : Schema} {ρ : Interpretation} {value : Json},
      (∃ other ∈ [schema], other.Accepts ρ value) ↔ schema.Accepts ρ value := by
    intro schema ρ value
    simp only [List.mem_singleton, exists_eq_left]
  -- A union takes the other side in, branch by branch; what is no union is a scalar.
  cases k with
  | never => exact ⟨_, rfl, Kind.Spans.joins (.right (.never l)) ha hb⟩
  | anyOf branches =>
    cases l with
    | never => exact ⟨_, rfl, Kind.Spans.joins (.left (.never _)) ha hb⟩
    | anyOf incoming =>
      exact hbranches ha.parts hb.parts fun ρ value =>
        or_congr Kind.accepts_anyOf_iff.symm Kind.accepts_anyOf_iff.symm
    | const _ | enum _ _ | primitive _ =>
      exact hbranches ha.parts (List.forall_mem_singleton.mpr hb) fun ρ value =>
        or_congr Kind.accepts_anyOf_iff.symm hlone
    | _ => cases hb.own.2
  | const _ | enum _ _ | primitive _ =>
    cases l with
    | anyOf incoming =>
      exact hbranches hb.parts (List.forall_mem_singleton.mpr ha) fun ρ value =>
        or_comm.trans (or_congr hlone Kind.accepts_anyOf_iff.symm)
    | never | const _ | enum _ _ | primitive _ => exact hscalars rfl rfl
    | _ => cases hb.own.2
  | _ => cases ha.own.2

end Union

/-! ### Lists of scalars -/

namespace Schema

/-- **Every merge of unions of scalars is exact**, at whatever depth it stops. -/
theorem exact_uniteWithin (depth : Nat) : Union.Exact (uniteWithin depth) := by
  induction depth with
  | zero => exact fun a b ha hb => ⟨_, rfl, joins_apart ha hb⟩
  | succ depth ih =>
    intro a b ha hb
    rw [uniteWithin]
    split
    · next heq =>
      have hnames : a.DistinctNames := ha.mono fun _ h => h.1
      refine ⟨a, rfl, ha, fun ρ value _ => ⟨Or.inl, fun h => h.elim id fun hright => ?_⟩⟩
      exact hright.of_beq (hb.mono fun _ h => h.1) (beq_symm hnames heq)
    · exact Union.exists_combine ih ha hb

/-- The union of a list is exact, whatever the number and order of the schemas. -/
theorem exists_uniteAll {first : Schema} {rest : List Schema} (hfirst : first.ScalarUnion)
    (hrest : ∀ schema ∈ rest, schema.ScalarUnion) :
    ∃ m, uniteAll first rest = pure m ∧ m.ScalarUnion ∧
      ∀ (ρ : Interpretation) (value : Json), value.DistinctNames →
        (m.Accepts ρ value ↔ ∃ schema ∈ first :: rest, schema.Accepts ρ value) := by
  induction rest generalizing first with
  | nil =>
    refine ⟨first, rfl, hfirst, fun ρ value _ => ?_⟩
    simp only [List.mem_singleton, exists_eq_left]
  | cons next rest ih =>
    obtain ⟨hnext, hrest⟩ := List.forall_mem_cons.mp hrest
    obtain ⟨merged, hmerged, hjoins⟩ := exact_uniteWithin _ first next hfirst hnext
    obtain ⟨m, hm, hunion, haccepts⟩ := ih hjoins.scalarUnion hrest
    refine ⟨m, ?_, hunion, fun ρ value hvalue => ?_⟩
    · rw [uniteAll, List.foldlM_cons, unite, hmerged, pure_bind]
      exact hm
    · rw [haccepts ρ value hvalue]
      simp only [List.exists_mem_cons_iff, hjoins.accepts_iff ρ value hvalue, or_assoc]

/-- Schemas that are no acknowledgments and have nothing to work out are all payloads, as they
stand. -/
theorem unifyPayloads_eq_pure {preserveUnions : Bool} {schemas : List Schema}
    (hpayload : ∀ schema ∈ schemas, schema.isAcknowledgment = false)
    (hunify : ∀ schema ∈ schemas, schema.unify preserveUnions = pure schema) :
    unifyPayloads preserveUnions schemas = pure schemas := by
  rw [unifyPayloads_eq_unifyItems hpayload, unifyItems_eq_pure hunify]

theorem unify_of_isScalar {schema : Schema} (preserveUnions : Bool)
    (h : schema.kind.isScalar = true) : schema.unify preserveUnions = pure schema := by
  obtain ⟨title, description, kind, extra⟩ := schema
  cases kind with
  | const _ | enum _ _ | primitive _ | never => rfl
  | _ => cases h

end Schema

/-- **The union of a list of scalars succeeds and is exact**: it registers nothing, it is
made of scalars by unions, and it accepts what one of the scalars accepts. -/
theorem combine_any_accepts {schemas : List Schema} (preserveUnions : Bool) (registry : Registry)
    (hne : schemas ≠ []) (hnames : ∀ schema ∈ schemas, schema.DistinctNames)
    (hscalar : ∀ schema ∈ schemas, schema.kind.isScalar = true)
    (hpayload : ∀ schema ∈ schemas, schema.isAcknowledgment = false) :
    ∃ merged, (combine preserveUnions .any schemas).run.run registry = (.ok merged, registry) ∧
      (merged.Every fun schema => schema.kind.isScalarUnion = true) ∧
        ∀ (ρ : Interpretation) (value : Json), value.DistinctNames →
          (merged.Accepts ρ value ↔ ∃ schema ∈ schemas, schema.Accepts ρ value) := by
  have hunions : ∀ schema ∈ schemas, schema.ScalarUnion := by
    intro schema hmem
    have hkind := hscalar schema hmem
    obtain ⟨title, description, kind, extra⟩ := schema
    cases kind with
    | const _ | enum _ _ | primitive _ | never =>
      exact .intro ⟨(hnames _ hmem).own, rfl⟩ fun _ hpart => absurd hpart List.not_mem_nil
    | _ => cases hkind
  have hunified := Schema.unifyPayloads_eq_pure hpayload fun schema hmem =>
    Schema.unify_of_isScalar preserveUnions (hscalar schema hmem)
  cases schemas with
  | nil => exact absurd rfl hne
  | cons first rest =>
    obtain ⟨hfirst, hrest⟩ := List.forall_mem_cons.mp hunions
    obtain ⟨m, hm, hunion, haccepts⟩ := Schema.exists_uniteAll hfirst hrest
    refine ⟨m, ?_, hunion.mono fun _ h => h.2, haccepts⟩
    rw [combine, hunified, pure_bind, unitePayloads, hm]
    rfl

/-- A mixed enumeration stands beside the strings; the integer and the later word join
branches of theirs. -/
theorem combine_any_accepts_mixed :
    ∃ merged, (combine false .any [.ofKind (.enum none [.string "a", .number (.int 1)]),
        .ofKind (.primitive .string), .ofKind (.const (.number (.int 2))), .ofKind .never,
        .ofKind (.primitive .integer), .ofKind (.const (.string "b"))]).run.run ⟨[], []⟩ =
          (.ok merged, ⟨[], []⟩) ∧
      (merged.Every fun schema => schema.kind.isScalarUnion = true) ∧
        ∀ (ρ : Interpretation) (value : Json), value.DistinctNames →
          (merged.Accepts ρ value ↔
            ∃ schema ∈ [.ofKind (.enum none [.string "a", .number (.int 1)]),
              .ofKind (.primitive .string), .ofKind (.const (.number (.int 2))), .ofKind .never,
              .ofKind (.primitive .integer), .ofKind (.const (.string "b"))],
              Schema.Accepts ρ schema value) :=
  combine_any_accepts false ⟨[], []⟩ (List.cons_ne_nil _ _) (by decide) (by decide) (by decide)

end RpcSchema
