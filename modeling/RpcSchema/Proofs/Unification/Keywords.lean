import RpcSchema.Proofs.Outcome
import RpcSchema.Proofs.Unification.Elimination

/-!
# What intersections do with kept keywords

Where the shapes of two schemas meet, their intersection has the kept keywords of both, and of the
keywords that both have, the later value.  A union is taken apart instead, and each of its branches
meets the other schema.  So a keyword is found in the intersection, or in each of its branches, if
that is a union; and its value comes from the last operand that has it, where a union has what its
branches have.

Two things lose keywords.  No value at all is a schema that absorbs unions, with the keywords that
only their branches have.  And a union that is taken apart leaves behind what it has itself; nothing
is said here about the keywords of such a union.

## Main definitions

* `Schema.Carries` — a keyword is found in a schema or in each of its branches, at any depth.
* `Schema.Mentions` — a value of a keyword in a schema or in one of its branches.
* `Schema.TakenApart`, `Schema.Loses` — the intersections that lose a keyword.
* `Schema.Undisturbed` — none of them happens to a keyword of an operand.

## Main results

* `Schema.Carries.intersectWithin`, `Schema.carries_intersectWithin` — one intersection.
* `Schema.carries_intersectAll` — a list of schemas.
* `Schema.combine_all_carries` — the combination of schemas.
* `Schema.combine_all_get?` — without unions the last value stands.
* `Schema.not_keepsFlat_format` — with unions the branches need not have it.
-/

namespace RpcSchema

/-! ### Where a keyword is found -/

/-- Whether the shape says which values there are, some of them at least. -/
def Kind.HasShape (kind : Kind) : Prop := kind ≠ .empty ∧ kind ≠ .never

theorem Kind.not_hasShape_iff {kind : Kind} : ¬kind.HasShape ↔ kind = .empty ∨ kind = .never := by
  rw [Kind.HasShape, not_and_or, not_ne_iff, not_ne_iff]

theorem Kind.hasShape_anyOf (branches : List Schema) : (Kind.anyOf branches).HasShape :=
  ⟨nofun, nofun⟩

namespace Schema

/-- The keyword is kept in the schema with a value that satisfies `p`.  If the schema does not have
the keyword itself it is a union of some branches, each of which carries it. -/
inductive Carries (key : String) (p : Json → Prop) : Schema → Prop
  | own {schema : Schema} {value : Json} (hvalue : Fields.get? schema.extra key = some value)
      (hp : p value) : Carries key p schema
  | branches {schema : Schema} {branches : List Schema}
      (hnone : Fields.get? schema.extra key = none) (hkind : schema.kind = .anyOf branches)
      (hne : branches ≠ []) (hall : ∀ branch ∈ branches, Carries key p branch) :
      Carries key p schema

/-- The keyword has the value in the schema or, if that is a union, in one of its branches at any
depth. -/
inductive Mentions (key : String) (value : Json) : Schema → Prop
  | own {schema : Schema} (hvalue : Fields.get? schema.extra key = some value) :
      Mentions key value schema
  | branch {schema branch : Schema} {branches : List Schema} (hkind : schema.kind = .anyOf branches)
      (hbranch : branch ∈ branches) (h : Mentions key value branch) : Mentions key value schema

/-- A union has the keyword itself: the schema or one of its branches at any depth. -/
inductive UnionHas (key : String) : Schema → Prop
  | own {schema : Schema} {branches : List Schema} {value : Json}
      (hkind : schema.kind = .anyOf branches)
      (hvalue : Fields.get? schema.extra key = some value) : UnionHas key schema
  | branch {schema branch : Schema} {branches : List Schema} (hkind : schema.kind = .anyOf branches)
      (hbranch : branch ∈ branches) (h : UnionHas key branch) : UnionHas key schema

/-- The second schema is a union, which its intersection with the first one takes apart. -/
def TakenApart (a b : Schema) : Prop :=
  (a == b) = false ∧ a.kind.HasShape ∧ ∃ branches, b.kind = .anyOf branches

/-- The intersection with the second schema may lose the keyword that the first one carries. -/
inductive Loses (key : String) (a b : Schema) : Prop
  /-- No value at all absorbs a union, and neither of the two has the keyword itself. -/
  | absorbed {branches : List Schema} (hkind : a.kind = .anyOf branches) (hnever : b.kind = .never)
      (ha : Fields.get? a.extra key = none) (hb : Fields.get? b.extra key = none)
  /-- A union that has the keyword itself is taken apart. -/
  | apart (hne : (a == b) = false) (hb : b.kind.HasShape) (h : a.UnionHas key)

/-- When a list is intersected, nothing takes the keyword away from one of the operands. -/
structure Undisturbed (key : String) (before : List Schema) (operand : Schema)
    (after : List Schema) : Prop where
  joined : ∀ a, intersectAll before = .ok a → ¬TakenApart a operand
  kept : ∀ done b rest, after = done ++ b :: rest →
    ∀ a, intersectAll (before ++ operand :: done) = .ok a → ¬Loses key a b

variable {key : String} {p q : Json → Prop} {schema : Schema}

theorem Carries.mono (h : schema.Carries key p) (hp : ∀ value, p value → q value) :
    schema.Carries key q := by
  induction h with
  | own hvalue hvalue' => exact .own hvalue (hp _ hvalue')
  | branches hnone hkind hne _ ih => exact .branches hnone hkind hne ih

theorem UnionHas.exists_branches (h : schema.UnionHas key) :
    ∃ branches, schema.kind = .anyOf branches := by
  cases h with
  | own hkind _ => exact ⟨_, hkind⟩
  | branch hkind _ _ => exact ⟨_, hkind⟩

end Schema

/-! ### One level -/

namespace Intersection

variable {merge : Schema → Schema → Except Conflict Schema} {a b m : Schema}
  {branches : List Schema}

/-- Where one of two schemas has no shape, nothing is taken apart; and if that is the second one
and not for want of values, the shape of the first one stands. -/
theorem combine_of_unshaped (hside : ¬(a.kind.HasShape ∧ b.kind.HasShape)) :
    ∃ kind, combine merge a b = .ok (a.joined b (a.sharedExtra b) kind) ∧
      (a.kind.HasShape → b.kind ≠ .never → kind = a.kind) := by
  unfold combine
  by_cases hshape : a.kind.HasShape
  · have hb : b.kind = .empty ∨ b.kind = .never :=
      Kind.not_hasShape_iff.mp fun hshape' => hside ⟨hshape, hshape'⟩
    rcases hb with hb | hb
    · rw [hb]
      refine ⟨a.kind, ?_, fun _ _ => rfl⟩
      cases hk : a.kind with
      | never => exact absurd hk hshape.2
      | _ => rfl
    · rw [hb]
      refine ⟨.never, ?_, fun _ hne => absurd rfl hne⟩
      cases a.kind <;> rfl
  · rcases Kind.not_hasShape_iff.mp hshape with ha | ha
    · refine ⟨b.kind, ?_, fun h => absurd h hshape⟩
      rw [ha]
      cases b.kind <;> rfl
    · refine ⟨.never, ?_, fun h => absurd h hshape⟩
      rw [ha]

/-- A union on the left is taken apart, if the other schema has a shape. -/
theorem combine_union_left (hkind : a.kind = .anyOf branches) (hshape : b.kind.HasShape) :
    combine merge a b = distribute (fun branch => merge branch b) b branches := by
  unfold combine
  rw [hkind]
  cases hb : b.kind with
  | empty => exact absurd hb hshape.1
  | never => exact absurd hb hshape.2
  | _ => rfl

end Intersection

namespace Schema

variable {key : String} {p : Json → Prop} {value : Json} {a b m : Schema} {depth : Nat}

theorem beq_self_of_extra (ha : a.DistinctNames) (hvalue : Fields.get? a.extra key = some value) :
    (value == value) = true :=
  Json.beq_self ((Json.everyObject_object_iff.mp ha.own.extra).2 key value
    (Fields.mem_of_get? hvalue))

theorem get?_sharedExtra (hb : b.DistinctNames) :
    Fields.get? (a.sharedExtra b) key = (Fields.get? b.extra key).or (Fields.get? a.extra key) :=
  Fields.get?_foldl_set hb.own.nodup_extra key

/-- Of two schemas whose shapes meet, the first one has the keyword or the second one. -/
theorem carries_joined (hb : b.DistinctNames) {kind : Kind}
    (hhas : (∃ value, Fields.get? a.extra key = some value ∧ p value) ∨
      ∃ value, Fields.get? b.extra key = some value) :
    (a.joined b (a.sharedExtra b) kind).Carries key fun value =>
      p value ∨ b.Mentions key value := by
  cases hvalue : Fields.get? b.extra key with
  | some value =>
    exact .own ((get?_sharedExtra hb).trans (by rw [hvalue]; rfl)) (.inr (.own hvalue))
  | none =>
    obtain ⟨value, ha, hp⟩ | ⟨value, hsome⟩ := hhas
    · exact .own ((get?_sharedExtra hb).trans (by rw [hvalue, ha]; rfl)) (.inl hp)
    · rw [hvalue] at hsome
      cases hsome

/-- What is left of a union carries a keyword, if what is left of each of its branches does. -/
theorem carries_distribute {merge : Schema → Except Conflict Schema} {branches : List Schema}
    (hempty : branches = [] → b.Carries key p)
    (hmerge : ∀ branch ∈ branches, ∀ part, merge branch = .ok part → part.Carries key p)
    (h : Intersection.distribute merge b branches = .ok m) : m.Carries key p := by
  rcases Intersection.distribute_cases h with ⟨hnil, rfl⟩ | ⟨branch, hbranch, hm⟩ |
    ⟨kept, rfl, -, -, hkept, hall⟩
  · exact hempty hnil
  · exact hmerge branch hbranch m hm
  · refine .branches rfl rfl hkept fun part hpart => ?_
    obtain ⟨branch, hbranch, hm⟩ := hall part hpart
    exact hmerge branch hbranch part hm

/-- Where one of two schemas has no shape. -/
theorem Carries.combine_of_unshaped {merge : Schema → Schema → Except Conflict Schema}
    (ha : a.Carries key p) (hb : b.DistinctNames) (hkept : ¬Loses key a b)
    (hside : ¬(a.kind.HasShape ∧ b.kind.HasShape)) (h : Intersection.combine merge a b = .ok m) :
    m.Carries key fun value => p value ∨ b.Mentions key value := by
  obtain ⟨kind, hok, hkind⟩ := Intersection.combine_of_unshaped hside
  obtain rfl := Except.ok.inj (hok.symm.trans h)
  cases ha with
  | own hvalue hp => exact carries_joined hb (.inl ⟨_, hvalue, hp⟩)
  | @branches _ branches hnone hbranches hnonempty hall =>
    cases hvalue : Fields.get? b.extra key with
    | some value => exact carries_joined hb (.inr ⟨value, hvalue⟩)
    | none =>
      -- Only the branches have the keyword, and they are all kept.
      have hshape : a.kind.HasShape := hbranches ▸ Kind.hasShape_anyOf branches
      obtain rfl := hkind hshape fun hnever => hkept (.absorbed hbranches hnever hnone hvalue)
      refine .branches ?_ hbranches hnonempty fun branch hbranch =>
        (hall branch hbranch).mono fun _ => .inl
      exact (get?_sharedExtra hb).trans (by rw [hvalue, hnone]; rfl)

/-- Where both have a shape, a union on the left is taken apart first, and then one on the right. -/
theorem Carries.combine_of_shaped {merge : Schema → Schema → Except Conflict Schema}
    (ha : a.Carries key p) (hb : b.DistinctNames) (hunion : ¬a.UnionHas key)
    (hshape : b.kind.HasShape)
    (hmerge : ∀ a b m, a.Carries key p → b.DistinctNames → ¬Loses key a b → merge a b = .ok m →
      m.Carries key fun value => p value ∨ b.Mentions key value)
    (h : Intersection.combine merge a b = .ok m) :
    m.Carries key fun value => p value ∨ b.Mentions key value := by
  cases ha with
  | @branches _ branches hnone hkind hnonempty hall =>
    rw [Intersection.combine_union_left hkind hshape] at h
    refine carries_distribute (fun hnil => absurd hnil hnonempty) (fun branch hbranch part => ?_) h
    apply hmerge branch b part (hall branch hbranch) hb
    rintro (⟨-, hnever, -, -⟩ | ⟨-, -, hhas⟩)
    · exact hshape.2 hnever
    · exact hunion (.branch hkind hbranch hhas)
  | @own _ value hvalue hp =>
    have hplain : ∀ branches, a.kind ≠ .anyOf branches := fun _ hkind =>
      hunion (.own hkind hvalue)
    rcases Intersection.combine_cases h with ⟨kind, -, rfl⟩ | ⟨branches, hkind, -⟩ |
      ⟨branches, hkind, hm⟩
    · exact carries_joined hb (.inl ⟨value, hvalue, hp⟩)
    · exact absurd hkind (hplain branches)
    · have hempty : a.Carries key fun value => p value ∨ b.Mentions key value :=
        .own hvalue (.inl hp)
      refine carries_distribute (fun _ => hempty) (fun branch hbranch part hm => ?_) hm
      have hpart : part.Carries key fun value => p value ∨ branch.Mentions key value := by
        refine hmerge a branch part (.own hvalue hp)
          (hb.parts_of_kind_eq hkind branch hbranch) ?_ hm
        rintro (⟨hkind', -, -, -⟩ | ⟨-, -, hhas⟩)
        · exact hplain _ hkind'
        · exact hunion hhas
      exact hpart.mono fun _ => Or.imp_right (.branch hkind hbranch)

/-- **An intersection carries what the first schema carries**, with a value of this or of the second
schema, unless it loses it. -/
theorem Carries.intersectWithin (ha : a.Carries key p) (hb : b.DistinctNames)
    (hkept : ¬Loses key a b) (h : Schema.intersectWithin depth a b = .ok m) :
    m.Carries key fun value => p value ∨ b.Mentions key value := by
  -- A branch loses the keyword only where its union does, so that the hypothesis passes down.
  induction depth generalizing a b m with
  | zero => cases h
  | succ depth ih =>
    rw [Schema.intersectWithin] at h
    split at h
    · obtain rfl := Except.ok.inj h
      exact ha.mono fun _ => .inl
    next hne =>
    rw [Bool.not_eq_true] at hne
    by_cases hshapes : a.kind.HasShape ∧ b.kind.HasShape
    · have hunion : ¬a.UnionHas key := fun hhas => hkept (.apart hne hshapes.2 hhas)
      exact ha.combine_of_shaped hb hunion hshapes.2 (fun _ _ _ => ih) h
    · exact ha.combine_of_unshaped hb hkept hshapes h

/-- **An intersection carries what the second schema has itself**, with its value, unless that is a
union that is taken apart. -/
theorem carries_intersectWithin (ha : a.DistinctNames) (hb : b.DistinctNames)
    (hvalue : Fields.get? b.extra key = some value) (happart : ¬TakenApart a b)
    (h : Schema.intersectWithin depth a b = .ok m) :
    m.Carries key fun found => (found == value) = true := by
  have hself := beq_self_of_extra hb hvalue
  induction depth generalizing a m with
  | zero => cases h
  | succ depth ih =>
    rw [Schema.intersectWithin] at h
    split at h
    · next heq =>
      obtain rfl := Except.ok.inj h
      have hextra := Json.object_beq_iff.mp (Schema.beq_iff.mp heq).2.2.2
      obtain ⟨found, hfound, hsame⟩ := hextra.get?_right ha.own.nodup_extra hvalue
      exact .own hfound hsame
    next hne =>
    have hjoined : ∀ kind, (a.joined b (a.sharedExtra b) kind).Carries key fun found =>
        (found == value) = true := fun kind =>
      .own ((get?_sharedExtra hb).trans (by rw [hvalue]; rfl)) hself
    by_cases hshapes : a.kind.HasShape ∧ b.kind.HasShape
    · have hplain : ∀ branches, b.kind ≠ .anyOf branches := fun branches hkind =>
        happart ⟨by simpa using hne, hshapes.1, branches, hkind⟩
      rcases Intersection.combine_cases h with ⟨kind, -, rfl⟩ | ⟨branches, hkind, hm⟩ |
        ⟨branches, hkind, -⟩
      · exact hjoined kind
      · refine carries_distribute (fun _ => .own hvalue hself) (fun branch hbranch part => ?_) hm
        refine ih (ha.parts_of_kind_eq hkind branch hbranch) ?_
        rintro ⟨-, -, branches, hkind⟩
        exact hplain branches hkind
      · exact absurd hkind (hplain branches)
    · obtain ⟨kind, hok, -⟩ := Intersection.combine_of_unshaped hshapes
      obtain rfl := Except.ok.inj (hok.symm.trans h)
      exact hjoined kind

/-- Schemas that are no unions meet in one that is none. -/
theorem kind_ne_anyOf_intersectWithin (ha : ∀ branches, a.kind ≠ .anyOf branches)
    (hb : ∀ branches, b.kind ≠ .anyOf branches) (h : Schema.intersectWithin depth a b = .ok m)
    (branches : List Schema) : m.kind ≠ .anyOf branches := by
  cases depth with
  | zero => cases h
  | succ depth =>
    rw [Schema.intersectWithin] at h
    split at h
    · obtain rfl := Except.ok.inj h
      exact ha branches
    · rcases Intersection.combine_cases h with ⟨kind, hmeets, rfl⟩ | ⟨branches', hkind, -⟩ |
        ⟨branches', hkind, -⟩
      · intro hkind
        obtain rfl : kind = .anyOf branches := hkind
        generalize hk : a.kind = k at hmeets
        generalize hl : b.kind = l at hmeets
        cases hmeets with
        | left _ => exact ha branches hk
        | right _ => exact hb branches hl
      · exact absurd hkind (ha branches')
      · exact absurd hkind (hb branches')

/-! ### A list of schemas -/

variable {before after : List Schema} {operand : Schema}

/-- **The intersection of a list carries the keywords of its operands**: with the value of the
operand, or one of a later operand. -/
theorem carries_intersectAll
    (hnames : ∀ schema ∈ before ++ operand :: after, schema.DistinctNames)
    (hvalue : Fields.get? operand.extra key = some value)
    (hkept : Undisturbed key before operand after)
    (h : intersectAll (before ++ operand :: after) = .ok m) :
    m.Carries key fun found =>
      (found == value) = true ∨ ∃ later ∈ after, later.Mentions key found := by
  -- The operands after the one with the keyword are merged in last, one at a time.
  induction after using List.reverseRecOn generalizing m with
  | nil =>
    obtain ⟨hbefore, hoperand⟩ := List.forall_mem_append.mp hnames
    replace hoperand := hoperand operand (List.mem_singleton_self _)
    refine Carries.mono ?_ fun _ => .inl
    by_cases hnil : before = []
    · subst hnil
      obtain rfl := Except.ok.inj h
      exact .own hvalue (beq_self_of_extra hoperand hvalue)
    · rw [intersectAll_append hnil] at h
      obtain ⟨a, ha, h⟩ := bind_eq_ok_iff.mp h
      have hacc : a.DistinctNames := Intersection.closed_namesApart.every_intersectAll
        (.intro (.ofKind rfl rfl) (List.forall_mem_nil _)) hbefore ha
      exact carries_intersectWithin hacc hoperand hvalue (hkept.joined a ha) h
  | append_singleton done b ih =>
    have hsplit : before ++ operand :: (done ++ [b]) = (before ++ operand :: done) ++ [b] := by
      rw [List.append_assoc, List.cons_append]
    rw [hsplit] at hnames h
    obtain ⟨hdone, hb⟩ := List.forall_mem_append.mp hnames
    rw [intersectAll_append (by simp)] at h
    obtain ⟨a, ha, h⟩ := bind_eq_ok_iff.mp h
    have hcarries := ih hdone ⟨hkept.joined, fun first c rest heq =>
      hkept.kept first c (rest ++ [b]) (by rw [heq, List.append_assoc, List.cons_append])⟩ ha
    have hm := hcarries.intersectWithin (hb b (List.mem_singleton_self _))
      (hkept.kept done b [] rfl a ha) h
    refine hm.mono fun found hfound => ?_
    rcases hfound with (hsame | ⟨later, hlater, hmentions⟩) | hmentions
    · exact .inl hsame
    · exact .inr ⟨later, List.mem_append_left _ hlater, hmentions⟩
    · exact .inr ⟨b, by simp, hmentions⟩

/-- Intersections make no unions of schemas that are none. -/
theorem kind_ne_anyOf_intersectAll {schemas : List Schema}
    (hplain : ∀ schema ∈ schemas, ∀ branches, schema.kind ≠ .anyOf branches)
    (h : intersectAll schemas = .ok m) (branches : List Schema) : m.kind ≠ .anyOf branches := by
  by_cases hnil : schemas = []
  · subst hnil
    obtain rfl := Except.ok.inj h
    exact nofun
  refine intersectAll_induction (motive := fun done m =>
    (∀ schema ∈ done, ∀ branches, schema.kind ≠ .anyOf branches) →
      ∀ branches, m.kind ≠ .anyOf branches) ?_ ?_ hnil h hplain branches
  · exact fun schema hdone => hdone schema (List.mem_singleton_self _)
  · intro done a b m _ ih hm hall
    obtain ⟨hdone, hb⟩ := List.forall_mem_append.mp hall
    replace hb := hb b (List.mem_singleton_self _)
    exact kind_ne_anyOf_intersectWithin (ih hdone) hb hm

/-- Where no operand is a union nothing is taken away. -/
theorem undisturbed_of_plain
    (hplain : ∀ schema ∈ before ++ operand :: after, ∀ branches, schema.kind ≠ .anyOf branches) :
    Undisturbed key before operand after where
  joined := by
    rintro a - ⟨-, -, branches, hkind⟩
    exact hplain operand (by simp) branches hkind
  kept done b rest heq a ha hloses := by
    subst heq
    have ha' : ∀ branches, a.kind ≠ .anyOf branches := by
      refine kind_ne_anyOf_intersectAll (fun schema hmem => hplain schema ?_) ha
      grind
    cases hloses with
    | absorbed hkind _ _ _ => exact ha' _ hkind
    | apart _ _ hunion =>
      obtain ⟨branches, hkind⟩ := hunion.exists_branches
      exact ha' branches hkind

/-! ### Operands are unified first -/

/-- What unification keeps of a schema. -/
structure Keeps (schema unified : Schema) : Prop where
  distinctNames : unified.DistinctNames
  get? : ∀ key value, Fields.get? schema.extra key = some value →
    Fields.get? unified.extra key = some value
  plain : schema.kind.isComposition = false →
    unified.kind.isComposition = false ∧ unified.extra = schema.extra

theorem distinctNames_of_keeps {schemas unified : List Schema}
    (h : List.Forall₂ Keeps schemas unified) : ∀ schema ∈ unified, schema.DistinctNames := by
  intro schema hmem
  obtain ⟨_, _, hkeeps⟩ := exists_mem_of_forall₂_right h hmem
  exact hkeeps.distinctNames

private theorem ensures_true {α : Type} (x : Unifying α) : x.Ensures fun _ => True :=
  fun _ _ _ _ => trivial

/-- Unification goes into the parts of a schema that is no composition. -/
theorem ensures_unify_plain {preserveUnions : Bool} {schema : Schema}
    (hplain : schema.kind.isComposition = false) :
    (schema.unify preserveUnions).Ensures fun unified =>
      unified.kind.isComposition = false ∧ unified.extra = schema.extra := by
  refine (Unifying.judgement_ensures.unify_rebuilt (r := fun _ _ => True) hplain
    fun part _ => ensures_true _).mono ?_
  rintro _ ⟨kind, hrebuilt, rfl⟩
  exact ⟨hrebuilt.isComposition_eq.trans hplain, rfl⟩

/-- Unification keeps the keywords that a schema has itself. -/
theorem ensures_unify_get? {preserveUnions : Bool} {schema : Schema} (hnames : schema.NamesApart)
    (hvalue : Fields.get? schema.extra key = some value) :
    (schema.unify preserveUnions).Ensures fun unified =>
      Fields.get? unified.extra key = some value := by
  have hoverlay : ∀ (merged : Schema) title description composite,
      Fields.get? (merged.overlay title description schema.extra composite).extra key
        = some value := by
    intro merged title description composite
    exact (Fields.get?_foldl_set hnames.nodup_extra key).trans (by rw [hvalue]; rfl)
  by_cases hplain : schema.kind.isComposition = false
  · exact (ensures_unify_plain hplain).mono fun unified hunified => hunified.2 ▸ hvalue
  · obtain ⟨title, description, kind, extra⟩ := schema
    cases kind with
    | allOf parts =>
      rw [unify]
      exact (ensures_true _).bind fun _ _ =>
        (ensures_true _).bind fun merged _ => .pure (hoverlay merged ..)
    | anyOf branches =>
      rw [unify]
      split
      · exact (ensures_true _).bind fun _ _ => .pure (hoverlay ..)
      · exact (ensures_true _).bind fun _ _ =>
          (ensures_true _).bind fun merged _ => .pure (hoverlay merged ..)
    | _ => exact absurd rfl hplain

/-- Where there is no intersection, none is held by an acknowledgment. -/
theorem Collapsible.of_noIntersection {schema : Schema} (h : schema.Every NoIntersection) :
    schema.Collapsible := by
  induction h with
  | @intro schema _ hparts ih =>
    refine .intro (fun part hpart => ih part (schema.kind.payloads_subset_parts hpart)) ?_
    intro part hpart
    apply hparts
    cases hkind : schema.kind with
    | anyOf branches =>
      rw [hkind, Kind.lone?] at hpart
      split at hpart
      · exact List.mem_of_mem_head? hpart
      · cases hpart
    | _ =>
      rw [hkind] at hpart
      cases hpart

theorem ensures_unify_distinctNames {preserveUnions : Bool} {schema : Schema}
    (hnames : schema.DistinctNames) (hplain : schema.Every NoIntersection) :
    (schema.unify preserveUnions).Ensures DistinctNames := by
  cases preserveUnions with
  | false =>
    exact (ensures_unify hnames (.of_noIntersection hplain)).mono fun _ h => h.mono fun _ h => h.1
  | true =>
    intro registry unified registry' hrun
    exact ((gives_unify hnames).run hrun).1.mono fun _ h => h.1

theorem ensures_unifyItems_keeps {preserveUnions : Bool} {schemas : List Schema}
    (hnames : ∀ schema ∈ schemas, schema.DistinctNames)
    (hplain : ∀ schema ∈ schemas, schema.Every NoIntersection) :
    (unifyItems preserveUnions schemas).Ensures (List.Forall₂ Keeps schemas) := by
  refine Unifying.judgement_ensures.unifyItems_forall₂ fun schema hmem => ?_
  intro registry unified registry' hrun
  exact ⟨ensures_unify_distinctNames (hnames schema hmem) (hplain schema hmem) _ _ _ hrun,
    fun key value hvalue => ensures_unify_get? (hnames schema hmem).own hvalue _ _ _ hrun,
    fun hkind => ensures_unify_plain hkind _ _ _ hrun⟩

variable {preserveUnions : Bool} {registry registry' : Registry}

/-- A combination is the intersection of the operands, unified one by one. -/
theorem exists_unified
    (hnames : ∀ schema ∈ before ++ operand :: after, schema.DistinctNames)
    (hplain : ∀ schema ∈ before ++ operand :: after, schema.Every NoIntersection)
    (h : (combine preserveUnions .all (before ++ operand :: after)).run.run registry
      = (.ok m, registry')) :
    ∃ before' operand' after',
      (unifyItems preserveUnions (before ++ operand :: after)).run.run registry
        = (.ok (before' ++ operand' :: after'), registry') ∧
      before'.length = before.length ∧ Keeps operand operand' ∧ List.Forall₂ Keeps after after' ∧
      List.Forall₂ Keeps (before ++ operand :: after) (before' ++ operand' :: after') ∧
      intersectAll (before' ++ operand' :: after') = .ok m := by
  rw [combine, Unifying.run_bind] at h
  split at h
  · next unified middle hunified =>
    obtain ⟨hmerged, rfl⟩ := Prod.mk.inj h
    have hoperands := ensures_unifyItems_keeps hnames hplain registry unified middle hunified
    obtain ⟨before', operand', after', rfl, hlength, hoperand, hafter⟩ :=
      exists_split_of_forall₂ hoperands
    exact ⟨before', operand', after', hunified, hlength, hoperand, hafter, hoperands, hmerged⟩
  · cases (Prod.mk.inj h).1

/-- **A combination carries the keywords of its operands**: the keyword of an operand is found in
the combination, or in each of its branches at any depth if that is a union without it, unless it
is lost on the way.  Its value is that of the operand or of a later one. -/
theorem combine_all_carries
    (hnames : ∀ schema ∈ before ++ operand :: after, schema.DistinctNames)
    (hplain : ∀ schema ∈ before ++ operand :: after, schema.Every NoIntersection)
    (hvalue : Fields.get? operand.extra key = some value)
    (h : (combine preserveUnions .all (before ++ operand :: after)).run.run registry
      = (.ok m, registry')) :
    ∃ before' operand' after',
      (unifyItems preserveUnions (before ++ operand :: after)).run.run registry
        = (.ok (before' ++ operand' :: after'), registry') ∧
      before'.length = before.length ∧
      (Undisturbed key before' operand' after' → m.Carries key fun found =>
        (found == value) = true ∨ ∃ later ∈ after', later.Mentions key found) := by
  obtain ⟨before', operand', after', hunified, hlength, hoperand, -, hoperands, hmerged⟩ :=
    exists_unified hnames hplain h
  refine ⟨before', operand', after', hunified, hlength, fun hkept => ?_⟩
  exact carries_intersectAll (distinctNames_of_keeps hoperands) (hoperand.get? key value hvalue)
    hkept hmerged

/-- A text in some format, and then one in another or one of two sizes. -/
theorem combine_all_carries_format :
    let text (format : String) : Schema := ⟨none, none, .primitive .string,
      [("format", .string format)]⟩
    let sizes : Kind := .enum (some .string) [.string "s", .string "m"]
    let choice : Schema := .ofKind (.anyOf [text "b", .ofKind sizes])
    let merged : Schema := .ofKind (.anyOf [text "b", ⟨none, none, sizes, (text "a").extra⟩])
    (combine true .all [text "a", choice]).run.run ⟨[], []⟩ = (.ok merged, ⟨[], []⟩) ∧
      merged.Carries "format" fun found => (found == .string "a") = true ∨
        ∃ later ∈ [choice], later.Mentions "format" found := by
  intro text sizes choice merged
  have hrun : (combine true .all [text "a", choice]).run.run ⟨[], []⟩ = (.ok merged, ⟨[], []⟩) := by
    rfl
  refine ⟨hrun, ?_⟩
  have hnames : ∀ schema ∈ [] ++ text "a" :: [choice], schema.DistinctNames := by decide
  have hplain : ∀ schema ∈ [] ++ text "a" :: [choice], schema.Every NoIntersection := by decide
  have hvalue : Fields.get? (text "a").extra "format" = some (.string "a") := by rfl
  obtain ⟨before', operand', after', hunified, hlength, hcarries⟩ :=
    combine_all_carries hnames hplain hvalue hrun
  obtain rfl := List.eq_nil_of_length_eq_zero hlength
  have hlist : [text "a", choice] = operand' :: after' :=
    Except.ok.inj (congrArg Prod.fst hunified)
  obtain ⟨rfl, rfl⟩ := List.cons.inj hlist
  refine hcarries ⟨?_, fun done b rest heq a ha hloses => ?_⟩
  · rintro a - ⟨-, -, branches, hkind⟩
    cases hkind
  · cases done with
    | cons first done => exact absurd (List.cons.inj heq).2.symm (by simp)
    | nil =>
      obtain rfl := Except.ok.inj ha
      cases hloses with
      | absorbed hkind _ _ _ => cases hkind
      | apart _ _ hunion =>
        obtain ⟨branches, hkind⟩ := hunion.exists_branches
        cases hkind

/-- **Without unions the last value stands**: a keyword of an operand that no later operand has is
found in the combination, with its value. -/
theorem combine_all_get?
    (hnames : ∀ schema ∈ before ++ operand :: after, schema.DistinctNames)
    (hplain : ∀ schema ∈ before ++ operand :: after, schema.Every NoIntersection)
    (hunions : ∀ schema ∈ before ++ operand :: after, schema.kind.isComposition = false)
    (hvalue : Fields.get? operand.extra key = some value)
    (hlast : ∀ later ∈ after, Fields.get? later.extra key = none)
    (h : (combine preserveUnions .all (before ++ operand :: after)).run.run registry
      = (.ok m, registry')) :
    ∃ found, Fields.get? m.extra key = some found ∧ (found == value) = true := by
  obtain ⟨before', operand', after', -, -, hoperand, hafter, hoperands, hmerged⟩ :=
    exists_unified hnames hplain h
  have hplain' : ∀ schema ∈ before' ++ operand' :: after', ∀ branches,
      schema.kind ≠ .anyOf branches := by
    intro schema hmem branches hkind
    obtain ⟨operand, hoperand, hkeeps⟩ := exists_mem_of_forall₂_right hoperands hmem
    have hcomposition := (hkeeps.plain (hunions operand hoperand)).1
    rw [hkind] at hcomposition
    cases hcomposition
  have hcarries := carries_intersectAll (distinctNames_of_keeps hoperands)
    (hoperand.get? key value hvalue) (undisturbed_of_plain hplain') hmerged
  cases hcarries with
  | branches _ hkind _ _ => exact absurd hkind (kind_ne_anyOf_intersectAll hplain' hmerged _)
  | @own _ found hfound hsource =>
    refine ⟨found, hfound, hsource.resolve_right ?_⟩
    -- What a later operand has itself it had before it was unified.
    rintro ⟨later', hlater', hmentions⟩
    obtain ⟨later, hlater, hkeeps⟩ := exists_mem_of_forall₂_right hafter hlater'
    cases hmentions with
    | branch hkind _ _ => exact hplain' later' (by simp [hlater']) _ hkind
    | own hhas =>
      have hextra := (hkeeps.plain (hunions later (by simp [hlater]))).2
      rw [hextra, hlast later hlater] at hhas
      cases hhas

/-- The keywords of schemas are found in another one or, if that is a union, in each of its branches
itself, with the value of the last of the schemas that has the keyword itself. -/
def KeepsFlat (schemas : List Schema) (merged : Schema) : Prop :=
  ∀ before operand after, schemas = before ++ operand :: after →
    ∀ key value, Fields.get? operand.extra key = some value →
      (∀ later ∈ after, Fields.get? later.extra key = none) →
        (∃ found, Fields.get? merged.extra key = some found ∧ (found == value) = true) ∨
          ∃ branches, merged.kind = .anyOf branches ∧ ∀ branch ∈ branches,
            ∃ found, Fields.get? branch.extra key = some found ∧ (found == value) = true

/-- The value of a branch stands against that of an earlier operand; in unions of unions the keyword
is found further down; and no value at all absorbs a union, of which only the branches have it. -/
theorem not_keepsFlat_format :
    let text (format : String) : Schema := ⟨none, none, .primitive .string,
      [("format", .string format)]⟩
    let choice : Schema := .ofKind (.anyOf [text "b", .ofKind (.primitive .boolean)])
    let sizes (extra : Fields Json) : Schema := ⟨none, none, .anyOf
      [⟨none, none, .enum (some .string) [.string "s", .string "m"], extra⟩,
       ⟨none, none, .const (.string "l"), extra⟩], []⟩
    let other (extra : Fields Json) : Schema := ⟨none, none, .const (.string "x"), extra⟩
    let nested : Schema := .ofKind (.anyOf [sizes [], other []])
    let merged : Schema := .ofKind (.anyOf [sizes (text "a").extra, other (text "a").extra])
    ((combine true .all [text "a", choice]).run.run ⟨[], []⟩ = (.ok (text "b"), ⟨[], []⟩) ∧
      ¬KeepsFlat [text "a", choice] (text "b")) ∧
    ((combine true .all [nested, text "a"]).run.run ⟨[], []⟩ = (.ok merged, ⟨[], []⟩) ∧
      ¬KeepsFlat [nested, text "a"] merged) ∧
    ((combine true .all [sizes [], text "a", .ofKind .never]).run.run ⟨[], []⟩
        = (.ok (.ofKind .never), ⟨[], []⟩) ∧
      ¬KeepsFlat [sizes [], text "a", .ofKind .never] (.ofKind .never)) := by
  intro text choice sizes other nested merged
  refine ⟨⟨by rfl, fun hkeeps => ?_⟩, ⟨by rfl, fun hkeeps => ?_⟩, ⟨by rfl, fun hkeeps => ?_⟩⟩
  · have hlast : ∀ later ∈ [choice], Fields.get? later.extra "format" = none := by decide
    obtain ⟨found, hfound, hsame⟩ | ⟨branches, hkind, -⟩ :=
      hkeeps [] (text "a") [choice] rfl "format" (.string "a") (by rfl) hlast
    · obtain rfl : .string "b" = found := Option.some.inj hfound
      exact absurd hsame (by decide)
    · cases hkind
  · obtain ⟨found, hfound, -⟩ | ⟨branches, hkind, hall⟩ :=
      hkeeps [nested] (text "a") [] rfl "format" (.string "a") (by rfl)
        fun _ hmem => absurd hmem List.not_mem_nil
    · cases hfound
    · obtain rfl : [sizes (text "a").extra, other (text "a").extra] = branches :=
        Kind.anyOf.inj hkind
      -- The first branch is a union, which does not have the keyword itself.
      obtain ⟨found, hfound, -⟩ := hall _ (List.mem_cons_self ..)
      cases hfound
  · have hlast : ∀ later ∈ [Schema.ofKind .never], Fields.get? later.extra "format" = none := by
      decide
    obtain ⟨found, hfound, -⟩ | ⟨branches, hkind, -⟩ :=
      hkeeps [sizes []] (text "a") [.ofKind .never] rfl "format" (.string "a") (by rfl) hlast
    · cases hfound
    · cases hkind

end Schema

end RpcSchema
