import Mathlib.Algebra.BigOperators.Group.Finset.Basic
import Mathlib.Algebra.BigOperators.Group.Finset.Piecewise
import Mathlib.Algebra.GroupWithZero.Nat
import Mathlib.Algebra.Order.BigOperators.Group.Finset
import RpcSchema.Proofs.Unification.NormalForm

/-!
# What is merged in a collapse

A collapse goes through maps and branches and merges what meets there.  Whatever is said of the
merges of single schemas can be said of the maps and the branches that come out, whether one
speaks of results only, of results without a failure, or of anything else that goes through
computations one after the other.

## Main definitions

* `Union.Blend r` — what stands under a name of two maps that were joined.
* `Union.Blended r`, `Union.ObjectOf r` — maps and object shapes that were joined.
* `Union.JoinedBy r` — branches that a schema was merged into.

## Main results

* `Unifying.Judgement.properties`, `.mergePatterns`, `.objects`, `.joinBranch` — these are what
  comes out, with `r` for what is known of the merges of schemas.
* `Union.Blended.sum_le` — maps that are joined weigh no more than before.
-/

namespace RpcSchema

namespace Union

/-! ### Maps that are joined -/

/-- What stands under a name of two joined maps: what stands there on one side, or what was merged
from both. -/
inductive Blend (r : Schema → Schema → Schema → Prop) :
    Option Schema → Option Schema → Option Schema → Prop
  | neither : Blend r none none none
  | left (a : Schema) : Blend r (some a) none (some a)
  | right (b : Schema) : Blend r none (some b) (some b)
  | both {a b m : Schema} (h : r a b m) : Blend r (some a) (some b) (some m)

/-- The names of both maps, with what stands under them on one side or was merged. -/
structure Blended (r : Schema → Schema → Schema → Prop) (left right result : Fields Schema) :
    Prop where
  nodup : (Fields.keys result).Nodup
  blend : ∀ name, Blend r (Fields.get? left name) (Fields.get? right name)
    (Fields.get? result name)

variable {r : Schema → Schema → Schema → Prop} {x y z : Option Schema} {a b m : Schema}
  {left right others rest result : Fields Schema} {name : String}

theorem Blend.cases_some (h : Blend r x y (some m)) :
    x = some m ∨ y = some m ∨ ∃ a b, x = some a ∧ y = some b ∧ r a b m := by
  cases h with
  | left _ => exact .inl rfl
  | right _ => exact .inr (.inl rfl)
  | both h => exact .inr (.inr ⟨_, _, rfl, rfl, h⟩)

theorem Blend.right_only (h : Blend r none y z) : z = y := by
  cases h <;> rfl

theorem Blend.left_only (h : Blend r x none z) : z = x := by
  cases h <;> rfl

theorem blend_left (x : Option Schema) : Blend r x none x := by
  cases x with
  | none => exact .neither
  | some a => exact .left a

theorem blend_right (y : Option Schema) : Blend r none y y := by
  cases y with
  | none => exact .neither
  | some b => exact .right b

/-- One name more, about which the rest of the maps says nothing. -/
theorem Blended.cons (h : Blended r left others rest) (hleft : name ∉ Fields.keys left)
    (hothers : Fields.get? others name = none)
    (hrest : ∀ other, name ≠ other → Fields.get? others other = Fields.get? right other)
    (hblend : Blend r (some a) (Fields.get? right name) (some m)) :
    Blended r ((name, a) :: left) right ((name, m) :: rest) where
  nodup := by
    have hnew := h.blend name
    rw [Fields.get?_eq_none_iff.mpr hleft, hothers] at hnew
    exact List.nodup_cons.mpr ⟨Fields.get?_eq_none_iff.mp hnew.right_only, h.nodup⟩
  blend other := by
    rw [Fields.get?_cons, Fields.get?_cons]
    split
    · next heq =>
      subst heq
      exact hblend
    · next hne =>
      rw [← hrest other hne]
      exact h.blend other

/-- What holds of the schemas in both maps and passes to what is merged. -/
theorem Blended.forall_values {p : Schema → Prop} (h : Blended r left right result)
    (hleft : ∀ entry ∈ left, p entry.2) (hright : ∀ entry ∈ right, p entry.2)
    (hr : ∀ a b m, p a → p b → r a b m → p m) : ∀ entry ∈ result, p entry.2 := by
  rintro ⟨name, m⟩ hmem
  have hblend := h.blend name
  rw [Fields.get?_of_mem h.nodup hmem] at hblend
  rcases hblend.cases_some with hm | hm | ⟨a, b, ha, hb, hm⟩
  · exact hleft (name, m) (Fields.mem_of_get? hm)
  · exact hright (name, m) (Fields.mem_of_get? hm)
  · exact hr a b m (hleft (name, a) (Fields.mem_of_get? ha))
      (hright (name, b) (Fields.mem_of_get? hb)) hm

/-! ### Branches that a schema is merged into -/

/-- A schema was merged into the first branch of its class, or became a branch. -/
inductive JoinedBy (r : Schema → Schema → Schema → Prop) (schema : Schema) :
    List Schema → List Schema → Prop
  | appended {branches : List Schema}
      (h : ∀ branch ∈ branches, branch.sameClass schema = false) :
      JoinedBy r schema branches (branches ++ [schema])
  | merged {before after : List Schema} {branch m : Schema}
      (hbefore : ∀ branch ∈ before, branch.sameClass schema = false)
      (hclass : branch.sameClass schema = true) (h : r branch schema m) :
      JoinedBy r schema (before ++ branch :: after) (before ++ m :: after)

theorem JoinedBy.nil (schema : Schema) : JoinedBy r schema [] [schema] :=
  @appended r schema [] (List.forall_mem_nil _)

theorem JoinedBy.first {schema branch : Schema} (rest : List Schema)
    (hclass : branch.sameClass schema = true) (h : r branch schema m) :
    JoinedBy r schema (branch :: rest) (m :: rest) :=
  @merged r schema [] rest branch m (List.forall_mem_nil _) hclass h

theorem JoinedBy.cons {schema branch : Schema} {branches joined : List Schema}
    (h : JoinedBy r schema branches joined) (hbranch : branch.sameClass schema = false) :
    JoinedBy r schema (branch :: branches) (branch :: joined) := by
  cases h with
  | appended h => exact .appended (List.forall_mem_cons.mpr ⟨hbranch, h⟩)
  | @merged before after _ _ hbefore hclass h =>
    exact @merged r schema (branch :: before) after _ _ (List.forall_mem_cons.mpr ⟨hbranch, hbefore⟩)
      hclass h

theorem JoinedBy.forall_mem {p : Schema → Prop} {schema : Schema} {branches joined : List Schema}
    (h : JoinedBy r schema branches joined) (hbranches : ∀ branch ∈ branches, p branch)
    (hschema : p schema) (hr : ∀ a b m, p a → p b → r a b m → p m) : ∀ branch ∈ joined, p branch := by
  cases h with
  | appended _ => exact List.forall_mem_append.mpr ⟨hbranches, List.forall_mem_singleton.mpr hschema⟩
  | merged _ _ h =>
    obtain ⟨hbefore, hlater⟩ := List.forall_mem_append.mp hbranches
    obtain ⟨hbranch, hafter⟩ := List.forall_mem_cons.mp hlater
    exact List.forall_mem_append.mpr
      ⟨hbefore, List.forall_mem_cons.mpr ⟨hr _ _ _ hbranch hschema h, hafter⟩⟩

/-! ### Objects that are joined -/

/-- What holds for undeclared properties: what holds on one side, or what was merged. -/
def Undeclared (r : Schema → Schema → Schema → Prop) (x y z : Additional) : Prop :=
  ∀ m, z = .schema m → x = .schema m ∨ y = .schema m ∨
    ∃ a b, x = .schema a ∧ y = .schema b ∧ r a b m

/-- An object shape made of those of two. -/
structure ObjectOf (r : Schema → Schema → Schema → Prop) (x y shape : ObjectSchema) : Prop where
  properties : Blended r x.properties y.properties shape.properties
  additional : Undeclared r x.additional y.additional shape.additional
  patterns : Blended r x.patterns y.patterns shape.patterns

theorem ObjectOf.nodup_maps {x y shape : ObjectSchema} (h : ObjectOf r x y shape) :
    ∀ fields ∈ (Kind.object shape).maps, (Fields.keys fields).Nodup := by
  simp only [Kind.maps, List.forall_mem_cons]
  exact ⟨h.properties.nodup, h.patterns.nodup, List.forall_mem_nil _⟩

theorem ObjectOf.forall_parts {p : Schema → Prop} {x y shape : ObjectSchema}
    (h : ObjectOf r x y shape) (hx : ∀ part ∈ x.parts, p part) (hy : ∀ part ∈ y.parts, p part)
    (hr : ∀ a b m, p a → p b → r a b m → p m) : ∀ part ∈ shape.parts, p part := by
  obtain ⟨hproperties, hadditional, hpatterns⟩ := ObjectSchema.forall_parts_iff.mp hx
  obtain ⟨hproperties', hadditional', hpatterns'⟩ := ObjectSchema.forall_parts_iff.mp hy
  refine ObjectSchema.forall_parts_iff.mpr ⟨h.properties.forall_values hproperties hproperties' hr,
    fun m hm => ?_, h.patterns.forall_values hpatterns hpatterns' hr⟩
  rcases h.additional m hm with ha | hb | ⟨a, b, ha, hb, hm⟩
  · exact hadditional m ha
  · exact hadditional' m hb
  · exact hr a b m (hadditional a ha) (hadditional' b hb) hm

/-! ### Weights -/

/-- The weight of a schema under a name, if there is one. -/
def weightOf (weight : Schema → ℕ) (schema : Option Schema) : ℕ := schema.elim 0 weight

variable {weight : Schema → ℕ}

/-- The schemas in a map weigh as much as what is found under names that go beyond those of the
map. -/
theorem sum_weights_eq (names : Finset String) {fields : Fields Schema}
    (hnodup : (Fields.keys fields).Nodup) (hnames : ∀ key ∈ Fields.keys fields, key ∈ names) :
    ((Fields.values fields).map weight).sum =
      ∑ name ∈ names, weightOf weight (Fields.get? fields name) := by
  induction fields with
  | nil => exact (Finset.sum_eq_zero fun _ _ => rfl).symm
  | cons entry fields ih =>
    obtain ⟨key, schema⟩ := entry
    obtain ⟨hkey, hnodup⟩ := List.nodup_cons.mp hnodup
    obtain ⟨hmem, hnames⟩ := List.forall_mem_cons.mp hnames
    have hsplit : ∀ name ∈ names, weightOf weight (Fields.get? ((key, schema) :: fields) name) =
        (if key = name then weight schema else 0) + weightOf weight (Fields.get? fields name) := by
      intro name _
      rw [Fields.get?_cons]
      split
      · next heq =>
        rw [← heq, Fields.get?_eq_none_iff.mpr hkey]
        rfl
      · exact (Nat.zero_add _).symm
    rw [Finset.sum_congr rfl hsplit, Finset.sum_add_distrib, Finset.sum_ite_eq, if_pos hmem,
      ← ih hnodup hnames]
    rfl

theorem Blend.weightOf_le (h : Blend r x y z) (hr : ∀ a b m, r a b m → weight m ≤ weight a + weight b) :
    weightOf weight z ≤ weightOf weight x + weightOf weight y := by
  cases h with
  | neither => exact Nat.zero_le _
  | left a => exact Nat.le_refl _
  | right b => exact Nat.le_add_left _ _
  | both h => exact hr _ _ _ h

/-- **Joined maps weigh no more than before**, if that holds of merged schemas. -/
theorem Blended.sum_le (h : Blended r left right result) (hleft : (Fields.keys left).Nodup)
    (hright : (Fields.keys right).Nodup) (hr : ∀ a b m, r a b m → weight m ≤ weight a + weight b) :
    ((Fields.values result).map weight).sum ≤
      ((Fields.values left).map weight).sum + ((Fields.values right).map weight).sum := by
  let names := ((Fields.keys left ++ Fields.keys right) ++ Fields.keys result).toFinset
  have hnames : ∀ key, key ∈ names ↔
      (key ∈ Fields.keys left ∨ key ∈ Fields.keys right) ∨ key ∈ Fields.keys result := by
    intro key
    rw [List.mem_toFinset, List.mem_append, List.mem_append]
  rw [sum_weights_eq names h.nodup fun key hkey => (hnames key).mpr (.inr hkey),
    sum_weights_eq names hleft fun key hkey => (hnames key).mpr (.inl (.inl hkey)),
    sum_weights_eq names hright fun key hkey => (hnames key).mpr (.inl (.inr hkey)),
    ← Finset.sum_add_distrib]
  exact Finset.sum_le_sum fun name _ => (h.blend name).weightOf_le hr

theorem Undeclared.sum_le {x y z : Additional} (h : Undeclared r x y z)
    (hr : ∀ a b m, r a b m → weight m ≤ weight a + weight b) :
    (z.schema?.toList.map weight).sum ≤
      (x.schema?.toList.map weight).sum + (y.schema?.toList.map weight).sum := by
  cases z with
  | unstated | allowed _ => exact Nat.zero_le _
  | schema m =>
    rcases h m rfl with rfl | rfl | ⟨a, b, rfl, rfl, hm⟩
    · exact Nat.le_add_right _ _
    · exact Nat.le_add_left _ _
    · exact hr a b m hm

theorem ObjectOf.sum_le {x y shape : ObjectSchema} (h : ObjectOf r x y shape)
    (hx : ∀ fields ∈ (Kind.object x).maps, (Fields.keys fields).Nodup)
    (hy : ∀ fields ∈ (Kind.object y).maps, (Fields.keys fields).Nodup)
    (hr : ∀ a b m, r a b m → weight m ≤ weight a + weight b) :
    (shape.parts.map weight).sum ≤ (x.parts.map weight).sum + (y.parts.map weight).sum := by
  simp only [Kind.maps, List.forall_mem_cons] at hx hy
  have hproperties := h.properties.sum_le hx.1 hy.1 hr
  have hadditional := h.additional.sum_le hr
  have hpatterns := h.patterns.sum_le hx.2.1 hy.2.1 hr
  simp only [ObjectSchema.parts, List.map_append, List.sum_append]
  omega

theorem JoinedBy.sum_le {schema : Schema} {branches joined : List Schema}
    (h : JoinedBy r schema branches joined)
    (hr : ∀ a b m, r a b m → weight m ≤ weight a + weight b) :
    (joined.map weight).sum ≤ (branches.map weight).sum + weight schema := by
  cases h with
  | appended _ =>
    rw [List.map_append, List.sum_append, List.map_singleton, List.sum_singleton]
  | merged _ _ h =>
    have hle := hr _ _ _ h
    simp only [List.map_append, List.map_cons, List.sum_append, List.sum_cons]
    omega

end Union

/-! ### Judgements on merges -/

namespace Unifying.Judgement

variable {T : ∀ {α : Type}, (α → Prop) → Unifying α → Prop} (hT : Judgement T)
  {merge : Schema → Schema → Unifying Schema} {r : Schema → Schema → Schema → Prop}
  {left right : Fields Schema}
include hT

theorem properties (hleft : (Fields.keys left).Nodup) (hright : (Fields.keys right).Nodup)
    (hmerge : ∀ name a b, Fields.get? left name = some a → Fields.get? right name = some b →
      T (r a b) (merge a b)) :
    T (Union.Blended r left right) (Union.properties merge left right) := by
  induction left generalizing right with
  | nil =>
    rw [Union.properties]
    exact hT.pure ⟨hright, fun name => Union.blend_right _⟩
  | cons entry left ih =>
    obtain ⟨name, a⟩ := entry
    obtain ⟨hname, hleft⟩ := List.nodup_cons.mp hleft
    -- Further entries of the left side have other names than the first one.
    have hlater : ∀ other b, Fields.get? left other = some b → name ≠ other := by
      rintro other b hb rfl
      exact hname (Fields.mem_keys_of_mem (Fields.mem_of_get? hb))
    rw [Union.properties, Fields.extract?_eq]
    cases hfound : Fields.get? right name with
    | some b =>
      have hkept : ∀ other, name ≠ other →
          Fields.get? (Fields.erase right name) other = Fields.get? right other :=
        fun other hne => Fields.get?_erase_of_ne right hne.symm
      have hfirst : T (r a b) (merge a b) :=
        hmerge name a b (by rw [Fields.get?_cons, if_pos rfl]) hfound
      refine hT.bind hfirst fun m hm => ?_
      refine hT.bind (ih hleft (Fields.nodup_keys_erase hright name)
        fun other c d hc hd => hmerge other c d ?_ ?_) fun rest hrest => hT.pure ?_
      · rw [Fields.get?_cons, if_neg (hlater other c hc)]
        exact hc
      · rw [← hkept other (hlater other c hc)]
        exact hd
      · exact hrest.cons hname (Fields.get?_erase_self hright name) hkept (hfound ▸ .both hm)
    | none =>
      refine hT.bind (ih hleft hright fun other c d hc hd => hmerge other c d ?_ hd)
        fun rest hrest => hT.pure ?_
      · rw [Fields.get?_cons, if_neg (hlater other c hc)]
        exact hc
      · exact hrest.cons hname hfound (fun _ _ => rfl) (hfound ▸ .left a)

theorem mergePatterns (hleft : (Fields.keys left).Nodup) (hright : (Fields.keys right).Nodup)
    (hmerge : ∀ name a b, Fields.get? left name = some a → Fields.get? right name = some b →
      T (r a b) (merge a b)) :
    T (Union.Blended r left right) (RpcSchema.mergePatterns merge left right) := by
  induction right generalizing left with
  | nil =>
    rw [RpcSchema.mergePatterns]
    exact hT.pure ⟨hleft, fun name => Union.blend_left _⟩
  | cons entry right ih =>
    obtain ⟨pattern, b⟩ := entry
    obtain ⟨hpattern, hright⟩ := List.nodup_cons.mp hright
    -- The pattern goes to the end of the left side, where nothing meets it any more.
    have hmoved : ∀ (others : Fields Schema) (m : Schema), (Fields.keys others).Nodup →
        Fields.get? others pattern = none →
        (∀ name, name ≠ pattern → Fields.get? others name = Fields.get? left name) →
        Union.Blend r (Fields.get? left pattern) (some b) (some m) →
        T (Union.Blended r left ((pattern, b) :: right))
          (RpcSchema.mergePatterns merge (others ++ [(pattern, m)]) right) := by
      intro others m hothers hfree hkept hm
      have hfound : ∀ name, Fields.get? (others ++ [(pattern, m)]) name =
          if pattern = name then some m else Fields.get? left name := by
        intro name
        rw [Fields.get?_append, Fields.get?_cons, Fields.get?_nil]
        split
        · next heq => rw [← heq, hfree, Option.none_or]
        · next hne => rw [Option.or_none, hkept name (Ne.symm hne)]
      have hkeys : (Fields.keys (others ++ [(pattern, m)])).Nodup := by
        rw [← Fields.set_of_notMem (Fields.get?_eq_none_iff.mp hfree) m]
        exact Fields.nodup_keys_set hothers pattern m
      refine hT.mono (ih hkeys hright fun name c d hc hd => ?_) fun result hresult =>
        ⟨hresult.nodup, fun name => ?_⟩
      · have hne : pattern ≠ name := by
          rintro rfl
          exact hpattern (Fields.mem_keys_of_mem (Fields.mem_of_get? hd))
        rw [hfound, if_neg hne] at hc
        exact hmerge name c d hc (by rw [Fields.get?_cons, if_neg hne]; exact hd)
      · have hblend := hresult.blend name
        rw [hfound] at hblend
        rw [Fields.get?_cons]
        split at hblend
        · next heq =>
          subst heq
          rw [Fields.get?_eq_none_iff.mpr hpattern] at hblend
          rw [if_pos rfl, hblend.left_only]
          exact hm
        · next hne =>
          rw [if_neg hne]
          exact hblend
    rw [RpcSchema.mergePatterns, Fields.extract?_eq]
    cases hfound : Fields.get? left pattern with
    | some a =>
      have hfirst : T (r a b) (merge a b) :=
        hmerge pattern a b hfound (by rw [Fields.get?_cons, if_pos rfl])
      refine hT.bind hfirst fun m hm => ?_
      exact hmoved _ m (Fields.nodup_keys_erase hleft pattern) (Fields.get?_erase_self hleft pattern)
        (fun name hne => Fields.get?_erase_of_ne left hne) (hfound ▸ .both hm)
    | none => exact hmoved left b hleft hfound (fun _ _ => rfl) (hfound ▸ .right b)

theorem additional {x y : Additional}
    (hmerge : ∀ a b, x = .schema a → y = .schema b → T (r a b) (merge a b)) :
    T (Union.Undeclared r x y) (Union.additional merge x y) := by
  unfold Union.additional
  split
  · exact hT.pure fun m hm => .inr (.inl hm)
  · exact hT.pure fun m hm => .inl hm
  · exact hT.pure (by rintro _ ⟨⟩)
  · next a b =>
    refine hT.bind (hmerge a b rfl rfl) fun merged hmerged => hT.pure fun m hm => ?_
    exact .inr (.inr ⟨a, b, rfl, rfl, Additional.schema.inj hm ▸ hmerged⟩)
  · next a flag =>
    cases flag with
    | true => exact hT.pure (by rintro _ ⟨⟩)
    | false => exact hT.pure fun m hm => .inl hm
  · next flag b =>
    cases flag with
    | true => exact hT.pure (by rintro _ ⟨⟩)
    | false => exact hT.pure fun m hm => .inr (.inl hm)

/-- **Joining objects** merges what stands under the same name, with the same pattern, or for
undeclared properties. -/
theorem objects {x y : ObjectSchema}
    (hx : ∀ fields ∈ (Kind.object x).maps, (Fields.keys fields).Nodup)
    (hy : ∀ fields ∈ (Kind.object y).maps, (Fields.keys fields).Nodup)
    (hmerge : ∀ a ∈ x.parts, ∀ b ∈ y.parts, T (r a b) (merge a b)) :
    T (Union.ObjectOf r x y) (Union.objects merge x y) := by
  have hproperties : ∀ name a b, Fields.get? x.properties name = some a →
      Fields.get? y.properties name = some b → T (r a b) (merge a b) := fun name a b ha hb =>
    hmerge a (ObjectSchema.mem_parts_of_property (Fields.mem_of_get? ha)) b
      (ObjectSchema.mem_parts_of_property (Fields.mem_of_get? hb))
  have hadditional : ∀ a b, x.additional = .schema a → y.additional = .schema b →
      T (r a b) (merge a b) := fun a b ha hb =>
    hmerge a (ObjectSchema.mem_parts_of_additional ha) b (ObjectSchema.mem_parts_of_additional hb)
  have hpatterns : ∀ name a b, Fields.get? x.patterns name = some a →
      Fields.get? y.patterns name = some b → T (r a b) (merge a b) := fun name a b ha hb =>
    hmerge a (ObjectSchema.mem_parts_of_pattern (Fields.mem_of_get? ha)) b
      (ObjectSchema.mem_parts_of_pattern (Fields.mem_of_get? hb))
  simp only [Kind.maps, List.forall_mem_cons] at hx hy
  refine hT.bind (hT.properties hx.1 hy.1 hproperties) fun properties hprops => ?_
  refine hT.bind (hT.additional hadditional) fun additional hadds => ?_
  refine hT.bind (hT.mergePatterns hx.2.1 hy.2.1 hpatterns) fun patterns hpats => ?_
  exact hT.pure ⟨hprops, hadds, hpats⟩

/-- **Merging into branches** merges with the first branch of the same class. -/
theorem joinBranch {schema : Schema} {branches : List Schema}
    (hmerge : ∀ branch ∈ branches, branch.sameClass schema = true →
      T (r branch schema) (merge branch schema)) :
    T (Union.JoinedBy r schema branches) (Union.joinBranch merge schema branches) := by
  induction branches with
  | nil =>
    rw [Union.joinBranch]
    exact hT.pure (.nil schema)
  | cons branch rest ih =>
    obtain ⟨hfirst, hrest⟩ := List.forall_mem_cons.mp hmerge
    rw [Union.joinBranch]
    split
    · next hclass =>
      exact hT.bind (hfirst hclass) fun m hm => hT.pure (.first rest hclass hm)
    · next hclass =>
      refine hT.bind (ih hrest) fun joined hjoined => hT.pure ?_
      exact hjoined.cons (Bool.eq_false_iff.mpr hclass)

end Unifying.Judgement

end RpcSchema
