import RpcSchema.Proofs.Unification.Elimination

/-!
# Where collapses fail

A collapse puts side by side what cannot be merged, at every depth, so that nothing can go wrong
but one thing: an array by position is never merged with another array about whose items something
is said.

Whether such two arrays meet depends on where they stand.  They cannot if there are no two of them
to begin with, because what is merged at one place was counted at two.

## Main definitions

* `Unifying.Succeeds clash p x` — the computation succeeds, unless `clash` holds and arrays by
  position are in conflict.
* `Kind.arrays` — what arrays by position and arrays of items count.

## Main results

* `Schema.succeeds_unify` — neither does unification fail for any other reason.
* `combine_any_succeeds` — a collapse fails for no other reason, and not without two arrays of which
  one goes by position.
-/

namespace RpcSchema

/-! ### Computations that fail for one reason only -/

/-- Whatever is registered already, the computation gives something that satisfies `p`, unless
`clash` holds and arrays by position are in conflict. -/
def Unifying.Succeeds (clash : Prop) {α : Type} (p : α → Prop) (x : Unifying α) : Prop :=
  ∀ registry, (∃ value registry', x.run.run registry = (.ok value, registry') ∧ p value) ∨
    clash ∧ ∃ registry', x.run.run registry = (.error .tuples, registry')

namespace Unifying

variable {α β : Type} {clash : Prop} {p : α → Prop} {q : β → Prop} {x : Unifying α}
  {f : α → Unifying β}

theorem Succeeds.pure {value : α} (h : p value) : Succeeds clash p (Pure.pure value) :=
  fun registry => .inl ⟨value, registry, rfl, h⟩

theorem Succeeds.bind (hx : Succeeds clash p x) (hf : ∀ value, p value → Succeeds clash q (f value)) :
    Succeeds clash q (x >>= f) := by
  intro registry
  rw [run_bind]
  rcases hx registry with ⟨value, registry', hrun, hvalue⟩ | ⟨hclash, registry', hrun⟩
  · rw [hrun]
    exact hf value hvalue registry'
  · rw [hrun]
    exact .inr ⟨hclash, registry', rfl⟩

theorem judgement_succeeds : Judgement (Succeeds clash) := ⟨.pure, .bind⟩

end Unifying

/-! ### Counting arrays -/

/-- Whether the shape is an array by position. -/
def Kind.isTuple : Kind → Bool
  | .tuple _ => true
  | _ => false

/-- Whether the shape is an array whose items all have one schema. -/
def Kind.isListOf : Kind → Bool
  | .listOf _ => true
  | _ => false

/-- An array by position counts `tuples`, and one of items counts `lists`. -/
def Kind.arrays (tuples lists : ℕ) : Kind → ℕ
  | .tuple _ => tuples
  | .listOf _ => lists
  | _ => 0

variable {tuples lists bound : ℕ} {clash : Prop}

/-- Unions make no arrays. -/
theorem Union.counts_arrays : Union.Counts (Kind.arrays tuples lists) where
  union _ := rfl
  merges k l kind h := by
    cases h with
    | objects _ _ _ => exact Nat.zero_le _
    | items _ _ _ => exact Nat.le_add_right _ _
    | keep h =>
      cases h with
      | left => exact Nat.le_add_right _ _
      | right => exact Nat.le_add_left _ _
      | literals _ _ => exact Nat.zero_le _
  refs _ _ _ := Nat.zero_le _

theorem Kind.Rebuilt.arrays_eq {r : Schema → Schema → Prop} {k l : Kind} (h : k.Rebuilt r l) :
    l.arrays tuples lists = k.arrays tuples lists := by
  cases h <;> rfl

theorem Kind.arrays_eq (kind : Kind) : kind.arrays tuples lists =
    tuples * (if kind.isTuple then 1 else 0) + lists * (if kind.isListOf then 1 else 0) := by
  cases kind <;> simp [arrays, isTuple, isListOf]

/-- Two counts at once. -/
theorem Schema.sum_arrays_eq (schemas : List Schema) :
    (schemas.map fun schema => schema.kind.arrays tuples lists).sum =
      tuples * schemas.countP (·.kind.isTuple) + lists * schemas.countP (·.kind.isListOf) := by
  induction schemas with
  | nil => rfl
  | cons schema rest ih =>
    rw [List.map_cons, List.sum_cons, ih, Kind.arrays_eq, List.countP_cons, List.countP_cons,
      Nat.mul_add, Nat.mul_add]
    omega

/-- One of the arrays that make a clash goes by position. -/
theorem Union.Clash.le_arrays {k l : Kind} (h : Union.Clash k l) :
    tuples + min tuples lists ≤ k.arrays tuples lists + l.arrays tuples lists := by
  cases h <;> simp only [Kind.arrays] <;> omega

/-- What is counted in schemas is counted in the list of all schemas within them. -/
theorem Schema.tallyAll_arrays (schemas : List Schema) :
    tallyAll (Kind.arrays tuples lists) schemas =
      tuples * (schemas.flatMap Schema.all).countP (·.kind.isTuple) +
        lists * (schemas.flatMap Schema.all).countP (·.kind.isListOf) := by
  rw [← sum_arrays_eq, List.map_flatMap, List.flatMap_def, List.sum_flatten, List.map_map]
  rfl

/-! ### Collapses -/

/-- All that merging does succeeds, unless arrays that make a clash come together. -/
theorem accounting_succeeds (hclash : ∀ k l, Union.Clash k l →
      k.arrays tuples lists + l.arrays tuples lists ≤ bound → clash) :
    Union.Accounting (Unifying.Succeeds clash) Schema.NamesApart (Kind.arrays tuples lists) bound where
  judgement := Unifying.judgement_succeeds
  closed := Union.closed_namesApart
  counts := Union.counts_arrays
  wraps x y registry := .inl ⟨_, _, rfl, _, rfl⟩
  clash a b hkinds hle registry := by
    rw [a.tally_eq, b.tally_eq] at hle
    exact .inr ⟨hclash a.kind b.kind hkinds (by omega), registry, rfl⟩

/-- Names are apart, and no more arrays are counted than in another schema. -/
abbrev Schema.Within (tuples lists : ℕ) (schema unified : Schema) : Prop :=
  unified.DistinctNames ∧
    unified.tally (Kind.arrays tuples lists) ≤ schema.tally (Kind.arrays tuples lists)

variable {T : ∀ {α : Type}, (α → Prop) → Unifying α → Prop}

/-- A collapse of schemas, from their unification. -/
theorem Union.Accounting.combine_any
    (h : Accounting T Schema.NamesApart (Kind.arrays tuples lists) bound) {schemas : List Schema}
    (hnames : ∀ schema ∈ schemas, schema.DistinctNames)
    (hunify : ∀ schema ∈ schemas, T (schema.Within tuples lists) (schema.unify false))
    (hbound : Schema.tallyAll (Kind.arrays tuples lists) schemas ≤ bound) :
    T (fun merged => merged.DistinctNames ∧ merged.tally (Kind.arrays tuples lists) ≤
        Schema.tallyAll (Kind.arrays tuples lists) schemas)
      (RpcSchema.combine false .any schemas) := by
  have hsublist : (schemas.filter fun schema => !schema.isAcknowledgment).Sublist schemas :=
    List.filter_sublist
  have hle : Schema.tallyAll (Kind.arrays tuples lists) _ ≤ _ :=
    Schema.tallyAll_le_of_sublist hsublist
  rw [RpcSchema.combine, Schema.unifyPayloads_eq]
  refine h.judgement.bind (h.judgement.unifyItems_forall₂ (r := Schema.Within tuples lists)
    fun schema hschema => hunify schema (hsublist.mem hschema)) fun unified hunified => ?_
  have hle' := Schema.tallyAll_le_of_forall₂ (hunified.imp fun _ _ hwithin => hwithin.2)
  cases unified with
  | cons first rest =>
    have hall : ∀ schema ∈ first :: rest, schema.DistinctNames := by
      intro schema hschema
      obtain ⟨_, _, hwithin⟩ := exists_mem_of_forall₂_right hunified hschema
      exact hwithin.1
    obtain ⟨hfirst, hrest⟩ := List.forall_mem_cons.mp hall
    rw [Schema.tallyAll_cons] at hle'
    refine h.judgement.mono (h.uniteAll hfirst hrest (by omega)) fun merged hmerged => ⟨hmerged.1, ?_⟩
    have hle'' := hmerged.2
    omega
  | nil =>
    -- Nothing but acknowledgments: the first one stands as it is.
    refine h.judgement.pure ?_
    cases schemas with
    | nil =>
      refine ⟨.intro (.ofKind rfl rfl) (List.forall_mem_nil _), ?_⟩
      exact Nat.le_refl 0
    | cons first rest =>
      exact ⟨hnames first (List.mem_cons_self ..), Schema.tally_le_tallyAll (List.mem_cons_self ..)⟩

/-- **What unification keeps and counts** where there are no intersections. -/
theorem Union.Accounting.unify
    (h : Accounting T Schema.NamesApart (Kind.arrays tuples lists) bound) {schema : Schema}
    (hnames : schema.DistinctNames) (hunions : schema.Every Schema.NoIntersection)
    (hbound : schema.tally (Kind.arrays tuples lists) ≤ bound) :
    T (schema.Within tuples lists) (schema.unify false) := by
  induction schema using Schema.induction_parts with
  | h schema ih =>
    have hparts : ∀ part ∈ schema.kind.parts, T (part.Within tuples lists) (part.unify false) :=
      fun part hpart => ih part hpart (hnames.parts part hpart) (hunions.parts part hpart)
        (Nat.le_trans (Schema.tally_le_of_mem_parts hpart) hbound)
    -- What is no composition is rebuilt of its unified parts; a union collapses.
    by_cases hplain : schema.kind.isComposition = false
    · refine h.judgement.mono (h.judgement.unify_rebuilt (r := Schema.Within tuples lists) hplain
        hparts) ?_
      rintro _ ⟨kind, hkind, rfl⟩
      refine ⟨.intro (hkind.namesApart hnames.own _) fun part hpart => ?_, ?_⟩
      · obtain ⟨_, _, hwithin⟩ := exists_mem_of_forall₂_right hkind.parts hpart
        exact hwithin.1
      · rw [Schema.tally_eq, Schema.tally_eq schema, hkind.arrays_eq]
        exact Nat.add_le_add_left (Schema.tallyAll_le_of_forall₂
          (hkind.parts.imp fun _ _ hwithin => hwithin.2)) _
    · have hown : schema.NoIntersection := hunions.own
      have hextra := hnames.own.extra
      have hbranches := hnames.parts
      obtain ⟨title, description, kind, extra⟩ := schema
      cases kind with
      | allOf parts => cases hown
      | anyOf branches =>
        rw [Schema.unify_anyOf]
        have hle : Schema.tallyAll (Kind.arrays tuples lists) branches ≤ bound :=
          Nat.le_trans (Nat.le_add_left _ _) (Schema.tally_eq _ ▸ hbound)
        refine h.judgement.bind (h.combine_any hbranches hparts hle) fun merged hmerged =>
          h.judgement.pure ⟨?_, ?_⟩
        · refine (Schema.every_overlay (r := fun _ => True) ?_ hextra _).mono fun _ hinner => hinner.1
          exact hmerged.1.mono fun _ hinner => ⟨hinner, trivial⟩
        · have hmerged' : (merged.overlay title description extra (1 < branches.length)).tally
              (Kind.arrays tuples lists) = merged.tally (Kind.arrays tuples lists) :=
            Schema.tally_congr rfl
          rw [hmerged', Schema.tally_eq ⟨title, description, .anyOf branches, extra⟩]
          exact Nat.le_trans hmerged.2 (Nat.le_add_left _ _)
      | _ => exact absurd rfl hplain

/-- The collapse of schemas without intersections succeeds, unless arrays that make a clash come
together. -/
theorem succeeds_combine_any (tuples lists bound : ℕ) {schemas : List Schema}
    (hnames : ∀ schema ∈ schemas, schema.DistinctNames)
    (hunions : ∀ schema ∈ schemas, schema.Every Schema.NoIntersection)
    (hbound : Schema.tallyAll (Kind.arrays tuples lists) schemas ≤ bound)
    (hclash : ∀ k l, Union.Clash k l →
      k.arrays tuples lists + l.arrays tuples lists ≤ bound → clash) :
    (combine false .any schemas).Succeeds clash fun _ => True := by
  have haccounting := accounting_succeeds hclash
  refine haccounting.judgement.mono (haccounting.combine_any hnames (fun schema hschema => ?_) hbound)
    fun _ _ => trivial
  have hle : schema.tally (Kind.arrays tuples lists) ≤ _ := Schema.tally_le_tallyAll hschema
  exact haccounting.unify (hnames schema hschema) (hunions schema hschema) (Nat.le_trans hle hbound)

/-- **A collapse fails on arrays by position only**, whatever is registered already, if there is no
intersection at any depth.  It does not fail if there is no second such array at any depth, and no
array of items beside the one that there is. -/
theorem combine_any_succeeds {schemas : List Schema}
    (hnames : ∀ schema ∈ schemas, schema.DistinctNames)
    (hunions : ∀ schema ∈ schemas, schema.Every Schema.NoIntersection) (registry : Registry) :
    let within := schemas.flatMap Schema.all
    (∀ conflict registry', (combine false .any schemas).run.run registry =
        (.error conflict, registry') → conflict = .tuples) ∧
      (within.countP (·.kind.isTuple) ≤ 1 →
        (∀ array ∈ within, array.kind.isTuple = true →
          ∀ other ∈ within, other.kind.isListOf = false) →
        ∃ merged registry',
          (combine false .any schemas).run.run registry = (.ok merged, registry')) := by
  intro within
  constructor
  · intro conflict registry' hrun
    have hsucceeds : (combine false .any schemas).Succeeds True fun _ => True :=
      succeeds_combine_any 0 0 _ hnames hunions (Nat.le_refl _)
        fun _ _ _ _ => trivial
    rcases hsucceeds registry with ⟨value, _, hvalue, -⟩ | ⟨-, _, hconflict⟩
    · cases (Prod.mk.inj (hvalue.symm.trans hrun)).1
    · exact (Except.error.inj (Prod.mk.inj (hconflict.symm.trans hrun)).1).symm
  · intro htuples hlists
    have hsucceeds : (combine false .any schemas).Succeeds False fun _ => True := by
      by_cases hnone : within.countP (·.kind.isTuple) = 0
      · -- Without an array by position nothing is counted, and a clash counts.
        refine succeeds_combine_any 1 0 0 hnames hunions ?_ ?_
        · rw [Schema.tallyAll_arrays, hnone]
          omega
        · exact fun k l h hle => absurd (Nat.le_trans h.le_arrays hle) (by decide)
      · -- With one of them there are no arrays of items, and a clash counts two at least.
        have hnone' : within.countP (·.kind.isListOf) = 0 := by
          obtain ⟨array, harray, htuple⟩ := List.countP_pos_iff.mp (Nat.pos_of_ne_zero hnone)
          rw [List.countP_eq_zero]
          intro other hother
          rw [hlists array harray htuple other hother]
          exact Bool.false_ne_true
        refine succeeds_combine_any 1 1 1 hnames hunions ?_ ?_
        · rw [Schema.tallyAll_arrays, hnone', Nat.mul_zero, Nat.add_zero, Nat.one_mul]
          exact htuples
        · exact fun k l h hle => absurd (Nat.le_trans h.le_arrays hle) (by decide)
    rcases hsucceeds registry with ⟨merged, registry', hrun, -⟩ | ⟨hfalse, -⟩
    · exact ⟨merged, registry', hrun⟩
    · exact hfalse.elim

/-- Two records of which one knows the positions of a pair, beside an array of them that says
nothing of the pair. -/
theorem combine_any_succeeds_pair :
    let pair : Schema := .ofKind (.tuple [.ofKind (.primitive .string), .ofKind (.primitive .integer)])
    let entry (value : Schema) : Schema :=
      .ofKind (.object ⟨[("entry", value)], ["entry"], .unstated, [], none⟩)
    let schemas := [entry pair, .ofKind (.anyOf [entry (.ofKind .list), .ofKind .list])]
    (∀ schema ∈ schemas, schema.DistinctNames) ∧
      (∀ schema ∈ schemas, schema.Every Schema.NoIntersection) ∧
      ∃ merged registry', (combine false .any schemas).run.run ⟨[], []⟩ = (.ok merged, registry') := by
  intro pair entry schemas
  have hnames : ∀ schema ∈ schemas, schema.DistinctNames := by decide
  have hunions : ∀ schema ∈ schemas, schema.Every Schema.NoIntersection := by decide
  exact ⟨hnames, hunions, (combine_any_succeeds hnames hunions ⟨[], []⟩).2 (by decide) (by decide)⟩

end RpcSchema
