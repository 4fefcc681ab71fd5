import RpcSchema.Proofs.Promotion.Expansion
import RpcSchema.Proofs.Unification.Elimination

/-!
# Acknowledgments beside payloads

Acknowledgments take no part in a collapse.  What is collapsed are the payloads beside them, one
after the other, so that acknowledgments change neither the schema that comes out nor what is
registered on the way, wherever they stand among the payloads and however many there are.

One thing is decided by all branches, though, and not by the payloads: whether the union is a
composite.  A lone payload is none, and lends its title to a union without one.  Beside an
acknowledgment it lends no title.

## Main results

* `combine_any_payloads` — a list of schemas is collapsed as its payloads are.
* `Schema.unify_payloads` — a union is collapsed as the union of its payloads, but for the title
  of a lone payload.
* `Schema.not_unify_payloads_named` — that title is lost beside an acknowledgment.
-/

namespace RpcSchema

variable {preserveUnions : Bool} {branches : List Schema}

/-- **Acknowledgments take no part in a collapse** beside a payload. -/
theorem combine_any_payloads (h : (Kind.anyOf branches).payloads ≠ []) :
    combine preserveUnions .any (Kind.anyOf branches).payloads =
      combine preserveUnions .any branches := by
  have hpayloads : (Schema.unifyPayloads preserveUnions branches).Ensures fun unified =>
      unified ≠ [] := by
    have hunified : (Schema.unifyPayloads preserveUnions branches).Ensures fun unified =>
        (∀ payload ∈ unified, True) ∧ (unified = [] → branches.all Schema.isAcknowledgment = true) :=
      Unifying.judgement_ensures.unifyPayloads fun _ _ _ _ _ _ _ => trivial
    refine hunified.mono fun unified hunified hnil => h ?_
    rw [Kind.payloads, List.filter_eq_nil_iff]
    intro branch hbranch
    rw [List.all_eq_true.mp (hunified.2 hnil) branch hbranch]
    exact Bool.false_ne_true
  have hagain : Schema.unifyPayloads preserveUnions (Kind.anyOf branches).payloads =
      Schema.unifyPayloads preserveUnions branches := by
    rw [Schema.unifyPayloads_eq, Schema.unifyPayloads_eq, Kind.payloads, List.filter_filter]
    simp only [Bool.and_self]
  rw [combine, combine, hagain]
  -- The branches themselves are only looked at when nothing was unified.
  refine hpayloads.bind_congr fun unified hne => ?_
  cases unified with
  | nil => exact absurd rfl hne
  | cons first rest => rfl

namespace Schema

theorem run_unify_anyOf (title description : Option String) (branches : List Schema)
    (extra : Fields Json) (registry : Registry) :
    ((⟨title, description, .anyOf branches, extra⟩ : Schema).unify false).run.run registry =
      (((combine false .any branches).run.run registry).1.map
          (overlay title description extra (1 < branches.length)),
        ((combine false .any branches).run.run registry).2) := by
  rw [unify_anyOf, Unifying.run_bind]
  cases (combine false .any branches).run.run registry with
  | mk outcome registry' => cases outcome <;> rfl

/-- Whether a result is a composite matters to its title only, when the composition has none. -/
theorem overlay_eq_iff {title description : Option String} {extra : Fields Json}
    {composite composite' : Bool} {merged : Schema} :
    merged.overlay title description extra composite =
        merged.overlay title description extra composite' ↔
      title.isSome = true ∨ composite = composite' ∨ merged.title = none := by
  cases title <;> cases composite <;> cases composite' <;> simp [overlay, eq_comm]

/-- **A union is collapsed as the union of its payloads**, with the same title, description and
further keywords and the same registrations.  The only exception is the title of a lone payload:
a union without a title takes it on, unless an acknowledgment stands beside the payload.  All else
is the same then too. -/
theorem unify_payloads (title description : Option String) (extra : Fields Json)
    (registry : Registry) (hpayload : ∃ branch ∈ branches, branch.isAcknowledgment = false) :
    let payloads := branches.filter fun branch => !branch.isAcknowledgment
    let run := ((⟨title, description, .anyOf branches, extra⟩ : Schema).unify false).run.run registry
    let run' := ((⟨title, description, .anyOf payloads, extra⟩ : Schema).unify false).run.run registry
    (run = run' ↔ title.isSome = true ∨ 2 ≤ payloads.length ∨ payloads = branches ∨
      ∀ unified, run'.1 = .ok unified → unified.title = none) ∧
    run.1.map withoutTitle = run'.1.map withoutTitle ∧ run.2 = run'.2 := by
  intro payloads run run'
  have hne : payloads ≠ [] := by
    obtain ⟨branch, hbranch, hpayload⟩ := hpayload
    exact List.ne_nil_of_mem (Kind.mem_payloads_anyOf hbranch hpayload)
  have hlone : 1 ≤ payloads.length := List.length_pos_iff.mpr hne
  have hsublist : payloads.Sublist branches := List.filter_sublist
  -- Both unions are composites, or both are none, unless a lone payload has company.
  have hcomposite : decide (1 < branches.length) = decide (1 < payloads.length) ↔
      2 ≤ payloads.length ∨ payloads = branches := by
    have hle := hsublist.length_le
    have heq : payloads = branches ↔ payloads.length = branches.length :=
      ⟨congrArg List.length, hsublist.eq_of_length⟩
    rw [decide_eq_decide, heq]
    omega
  have hsame : combine false .any payloads = combine false .any branches := combine_any_payloads hne
  have hrun : run = _ := run_unify_anyOf title description branches extra registry
  have hrun' : run' = _ := run_unify_anyOf title description payloads extra registry
  rw [hsame] at hrun'
  rw [hrun, hrun']
  cases (combine false .any branches).run.run registry with
  | mk outcome registry' =>
    cases outcome with
    | error conflict => exact ⟨iff_of_true rfl (.inr (.inr (.inr (by rintro _ ⟨⟩)))), rfl, rfl⟩
    | ok merged =>
      refine ⟨?_, rfl, rfl⟩
      have hequal : ((.ok (merged.overlay title description extra (1 < branches.length)),
            registry') : Except Conflict Schema × Registry) =
          (.ok (merged.overlay title description extra (1 < payloads.length)), registry') ↔
            title.isSome = true ∨ (2 ≤ payloads.length ∨ payloads = branches) ∨
              merged.title = none := by
        rw [← hcomposite, ← overlay_eq_iff, Prod.mk.injEq, Except.ok.injEq]
        exact and_iff_left rfl
      -- A lone payload keeps its title in a union without one.
      have htitle : ¬title.isSome = true → ¬2 ≤ payloads.length →
          (merged.overlay title description extra (1 < payloads.length)).title = merged.title := by
        intro hsome hshort
        have hcomposite : decide (1 < payloads.length) = false := decide_eq_false hshort
        rw [overlay, hcomposite, Bool.or_false, if_neg hsome]
      refine hequal.trans ?_
      by_cases hsome : title.isSome = true
      · exact iff_of_true (.inl hsome) (.inl hsome)
      by_cases hlong : 2 ≤ payloads.length
      · exact iff_of_true (.inr (.inl (.inl hlong))) (.inr (.inl hlong))
      have huntitled : merged.title = none ↔ ∀ unified, Except.map
          (overlay title description extra (1 < payloads.length)) (.ok merged : Except Conflict Schema)
            = .ok unified → unified.title = none := by
        rw [← htitle hsome hlong]
        refine ⟨?_, fun h => h _ rfl⟩
        rintro h unified heq
        exact Except.ok.inj heq ▸ h
      rw [huntitled, or_assoc]

/-- Acknowledgments before and between two payloads: a text and a number are left, as if they stood
alone. -/
theorem unify_payloads_ticker :
    let acknowledgment : Schema := ⟨some "ListenResponse", none, .object .blank, []⟩
    let text : Schema := ⟨some "Text", none, .primitive .string, []⟩
    let count : Schema := .ofKind (.primitive .integer)
    let branches := [acknowledgment, text, acknowledgment, count]
    (∃ branch ∈ branches, branch.isAcknowledgment = false) ∧
      ((⟨none, some "What ticks.", .anyOf branches, []⟩ : Schema).unify false).run.run ⟨[], []⟩ =
        (.ok ⟨none, some "What ticks.", .anyOf [text, count], []⟩, ⟨[], []⟩) := by
  intro acknowledgment text count branches
  have hpayload : ∃ branch ∈ branches, branch.isAcknowledgment = false :=
    ⟨text, by simp [branches], by decide⟩
  obtain ⟨hsame, -⟩ := unify_payloads none (some "What ticks.") [] ⟨[], []⟩ hpayload
  exact ⟨hpayload, hsame.mpr (.inr (.inl (by decide)))⟩

/-- An acknowledgment beside one payload: the title of the payload is lost. -/
theorem not_unify_payloads_named :
    ¬∀ (title description : Option String) (branches : List Schema) (extra : Fields Json)
      (registry : Registry), (∃ branch ∈ branches, branch.isAcknowledgment = false) →
      ((⟨title, description, .anyOf branches, extra⟩ : Schema).unify false).run.run registry =
        ((⟨title, description, .anyOf (branches.filter fun branch => !branch.isAcknowledgment),
          extra⟩ : Schema).unify false).run.run registry := by
  intro hclaim
  let acknowledgment : Schema := ⟨some "ListenResponse", none, .object .blank, []⟩
  let text : Schema := ⟨some "Text", none, .primitive .string, []⟩
  have hunion : ((Schema.ofKind (.anyOf [acknowledgment, text])).unify false).run.run ⟨[], []⟩ =
      (.ok (.ofKind (.primitive .string)), ⟨[], []⟩) := by rfl
  have halone : ((Schema.ofKind (.anyOf [text])).unify false).run.run ⟨[], []⟩ =
      (.ok text, ⟨[], []⟩) := by rfl
  have hsame := hclaim none none [acknowledgment, text] [] ⟨[], []⟩ ⟨text, by simp, by decide⟩
  have hequal := Except.ok.inj (Prod.mk.inj (hunion.symm.trans (hsame.trans halone))).1
  cases congrArg Schema.title hequal

end Schema

end RpcSchema
