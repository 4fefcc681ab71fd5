import RpcSchema.Proofs.Dereference.Simulation

/-!
# Walks that fail

A walk fails for one reason only: a reference that it meets has no target.  Where a call fails, it
meets such a reference itself, or a call that it makes fails; and calls end, so the reference is
met by one of the calls that it leads to.  The failure names the document that the reference stands
in, the pointer to it in the result and the reference.

Conversely a walk that succeeds has walked everything: all calls that it leads to succeed.  So one
reference without a target, wherever it is met, is enough for the walk to fail.

## Main definitions

* `Call.Lacks` — the value of a call makes a reference without a target.
* `Store.Replaces` — a walked value takes the place of a reference.

## Main results

* `Walk.value_eq_error` — where one level of a walk fails.
* `exists_lacks_of_error` — dereferencing fails for a reference without a target.
* `Walks.replaces` — a walk that succeeds replaces the references that it meets.
* `Walks.of_leads` — a walk that succeeds walks everything that it leads to.
* `exists_error_iff` — when dereferencing fails.
-/

namespace RpcSchema

open Relation

/-- The value of the call makes a reference that has no target, and `failure` says so. -/
def Call.Lacks (store : Store) (call : Call) (failure : Failure) : Prop :=
  ∃ fields reference, call.value = .object fields ∧ referenceOf? fields = some reference ∧
    store.locate? reference call.frame.source = none ∧
      failure = Walk.missing call.frame reference

/-- `walked` takes the place of the reference that `fields` make: what stands beside it is walked,
and then the reference is marked as left in place, in canonical form, or what stands beside it is
laid over the walked target. -/
def Store.Replaces (store : Store) (frame : Frame) (fields : Fields Json) (reference : String)
    (target : Target) (walked : Json) : Prop :=
  let key := target.canonical frame.home reference
  let treatment := Walk.treatment .standard frame reference target
  ∃ fields' before between, WalksMembers ⟨store, .standard⟩ frame fields before fields' between ∧
    let beside := Fields.swapErase fields' "$ref"
    (treatment = .leave ∧ walked = .object (Fields.set beside markerKeyword (.string key)) ∨
      treatment = .inline ∧ ∃ expanded after,
        Walks ⟨store, .standard⟩ (frame.expand target.source key) target.node between expanded
          after ∧ walked = overlayTarget beside expanded)

section Errors

variable {setting : WalkSetting} {walk : Frame → Json → Walking Json} {log : WalkLog}
  {failure : Failure}

/-- A step followed by another fails when one of them does. -/
theorem Walking.run_bind_eq_error {α β : Type} {first : Walking α} {next : α → Walking β} :
    (first >>= next).run log = .error failure ↔ first.run log = .error failure ∨
      ∃ value log', first.run log = .ok (value, log') ∧ (next value).run log' = .error failure := by
  rw [StateT.run_bind]
  cases hfirst : first.run log with
  | error other => simp [bind, Except.bind]
  | ok found =>
    obtain ⟨value, log'⟩ := found
    simp [bind, Except.bind]

/-- Members fail where one of them does. -/
theorem Walk.members_eq_error {frame : Frame} {fields : Fields Json}
    (h : (Walk.members setting walk frame fields).run log = .error failure) :
    ∃ name part, (name, part) ∈ fields ∧ isOpaqueKeyword name = false ∧ ∃ log',
      (Walk.value setting walk (frame.member name) part).run log' = .error failure := by
  induction fields generalizing log with
  | nil => cases h
  | cons entry rest ih =>
    obtain ⟨name, part⟩ := entry
    -- What remains after a member fails in a later one.
    have hlater : ∀ {walked : Json} {log : WalkLog},
        (Walk.members setting walk frame rest >>= fun others => pure ((name, walked) :: others)).run
          log = .error failure →
        ∃ other found, (other, found) ∈ (name, part) :: rest ∧ isOpaqueKeyword other = false ∧
          ∃ log',
            (Walk.value setting walk (frame.member other) found).run log' = .error failure := by
      intro walked log h
      rcases Walking.run_bind_eq_error.mp h with h | ⟨others, last, -, h⟩
      · obtain ⟨other, found, hmem, hfails⟩ := ih h
        exact ⟨other, found, List.mem_cons_of_mem _ hmem, hfails⟩
      · cases h
    by_cases hname : isOpaqueKeyword name = true
    · rw [Walk.members, if_pos hname, pure_bind] at h
      exact hlater h
    · rw [Walk.members, if_neg hname] at h
      rcases Walking.run_bind_eq_error.mp h with h | ⟨walked, between, -, h⟩
      · exact ⟨name, part, List.mem_cons_self, by simpa using hname, log, h⟩
      · exact hlater h

/-- Items fail where one of them does. -/
theorem Walk.items_eq_error {frame : Frame} {first : Nat} {items : List Json}
    (h : (Walk.items setting walk frame first items).run log = .error failure) :
    ∃ offset part, items[offset]? = some part ∧ ∃ log',
      (Walk.value setting walk (frame.item (first + offset)) part).run log' = .error failure := by
  induction items generalizing log first with
  | nil => cases h
  | cons item rest ih =>
    rw [Walk.items, Walking.run_bind_eq_error] at h
    rcases h with h | ⟨walked, between, -, h⟩
    · exact ⟨0, item, rfl, log, h⟩
    · rw [Walking.run_bind_eq_error] at h
      rcases h with h | ⟨others, last, -, h⟩
      · obtain ⟨offset, part, hpart, hfails⟩ := ih h
        rw [Nat.add_assoc, Nat.add_comm 1 offset] at hfails
        exact ⟨offset + 1, part, hpart, hfails⟩
      · cases h

/-- A reference with a target fails only where its target does. -/
theorem Walk.replace_eq_error {frame : Frame} {fields walked : Fields Json} {reference : String}
    {target : Target} (href : RefersTo setting.store frame.source fields reference target)
    (h : (Walk.replace setting walk frame reference target walked).run log = .error failure) :
    ∃ key next, Expands setting ⟨frame, .object fields⟩ key next ∧ ∃ log',
      (walk next.frame next.value).run log' = .error failure := by
  unfold Walk.replace at h
  dsimp only at h
  cases htreat : Walk.treatment setting.options frame reference target with
  | keep =>
    rw [htreat] at h
    cases h
  | leave =>
    rw [htreat] at h
    cases h
  | inline =>
    simp only [htreat, Walking.run_bind_eq_error] at h
    rcases h with h | ⟨expanded, between, -, h⟩
    · exact ⟨_, _, .inline href htreat, log, h⟩
    · cases h
  | copy name =>
    simp only [htreat, Walking.run_bind_eq_error] at h
    rcases h with h | ⟨-, between, -, h⟩
    · -- Only a target that is not being expanded is copied.
      rw [Walk.copy] at h
      change ((if _ then _ else _ : Walking Unit)).run log = _ at h
      split at h
      · cases h
      · next hnew =>
        rw [Walking.run_bind_eq_error] at h
        rcases h with h | ⟨copied, between, -, h⟩
        · exact ⟨_, _, .copy href htreat (by simp at hnew; exact hnew.2), log, h⟩
        · cases h
    · cases h

/-- **Where one level of a walk fails**: the value makes a reference without a target, or a part
of it or its target fails. -/
theorem Walk.value_eq_error {frame : Frame} {value : Json}
    (h : (Walk.value setting walk frame value).run log = .error failure) :
    Call.Lacks setting.store ⟨frame, value⟩ failure ∨
      (∃ part, Descends ⟨frame, value⟩ part ∧ ∃ log',
        (Walk.value setting walk part.frame part.value).run log' = .error failure) ∨
      ∃ key next, Expands setting ⟨frame, value⟩ key next ∧ ∃ log',
        (walk next.frame next.value).run log' = .error failure := by
  -- The members of an object are walked before its reference is followed.
  cases value with
  | array items =>
    rw [Walk.value, Walking.run_bind_eq_error] at h
    rcases h with h | ⟨walked, between, -, h⟩
    · obtain ⟨offset, part, hpart, hfails⟩ := Walk.items_eq_error h
      rw [Nat.zero_add] at hfails
      exact .inr (.inl ⟨⟨frame.item offset, part⟩, .item hpart, hfails⟩)
    · cases h
  | object fields =>
    have hmembers : ∀ {log : WalkLog},
        (Walk.members setting walk (frame.inside fields) fields).run log = .error failure →
          ∃ part, Descends ⟨frame, .object fields⟩ part ∧ ∃ log',
            (Walk.value setting walk part.frame part.value).run log' = .error failure := by
      intro log h
      obtain ⟨name, part, hmem, hname, hfails⟩ := Walk.members_eq_error h
      exact ⟨⟨(frame.inside fields).member name, part⟩, .member hmem hname, hfails⟩
    cases hmade : referenceOf? fields with
    | none =>
      simp only [Walk.value, hmade, ← Frame.inside_of_none hmade, Walking.run_bind_eq_error] at h
      rcases h with h | ⟨walked, between, -, h⟩
      · exact .inr (.inl (hmembers h))
      · cases h
    | some reference =>
      cases hfound : setting.store.locate? reference frame.source with
      | none =>
        simp only [Walk.value, hmade, hfound] at h
        exact .inl ⟨fields, reference, rfl, hmade, hfound, (Except.error.inj h).symm⟩
      | some target =>
        have hinside := Frame.inside_of_some hmade frame
        simp only [Walk.value, hmade, hfound, Walking.run_bind_eq_error] at h
        rcases h with h | ⟨walked, between, -, h⟩
        · rw [← hinside] at h
          exact .inr (.inl (hmembers h))
        · exact .inr (.inr (Walk.replace_eq_error ⟨hmade, hfound⟩ h))
  | _ => cases h

end Errors

/-! ### Walks that succeed walk everything -/

section Whole

variable {setting : WalkSetting} {store : Store} {log log' : WalkLog}

/-- Every member is walked, unless it holds data. -/
theorem WalksMembers.of_mem {frame : Frame} {fields fields' : Fields Json} {name : String}
    {part : Json} (h : WalksMembers setting frame fields log fields' log')
    (hmem : (name, part) ∈ fields) (hname : isOpaqueKeyword name = false) :
    ∃ walked before after, (name, walked) ∈ fields' ∧
      Walks setting (frame.member name) part before walked after := by
  induction fields generalizing log fields' with
  | nil => cases hmem
  | cons entry rest ih =>
    cases h with
    | data hopaque hrest =>
      rcases List.mem_cons.mp hmem with heq | hmem
      · obtain ⟨rfl, rfl⟩ := Prod.mk.inj heq
        rw [hname] at hopaque
        cases hopaque
      · obtain ⟨walked, before, after, hwalked, hwalks⟩ := ih hrest hmem
        exact ⟨walked, before, after, List.mem_cons_of_mem _ hwalked, hwalks⟩
    | member _ hpart hrest =>
      rcases List.mem_cons.mp hmem with heq | hmem
      · obtain ⟨rfl, rfl⟩ := Prod.mk.inj heq
        exact ⟨_, _, _, List.mem_cons_self, hpart⟩
      · obtain ⟨walked, before, after, hwalked, hwalks⟩ := ih hrest hmem
        exact ⟨walked, before, after, List.mem_cons_of_mem _ hwalked, hwalks⟩

/-- Every item is walked. -/
theorem WalksItems.exists_walks {frame : Frame} {first offset : Nat} {items items' : List Json}
    {part : Json} (h : WalksItems setting frame first items log items' log')
    (hpart : items[offset]? = some part) :
    ∃ walked before after,
      Walks setting (frame.item (first + offset)) part before walked after := by
  induction items generalizing first log items' offset with
  | nil => cases hpart
  | cons item rest ih =>
    cases h with
    | item hitem hrest =>
      cases offset with
      | zero =>
        obtain rfl := Option.some.inj hpart
        exact ⟨_, _, _, hitem⟩
      | succ offset =>
        rw [Nat.add_comm offset, ← Nat.add_assoc]
        exact ih hrest hpart

/-- The members of an object are walked, whatever becomes of the reference that they make. -/
theorem Walks.members_walked {frame : Frame} {fields : Fields Json} {walked : Json}
    (h : Walks setting frame (.object fields) log walked log') :
    ∃ fields' between, WalksMembers setting (frame.inside fields) fields log fields' between := by
  cases h with
  | scalar hobject => simp at hobject
  | object _ hmembers | keep _ _ hmembers | copied _ _ hmembers _ | copy _ _ hmembers _ _ _
  | leave _ _ hmembers | inline _ _ hmembers _ => exact ⟨_, _, hmembers⟩

/-- A reference that is walked has a target. -/
theorem Walks.not_lacks {call : Call} {walked : Json} {failure : Failure}
    (h : Walks setting call.frame call.value log walked log') :
    ¬ call.Lacks setting.store failure := by
  rintro ⟨fields, reference, hvalue, hmade, hmissing, -⟩
  rw [hvalue] at h
  cases h with
  | scalar hobject => simp at hobject
  | object hnone => exact absurd hmade (by simp [hnone])
  | keep href | copied href | copy href | leave href | inline href =>
    obtain rfl := Option.some.inj (href.made.symm.trans hmade)
    exact absurd href.found (by simp [hmissing])

/-- A reference that has a target is replaced. -/
theorem Walks.replaces {frame : Frame} {fields : Fields Json} {reference : String}
    {target : Target} {walked : Json} (href : RefersTo store frame.source fields reference target)
    (h : Walks ⟨store, .standard⟩ frame (.object fields) log walked log') :
    store.Replaces frame fields reference target walked := by
  have hinside := Frame.inside_of_some href.made frame
  cases h with
  | scalar hobject => simp at hobject
  | object hnone => exact absurd href.made (by simp [hnone])
  | keep _ htreat => exact absurd htreat Walk.treatment_standard_ne_keep
  | copied _ htreat | copy _ htreat => exact absurd htreat Walk.treatment_standard_ne_copy
  | leave href' htreat hmembers =>
    obtain ⟨rfl, rfl⟩ := href.unique href'
    exact ⟨_, _, _, hinside ▸ hmembers, .inl ⟨htreat, rfl⟩⟩
  | inline href' htreat hmembers htarget =>
    obtain ⟨rfl, rfl⟩ := href.unique href'
    exact ⟨_, _, _, hinside ▸ hmembers, .inr ⟨htreat, _, _, htarget, rfl⟩⟩

/-- What a call walks, the calls that it makes walk. -/
theorem Walks.of_calls {call next : Call} {walked : Json}
    (h : Walks ⟨store, .standard⟩ call.frame call.value log walked log')
    (hcall : Calls ⟨store, .standard⟩ call next) :
    ∃ walked before after, Walks ⟨store, .standard⟩ next.frame next.value before walked after := by
  rcases hcall with hpart | ⟨key, hnext⟩
  · cases hpart with
    | member hmem hname =>
      obtain ⟨fields', between, hmembers⟩ := h.members_walked
      obtain ⟨walked, before, after, -, hwalks⟩ := hmembers.of_mem hmem hname
      exact ⟨walked, before, after, hwalks⟩
    | item hitem =>
      cases h with
      | scalar _ harray => simp at harray
      | array hitems =>
        obtain ⟨walked, before, after, hwalks⟩ := hitems.exists_walks hitem
        rw [Nat.zero_add] at hwalks
        exact ⟨walked, before, after, hwalks⟩
  · cases hnext with
    | inline href htreat =>
      obtain ⟨_, _, between, -, ⟨hleave, -⟩ | ⟨-, expanded, last, htarget, -⟩⟩ := h.replaces href
      · rw [htreat] at hleave
        cases hleave
      · exact ⟨expanded, between, last, htarget⟩
    | copy _ htreat => exact absurd htreat Walk.treatment_standard_ne_copy

/-- **A walk that succeeds walks everything that it leads to.** -/
theorem Walks.of_leads {call next : Call} {walked : Json}
    (h : Walks ⟨store, .standard⟩ call.frame call.value log walked log')
    (hcalls : ReflTransGen (Calls ⟨store, .standard⟩) call next) :
    ∃ walked before after, Walks ⟨store, .standard⟩ next.frame next.value before walked after := by
  induction hcalls with
  | refl => exact ⟨walked, log, log', h⟩
  | tail _ hcall ih =>
    obtain ⟨_, _, _, hwalks⟩ := ih
    exact hwalks.of_calls hcall

end Whole

/-! ### Dereferencing -/

section Dereferencing

variable {store : Store} {options : DereferenceOptions} {context : store.Context} {node : Json}
  {path : String} {failure : Failure}

/-- A call that fails leads to one whose value makes a reference without a target. -/
theorem IsWalk.exists_lacks {start call : Call} {walk : Frame → Json → Walking Json}
    (hstart : start.InScope store context node) (hwalk : IsWalk ⟨store, options⟩ start walk)
    {keys : List String} (hcall : Reaches ⟨store, options⟩ start keys call) {log : WalkLog}
    (h : (walk call.frame call.value).run log = .error failure) :
    ∃ last, ReflTransGen (Calls ⟨store, options⟩) call last ∧ last.Lacks store failure := by
  have hacc : Acc (fun next call => Calls ⟨store, options⟩ call next) call :=
    (hcall.inScope hstart).acc
  induction hacc generalizing keys log with
  | intro call _ ih =>
    rw [hwalk keys call hcall] at h
    rcases Walk.value_eq_error h with hlacks | ⟨part, hpart, log', hfails⟩ |
      ⟨key, next, hnext, log', hfails⟩
    · exact ⟨call, .refl, hlacks⟩
    · rw [← hwalk keys part (hcall.descend hpart)] at hfails
      obtain ⟨last, hlast, hlacks⟩ := ih part (.inl hpart) (hcall.descend hpart) hfails
      exact ⟨last, .head (.inl hpart) hlast, hlacks⟩
    · obtain ⟨last, hlast, hlacks⟩ := ih next (.inr ⟨key, hnext⟩) (hcall.expand hnext) hfails
      exact ⟨last, .head (.inr ⟨key, hnext⟩) hlast, hlacks⟩

/-- **Dereferencing fails for a reference without a target** that it meets. -/
theorem exists_lacks_of_error (h : store.dereferenceAt options node context path = .error failure) :
    ∃ last, ReflTransGen (Calls ⟨store, options⟩) (.start context path node) last ∧
      last.Lacks store failure := by
  have hstart : (Call.start context path node).InScope store context node :=
    Call.inScope_start path
  have hwalk : IsWalk ⟨store, options⟩ (.start context path node)
      (walkWithin ⟨store, options⟩ (store.referenceCount context.document node + 1)) :=
    Store.isWalk_walkWithin hstart
  rw [Store.dereferenceAt] at h
  cases hrun : (walkWithin ⟨store, options⟩ (store.referenceCount context.document node + 1)
    (.start context path) node).run .empty with
  | error other =>
    rw [hrun] at h
    obtain rfl : other = failure := Except.error.inj h
    exact hwalk.exists_lacks hstart .start hrun
  | ok found =>
    rw [hrun] at h
    cases h

/-- **When dereferencing fails**: just when it meets a reference without a target. -/
theorem exists_error_iff :
    (∃ failure, store.dereferenceAt .standard node context path = .error failure) ↔
      ∃ last failure, ReflTransGen (Calls ⟨store, .standard⟩) (.start context path node) last ∧
        last.Lacks store failure := by
  constructor
  · rintro ⟨failure, h⟩
    obtain ⟨last, hlast, hlacks⟩ := exists_lacks_of_error h
    exact ⟨last, failure, hlast, hlacks⟩
  · rintro ⟨last, failure, hlast, hlacks⟩
    cases hrun : store.dereferenceAt .standard node context path with
    | error other => exact ⟨other, rfl⟩
    | ok result =>
      obtain ⟨walked, log, hwalks, -⟩ := dereferenceAt_eq_ok_iff.mp hrun
      obtain ⟨_, _, _, hlast⟩ := Walks.of_leads hwalks hlast
      exact absurd hlacks hlast.not_lacks

end Dereferencing

end RpcSchema
