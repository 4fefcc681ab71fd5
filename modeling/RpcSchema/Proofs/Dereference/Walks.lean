import RpcSchema.Proofs.Dereference.Termination

/-!
# Walks that succeed

What a walk does when no reference lacks a target, as a relation between a value
with the log before and a walked value with the log after.  It has a rule for each
thing that can happen to a value, so that a property of all walks is proved by one
induction over the rules.

## Main definitions

* `Walks`, `WalksMembers`, `WalksItems` — the relation, for values, members and items.

## Main results

* `dereferenceAt_eq_ok_iff` — dereferencing succeeds just with what the relation says.
-/

namespace RpcSchema

mutual

/-- `Walks setting frame value log walked log'` says that the walk of a value turns it
into `walked` and the log into `log'`. -/
inductive Walks (setting : WalkSetting) : Frame → Json → WalkLog → Json → WalkLog → Prop
  | scalar {frame : Frame} {value : Json} {log : WalkLog} (hobject : value.object? = none)
      (harray : value.array? = none) : Walks setting frame value log value log
  | array {frame : Frame} {items items' : List Json} {log log' : WalkLog}
      (hitems : WalksItems setting frame 0 items log items' log') :
      Walks setting frame (.array items) log (.array items') log'
  | object {frame : Frame} {fields fields' : Fields Json} {log log' : WalkLog}
      (hnone : referenceOf? fields = none)
      (hmembers : WalksMembers setting (frame.inside fields) fields log fields' log') :
      Walks setting frame (.object fields) log (.object fields') log'
  /-- A reference that is kept. -/
  | keep {frame : Frame} {fields fields' : Fields Json} {reference : String} {target : Target}
      {log log' : WalkLog} (href : RefersTo setting.store frame.source fields reference target)
      (htreat : Walk.treatment setting.options frame reference target = .keep)
      (hmembers : WalksMembers setting (frame.inside fields) fields log fields' log') :
      Walks setting frame (.object fields) log (.object fields') log'
  /-- A reference whose target is copied already, or about to be. -/
  | copied {frame : Frame} {fields fields' : Fields Json} {reference name : String}
      {target : Target} {log log' : WalkLog}
      (href : RefersTo setting.store frame.source fields reference target)
      (htreat : Walk.treatment setting.options frame reference target = .copy name)
      (hmembers : WalksMembers setting (frame.inside fields) fields log fields' log')
      (hold : Fields.contains log'.components name = true ∨
        target.canonical frame.home reference ∈ frame.expanding) :
      Walks setting frame (.object fields) log
        (.object (Fields.set fields' "$ref" (.string (Reference.toComponent name)))) log'
  /-- A reference whose target is copied. -/
  | copy {frame : Frame} {fields fields' : Fields Json} {reference name : String}
      {target : Target} {log log' log'' : WalkLog} {walked : Json}
      (href : RefersTo setting.store frame.source fields reference target)
      (htreat : Walk.treatment setting.options frame reference target = .copy name)
      (hmembers : WalksMembers setting (frame.inside fields) fields log fields' log')
      (hnew : Fields.contains log'.components name = false)
      (hfresh : target.canonical frame.home reference ∉ frame.expanding)
      (htarget : Walks setting
        ((frame.expand target.source (target.canonical frame.home reference)).goTo
          (Reference.toComponent name)) target.node log' walked log'') :
      Walks setting frame (.object fields) log
        (.object (Fields.set fields' "$ref" (.string (Reference.toComponent name))))
        { log'' with components := Fields.set log''.components name walked }
  /-- A reference that is left in place. -/
  | leave {frame : Frame} {fields fields' : Fields Json} {reference : String} {target : Target}
      {log log' : WalkLog} (href : RefersTo setting.store frame.source fields reference target)
      (htreat : Walk.treatment setting.options frame reference target = .leave)
      (hmembers : WalksMembers setting (frame.inside fields) fields log fields' log') :
      Walks setting frame (.object fields) log
        (.object (Fields.set (Fields.swapErase fields' "$ref") markerKeyword
          (.string (target.canonical frame.home reference))))
        { log' with unresolved :=
          log'.unresolved ++ [⟨frame.path, target.canonical frame.home reference⟩] }
  /-- A reference that gives way to its target. -/
  | inline {frame : Frame} {fields fields' : Fields Json} {reference : String} {target : Target}
      {log log' log'' : WalkLog} {walked : Json}
      (href : RefersTo setting.store frame.source fields reference target)
      (htreat : Walk.treatment setting.options frame reference target = .inline)
      (hmembers : WalksMembers setting (frame.inside fields) fields log fields' log')
      (htarget : Walks setting (frame.expand target.source (target.canonical frame.home reference))
        target.node log' walked log'') :
      Walks setting frame (.object fields) log
        (overlayTarget (Fields.swapErase fields' "$ref") walked) log''

/-- The walk of the members of an object, in the frame of the members. -/
inductive WalksMembers (setting : WalkSetting) :
    Frame → Fields Json → WalkLog → Fields Json → WalkLog → Prop
  | nil {frame : Frame} {log : WalkLog} : WalksMembers setting frame [] log [] log
  /-- A member that holds data stays as it is. -/
  | data {frame : Frame} {name : String} {part : Json} {rest rest' : Fields Json}
      {log log' : WalkLog} (hname : isOpaqueKeyword name = true)
      (hrest : WalksMembers setting frame rest log rest' log') :
      WalksMembers setting frame ((name, part) :: rest) log ((name, part) :: rest') log'
  | member {frame : Frame} {name : String} {part walked : Json} {rest rest' : Fields Json}
      {log log' log'' : WalkLog} (hname : isOpaqueKeyword name = false)
      (hpart : Walks setting (frame.member name) part log walked log')
      (hrest : WalksMembers setting frame rest log' rest' log'') :
      WalksMembers setting frame ((name, part) :: rest) log ((name, walked) :: rest') log''

/-- The walk of items, the first of which has a position. -/
inductive WalksItems (setting : WalkSetting) :
    Frame → Nat → List Json → WalkLog → List Json → WalkLog → Prop
  | nil {frame : Frame} {index : Nat} {log : WalkLog} :
      WalksItems setting frame index [] log [] log
  | item {frame : Frame} {index : Nat} {item walked : Json} {rest rest' : List Json}
      {log log' log'' : WalkLog} (hitem : Walks setting (frame.item index) item log walked log')
      (hrest : WalksItems setting frame (index + 1) rest log' rest' log'') :
      WalksItems setting frame index (item :: rest) log (walked :: rest') log''

end

/-! ### Parts of a walk -/

mutual

/-- What is logged stays logged. -/
theorem Walks.unresolved_subset {setting : WalkSetting} {frame : Frame} {value walked : Json}
    {log log' : WalkLog} : Walks setting frame value log walked log' →
      log.unresolved ⊆ log'.unresolved
  | .scalar _ _ => List.Subset.refl _
  | .array hitems => hitems.unresolved_subset
  | .object _ hmembers => hmembers.unresolved_subset
  | .keep _ _ hmembers => hmembers.unresolved_subset
  | .copied _ _ hmembers _ => hmembers.unresolved_subset
  | .copy _ _ hmembers _ _ htarget =>
    List.Subset.trans hmembers.unresolved_subset htarget.unresolved_subset
  | .leave _ _ hmembers =>
    List.Subset.trans hmembers.unresolved_subset (List.subset_append_left _ _)
  | .inline _ _ hmembers htarget =>
    List.Subset.trans hmembers.unresolved_subset htarget.unresolved_subset

theorem WalksMembers.unresolved_subset {setting : WalkSetting} {frame : Frame}
    {fields fields' : Fields Json} {log log' : WalkLog} :
    WalksMembers setting frame fields log fields' log' → log.unresolved ⊆ log'.unresolved
  | .nil => List.Subset.refl _
  | .data _ hrest => hrest.unresolved_subset
  | .member _ hpart hrest => List.Subset.trans hpart.unresolved_subset hrest.unresolved_subset

theorem WalksItems.unresolved_subset {setting : WalkSetting} {frame : Frame} {index : Nat}
    {items items' : List Json} {log log' : WalkLog} :
    WalksItems setting frame index items log items' log' → log.unresolved ⊆ log'.unresolved
  | .nil => List.Subset.refl _
  | .item hitem hrest => List.Subset.trans hitem.unresolved_subset hrest.unresolved_subset

end

section Parts

variable {setting : WalkSetting}

/-- Members keep their names. -/
theorem WalksMembers.keys_eq {frame : Frame} {fields fields' : Fields Json} {log log' : WalkLog}
    (h : WalksMembers setting frame fields log fields' log') :
    Fields.keys fields' = Fields.keys fields := by
  induction fields generalizing log fields' with
  | nil =>
    cases h
    rfl
  | cons entry rest ih =>
    cases h with
    | data _ hrest => rw [Fields.keys_cons, Fields.keys_cons, ih hrest]
    | member _ _ hrest => rw [Fields.keys_cons, Fields.keys_cons, ih hrest]

/-- Members that hold data stay as they are. -/
theorem WalksMembers.get?_of_opaque {frame : Frame} {fields fields' : Fields Json}
    {log log' : WalkLog} {name : String} (hname : isOpaqueKeyword name = true)
    (h : WalksMembers setting frame fields log fields' log') :
    Fields.get? fields' name = Fields.get? fields name := by
  induction fields generalizing log fields' with
  | nil =>
    cases h
    rfl
  | cons entry rest ih =>
    cases h with
    | data _ hrest => rw [Fields.get?_cons, Fields.get?_cons, ih hrest]
    | @member _ other _ _ _ _ _ _ _ hother _ hrest =>
      have hne : other ≠ name := by
        rintro rfl
        rw [hname] at hother
        cases hother
      rw [Fields.get?_cons, Fields.get?_cons, if_neg hne, if_neg hne, ih hrest]

/-- What is found under another name was walked. -/
theorem WalksMembers.of_get? {frame : Frame} {fields fields' : Fields Json}
    {log log' : WalkLog} {name : String} {walked : Json} (hname : isOpaqueKeyword name = false)
    (h : WalksMembers setting frame fields log fields' log')
    (hget : Fields.get? fields' name = some walked) :
    ∃ part before after, Fields.get? fields name = some part ∧
      Walks setting (frame.member name) part before walked after ∧
        after.unresolved ⊆ log'.unresolved := by
  induction fields generalizing log fields' with
  | nil =>
    cases h
    cases hget
  | cons entry rest ih =>
    cases h with
    | @data _ other _ _ _ _ _ hother hrest =>
      have hne : other ≠ name := by
        rintro rfl
        rw [hname] at hother
        cases hother
      rw [Fields.get?_cons, if_neg hne] at hget
      rw [Fields.get?_cons, if_neg hne]
      exact ih hrest hget
    | @member _ other _ _ _ _ _ _ _ _ hpart hrest =>
      rw [Fields.get?_cons] at hget
      rw [Fields.get?_cons]
      by_cases hother : other = name
      · rw [if_pos hother] at hget
        obtain rfl := hother
        obtain rfl := Option.some.inj hget
        exact ⟨_, _, _, if_pos rfl, hpart, hrest.unresolved_subset⟩
      · rw [if_neg hother] at hget
        rw [if_neg hother]
        exact ih hrest hget

/-- Every item was walked. -/
theorem WalksItems.of_getElem? {frame : Frame} {index : Nat} {items items' : List Json}
    {log log' : WalkLog} {offset : Nat} {walked : Json}
    (h : WalksItems setting frame index items log items' log')
    (hget : items'[offset]? = some walked) :
    ∃ part before after, items[offset]? = some part ∧
      Walks setting (frame.item (index + offset)) part before walked after ∧
        after.unresolved ⊆ log'.unresolved := by
  induction items generalizing index log items' offset with
  | nil =>
    cases h
    cases hget
  | cons item rest ih =>
    cases h with
    | item hitem hrest =>
      cases offset with
      | zero =>
        rw [List.getElem?_cons_zero, Option.some.injEq] at hget
        subst hget
        exact ⟨_, _, _, rfl, hitem, hrest.unresolved_subset⟩
      | succ offset =>
        rw [List.getElem?_cons_succ] at hget
        rw [show index + (offset + 1) = index + 1 + offset by omega]
        exact ih hrest hget

end Parts

/-! ### Walks and runs -/

section Runs

/-- A step followed by another succeeds when both do. -/
theorem Walking.run_bind_eq_ok {α β : Type} {first : Walking α} {next : α → Walking β}
    {log : WalkLog} {out : β × WalkLog} :
    (first >>= next).run log = .ok out ↔
      ∃ value log', first.run log = .ok (value, log') ∧ (next value).run log' = .ok out := by
  rw [StateT.run_bind]
  cases hfirst : first.run log with
  | error failure => simp [bind, Except.bind]
  | ok found =>
    obtain ⟨value, log'⟩ := found
    simp [bind, Except.bind]

theorem Walking.run_pure_eq_ok {α : Type} {value : α} {log : WalkLog} {out : α × WalkLog} :
    (pure value : Walking α).run log = .ok out ↔ out = (value, log) := by
  rw [StateT.run_pure, pure, Applicative.toPure, Monad.toApplicative]
  exact ⟨fun h => (Except.ok.inj h).symm, fun h => h ▸ rfl⟩

variable {setting : WalkSetting} {walk : Frame → Json → Walking Json}

/-- The walk of members is as the relation says just when that of every part is. -/
theorem WalksMembers.iff_run {frame : Frame} {fields fields' : Fields Json} {log log' : WalkLog}
    (hparts : ∀ name part, (name, part) ∈ fields → isOpaqueKeyword name = false →
      ∀ log walked log',
        (Walk.value setting walk (frame.member name) part).run log = .ok (walked, log') ↔
          Walks setting (frame.member name) part log walked log') :
    (Walk.members setting walk frame fields).run log = .ok (fields', log') ↔
      WalksMembers setting frame fields log fields' log' := by
  induction fields generalizing log fields' log' with
  | nil =>
    rw [Walk.members, Walking.run_pure_eq_ok]
    constructor
    · rintro ⟨⟩
      exact .nil
    · rintro ⟨⟩
      rfl
  | cons entry rest ih =>
    obtain ⟨name, part⟩ := entry
    have hrest : ∀ {log log' : WalkLog} {rest' : Fields Json},
        (Walk.members setting walk frame rest).run log = .ok (rest', log') ↔
          WalksMembers setting frame rest log rest' log' :=
      ih fun other value hmem => hparts other value (List.mem_cons_of_mem _ hmem)
    by_cases hname : isOpaqueKeyword name = true
    · simp only [Walk.members, hname, if_true, pure_bind, Walking.run_bind_eq_ok,
        Walking.run_pure_eq_ok, hrest]
      constructor
      · rintro ⟨rest', _, hmembers, ⟨⟩⟩
        exact .data hname hmembers
      · rintro (_ | ⟨_, hmembers⟩ | ⟨hdata, _, _⟩)
        · exact ⟨_, _, hmembers, rfl⟩
        · simp [hname] at hdata
    · have hname : isOpaqueKeyword name = false := by simpa using hname
      have hpart := hparts name part (List.mem_cons_self ..) hname
      simp only [Walk.members, hname, Bool.false_eq_true, if_false, Walking.run_bind_eq_ok,
        Walking.run_pure_eq_ok, hrest, hpart]
      constructor
      · rintro ⟨walked, _, hwalked, rest', _, hmembers, ⟨⟩⟩
        exact .member hname hwalked hmembers
      · rintro (_ | ⟨hdata, _⟩ | ⟨_, hwalked, hmembers⟩)
        · simp [hname] at hdata
        · exact ⟨_, _, hwalked, _, _, hmembers, rfl⟩

/-- The walk of items is as the relation says just when that of every item is. -/
theorem WalksItems.iff_run {frame : Frame} {index : Nat} {items items' : List Json}
    {log log' : WalkLog}
    (hparts : ∀ offset part, items[offset]? = some part → ∀ log walked log',
      (Walk.value setting walk (frame.item (index + offset)) part).run log = .ok (walked, log') ↔
        Walks setting (frame.item (index + offset)) part log walked log') :
    (Walk.items setting walk frame index items).run log = .ok (items', log') ↔
      WalksItems setting frame index items log items' log' := by
  induction items generalizing index log items' log' with
  | nil =>
    rw [Walk.items, Walking.run_pure_eq_ok]
    constructor
    · rintro ⟨⟩
      exact .nil
    · rintro ⟨⟩
      rfl
  | cons item rest ih =>
    have hitem := hparts 0 item rfl
    have hrest : ∀ {log log' : WalkLog} {rest' : List Json},
        (Walk.items setting walk frame (index + 1) rest).run log = .ok (rest', log') ↔
          WalksItems setting frame (index + 1) rest log rest' log' := by
      refine ih fun offset part hpart => ?_
      have := hparts (offset + 1) part (by simpa using hpart)
      rwa [show index + (offset + 1) = index + 1 + offset by omega] at this
    simp only [Nat.add_zero] at hitem
    simp only [Walk.items, Walking.run_bind_eq_ok, Walking.run_pure_eq_ok, hrest, hitem]
    constructor
    · rintro ⟨walked, _, hwalked, rest', _, hitems, ⟨⟩⟩
      exact .item hwalked hitems
    · rintro (_ | ⟨hwalked, hitems⟩)
      exact ⟨_, _, hwalked, _, _, hitems, rfl⟩

/-- Copying a target is as the relation says, if its walk is. -/
theorem Walk.copy_run_eq_ok {frame : Frame} {target : Target} {name key : String}
    {log : WalkLog} {out : Unit × WalkLog} :
    (Walk.copy walk frame target name key).run log = .ok out ↔
      ((Fields.contains log.components name = true ∨ key ∈ frame.expanding) ∧ out.2 = log) ∨
        (Fields.contains log.components name = false ∧ key ∉ frame.expanding ∧
          ∃ walked log', (walk ((frame.expand target.source key).goTo
              (Reference.toComponent name)) target.node).run log = .ok (walked, log') ∧
            out.2 = { log' with components := Fields.set log'.components name walked }) := by
  have hget : ∀ {β : Type} {next : WalkLog → Walking β},
      ((get >>= next : Walking β)).run log = (next log).run log := rfl
  have hmodify : ∀ {change : WalkLog → WalkLog} {log' : WalkLog},
      ((modify change : Walking Unit)).run log' = .ok ((), change log') := rfl
  obtain ⟨⟨⟩, log''⟩ := out
  rw [Walk.copy, hget]
  -- A name that is taken, or a target that is being copied already, is not copied again.
  by_cases hold : Fields.contains log.components name = true ∨ key ∈ frame.expanding
  · have hcond : (Fields.contains log.components name || frame.expanding.contains key) = true := by
      simpa using hold
    rw [if_pos hcond, Walking.run_pure_eq_ok, Prod.mk.injEq]
    constructor
    · rintro ⟨-, rfl⟩
      exact Or.inl ⟨hold, rfl⟩
    · rintro (⟨-, rfl⟩ | ⟨hname, hkey, -⟩)
      · exact ⟨rfl, rfl⟩
      · simp [hname, hkey] at hold
  · have hcond : ¬(Fields.contains log.components name || frame.expanding.contains key) = true := by
      simpa using hold
    have hnew : Fields.contains log.components name = false ∧ key ∉ frame.expanding := by
      simpa using hold
    rw [if_neg hcond, Walking.run_bind_eq_ok]
    simp only [hmodify]
    constructor
    · rintro ⟨walked, log', h, ⟨⟩⟩
      exact Or.inr ⟨hnew.1, hnew.2, walked, log', h, rfl⟩
    · rintro (⟨h, -⟩ | ⟨-, -, walked, log', h, rfl⟩)
      · exact absurd h hold
      · exact ⟨walked, log', h, rfl⟩

/-- The walk of an object that makes a reference is as the relation says just when that
of its members and of the target it expands is. -/
private theorem iff_run_reference {frame : Frame} {fields : Fields Json} {reference : String}
    {target : Target} {walked : Json} {log log' : WalkLog}
    (href : RefersTo setting.store frame.source fields reference target)
    (hmembers : ∀ {log log' : WalkLog} {fields' : Fields Json},
      (Walk.members setting walk (frame.inside fields) fields).run log = .ok (fields', log') ↔
        WalksMembers setting (frame.inside fields) fields log fields' log')
    (htargets : ∀ key next, Expands setting ⟨frame, .object fields⟩ key next →
      ∀ log walked log', (walk next.frame next.value).run log = .ok (walked, log') ↔
        Walks setting next.frame next.value log walked log') :
    (Walk.value setting walk frame (.object fields)).run log = .ok (walked, log') ↔
      Walks setting frame (.object fields) log walked log' := by
  have hvalue : Walk.value setting walk frame (.object fields)
      = Walk.members setting walk (frame.inside fields) fields >>=
          Walk.replace setting walk frame reference target := by
    simp only [Walk.value, href.made, href.found, Frame.inside_of_some href.made]
  simp only [hvalue, Walking.run_bind_eq_ok, hmembers, Walk.replace]
  constructor
  · rintro ⟨fields', between, hwalked, h⟩
    -- The members are walked first in any case; the treatment decides what becomes of the rest.
    cases htreat : Walk.treatment setting.options frame reference target with
    | keep =>
      simp only [htreat, Walking.run_pure_eq_ok] at h
      obtain ⟨rfl, rfl⟩ := Prod.mk.inj h
      exact .keep href htreat hwalked
    | leave =>
      simp only [htreat] at h
      obtain ⟨rfl, rfl⟩ := Prod.mk.inj (Except.ok.inj h)
      exact .leave href htreat hwalked
    | inline =>
      simp only [htreat, Walking.run_bind_eq_ok, Walking.run_pure_eq_ok,
        htargets _ _ (.inline href htreat)] at h
      obtain ⟨expanded, log'', htarget, heq⟩ := h
      obtain ⟨rfl, rfl⟩ := Prod.mk.inj heq
      exact .inline href htreat hwalked htarget
    | copy name =>
      simp only [htreat, Walking.run_bind_eq_ok, Walking.run_pure_eq_ok,
        Walk.copy_run_eq_ok] at h
      obtain ⟨⟨⟩, log'', hcopy, heq⟩ := h
      obtain ⟨rfl, rfl⟩ := Prod.mk.inj heq
      rcases hcopy with ⟨hold, rfl⟩ | ⟨hnew, hfresh, expanded, log'', htarget, rfl⟩
      · exact .copied href htreat hwalked hold
      · rw [htargets _ _ (.copy href htreat hfresh)] at htarget
        exact .copy href htreat hwalked hnew hfresh htarget
  · intro h
    cases h with
    | scalar hobject => simp at hobject
    | object hnone => exact absurd href.made (by simp [hnone])
    | keep href' htreat hwalked =>
      obtain ⟨rfl, rfl⟩ := href.unique href'
      refine ⟨_, _, hwalked, ?_⟩
      simp only [htreat, Walking.run_pure_eq_ok]
    | leave href' htreat hwalked =>
      obtain ⟨rfl, rfl⟩ := href.unique href'
      refine ⟨_, _, hwalked, ?_⟩
      simp only [htreat]
      rfl
    | inline href' htreat hwalked htarget =>
      obtain ⟨rfl, rfl⟩ := href.unique href'
      refine ⟨_, _, hwalked, ?_⟩
      simp only [htreat, Walking.run_bind_eq_ok, Walking.run_pure_eq_ok,
        htargets _ _ (.inline href htreat)]
      exact ⟨_, _, htarget, rfl⟩
    | copied href' htreat hwalked hold =>
      obtain ⟨rfl, rfl⟩ := href.unique href'
      refine ⟨_, _, hwalked, ?_⟩
      simp only [htreat, Walking.run_bind_eq_ok, Walking.run_pure_eq_ok, Walk.copy_run_eq_ok]
      exact ⟨(), _, Or.inl ⟨hold, rfl⟩, rfl⟩
    | copy href' htreat hwalked hnew hfresh htarget =>
      obtain ⟨rfl, rfl⟩ := href.unique href'
      refine ⟨_, _, hwalked, ?_⟩
      rw [← htargets _ _ (.copy href htreat hfresh)] at htarget
      simp only [htreat, Walking.run_bind_eq_ok, Walking.run_pure_eq_ok, Walk.copy_run_eq_ok]
      exact ⟨(), _, Or.inr ⟨hnew, hfresh, _, _, htarget, rfl⟩, rfl⟩

/-- The walk of a scalar leaves it and the log as they are, as the relation says. -/
private theorem iff_run_scalar {frame : Frame} {value walked : Json} {log log' : WalkLog}
    (hobject : value.object? = none) (harray : value.array? = none)
    (hvalue : Walk.value setting walk frame value = pure value) :
    (Walk.value setting walk frame value).run log = .ok (walked, log') ↔
      Walks setting frame value log walked log' := by
  rw [hvalue, Walking.run_pure_eq_ok, Prod.mk.injEq]
  constructor
  · rintro ⟨rfl, rfl⟩
    exact .scalar hobject harray
  · intro h
    cases h with
    | scalar => exact ⟨rfl, rfl⟩
    | array => simp at harray
    | _ => simp at hobject

/-- Neither the walk nor the relation has an outcome for a reference without a target. -/
private theorem iff_run_missing {frame : Frame} {fields : Fields Json} {reference : String}
    {walked : Json} {log log' : WalkLog} (hmade : referenceOf? fields = some reference)
    (hmissing : setting.store.locate? reference frame.source = none) :
    (Walk.value setting walk frame (.object fields)).run log = .ok (walked, log') ↔
      Walks setting frame (.object fields) log walked log' := by
  simp only [Walk.value, hmade, hmissing]
  constructor
  · intro h
    cases h
  · intro h
    cases h with
    | scalar hobject => simp at hobject
    | object hnone => exact absurd hmade (by simp [hnone])
    | keep href | leave href | inline href | copied href | copy href =>
      obtain rfl := Option.some.inj (href.made.symm.trans hmade)
      exact absurd href.found (by simp [hmissing])

/-- The walk of a value is as the relation says just when that of its parts and of the
target it expands is. -/
theorem Walks.iff_run {frame : Frame} {value walked : Json} {log log' : WalkLog}
    (hparts : ∀ part, Descends ⟨frame, value⟩ part → ∀ log walked log',
      (Walk.value setting walk part.frame part.value).run log = .ok (walked, log') ↔
        Walks setting part.frame part.value log walked log')
    (htargets : ∀ key next, Expands setting ⟨frame, value⟩ key next → ∀ log walked log',
      (walk next.frame next.value).run log = .ok (walked, log') ↔
        Walks setting next.frame next.value log walked log') :
    (Walk.value setting walk frame value).run log = .ok (walked, log') ↔
      Walks setting frame value log walked log' := by
  cases value with
  | null | bool _ | number _ | string _ => exact iff_run_scalar rfl rfl rfl
  | array items =>
    have hitems : ∀ {log log' : WalkLog} {items' : List Json},
        (Walk.items setting walk frame 0 items).run log = .ok (items', log') ↔
          WalksItems setting frame 0 items log items' log' :=
      WalksItems.iff_run fun offset part hpart =>
        hparts ⟨frame.item (0 + offset), part⟩ (.item (by simpa using hpart))
    simp only [Walk.value, Walking.run_bind_eq_ok, Walking.run_pure_eq_ok, hitems]
    constructor
    · rintro ⟨items', _, h, ⟨⟩⟩
      exact .array h
    · intro h
      cases h with
      | scalar _ harray => simp at harray
      | array h => exact ⟨_, _, h, rfl⟩
  | object fields =>
    have hmembers : ∀ {log log' : WalkLog} {fields' : Fields Json},
        (Walk.members setting walk (frame.inside fields) fields).run log = .ok (fields', log') ↔
          WalksMembers setting (frame.inside fields) fields log fields' log' :=
      WalksMembers.iff_run fun name part hmem hname =>
        hparts ⟨(frame.inside fields).member name, part⟩ (.member hmem hname)
    cases hmade : referenceOf? fields with
    | none =>
      simp only [Walk.value, hmade, ← Frame.inside_of_none hmade, Walking.run_bind_eq_ok,
        Walking.run_pure_eq_ok, hmembers]
      constructor
      · rintro ⟨fields', _, h, ⟨⟩⟩
        exact .object hmade h
      · intro h
        cases h with
        | scalar hobject => simp at hobject
        | object _ h => exact ⟨_, _, h, rfl⟩
        | keep href | leave href | inline href | copied href | copy href =>
          exact absurd href.made (by simp [hmade])
    | some reference =>
      cases hfound : setting.store.locate? reference frame.source with
      | none => exact iff_run_missing hmade hfound
      | some target => exact iff_run_reference ⟨hmade, hfound⟩ hmembers htargets

end Runs

/-! ### Dereferencing -/

section Dereferencing

variable {store : Store} {options : DereferenceOptions} {context : store.Context} {node : Json}

/-- **The relation holds of just what the walk does**, on all calls that are made. -/
theorem IsWalk.run_eq_ok_iff {start call : Call} {walk : Frame → Json → Walking Json}
    (hstart : start.InScope store context node) (hwalk : IsWalk ⟨store, options⟩ start walk)
    {keys : List String} (hcall : Reaches ⟨store, options⟩ start keys call)
    {walked : Json} {log log' : WalkLog} :
    (walk call.frame call.value).run log = .ok (walked, log') ↔
      Walks ⟨store, options⟩ call.frame call.value log walked log' := by
  have hacc : Acc (fun next call => Calls ⟨store, options⟩ call next) call :=
    (hcall.inScope hstart).acc
  induction hacc generalizing keys walked log log' with
  | intro call _ ih =>
    rw [hwalk keys call hcall]
    refine Walks.iff_run (fun part hpart log walked log' => ?_)
      fun key next hnext log walked log' => ih next (Or.inr ⟨key, hnext⟩) (hcall.expand hnext)
    rw [← hwalk keys part (hcall.descend hpart)]
    exact ih part (Or.inl hpart) (hcall.descend hpart)

/-- **Dereferencing succeeds just with what the relation says.** -/
theorem dereferenceAt_eq_ok_iff {path : String} {result : Dereferenced} :
    store.dereferenceAt options node context path = .ok result ↔
      ∃ walked log, Walks ⟨store, options⟩ (.start context path) node .empty walked log ∧
        result = .ofWalk (walked, log) := by
  have hstart : (Call.start context path node).InScope store context node :=
    Call.inScope_start path
  have hrun : ∀ {walked : Json} {log : WalkLog},
      (walkWithin ⟨store, options⟩ (store.referenceCount context.document node + 1)
          (.start context path) node).run .empty = .ok (walked, log) ↔
        Walks ⟨store, options⟩ (.start context path) node .empty walked log :=
    (Store.isWalk_walkWithin hstart).run_eq_ok_iff hstart .start
  rw [Store.dereferenceAt]
  cases h : (walkWithin ⟨store, options⟩ (store.referenceCount context.document node + 1)
    (.start context path) node).run .empty with
  | error failure =>
    simp only [h, reduceCtorEq, false_iff] at hrun
    simp [bind, Except.bind, hrun]
  | ok found =>
    obtain ⟨walked, log⟩ := found
    constructor
    · intro heq
      exact ⟨walked, log, hrun.mp h, (Except.ok.inj heq).symm⟩
    · rintro ⟨walked', log', hwalks, rfl⟩
      rw [← hrun, h] at hwalks
      obtain ⟨rfl, rfl⟩ := Prod.mk.inj (Except.ok.inj hwalks)
      rfl

end Dereferencing

end RpcSchema
