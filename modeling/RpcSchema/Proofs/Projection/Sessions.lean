import RpcSchema.Projection
import RpcSchema.Proofs.Schema.Parts

/-!
# Sessions of a projector

A schema with a title is not spelled out within itself, so each schema is spelled out with the
titles that are being spelled out around it.  Projection passes these titles down.  A projector may
as well keep them in a stack that all its calls share: a title is put on the stack before its schema
is spelled out, and taken off afterwards, also when some part of the schema could not be rendered.

Here is projection with such a stack, `spell`.  Since the stack is balanced in every part, it holds
at each schema what would have been passed down.  So a call leaves it as it was, and the stack is no
memory: what a call gives does not depend on the calls before.

To say what happens on the way, a session also keeps a log of the schemas that were come to, with
the schemas that were being spelled out around each of them.  No program reads the log.

## Main definitions

* `Session`, `Spelling` — the stack and the log, and programs with them.
* `Projector.spell` — the shape of a schema with the stack.
* `Projector.askAll` — calls in one session, one after the other.
* `Spelling.Yields` — what a program gives, and what it does to the session.
* `Visit.Proper` — a title is spelled out once on the way to a schema, and named from then on.

## Main results

* `Projector.yields_spell` — the stack does the work of the titles passed down.
* `Projector.askAll_forgets` — calls in one session do not depend on each other.
-/

namespace RpcSchema

/-! ### Sessions -/

/-- A schema that projection came to. -/
structure Visit where
  /-- The schemas that were being spelled out around it, the innermost one first. -/
  within : List Schema
  schema : Schema
  /-- The shape that was given for it at once, unless it was spelled out. -/
  shape? : Option Shape

/-- The state that the calls of a projector share. -/
structure Session where
  /-- The titles that are being spelled out, the innermost one first. -/
  visiting : List String
  visits : List Visit

/-- The session of a new projector. -/
def Session.start : Session := ⟨[], []⟩

/-- Programs of a projector. -/
abbrev Spelling := ExceptT Failure (StateM Session)

namespace Spelling

variable {α β : Type}

/-- An outcome that does not touch the session. -/
def ofOutcome (outcome : Except Failure α) : Spelling α := ExceptT.mk (pure outcome)

/-- The titles that are being spelled out. -/
def visiting : Spelling (List String) := do return (← get).visiting

/-- Write into the log. -/
def record (visit : Visit) : Spelling Unit :=
  modify fun session => { session with visits := session.visits ++ [visit] }

/-- Give a shape for a schema at once. -/
def give (within : List Schema) (schema : Schema) (shape : Shape) : Spelling Shape := do
  record ⟨within, schema, some shape⟩
  return shape

/-- Run a program with a title on the stack, and take one off whatever the outcome is. -/
def under (title : String) (program : Spelling α) : Spelling α := ExceptT.mk do
  modify fun session => { session with visiting := title :: session.visiting }
  let outcome ← program.run
  modify fun session => { session with visiting := session.visiting.tail }
  return outcome

/-- The outcome of a program in a session, and the session that it leaves. -/
def runIn (program : Spelling α) (session : Session) : Except Failure α × Session :=
  (program.run.run session).run

end Spelling

/-! ### Projection with a stack -/

namespace Projector

open Spelling

mutual

/-- The shape of a schema, as `expand` has it.  `within` are the schemas that are being spelled out
around it; they are for the log only. -/
def spell (projector : Projector) (within : List Schema) (top : Bool) : Schema → Spelling Shape
  | ⟨title, description, kind, extra⟩ =>
    match title, kind with
    | title, .ref reference =>
      give within ⟨title, description, .ref reference, extra⟩
        (projector.referenceShape title reference)
    | title, .const value =>
      give within ⟨title, description, .const value, extra⟩ (projector.constantShape value)
    | some title, kind => do
      let schema : Schema := ⟨some title, description, kind, extra⟩
      if !top && projector.isNamed (← visiting) title then
        give within schema (.reference title (projector.qualify title))
      else
        record ⟨within, schema, none⟩
        under title (spellKind projector (schema :: within) kind)
    | none, kind => do
      let schema : Schema := ⟨none, description, kind, extra⟩
      record ⟨within, schema, none⟩
      spellKind projector (schema :: within) kind
termination_by structural schema => schema

/-- The shape of the schema with a given kind, as `kindShape` has it. -/
def spellKind (projector : Projector) (within : List Schema) : Kind → Spelling Shape
  | .ref reference => return projector.referenceShape none reference
  | .const value => return projector.constantShape value
  | .enum type values => return projector.enumShape type values
  | .object shape => spellObject projector within shape
  | .list => return .array projector.anyShape (projector.arrayOf (projector.template .any))
  | .listOf item => do
    let element ← spell projector within false item
    let ref ← ofOutcome (projector.typeRef item)
    return .array element (projector.arrayOf ref)
  | .tuple items => do
    match ← ofOutcome (projector.tupleForm items) with
    | .sequence =>
      let element ← spellHead projector within items
      let ref ← ofOutcome (projector.headRef items)
      return .array element (projector.arrayOf ref)
    | .tuple =>
      let elements ← spellItems projector within items
      let refs ← ofOutcome (projector.typeRefs items)
      return .tuple elements (projector.tupleOf refs)
    | .degraded => return .array projector.anyShape (projector.arrayOf (projector.template .any))
  | .anyOf branches =>
    if projector.options.eventContext then spellPayload projector within branches
    else do
      let refs ← ofOutcome (projector.typeRefs branches)
      return .union refs (projector.unionOfTypes refs)
  | .allOf _ => return projector.voidShape
  | .primitive type => return .primitive (projector.primitiveName type)
  | .empty => return projector.voidShape
  | .never => return .never (projector.template .never)
termination_by structural kind => kind

/-- The shape of an object, as `objectShape` has it. -/
def spellObject (projector : Projector) (within : List Schema) : ObjectSchema → Spelling Shape
  | ⟨declared, required, additional, patterns, names⟩ => do
    let properties ← spellProperties projector within required declared
    let first ← ofOutcome (projector.additionalRefs additional)
    let others ← ofOutcome (projector.patternRefs additional.schema?.toList patterns)
    match first ++ others, names with
    | [], none => return .object properties none
    | [], names =>
      return .object properties (some ⟨names, projector.valueType [], projector.anyShape⟩)
    | [single], names =>
      let shape ← match additional with
        | .schema value => spell projector within false value
        | _ => spellPattern projector within patterns
      return .object properties (some ⟨names, single, shape⟩)
    | refs, names =>
      let type := projector.valueType refs
      return .object properties (some ⟨names, type, .union refs type⟩)
termination_by structural object => object

/-- The shape of the first pattern property. -/
def spellPattern (projector : Projector) (within : List Schema) :
    List (String × Schema) → Spelling Shape
  | [] => return projector.anyShape
  | (_, schema) :: _ => spell projector within false schema
termination_by structural fields => fields

/-- The shapes of properties. -/
def spellProperties (projector : Projector) (within : List Schema) (required : List String) :
    List (String × Schema) → Spelling (List Property)
  | [] => return []
  | (name, schema) :: rest => do
    let ref ← ofOutcome (projector.typeRef schema)
    let shape ← spell projector within false schema
    let properties ← spellProperties projector within required rest
    return ⟨name, required.contains name, schema.description, ref, shape⟩ :: properties
termination_by structural fields => fields

/-- The shapes of schemas. -/
def spellItems (projector : Projector) (within : List Schema) :
    List Schema → Spelling (List Shape)
  | [] => return []
  | schema :: rest => do
    let shape ← spell projector within false schema
    let others ← spellItems projector within rest
    return shape :: others
termination_by structural items => items

/-- The shape of the first schema. -/
def spellHead (projector : Projector) (within : List Schema) : List Schema → Spelling Shape
  | [] => return projector.anyShape
  | schema :: _ => spell projector within false schema
termination_by structural items => items

/-- The shape of the payload among branches. -/
def spellPayload (projector : Projector) (within : List Schema) : List Schema → Spelling Shape
  | [] => return projector.voidShape
  | branch :: rest =>
    if branch.isAcknowledgment then spellPayload projector within rest
    else spell projector within false branch
termination_by structural items => items

end

/-- A call of a projector. -/
inductive Query
  | typeRef (schema : Schema)
  | shape (schema : Schema)
  | useShape (schema : Schema)

/-- What a call gives. -/
inductive Answer
  | typeRef (text : String)
  | shape (shape : Shape)

/-- What a call gives without a session. -/
def answer (projector : Projector) : Query → Except Failure Answer
  | .typeRef schema => return .typeRef (← projector.typeRef schema)
  | .shape schema => return .shape (← projector.shape schema)
  | .useShape schema => return .shape (← projector.useShape schema)

/-- A call in a session.  Type references do not look at the stack. -/
def ask (projector : Projector) : Query → Spelling Answer
  | .typeRef schema => return .typeRef (← ofOutcome (projector.typeRef schema))
  | .shape schema => return .shape (← projector.spell [] true schema)
  | .useShape schema => return .shape (← projector.spell [] false schema)

/-- Calls in one session, one after the other: what each of them gives, and the session that the
last one leaves. -/
def askAll (projector : Projector) : List Query → Session → List (Except Failure Answer) × Session
  | [], session => ([], session)
  | query :: rest, session =>
    let (outcome, next) := (projector.ask query).runIn session
    let (outcomes, last) := projector.askAll rest next
    (outcome :: outcomes, last)

end Projector

/-! ### Balanced programs -/

namespace Spelling

variable {α β : Type} {visiting : List String} {p : Visit → Prop} {program : Spelling α}
  {next : α → Spelling β} {outcome : Except Failure α}

/-- `Yields visiting p program outcome` says that with the titles `visiting` on the stack the
program has the outcome, leaves the stack as it was, and comes to schemas as in `p` only. -/
def Yields (visiting : List String) (p : Visit → Prop) (program : Spelling α)
    (outcome : Except Failure α) : Prop :=
  ∀ visits, ∃ more, program.runIn ⟨visiting, visits⟩ = (outcome, ⟨visiting, visits ++ more⟩) ∧
    ∀ visit ∈ more, p visit

theorem runIn_bind_of_ok {session later : Session} {value : α}
    (h : program.runIn session = (.ok value, later)) :
    (program >>= next).runIn session = (next value).runIn later := by
  have hrun : program.run.run session = (.ok value, later) := h
  simp only [runIn, ExceptT.run_bind, StateT.run_bind, hrun]
  rfl

theorem runIn_bind_of_error {session later : Session} {failure : Failure}
    (h : program.runIn session = (.error failure, later)) :
    (program >>= next).runIn session = (.error failure, later) := by
  have hrun : program.run.run session = (.error failure, later) := h
  simp only [runIn, ExceptT.run_bind, StateT.run_bind, hrun]
  rfl

/-- What becomes of the session under a title. -/
theorem runIn_under (title : String) (program : Spelling α) (session : Session) :
    (under title program).runIn session =
      let (outcome, later) := program.runIn { session with visiting := title :: session.visiting }
      (outcome, { later with visiting := later.visiting.tail }) :=
  rfl

namespace Yields

theorem ofOutcome (outcome : Except Failure α) :
    Yields visiting p (Spelling.ofOutcome outcome) outcome := by
  intro visits
  refine ⟨[], ?_, List.forall_mem_nil _⟩
  rw [List.append_nil]
  rfl

theorem pure (value : α) : Yields visiting p (Pure.pure value) (.ok value) :=
  ofOutcome (.ok value)

/-- **One program after the other.**  If the first one fails the second one is not run. -/
theorem bind {f : α → Except Failure β} (h : Yields visiting p program outcome)
    (hnext : ∀ value, outcome = .ok value → Yields visiting p (next value) (f value)) :
    Yields visiting p (program >>= next) (outcome >>= f) := by
  intro visits
  obtain ⟨first, hrun, hfirst⟩ := h visits
  cases houtcome : outcome with
  | error failure =>
    rw [houtcome] at hrun
    exact ⟨first, runIn_bind_of_error hrun, hfirst⟩
  | ok value =>
    rw [houtcome] at hrun
    -- The second program finds the stack as it was, and writes behind the first one.
    obtain ⟨second, hsecond, hmore⟩ := hnext value houtcome (visits ++ first)
    refine ⟨first ++ second, ?_, List.forall_mem_append.mpr ⟨hfirst, hmore⟩⟩
    rw [runIn_bind_of_ok hrun, hsecond, List.append_assoc]
    rfl

theorem map (h : Yields visiting p program outcome) (f : α → β) :
    Yields visiting p (program >>= fun value => Pure.pure (f value))
      (outcome >>= fun value => .ok (f value)) :=
  h.bind fun value _ => pure (f value)

/-- What is done with the titles on the stack. -/
theorem visiting_bind {next : List String → Spelling α}
    (h : Yields visiting p (next visiting) outcome) :
    Yields visiting p (Spelling.visiting >>= next) outcome :=
  h

/-- What is done after an entry in the log. -/
theorem record_bind {visit : Visit} (hvisit : p visit) (h : Yields visiting p program outcome) :
    Yields visiting p (record visit >>= fun _ => program) outcome := by
  intro visits
  obtain ⟨more, hrun, hmore⟩ := h (visits ++ [visit])
  refine ⟨visit :: more, ?_, List.forall_mem_cons.mpr ⟨hvisit, hmore⟩⟩
  rw [List.append_cons]
  exact hrun

theorem give {within : List Schema} {schema : Schema} {shape : Shape}
    (h : p ⟨within, schema, some shape⟩) :
    Yields visiting p (Spelling.give within schema shape) (.ok shape) :=
  record_bind h (pure shape)

/-- **The stack is balanced.**  Whatever the outcome is, the title that is taken off is the one that
was put on. -/
theorem under (title : String) (h : Yields (title :: visiting) p program outcome) :
    Yields visiting p (Spelling.under title program) outcome := by
  intro visits
  obtain ⟨more, hrun, hmore⟩ := h visits
  refine ⟨more, ?_, hmore⟩
  rw [runIn_under, hrun]
  rfl

end Yields

end Spelling

/-! ### What is spelled out -/

/-- References and constants are not declared, even when they have a title. -/
def Kind.isDeclared : Kind → Bool
  | .ref _ | .const _ => false
  | _ => true

/-- The titles of schemas. -/
def titlesOf (schemas : List Schema) : List String := schemas.filterMap Schema.title

/-- `LeadsTo within schema` says that `within` is a way down to the schema, each being a part of the
one behind it, and that no title comes twice on the way. -/
structure LeadsTo (within : List Schema) (schema : Schema) : Prop where
  parts : (schema :: within).IsChain fun part whole => part ∈ whole.kind.parts
  once : (titlesOf within).Nodup

theorem LeadsTo.top (schema : Schema) : LeadsTo [] schema where
  parts := .singleton schema
  once := List.nodup_nil

/-- A schema that is spelled out leads to its parts. -/
theorem LeadsTo.part {within : List Schema} {schema part : Schema} (h : LeadsTo within schema)
    (honce : (titlesOf (schema :: within)).Nodup) (hpart : part ∈ schema.kind.parts) :
    LeadsTo (schema :: within) part where
  parts := h.parts.cons_cons hpart
  once := honce

/-- A projector spells no title out twice on the way to a schema: where a schema has the title of
one that is being spelled out, it gives a reference. -/
structure Visit.Proper (projector : Projector) (visit : Visit) : Prop where
  leads : LeadsTo visit.within visit.schema
  once : visit.shape? = none → (titlesOf (visit.schema :: visit.within)).Nodup
  named : ∀ title, visit.schema.title = some title → visit.schema.kind.isDeclared = true →
    title ∈ titlesOf visit.within → visit.shape? = some (.reference title (projector.qualify title))

namespace LeadsTo

variable {projector : Projector} {within : List Schema} {schema : Schema} {title : String}

/-- References and constants may be given at once. -/
theorem proper_of_not_declared (h : LeadsTo within schema)
    (hdeclared : schema.kind.isDeclared = false) (shape : Shape) :
    Visit.Proper projector ⟨within, schema, some shape⟩ where
  leads := h
  once hnone := by cases hnone
  named _ _ hother _ := absurd (hother.symm.trans hdeclared) (by simp)

/-- A schema with a title may be named. -/
theorem proper_of_named (h : LeadsTo within schema) (htitle : schema.title = some title) :
    Visit.Proper projector ⟨within, schema, some (.reference title (projector.qualify title))⟩ where
  leads := h
  once hnone := by cases hnone
  named other hother _ _ := by
    obtain rfl : title = other := Option.some.inj (htitle.symm.trans hother)
    rfl

/-- A schema whose title is not on the way may be spelled out. -/
theorem proper_of_new (h : LeadsTo within schema) (honce : (titlesOf (schema :: within)).Nodup) :
    Visit.Proper projector ⟨within, schema, none⟩ where
  leads := h
  once _ := honce
  named title htitle _ hmem := by
    rw [titlesOf, List.filterMap_cons_some htitle] at honce
    exact absurd hmem (List.nodup_cons.mp honce).1

end LeadsTo

namespace Projector

open Spelling

variable {projector : Projector} {visiting : List String} {p : Visit → Prop}
  {within : List Schema} {items : List Schema} {fields : Fields Schema} {kind : Kind}
  {top : Bool} {title : String} {description : Option String} {extra : Fields Json}

/-! ### Shapes of parts -/

section Parts

/-- With the titles `visiting` on the stack, the schema is spelled out as it is with the titles
passed down. -/
def SpellsUsed (projector : Projector) (visiting : List String) (p : Visit → Prop)
    (within : List Schema) (schema : Schema) : Prop :=
  Yields visiting p (projector.spell within false schema) (projector.expand visiting false schema)

theorem yields_spellItems (h : ∀ item ∈ items, projector.SpellsUsed visiting p within item) :
    Yields visiting p (projector.spellItems within items) (projector.shapes visiting items) := by
  induction items with
  | nil => exact .pure []
  | cons item rest ih =>
    obtain ⟨hitem, hrest⟩ := List.forall_mem_cons.mp h
    rw [spellItems, shapes]
    exact hitem.bind fun shape _ => (ih hrest).map _

theorem yields_spellHead (h : ∀ item ∈ items, projector.SpellsUsed visiting p within item) :
    Yields visiting p (projector.spellHead within items) (projector.headShape visiting items) := by
  cases items with
  | nil => exact .pure _
  | cons item rest => exact h item List.mem_cons_self

theorem yields_spellPayload (h : ∀ item ∈ items, projector.SpellsUsed visiting p within item) :
    Yields visiting p (projector.spellPayload within items)
      (projector.payloadShape visiting items) := by
  induction items with
  | nil => exact .pure _
  | cons item rest ih =>
    obtain ⟨hitem, hrest⟩ := List.forall_mem_cons.mp h
    rw [spellPayload, payloadShape]
    split
    · exact ih hrest
    · exact hitem

theorem yields_spellPattern (h : ∀ entry ∈ fields, projector.SpellsUsed visiting p within entry.2) :
    Yields visiting p (projector.spellPattern within fields)
      (projector.patternShape visiting fields) := by
  cases fields with
  | nil => exact .pure _
  | cons entry rest => exact h entry List.mem_cons_self

theorem yields_spellProperties (required : List String)
    (h : ∀ entry ∈ fields, projector.SpellsUsed visiting p within entry.2) :
    Yields visiting p (projector.spellProperties within required fields)
      (projector.propertyShapes visiting required fields) := by
  induction fields with
  | nil => exact .pure []
  | cons entry rest ih =>
    obtain ⟨name, schema⟩ := entry
    obtain ⟨hschema, hrest⟩ := List.forall_mem_cons.mp h
    rw [spellProperties, propertyShapes]
    exact (Yields.ofOutcome _).bind fun ref _ => hschema.bind fun shape _ => (ih hrest).map _

theorem yields_spellObject {object : ObjectSchema}
    (h : ∀ part ∈ object.parts, projector.SpellsUsed visiting p within part) :
    Yields visiting p (projector.spellObject within object)
      (projector.objectShape visiting object) := by
  obtain ⟨hproperties, hadditional, hpatterns⟩ := ObjectSchema.forall_parts_iff.mp h
  obtain ⟨declared, required, additional, patterns, names⟩ := object
  rw [spellObject, objectShape]
  refine (yields_spellProperties required hproperties).bind fun properties _ => ?_
  refine (Yields.ofOutcome _).bind fun first _ => (Yields.ofOutcome _).bind fun others _ => ?_
  generalize first ++ others = refs
  match refs, names with
  | [], none => exact .pure _
  | [], some names => exact .pure _
  | [single], names =>
    -- The lone type has a shape of its own.
    cases additional with
    | schema value => exact Yields.map (hadditional value rfl) _
    | _ => exact (yields_spellPattern hpatterns).map _
  | first :: second :: rest, names => exact .pure _

/-- The shape of a kind, if those of its parts come out. -/
theorem yields_spellKind (h : ∀ part ∈ kind.parts, projector.SpellsUsed visiting p within part) :
    Yields visiting p (projector.spellKind within kind) (projector.kindShape visiting kind) := by
  cases kind with
  | object object => exact yields_spellObject h
  | listOf item =>
    rw [spellKind, kindShape]
    exact Yields.bind (h item (List.mem_singleton_self item)) fun element _ =>
      (Yields.ofOutcome _).map _
  | tuple items =>
    rw [spellKind, kindShape]
    refine (Yields.ofOutcome _).bind fun form _ => ?_
    cases form with
    | sequence => exact (yields_spellHead h).bind fun element _ => (Yields.ofOutcome _).map _
    | tuple => exact (yields_spellItems h).bind fun elements _ => (Yields.ofOutcome _).map _
    | degraded => exact .pure _
  | anyOf branches =>
    rw [spellKind, kindShape]
    split
    · exact yields_spellPayload h
    · exact (Yields.ofOutcome _).map _
  | _ => exact .pure _

end Parts

/-! ### One schema in the others -/

section Spell

/-- Without a title a schema is spelled out as its kind is. -/
theorem expand_of_none : projector.expand visiting top ⟨none, description, kind, extra⟩ =
    projector.kindShape visiting kind := by
  cases kind <;> rfl

theorem expand_of_title (hdeclared : kind.isDeclared = true) :
    projector.expand visiting top ⟨some title, description, kind, extra⟩ =
      if !top && projector.isNamed visiting title then
        .ok (.reference title (projector.qualify title))
      else projector.kindShape (title :: visiting) kind := by
  cases kind with
  | ref _ | const _ => cases hdeclared
  | _ => rfl

theorem spell_of_none (hdeclared : kind.isDeclared = true) :
    projector.spell within top ⟨none, description, kind, extra⟩ =
      (do
        record ⟨within, ⟨none, description, kind, extra⟩, none⟩
        projector.spellKind (⟨none, description, kind, extra⟩ :: within) kind) := by
  cases kind with
  | ref _ | const _ => cases hdeclared
  | _ => rfl

theorem spell_of_title (hdeclared : kind.isDeclared = true) :
    projector.spell within top ⟨some title, description, kind, extra⟩ =
      (do
        if !top && projector.isNamed (← Spelling.visiting) title then
          give within ⟨some title, description, kind, extra⟩
            (.reference title (projector.qualify title))
        else
          record ⟨within, ⟨some title, description, kind, extra⟩, none⟩
          under title (projector.spellKind (⟨some title, description, kind, extra⟩ :: within)
            kind)) := by
  cases kind with
  | ref _ | const _ => cases hdeclared
  | _ => rfl

/-- **The stack does the work of the titles passed down**, by induction on the schema.  Over those
that were there before it holds the titles of the schemas that are being spelled out. -/
theorem yields_spell (schema : Schema) (base : List String) : ∀ within top,
    LeadsTo within schema → (top = true → within = []) →
    Yields (titlesOf within ++ base) (Visit.Proper projector) (projector.spell within top schema)
      (projector.expand (titlesOf within ++ base) top schema) := by
  induction schema using Schema.induction_parts with
  | h schema ih =>
    intro within top hleads htop
    -- Where the schema is spelled out, its title is on the stack, and it leads to its parts.
    have hkind : (titlesOf (schema :: within)).Nodup →
        Yields (titlesOf (schema :: within) ++ base) (Visit.Proper projector)
          (projector.spellKind (schema :: within) schema.kind)
          (projector.kindShape (titlesOf (schema :: within) ++ base) schema.kind) := fun honce =>
      yields_spellKind fun part hpart =>
        ih part hpart (schema :: within) false (hleads.part honce hpart) (by simp)
    obtain ⟨title, description, kind, extra⟩ := schema
    cases hdeclared : kind.isDeclared with
    | false =>
      cases kind with
      | ref _ | const _ => exact .give (hleads.proper_of_not_declared hdeclared _)
      | _ => cases hdeclared
    | true =>
      cases title with
      | none =>
        rw [expand_of_none, spell_of_none hdeclared]
        exact .record_bind (hleads.proper_of_new hleads.once) (hkind hleads.once)
      | some title =>
        rw [expand_of_title hdeclared, spell_of_title hdeclared]
        refine .visiting_bind ?_
        split
        · exact .give (hleads.proper_of_named rfl)
        · next hspell =>
          -- Only the schema that a call starts with is not looked up.
          have hnew : title ∉ titlesOf within := by
            intro hmem
            cases top with
            | false => exact hspell (by simp [isNamed, hmem])
            | true =>
              rw [htop rfl] at hmem
              exact absurd hmem List.not_mem_nil
          have honce : (title :: titlesOf within).Nodup := List.nodup_cons.mpr ⟨hnew, hleads.once⟩
          exact .record_bind (hleads.proper_of_new honce) (.under title (hkind honce))

end Spell

/-! ### Calls in a session -/

section Calls

/-- **A call in a session** leaves the stack.  With nothing on the stack it gives what it gives
without a session. -/
theorem yields_ask (projector : Projector) (query : Query) (base : List String) :
    ∃ outcome, Yields base (Visit.Proper projector) (projector.ask query) outcome ∧
      (base = [] → outcome = projector.answer query) := by
  cases query with
  | typeRef schema => exact ⟨_, (Yields.ofOutcome (projector.typeRef schema)).map _, fun _ => rfl⟩
  | shape schema =>
    refine ⟨_, (yields_spell schema base [] true (.top schema) fun _ => rfl).map _, ?_⟩
    rintro rfl
    rfl
  | useShape schema =>
    refine ⟨_, (yields_spell schema base [] false (.top schema) fun _ => rfl).map _, ?_⟩
    rintro rfl
    rfl

/-- Calls in a session leave the stack, and come to schemas as they should. -/
theorem yields_askAll (projector : Projector) (queries : List Query) (base : List String)
    (visits : List Visit) :
    ∃ outcomes more, projector.askAll queries ⟨base, visits⟩ = (outcomes, ⟨base, visits ++ more⟩) ∧
      (base = [] → outcomes = queries.map projector.answer) ∧
      ∀ visit ∈ more, visit.Proper projector := by
  induction queries generalizing visits with
  | nil =>
    refine ⟨[], [], ?_, fun _ => rfl, List.forall_mem_nil _⟩
    rw [List.append_nil]
    rfl
  | cons query rest ih =>
    obtain ⟨outcome, hquery, hanswer⟩ := yields_ask projector query base
    obtain ⟨first, hfirst, hproper⟩ := hquery visits
    obtain ⟨outcomes, more, hrest, hanswers, hmore⟩ := ih (visits ++ first)
    refine ⟨outcome :: outcomes, first ++ more, ?_, fun hbase => ?_,
      List.forall_mem_append.mpr ⟨hproper, hmore⟩⟩
    · simp only [askAll, hfirst, hrest, List.append_assoc]
    · rw [hanswer hbase, hanswers hbase, List.map_cons]

/-- **Projection has no memory.**  For every projector, calls in one session, some of which may
fail, leave the titles on the stack as they were; and from an empty stack each call gives what it
gives without a session, and so what it gives in a session of its own.  On the way down to any
schema that the calls come to, no title is spelled out twice, and a schema that is neither a
reference nor a constant is named if its title is being spelled out. -/
theorem askAll_forgets (projector : Projector) (queries : List Query) (session : Session) :
    (projector.askAll queries session).2.visiting = session.visiting ∧
      (session.visiting = [] →
        (projector.askAll queries session).1 = queries.map projector.answer ∧
          (projector.askAll queries session).1 =
            queries.map fun query => ((projector.ask query).runIn .start).1) ∧
      ∃ more, (projector.askAll queries session).2.visits = session.visits ++ more ∧
        ∀ visit ∈ more, visit.Proper projector := by
  obtain ⟨base, visits⟩ := session
  obtain ⟨outcomes, more, hrun, hanswers, hmore⟩ := yields_askAll projector queries base visits
  -- A session of its own starts with an empty stack, too.
  have hfresh : ∀ query, ((projector.ask query).runIn .start).1 = projector.answer query := by
    intro query
    obtain ⟨outcome, hquery, hanswer⟩ := yields_ask projector query []
    obtain ⟨_, hfirst, -⟩ := hquery []
    rw [Session.start, hfirst]
    exact hanswer rfl
  rw [hrun]
  refine ⟨rfl, fun hbase => ⟨hanswers hbase, ?_⟩, more, rfl, hmore⟩
  simp only [hfresh]
  exact hanswers hbase

/-- Render named schemas in place, in a language without tuples. -/
def nestingProjector : Projector := ⟨{ Profile.typescript with tuples := false },
  { ProjectionOptions.standard with inlineNamed := true }, .empty,
  ⟨none, "Forest", .object []⟩, "#"⟩

/-- A tree has a node, and a node has a label and a tree. -/
def treeSchema (label : Schema) : Schema :=
  let object (properties : Fields Schema) : Kind := .object ⟨properties, [], .unstated, [], none⟩
  let inner : Schema := ⟨some "Tree", none, object [], []⟩
  let node : Schema := ⟨some "Node", none, object [("label", label), ("tree", inner)], []⟩
  ⟨some "Tree", none, object [("node", node)], []⟩

/-- A tree in a tree is named, also when the tree before it could not be rendered below a node. -/
theorem askAll_forgets_treeSchema :
    let mixed : Schema := .ofKind (.tuple [.ofKind (.primitive .string), .ofKind .empty])
    let plain : Schema := .ofKind (.primitive .string)
    let calls : List Query := [.shape (treeSchema mixed), .shape (treeSchema plain)]
    let run := nestingProjector.askAll calls .start
    run.2.visiting = [] ∧ run.1 = calls.map nestingProjector.answer ∧
      nestingProjector.answer (.shape (treeSchema mixed)) =
        .error (.unsupportedTuple "Forest" "#" .mixed) ∧
      (∃ label, nestingProjector.answer (.shape (treeSchema plain)) =
        .ok (.shape (.object [⟨"node", false, none, "Node", .object [label,
          ⟨"tree", false, none, "Tree", .reference "Tree" "Tree"⟩] none⟩] none))) ∧
      run.2.visits.map (fun visit => titlesOf visit.within) =
        [[], ["Tree"], [], ["Tree"], ["Node", "Tree"], ["Node", "Tree"]] ∧
      ∀ visit ∈ run.2.visits, visit.Proper nestingProjector := by
  intro mixed plain calls run
  obtain ⟨hvisiting, hanswers, more, hvisits, hproper⟩ :=
    askAll_forgets nestingProjector calls .start
  have hmore : run.2.visits = more := hvisits
  refine ⟨hvisiting, (hanswers rfl).1, rfl, ⟨_, rfl⟩, rfl, ?_⟩
  rw [hmore]
  exact hproper

end Calls

end Projector

end RpcSchema
