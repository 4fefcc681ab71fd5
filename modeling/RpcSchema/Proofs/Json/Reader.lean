import RpcSchema.Document.Basic
import RpcSchema.Json.Reader
import RpcSchema.Proofs.Json.Objects

/-!
# Names in what is read

A value that is read from text gives the members of every object distinct names, as a
repeated name takes the place of the earlier one.  Making a document of the value keeps
this: named schemas only get a title when they have none.

## Main definitions

* `Json.Assembly.Distinct` — all objects that are complete or under way have distinct names.

## Main results

* `Json.Assembly.Distinct.step` — reading a token keeps this.
* `Json.distinctNames_of_read` — what is read from text gives distinct names.
* `Document.distinctNames_of_ofJson` — documents give distinct names.
-/

namespace RpcSchema

namespace Json

/-! ### Scalars -/

private theorem distinctNames_number (n : Number) : (number n).DistinctNames :=
  everyObject_scalar rfl rfl

private theorem distinctNames_floatOf {negative : Bool} {significand : Nat} {exponent : Int}
    {value : Json} (h : floatOf negative significand exponent = some value) :
    value.DistinctNames := by
  obtain ⟨x, -, h⟩ := Option.bind_eq_some_iff.mp h
  obtain ⟨scaled, -, rfl⟩ := Option.map_eq_some_iff.mp h
  exact distinctNames_number _

private theorem distinctNames_wholeOf {negative : Bool} {significand dropped : Nat} {value : Json}
    (h : wholeOf negative significand dropped = some value) : value.DistinctNames := by
  unfold wholeOf at h
  split at h
  · exact distinctNames_floatOf h
  · split at h
    · exact Option.some.inj h ▸ distinctNames_number _
    · split at h
      · exact distinctNames_floatOf h
      · exact Option.some.inj h ▸ distinctNames_number _

private theorem distinctNames_readExponent {negative : Bool} {significand : Nat} {scale : Int}
    {cs : List Char} {found : Json × List Char}
    (h : readExponent negative significand scale cs = some found) : found.1.DistinctNames := by
  unfold readExponent at h
  dsimp only at h
  -- One case for each way to write the sign.
  split at h
  all_goals
    split at h
    · cases h
    · obtain ⟨value, hvalue, rfl⟩ := Option.map_eq_some_iff.mp h
      exact distinctNames_floatOf hvalue

private theorem distinctNames_readFraction {negative : Bool} {significand dropped : Nat}
    {cs : List Char} {found : Json × List Char}
    (h : readFraction negative significand dropped cs = some found) : found.1.DistinctNames := by
  unfold readFraction at h
  split at h
  · dsimp only at h
    split at h
    · cases h
    · split at h
      · exact distinctNames_readExponent h
      · exact distinctNames_readExponent h
      · obtain ⟨value, hvalue, rfl⟩ := Option.map_eq_some_iff.mp h
        exact distinctNames_floatOf hvalue
  · exact distinctNames_readExponent h
  · exact distinctNames_readExponent h
  · obtain ⟨value, hvalue, rfl⟩ := Option.map_eq_some_iff.mp h
    exact distinctNames_wholeOf hvalue

private theorem distinctNames_readNumber {negative : Bool} {cs : List Char}
    {found : Json × List Char} (h : readNumber negative cs = some found) :
    found.1.DistinctNames := by
  unfold readNumber at h
  dsimp only at h
  split at h
  · cases h
  · cases h
  · exact distinctNames_readFraction h

/-- All objects in the value of a token have distinct names; in fact there are none. -/
def Token.Distinct (token : Token) : Prop :=
  ∀ value, token = .scalar value → value.DistinctNames

private theorem distinct_readToken {cs : List Char} {found : Token × List Char}
    (h : readToken cs = some found) : found.1.Distinct := by
  intro value hvalue
  unfold readToken at h
  split at h
  case h_1 | h_2 | h_3 | h_4 | h_5 | h_6 =>
    obtain rfl := Option.some.inj h
    cases hvalue
  case h_7 | h_8 | h_9 =>
    obtain rfl := Option.some.inj h
    cases hvalue
    exact everyObject_scalar rfl rfl
  case h_10 =>
    obtain ⟨text, -, rfl⟩ := Option.map_eq_some_iff.mp h
    cases hvalue
    exact everyObject_scalar rfl rfl
  case h_11 | h_12 =>
    obtain ⟨number, hnumber, rfl⟩ := Option.map_eq_some_iff.mp h
    cases hvalue
    exact distinctNames_readNumber hnumber

private theorem distinct_readTokens {fuel : Nat} {done ts : List Token} {cs : List Char}
    (hdone : ∀ token ∈ done, token.Distinct) (h : readTokens fuel done cs = some ts) :
    ∀ token ∈ ts, token.Distinct := by
  induction fuel generalizing done cs with
  | zero =>
    cases cs with
    | nil =>
      obtain rfl := Option.some.inj h
      exact fun token hmem => hdone token (List.mem_reverse.mp hmem)
    | cons c rest => cases h
  | succ fuel ih =>
    cases cs with
    | nil =>
      obtain rfl := Option.some.inj h
      exact fun token hmem => hdone token (List.mem_reverse.mp hmem)
    | cons c rest =>
      rw [readTokens] at h
      split at h
      · exact ih hdone h
      · split at h
        · cases h
        · next token rest hread =>
          exact ih (List.forall_mem_cons.mpr ⟨distinct_readToken hread, hdone⟩) h

/-! ### Containers -/

/-- All objects in an open container have distinct names, and so has the container. -/
def Frame.Distinct : Frame → Prop
  | .array items => ∀ item ∈ items, item.DistinctNames
  | .object fields _ => (Json.object fields).DistinctNames

namespace Assembly

/-- All objects that are complete or under way have distinct names. -/
structure Distinct (state : Assembly) : Prop where
  stack : ∀ frame ∈ state.stack, frame.Distinct
  result : ∀ value, state.expected = .nothing value → value.DistinctNames

variable {state next : Assembly} {frames : List Frame} {value : Json} {token : Token}

theorem distinct_start : start.Distinct :=
  ⟨List.forall_mem_nil _, fun _ heq => by cases heq⟩

/-- A complete value keeps names distinct: a repeated name takes the earlier place. -/
private theorem distinct_put (hvalue : value.DistinctNames)
    (hframes : ∀ frame ∈ frames, frame.Distinct) : (put value frames).Distinct := by
  cases frames with
  | nil => exact ⟨hframes, fun _ heq => Expectation.nothing.inj heq ▸ hvalue⟩
  | cons frame rest =>
    obtain ⟨hframe, hrest⟩ := List.forall_mem_cons.mp hframes
    cases frame with
    | array items =>
      have hitems : Frame.Distinct (.array (value :: items)) :=
        List.forall_mem_cons.mpr ⟨hvalue, hframe⟩
      exact ⟨List.forall_mem_cons.mpr ⟨hitems, hrest⟩, fun _ heq => by cases heq⟩
    | object fields key =>
      have hfields : Frame.Distinct (.object (Fields.set fields key value) key) := by
        obtain ⟨hnames, hparts⟩ := everyObject_object_iff.mp hframe
        refine everyObject_object_iff.mpr ⟨Fields.nodup_keys_set hnames key value, ?_⟩
        intro name part hmem
        rcases Fields.mem_set hmem with heq | hmem
        · exact (Prod.mk.inj heq).2 ▸ hvalue
        · exact hparts name part hmem
      exact ⟨List.forall_mem_cons.mpr ⟨hfields, hrest⟩, fun _ heq => by cases heq⟩

private theorem distinct_close (hframes : ∀ frame ∈ frames, frame.Distinct)
    (h : close token frames = some next) : next.Distinct := by
  unfold close at h
  split at h
  · obtain rfl := Option.some.inj h
    obtain ⟨hframe, hrest⟩ := List.forall_mem_cons.mp hframes
    refine distinct_put (everyObject_array_iff.mpr fun item hmem => ?_) hrest
    exact hframe item (List.mem_reverse.mp hmem)
  · obtain rfl := Option.some.inj h
    obtain ⟨hframe, hrest⟩ := List.forall_mem_cons.mp hframes
    exact distinct_put hframe hrest
  · cases h

private theorem distinct_push {frame : Frame} {orEnd : Bool} {expected : Expectation}
    (hframe : frame.Distinct) (hexpected : expected = .value orEnd ∨ expected = .key orEnd)
    (hframes : ∀ frame ∈ frames, frame.Distinct)
    (h : push frame expected frames = some next) : next.Distinct := by
  unfold push at h
  split at h
  · obtain rfl := Option.some.inj h
    refine ⟨List.forall_mem_cons.mpr ⟨hframe, hframes⟩, fun value heq => ?_⟩
    rcases hexpected with rfl | rfl <;> cases heq
  · cases h

/-- **Reading a token keeps names distinct.** -/
theorem Distinct.step (hstate : state.Distinct) (htoken : token.Distinct)
    (h : state.step token = some next) : next.Distinct := by
  obtain ⟨stack, expected⟩ := state
  have hstack : ∀ frame ∈ stack, frame.Distinct := hstate.stack
  have harray : Frame.Distinct (.array []) := List.forall_mem_nil _
  have hobject : Frame.Distinct (.object [] "") :=
    everyObject_object_iff.mpr ⟨List.nodup_nil, fun _ _ hmem => absurd hmem List.not_mem_nil⟩
  unfold Assembly.step at h
  split at h
  · obtain rfl := Option.some.inj h
    exact distinct_put (htoken _ rfl) hstack
  · exact distinct_push harray (Or.inl rfl) hstack h
  · exact distinct_push hobject (Or.inr rfl) hstack h
  · exact distinct_close hstack h
  · -- The name of the next member is not a member yet.
    next heq =>
    obtain rfl := Option.some.inj h
    obtain rfl : stack = _ := heq
    obtain ⟨hframe, hrest⟩ := List.forall_mem_cons.mp hstack
    exact ⟨List.forall_mem_cons.mpr ⟨hframe, hrest⟩, fun _ heq => by cases heq⟩
  · exact distinct_close hstack h
  · obtain rfl := Option.some.inj h
    exact ⟨hstack, fun _ heq => by cases heq⟩
  · next heq =>
    obtain rfl := Option.some.inj h
    obtain rfl : stack = _ := heq
    exact ⟨hstack, fun _ heq => by cases heq⟩
  · next heq =>
    obtain rfl := Option.some.inj h
    obtain rfl : stack = _ := heq
    exact ⟨hstack, fun _ heq => by cases heq⟩
  · exact distinct_close hstack h
  · cases h

/-- Reading tokens keeps names distinct. -/
theorem Distinct.foldlM {ts : List Token} (hstate : state.Distinct)
    (htokens : ∀ token ∈ ts, token.Distinct) (h : ts.foldlM Assembly.step state = some next) :
    next.Distinct := by
  induction ts generalizing state with
  | nil => exact Option.some.inj h ▸ hstate
  | cons token rest ih =>
    obtain ⟨between, hstep, hrest⟩ := Option.bind_eq_some_iff.mp h
    obtain ⟨htoken, htokens⟩ := List.forall_mem_cons.mp htokens
    exact ih (hstate.step htoken hstep) htokens hrest

end Assembly

/-- **What is read from text gives the members of every object distinct names.** -/
theorem distinctNames_of_read {text : String} {value : Json} (h : read text = some value) :
    value.DistinctNames := by
  obtain ⟨ts, htokens, h⟩ := Option.bind_eq_some_iff.mp h
  obtain ⟨state, hstate, hresult⟩ := Option.bind_eq_some_iff.mp h
  have hdistinct : ∀ token ∈ ts, token.Distinct :=
    distinct_readTokens (List.forall_mem_nil _) htokens
  have hfinal := Assembly.distinct_start.foldlM hdistinct hstate
  unfold Assembly.result? at hresult
  split at hresult
  · next heq => exact Option.some.inj hresult ▸ hfinal.result _ heq
  · cases hresult

end Json

/-! ### Documents -/

namespace Document

/-- Changing the members of an object in a value keeps names distinct, if the change does. -/
private theorem distinctNames_modifyMembers {change : Fields Json → Fields Json}
    (hchange : ∀ fields, (Json.object fields).DistinctNames →
      (Json.object (change fields)).DistinctNames) {path : List String} {value : Json}
    (h : value.DistinctNames) : (modifyMembers change path value).DistinctNames := by
  induction path generalizing value with
  | nil =>
    cases value with
    | object fields => exact hchange fields h
    | _ => exact h
  | cons name rest ih =>
    cases value with
    | object fields =>
      rw [modifyMembers]
      split
      · next part hpart =>
        obtain ⟨hnames, hparts⟩ := Json.everyObject_object_iff.mp h
        refine Json.everyObject_object_iff.mpr ⟨Fields.nodup_keys_set hnames name _, ?_⟩
        intro other inner hmem
        rcases Fields.mem_set hmem with heq | hmem
        · exact (Prod.mk.inj heq).2 ▸ ih (hparts name part (Fields.mem_of_get? hpart))
        · exact hparts other inner hmem
      · exact h
    | _ => exact h

private theorem distinctNames_giveTitle {name : String} {value : Json} (h : value.DistinctNames) :
    (giveTitle name value).DistinctNames := by
  cases value with
  | object fields =>
    rw [giveTitle, Fields.add]
    split
    · exact h
    · next hnew =>
      have hkey : "title" ∉ Fields.keys fields := fun hmem => hnew (Fields.contains_iff.mpr hmem)
      obtain ⟨hnames, hparts⟩ := Json.everyObject_object_iff.mp h
      rw [← Fields.set_of_notMem hkey]
      refine Json.everyObject_object_iff.mpr ⟨Fields.nodup_keys_set hnames _ _, ?_⟩
      intro other part hmem
      rcases Fields.mem_set hmem with heq | hmem
      · exact (Prod.mk.inj heq).2 ▸ Json.everyObject_scalar rfl rfl
      · exact hparts other part hmem
  | _ => exact h

private theorem distinctNames_giveTitles {root : Json} (h : root.DistinctNames) :
    (giveTitles root).DistinctNames := by
  have hchange : ∀ fields, (Json.object fields).DistinctNames →
      (Json.object (fields.map fun entry =>
        (entry.1, giveTitle entry.1 entry.2))).DistinctNames := by
    intro fields hfields
    obtain ⟨hnames, hparts⟩ := Json.everyObject_object_iff.mp hfields
    refine Json.everyObject_object_iff.mpr ⟨?_, fun name part hmem => ?_⟩
    · rwa [Fields.keys, List.map_map]
    · obtain ⟨entry, hentry, heq⟩ := List.mem_map.mp hmem
      obtain ⟨rfl, rfl⟩ := Prod.mk.inj heq
      exact distinctNames_giveTitle (hparts _ _ hentry)
  exact distinctNames_modifyMembers hchange (distinctNames_modifyMembers hchange h)

/-- **Documents give the members of every object distinct names**, if the values that they
are made of do. -/
theorem distinctNames_of_ofJson {root : Json} {document : Document} (h : root.DistinctNames)
    (hdocument : ofJson root = .ok document) : document.root.DistinctNames := by
  unfold ofJson at hdocument
  split at hdocument
  · cases hdocument
  · dsimp only at hdocument
    split at hdocument
    · obtain rfl := Except.ok.inj hdocument
      exact distinctNames_giveTitles h
    · cases hdocument

end Document

end RpcSchema
