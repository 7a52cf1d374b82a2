import GnuRadio.Settings.Store

/-! A block's settings: the sets stored for contexts and times, the staged values, and what set(), setStaged(),
    activateContext() and a tag do to them (`CtxSettingsBase` in Settings.cpp, the member accessors in Settings.hpp).
    `κ` is the type of a context, `ν` of a value in a map, and `τ k` of the block's member `k`. Each reading of the
    system clock is an argument. -/

namespace GnuRadio.Settings

open Function

def kContextField : Key := "context"

def RESET_DEFAULTS : Key := "gr:reset_default"

def STORE_DEFAULTS : Key := "gr:store_default"

def CONTEXT : Key := "gr:context"

def CONTEXT_TIME : Key := "gr:ctx_time"

/-- `:name` and `name` are one key, spelled `name`. -/
def canonicalKey (key : Key) : Key :=
  match key.toList with
  | ':' :: name => String.ofList name
  | _ => key

/-! ### Members -/

/-- A reflected member of a block. The value of a member converts back to it. -/
structure Member (ν τ : Type) where
  writable : Bool
  read : τ → ν
  convertParameter : ν → Except String τ
  extractStagedValue : ν → Option τ
  /-- The value that a tag stages, none for a value that it does not take. -/
  taggedValue : ν → Option ν
  validate : τ → Bool
  describeLimits : String
  convert_read : ∀ x, convertParameter (read x) = .ok x
  extract_read : ∀ x, extractStagedValue (read x) = some x

namespace Member

variable {ν τ : Type} (m : Member ν τ)

/-- The value that goes into a map, or why the value does not convert. -/
def setParameter (value : ν) : Except String ν := (m.convertParameter value).map m.read

/-- The reason when the value converts and the limits refuse it. -/
def refuseByLimits (value : ν) : Option String :=
  match m.convertParameter value with
  | .error _ => none
  | .ok converted => if m.validate converted then none else some m.describeLimits

/-- The member that a staged value gives, none for a value that it refuses. -/
def applyStaged (stagedValue : ν) : Option τ := (m.extractStagedValue stagedValue).filter m.validate

end Member

/-- The values of a block's members. -/
abbrev Members (τ : Key → Type) := (k : Key) → τ k

/-- A block's type: its members, its callbacks and the values that name contexts and times. `settingsChanged()` gets the
    old and the new settings; it may write members, and it returns the forward parameters or throws. -/
structure BlockDescriptor (κ ν : Type) (τ : Key → Type) where
  memberNames : List Key
  member : (k : Key) → Option (Member ν (τ k))
  mem_memberNames : ∀ k, k ∈ memberNames ↔ (member k).isSome
  /-- The name of a member is no tag key. -/
  notControlKey : ∀ k, (member k).isSome → k ≠ RESET_DEFAULTS ∧ k ≠ STORE_DEFAULTS
  settingsChanged : Option (Members τ → PropertyMap ν → PropertyMap ν → Members τ × Except String (PropertyMap ν))
  reset : Option (Members τ → Members τ)
  matchPred : MatchPredicate κ
  expiryTime : Option Nat
  defaultContext : κ
  ofContext : κ → ν
  toContext : ν → Option κ
  toTime : ν → Option Nat
  isMonostate : ν → Bool

structure CtxSettings (κ ν : Type) (τ : Key → Type) where
  stored : StoredParameters κ ν
  defaultParameters : PropertyMap ν
  autoUpdateParameters : AutoUpdateParameters κ
  activeCtx : SettingsCtx κ
  /-- Set when the active context moved, and consumed by the next apply. -/
  contextActivated : Bool
  contextBeforeActivation : Option (SettingsCtx κ)
  autoUpdateBeforeReset : Option (AutoUpdateParameters κ)
  stagedParameters : PropertyMap ν
  /-- The staged keys whose value a tag staged last, and `context` when a tag activated a context. -/
  taggedKeys : Finset Key
  /-- The tag key that sets each coupled setting. -/
  tagCouplings : AList fun _ : Key => Key
  activeParameters : PropertyMap ν
  changed : Bool
  members : Members τ

/-- The clock is read when `time` is undefined. -/
def SettingsCtx.orNow {κ : Type} (ctx : SettingsCtx κ) (now : Nat) : SettingsCtx κ :=
  if ctx.time = 0 then { ctx with time := now } else ctx

variable {κ ν : Type} {τ : Key → Type} [LinearOrder κ] [DecidableEq ν]

namespace BlockDescriptor

variable (d : BlockDescriptor κ ν τ)

/-- `writableByName`. -/
def writable (k : Key) : Option (Member ν (τ k)) := (d.member k).filter (·.writable)

def writableMembers : Finset Key := (d.memberNames.filter fun k => (d.writable k).isSome).toFinset

/-- `readParameter()` of a member. -/
def readParameter (members : Members τ) (parameters : PropertyMap ν) (k : Key) : PropertyMap ν :=
  match d.member k with
  | some m => parameters.insert k (m.read (members k))
  | none => parameters

/-- `storeCurrentParameters()`, and `updateActiveParametersImpl()` on the active parameters. -/
def storeCurrentParameters (members : Members τ) (parameters : PropertyMap ν) : PropertyMap ν :=
  d.memberNames.foldl (d.readParameter members) parameters

end BlockDescriptor

namespace CtxSettings

variable (d : BlockDescriptor κ ν τ) (s : CtxSettings κ ν τ)

abbrev findBestMatchSettingsCtx (ctx : SettingsCtx κ) : Option (SettingsCtx κ) :=
  Settings.findBestMatchSettingsCtx d.matchPred s.stored ctx

abbrev getBestMatchStoredParameters (ctx : SettingsCtx κ) : Option (PropertyMap ν) :=
  Settings.getBestMatchStoredParameters d.matchPred s.stored ctx

abbrev getBestMatchAutoUpdateParameters (ctx : SettingsCtx κ) : Option (Finset Key) :=
  Settings.getBestMatchAutoUpdateParameters d.matchPred s.stored s.autoUpdateParameters ctx

/-! ### Getters -/

/-- The named keys of a map, and the whole map when none is named. -/
def selectKeys (parameterKeys : List Key) (parameters : PropertyMap ν) : PropertyMap ν :=
  if parameterKeys = [] then parameters else parameters.filter fun k _ => k ∈ parameterKeys

def get (parameterKeys : List Key) : PropertyMap ν := selectKeys parameterKeys s.activeParameters

def getStored (parameterKeys : List Key) (ctx : SettingsCtx κ) (now : Nat) : Option (PropertyMap ν) :=
  (s.getBestMatchStoredParameters d (ctx.orNow now)).map (selectKeys parameterKeys)

/-! ### Stored sets -/

def addStoredParameters (newParameters : PropertyMap ν) (ctx : SettingsCtx κ) : CtxSettings κ ν τ :=
  { s with
    autoUpdateParameters :=
      if (s.autoUpdateParameters ctx).isSome then
        s.autoUpdateParameters
      else
        update s.autoUpdateParameters ctx
          (some ((s.getBestMatchAutoUpdateParameters d ctx).getD d.writableMembers))
    stored := addSet s.stored newParameters ctx }

def removeExpiredStoredParameters (now : Nat) : CtxSettings κ ν τ :=
  { s with
    autoUpdateParameters := eraseExpired d.expiryTime now s.stored s.autoUpdateParameters
    stored := keepUnexpired d.expiryTime now s.stored }

/-- What `setImpl()` makes of its map: the set's values, the keys that go on to follow tags, and the values that it does
    not take. -/
structure Taken (ν : Type) where
  newParameters : PropertyMap ν
  autoUpdate : Finset Key
  ret : PropertyMap ν

/-- One turn of the loop over the map. -/
def takeParameter (taken : Taken ν) (key : Key) (value : ν) : Except (Refusal κ ν) (Taken ν) :=
  if d.isMonostate value then
    .ok taken
  else
    match d.writable key with
    | none => .ok { taken with ret := taken.ret.insert key value }
    | some m =>
      match m.setParameter value with
      | .error error => .error (.conversion key error)
      | .ok converted =>
        match m.refuseByLimits value with
        | some reason => .error (.limits key value reason)
        | none =>
          .ok { taken with
            newParameters := taken.newParameters.insert key converted
            autoUpdate := taken.autoUpdate.erase key }

def takeParameters (parameters : PropertyMap ν) (ctx : SettingsCtx κ) : Except (Refusal κ ν) (Taken ν) :=
  parameters.entries.foldlM (fun taken e => takeParameter d taken e.1 e.2)
    { newParameters := (s.getBestMatchStoredParameters d ctx).getD s.defaultParameters
      autoUpdate := (s.autoUpdateParameters ctx).getD
        ((s.getBestMatchAutoUpdateParameters d ctx).getD d.writableMembers)
      ret := ∅ }

/-- The set that `setImpl()` writes at a time, or why it throws. -/
def newSet (parameters : PropertyMap ν) (ctx : SettingsCtx κ) (now : Nat) : Except (Refusal κ ν) (Taken ν) :=
  match refuseStoredSet s.stored (ctx.orNow now) (now < (ctx.orNow now).time) now with
  | some refusal => .error refusal
  | none => s.takeParameters d parameters (ctx.orNow now)

/-- `setImpl()`, which reads the clock first and again when it removes expired sets. A refusal changes nothing. -/
def set (parameters : PropertyMap ν) (ctx : SettingsCtx κ) (now pruneTime : Nat) :
    Except (Refusal κ ν) (PropertyMap ν) × CtxSettings κ ν τ :=
  match s.newSet d parameters ctx now with
  | .error refusal => (.error refusal, s)
  | .ok taken =>
    let ctx := ctx.orNow now
    let kept := { s with autoUpdateParameters := update s.autoUpdateParameters ctx (some taken.autoUpdate) }
    (.ok taken.ret, (kept.addStoredParameters d taken.newParameters ctx).removeExpiredStoredParameters d pruneTime)

/-! ### Staged values -/

/-- One turn of `setStagedImpl()`'s first loop: the converted values and the values that no setting takes. -/
def convertStaged (converted : PropertyMap ν × PropertyMap ν) (key : Key) (value : ν) :
    Except (Refusal κ ν) (PropertyMap ν × PropertyMap ν) :=
  match d.writable key with
  | none => .ok (converted.1, converted.2.insert key value)
  | some m =>
    match m.setParameter value with
    | .error error => .error (.conversion key error)
    | .ok value => .ok (converted.1.insert key value, converted.2)

/-- `setStagedImpl()`. -/
def setStaged (parameters : PropertyMap ν) : Except (Refusal κ ν) (PropertyMap ν) × CtxSettings κ ν τ :=
  match parameters.entries.foldlM (fun converted e => convertStaged d converted e.1 e.2) (∅, ∅) with
  | .error refusal => (.error refusal, s)
  | .ok (converted, ret) =>
    let staged := converted ∪ s.stagedParameters
    (.ok ret,
      { s with
        taggedKeys := s.taggedKeys \ converted.keys.toFinset
        stagedParameters := staged
        changed := s.changed || staged.entries ≠ [] })

/-- The entry of a set that has none is filled from the set that matches it. -/
def withAutoUpdateEntry (ctx : SettingsCtx κ) : CtxSettings κ ν τ :=
  if (s.autoUpdateParameters ctx).isSome then
    s
  else
    { s with
      autoUpdateParameters :=
        update s.autoUpdateParameters ctx
          (some ((s.getBestMatchAutoUpdateParameters d ctx).getD d.writableMembers)) }

/-- Another context becomes active. The values that are staged already stay. -/
def moveTo (best : SettingsCtx κ) (parameters : PropertyMap ν) : CtxSettings κ ν τ :=
  { s with
    stagedParameters := s.stagedParameters ∪ parameters
    contextBeforeActivation := if s.contextActivated then s.contextBeforeActivation else some s.activeCtx
    activeCtx := best
    contextActivated := true
    changed := true }

/-- `activateContextImpl()`. A stored value that does not convert throws. -/
def activateContext (ctx : SettingsCtx κ) (now : Nat) :
    Except (Refusal κ ν) (Option (SettingsCtx κ)) × CtxSettings κ ν τ :=
  let ctx := ctx.orNow now
  match s.findBestMatchSettingsCtx d ctx with
  | none => (.ok none, s)
  | some best =>
    if best = s.activeCtx then
      (.ok (some best), s)
    else if best.context = s.activeCtx.context then
      match s.getBestMatchStoredParameters d ctx with
      | none => (.ok (some best), s)
      | some parameters =>
        let s := s.withAutoUpdateEntry d best
        let currentAutoUpdateParams := (s.autoUpdateParameters best).getD ∅
        let notAutoUpdateParams := parameters.filter fun key _ => key ∉ currentAutoUpdateParams
        match s.setStaged d notAutoUpdateParams with
        | (.error refusal, s) => (.error refusal, s)
        | (.ok _, s) => (.ok (some best), { s with activeCtx := best, changed := true })
    else
      match s.getBestMatchStoredParameters d ctx with
      | none => (.ok none, s)
      | some parameters =>
        (.ok (some best), s.moveTo best parameters)

/-! ### Tags -/

/-- A tag without a context selects none, and one without a time selects the context's set for now. -/
def createSettingsCtxFromTag (map : PropertyMap ν) (now : Nat) : Option (SettingsCtx κ) :=
  ((map.lookup CONTEXT).bind d.toContext).map fun context =>
    SettingsCtx.orNow ⟨((map.lookup CONTEXT_TIME).bind d.toTime).getD 0, context⟩ now

/-- The tag's context: it is activated, and the values that this stages count as staged by the tag. -/
def activateFromTag (ctx : SettingsCtx κ) (now : Nat) :
    Except (Refusal κ ν) (Option (SettingsCtx κ)) × CtxSettings κ ν τ :=
  match s.activateContext d ctx now with
  | (.error refusal, t) => (.error refusal, t)
  | (.ok best, t) =>
    let staged := t.stagedParameters.entries.filter fun e =>
      s.stagedParameters.lookup e.1 ≠ some e.2 ∨ e.1 ∈ s.taggedKeys
    let activated : Finset Key := if t.contextActivated && !s.contextActivated then {kContextField} else ∅
    (.ok best, { t with taggedKeys := t.taggedKeys ∪ (staged.map (·.1)).toFinset ∪ activated })

/-- Whether the set is stored. -/
def isStored (ctx : SettingsCtx κ) : Bool := (setsOf s.stored ctx.context).any (·.context = ctx)

/-- The keys that follow the tag, with the entry of a stored set that has none filled. -/
def followedKeys (ctx : SettingsCtx κ) (now : Nat) : Finset Key × CtxSettings κ ν τ :=
  if s.isStored ctx then
    let s := s.withAutoUpdateEntry d ctx
    ((s.autoUpdateParameters ctx).getD ∅, s)
  else
    let bestMatch := (s.findBestMatchSettingsCtx d ctx).or (s.findBestMatchSettingsCtx d ⟨now, ctx.context⟩)
    ((bestMatch.bind s.autoUpdateParameters).getD d.writableMembers, s)

/-- A tag's reset or store key is staged under its `gr:` key. -/
def stageControlKey (key : Key) (value : ν) : CtxSettings κ ν τ × Bool :=
  if canonicalKey key = RESET_DEFAULTS then
    ({ s with stagedParameters := s.stagedParameters.insert RESET_DEFAULTS value }, true)
  else if canonicalKey key = STORE_DEFAULTS then
    ({ s with stagedParameters := s.stagedParameters.insert STORE_DEFAULTS value }, true)
  else
    (s, false)

/-- `isActiveValueImpl()`. -/
def isActiveValue (key : Key) (value : ν) : Bool := s.activeParameters.lookup key = some value

/-- A coupled setting takes the value of its tag key. -/
def stageCoupled (map : PropertyMap ν) (activeCtxChanged : Bool) (autoUpdateParams : Finset Key) (setting tagKey : Key) :
    CtxSettings κ ν τ × Bool :=
  match map.lookup tagKey, d.writable setting with
  | some value, some m =>
    if activeCtxChanged || !s.isActiveValue setting value then
      match (if setting ∈ autoUpdateParams then m.taggedValue value else none) with
      | some staged =>
        ({ s with
          stagedParameters := s.stagedParameters.insert setting staged
          taggedKeys := insert setting s.taggedKeys }, true)
      | none => (s, false)
    else
      (s, false)
  | _, _ => (s, false)

/-- A loop over keys whose turns may each change the settings. -/
def stageEach {β : Type} (turn : CtxSettings κ ν τ → β → CtxSettings κ ν τ × Bool) (keys : List β) (wasChanged : Bool) :
    CtxSettings κ ν τ × Bool :=
  keys.foldl (fun acc key => ((turn acc.1 key).1, acc.2 || (turn acc.1 key).2)) (s, wasChanged)

/-- The part of `autoUpdate()` after the context of the tag, which has `ctx` as its set: the keys of the map and the
    coupled settings are staged. -/
def stageTag (map : PropertyMap ν) (hasContext activeCtxChanged : Bool) (ctx : SettingsCtx κ) (present : Nat) :
    CtxSettings κ ν τ :=
  let followed := s.followedKeys d ctx present
  let control := followed.2.stageEach (fun t e => t.stageControlKey e.1 e.2) map.entries false
  let coupled := control.1.stageEach (fun t e => t.stageCoupled d map activeCtxChanged followed.1 e.1 e.2)
    control.1.tagCouplings.entries control.2
  { coupled.1 with
    changed :=
      if !hasContext ∧ !coupled.2 ∧ coupled.1.stagedParameters.entries = [] then false
      else if activeCtxChanged ∨ coupled.2 then true
      else coupled.1.changed }

/-- `autoUpdate()`: a tag stages what it carries. `now` dates its context, and `present` is read for an active set that
    is no longer stored. -/
def autoUpdate (map : PropertyMap ν) (now present : Nat) : Except (Refusal κ ν) Unit × CtxSettings κ ν τ :=
  match createSettingsCtxFromTag d map now with
  | none => (.ok (), s.stageTag d map false false s.activeCtx present)
  | some tagCtx =>
    match s.activateFromTag d tagCtx now with
    | (.error refusal, t) => (.error refusal, t)
    | (.ok best, t) =>
      let ctx := best.getD t.activeCtx
      (.ok (), t.stageTag d map true (s.activeCtx ≠ ctx) ctx present)

/-! ### Construction -/

/-- The settings of a new block, whose constructor may have coupled settings to tags. -/
def constructed (members : Members τ) (tagCouplings : AList fun _ : Key => Key) : CtxSettings κ ν τ where
  stored := ∅
  defaultParameters := ∅
  autoUpdateParameters := fun _ => none
  activeCtx := ⟨0, d.defaultContext⟩
  contextActivated := false
  contextBeforeActivation := none
  autoUpdateBeforeReset := none
  stagedParameters := ∅
  taggedKeys := ∅
  tagCouplings := tagCouplings
  activeParameters := ∅
  changed := false
  members := members

/-- The clock readings of `init()`. -/
structure InitReadings where
  following : Nat
  set : Nat
  pruning : Nat
  activation : Nat
  kept : Nat

/-- The coupled settings among the constructor's parameters that follow their keys, which go on to follow them. -/
def keepFollowing (initBlockParameters : PropertyMap ν) (now : Nat) : Finset Key :=
  let following := (s.getBestMatchAutoUpdateParameters d ⟨now, d.defaultContext⟩).getD d.writableMembers
  (s.tagCouplings.keys.filter fun setting => setting ∈ initBlockParameters ∧ setting ∈ following).toFinset

/-- `init()` on the settings, none when it throws: the defaults are stored, and the constructor's parameters are set and
    activated. -/
def init (initBlockParameters : PropertyMap ν) (readings : InitReadings) : Option (CtxSettings κ ν τ) :=
  let s := { s with defaultParameters := d.storeCurrentParameters s.members s.defaultParameters }
  let keep := s.keepFollowing d initBlockParameters readings.following
  match s.set d initBlockParameters ⟨0, d.defaultContext⟩ readings.set readings.pruning with
  | (.ok notSet, s) =>
    if notSet.entries = [] then
      match s.activateContext d ⟨0, d.defaultContext⟩ readings.activation with
      | (.ok (some _), s) =>
        match s.findBestMatchSettingsCtx d ⟨readings.kept, d.defaultContext⟩ with
        | some initCtx =>
          some { s with
            autoUpdateParameters :=
              update s.autoUpdateParameters initCtx ((s.autoUpdateParameters initCtx).map (· ∪ keep)) }
        | none => some s
      | _ => none
    else
      none
  | _ => none

end CtxSettings

/-! ### A block with one setting -/

/-- A setting that holds a number and has no limits. -/
def number : Member Nat Nat where
  writable := true
  read := id
  convertParameter := .ok
  extractStagedValue := some
  taggedValue := some
  validate _ := true
  describeLimits := ""
  convert_read _ := rfl
  extract_read _ := rfl

/-- A block with the setting `gain`; its contexts and its values are numbers. -/
def gainBlock (settingsChanged : Option (Members (fun _ => Nat) → PropertyMap Nat → PropertyMap Nat →
    Members (fun _ => Nat) × Except String (PropertyMap Nat))) : BlockDescriptor Nat Nat fun _ => Nat where
  memberNames := ["gain"]
  member k := if k = "gain" then some number else none
  mem_memberNames k := by
    by_cases h : k = "gain" <;> simp [h]
  notControlKey k h := by
    by_cases hk : k = "gain"
    · exact hk ▸ by decide
    · simp [hk] at h
  settingsChanged := settingsChanged
  reset := none
  matchPred _ _ _ := none
  expiryTime := none
  defaultContext := 0
  ofContext := id
  toContext := some
  toTime := some
  isMonostate _ := false

def gain (value : Nat) : PropertyMap Nat := AList.singleton "gain" value

/-- The block before its first set. -/
def unset : CtxSettings Nat Nat fun _ => Nat :=
  { CtxSettings.constructed (gainBlock none) (fun _ => 0) ∅ with defaultParameters := gain 0 }

end GnuRadio.Settings
