import GnuRadio.Settings.CtxSettings

/-! `applyStagedParameters()`: the staged batch is applied to the block's members, a staged reset stores and stages the
    defaults first, `settingsChanged()` is called for the values that moved, and a refusal by it puts back what the
    batch changed. The callbacks do not call `settings()`. -/

namespace GnuRadio.Settings

/-- The clock readings of an apply. -/
structure Readings where
  reset : Nat
  activation : Nat
  pruning : Nat
  restored : Nat
  deriving DecidableEq, Repr

/-- Why an apply throws. -/
inductive Thrown (κ ν : Type) where
  | stored (refusal : Refusal κ ν)
  | settingsChanged (error : String)
  deriving DecidableEq

/-- `tagRefused` and `untaggedRefused` are the values that the limits refuse, and `callbackRefusal` holds the values
    that `settingsChanged()` refuses and why. -/
structure ApplyStagedParametersResult (ν : Type) where
  forwardParameters : PropertyMap ν
  appliedParameters : PropertyMap ν
  failedParameters : PropertyMap ν
  tagRefused : PropertyMap ν
  untaggedRefused : PropertyMap ν
  callbackRefusal : Option (PropertyMap ν × String)

variable {κ ν : Type} {τ : Key → Type} [LinearOrder κ] [DecidableEq ν]

/-- What the loop over a batch has done. `staged` are the values for the callback. -/
structure Applied (ν : Type) (τ : Key → Type) where
  members : Members τ
  appliedParameters : PropertyMap ν
  failedParameters : PropertyMap ν
  staged : PropertyMap ν

/-- The refused values are not reported as applied. -/
def Applied.withdraw (applied : Applied ν τ) (refused : PropertyMap ν) : Applied ν τ :=
  { applied with appliedParameters := applied.appliedParameters.filter fun key _ => key ∉ refused }

/-- What one apply takes from the settings: the staged values, and what the batch has changed before. -/
structure Batch (κ ν : Type) where
  parameters : PropertyMap ν
  taggedKeys : Finset Key
  storeRequested : Bool
  contextActivated : Bool
  contextBefore : Option (SettingsCtx κ)
  batchCtx : SettingsCtx κ
  autoUpdateBefore : Option (AutoUpdateParameters κ)

namespace CtxSettings

variable (d : BlockDescriptor κ ν τ) (s : CtxSettings κ ν τ)

/-! ### A reset -/

/-- The defaults that a reset would apply and that the limits refuse. -/
def refusedDefaults (now : Nat) : PropertyMap ν :=
  let ctx : SettingsCtx κ := ⟨now, d.defaultContext⟩
  let autoUpdate := (s.getBestMatchAutoUpdateParameters d ctx).getD d.writableMembers
  s.defaultParameters.filter fun key value =>
    (d.writable key).any fun m =>
      !(s.activeCtx.context = d.defaultContext ∧ key ∈ autoUpdate) && (m.refuseByLimits value).isSome

/-- Every set's keys follow tags again. -/
def followAgain (ctx : SettingsCtx κ) : CtxSettings κ ν τ :=
  { s with
    autoUpdateBeforeReset := some s.autoUpdateParameters
    autoUpdateParameters := fun c =>
      if c = ctx ∨ (s.autoUpdateParameters c).isSome then some d.writableMembers else none }

/-- `stageDefaultsImpl()` when the limits refuse no default. -/
def stageDefaults (now activationTime : Nat) : Except (Refusal κ ν) Unit × CtxSettings κ ν τ :=
  let ctx : SettingsCtx κ := ⟨now, d.defaultContext⟩
  match (s.addStoredParameters d s.defaultParameters ctx).activateContext d ⟨0, d.defaultContext⟩ activationTime with
  | (.error refusal, t) => (.error refusal, t)
  | (.ok _, t) => (.ok (), t.followAgain d ctx)

/-! ### The batch -/

/-- The staged values and the records of the activation and of the reset are moved out. -/
def cleared : CtxSettings κ ν τ :=
  { s with
    stagedParameters := ∅
    contextActivated := false
    contextBeforeActivation := none
    autoUpdateBeforeReset := none }

/-- The settings with the batch moved out. -/
def takeBatch : Batch κ ν × CtxSettings κ ν τ :=
  ({ parameters := s.stagedParameters
     taggedKeys := s.taggedKeys
     storeRequested := STORE_DEFAULTS ∈ s.stagedParameters
     contextActivated := s.contextActivated
     contextBefore := s.contextBeforeActivation
     batchCtx := s.activeCtx
     autoUpdateBefore := s.autoUpdateBeforeReset },
    { s.cleared with taggedKeys := ∅ })

/-- The batch over the defaults that a reset staged. -/
def overDefaults (batch : Batch κ ν) (pruneTime : Nat) : Batch κ ν × CtxSettings κ ν τ :=
  ({ parameters := batch.parameters ∪ s.stagedParameters
     taggedKeys := batch.taggedKeys
     storeRequested := batch.storeRequested
     contextActivated := s.contextActivated || batch.contextActivated
     contextBefore := batch.contextBefore.or s.contextBeforeActivation
     batchCtx := s.activeCtx
     autoUpdateBefore := s.autoUpdateBeforeReset },
    s.cleared.removeExpiredStoredParameters d pruneTime)

/-- A batch with a reset key stages the defaults first. The defaults that the limits refuse stop the reset only. -/
def resetBatch (batch : Batch κ ν) (readings : Readings) :
    Except (Refusal κ ν) (PropertyMap ν × Batch κ ν) × CtxSettings κ ν τ :=
  if RESET_DEFAULTS ∉ batch.parameters then
    (.ok (∅, batch), s)
  else if (s.refusedDefaults d readings.reset).entries ≠ [] then
    (.ok (s.refusedDefaults d readings.reset, batch), s)
  else
    match s.stageDefaults d readings.reset readings.activation with
    | (.error refusal, t) => (.error refusal, t)
    | (.ok _, t) => (.ok (∅, (t.overDefaults d batch readings.pruning).1), (t.overDefaults d batch readings.pruning).2)

/-- One turn of the loop that applies a batch. -/
def applyEntry (applied : Applied ν τ) (key : Key) (value : ν) : Applied ν τ :=
  match d.writable key with
  | none => applied
  | some m =>
    match m.applyStaged value with
    | none => { applied with failedParameters := applied.failedParameters.insert key value }
    | some x =>
      { applied with
        members := Function.update applied.members key x
        appliedParameters := applied.appliedParameters.insert key value
        staged := if d.settingsChanged.isSome then applied.staged.insert key value else applied.staged }

def applyEntries (parameters failed : PropertyMap ν) : Applied ν τ :=
  parameters.entries.foldl (fun applied e => applyEntry d applied e.1 e.2) ⟨s.members, ∅, failed, ∅⟩

/-- The values that the callback gets: those that moved, and a newly active context. -/
def newSettings (oldSettings staged : PropertyMap ν) (contextActivated : Bool) : PropertyMap ν :=
  let moved := staged.filter fun key value => oldSettings.lookup key ≠ some value
  if contextActivated && d.settingsChanged.isSome then
    moved.insert kContextField (d.ofContext s.activeCtx.context)
  else
    moved

def updateActiveParameters : CtxSettings κ ν τ :=
  { s with activeParameters := d.storeCurrentParameters s.members s.activeParameters }

/-! ### A refusal -/

/-- The values of the first set for `ctx` go through `f`. -/
def modifySet (ctx : SettingsCtx κ) (f : PropertyMap ν → PropertyMap ν) :
    List (CtxSettingsPair κ ν) → List (CtxSettingsPair κ ν)
  | [] => []
  | pair :: pairs =>
    if pair.context = ctx then ⟨pair.context, f pair.settings⟩ :: pairs else pair :: modifySet ctx f pairs

/-- A refused value in a stored set gives way to the previous one. -/
def restoreStored (stored : StoredParameters κ ν) (batchCtx : SettingsCtx κ) (key : Key) (refusedValue previous : ν) :
    StoredParameters κ ν :=
  stored.mapValues fun context vec =>
    if context = batchCtx.context then
      modifySet batchCtx
        (fun settings => if settings.lookup key = some refusedValue then settings.insert key previous else settings) vec
    else
      vec

/-- One turn of `restoreRefusedImpl()`: a member whose limits refuse its previous value keeps the refused one. -/
def restoreEntry (oldSettings : PropertyMap ν) (batchCtx : SettingsCtx κ) (contextActivated : Bool) (key : Key)
    (refusedValue : ν) : CtxSettings κ ν τ :=
  match d.writable key, oldSettings.lookup key with
  | some m, some previous =>
    match m.applyStaged previous with
    | none => s
    | some x =>
      { s with
        members := Function.update s.members key x
        stored := if contextActivated then s.stored else restoreStored s.stored batchCtx key refusedValue previous }
  | _, _ => s

def restoreRefused (refused oldSettings : PropertyMap ν) (batchCtx : SettingsCtx κ) (contextActivated : Bool) :
    CtxSettings κ ν τ :=
  refused.entries.foldl (fun s e => s.restoreEntry d oldSettings batchCtx contextActivated e.1 e.2) s

/-- `restoreContextImpl()`: a context that is no longer stored leaves the default context in its place. -/
def restoreContext (earlier refused : SettingsCtx κ) (now : Nat) : CtxSettings κ ν τ :=
  let restored :=
    if earlier.context ∈ s.stored then some earlier else s.findBestMatchSettingsCtx d ⟨now, d.defaultContext⟩
  { s with
    activeCtx := if s.activeCtx = refused then restored.getD s.activeCtx else s.activeCtx
    contextBeforeActivation := if s.contextBeforeActivation = some refused then restored else s.contextBeforeActivation }

/-- The keys that followed tags before a reset, in each set that still has an entry. -/
def restoreAutoUpdate (before : AutoUpdateParameters κ) : CtxSettings κ ν τ :=
  { s with autoUpdateParameters := fun ctx => (s.autoUpdateParameters ctx).map fun keys => (before ctx).getD keys }

/-- What a refusal by the callback puts back. -/
def undo (batch : Batch κ ν) (oldSettings refused : PropertyMap ν) (now : Nat) : CtxSettings κ ν τ :=
  let s := s.restoreRefused d refused oldSettings batch.batchCtx batch.contextActivated
  let s := match batch.contextBefore with
    | some earlier => s.restoreContext d earlier batch.batchCtx now
    | none => s
  let s := match batch.autoUpdateBefore with
    | some before => s.restoreAutoUpdate before
    | none => s
  s.updateActiveParameters d

/-! ### The apply -/

/-- The end of an apply: the result, a staged store of the defaults and the block's `reset()`. -/
def finishApply (batch : Batch κ ν) (resetDone : Bool) (applied : Applied ν τ) (forwardParameters : PropertyMap ν)
    (callbackRefusal : Option (PropertyMap ν × String)) :
    ApplyStagedParametersResult ν × CtxSettings κ ν τ :=
  ({ forwardParameters := forwardParameters
     appliedParameters := applied.appliedParameters
     failedParameters := applied.failedParameters ∪ callbackRefusal.elim ∅ Prod.fst
     tagRefused := applied.failedParameters.filter fun key _ => key ∈ batch.taggedKeys
     untaggedRefused := applied.failedParameters.filter fun key _ => key ∉ batch.taggedKeys
     callbackRefusal := callbackRefusal },
    { s with
      activeParameters := d.storeCurrentParameters s.members s.activeParameters
      defaultParameters :=
        if batch.storeRequested then d.storeCurrentParameters s.members s.defaultParameters else s.defaultParameters
      -- `reset()` runs after the defaults are stored
      members := if resetDone then (d.reset.getD id) s.members else s.members
      changed := s.stagedParameters.entries ≠ [] })

/-- The apply of a batch, after its reset. A refusal of values that tags alone staged is returned, and any other one is
    thrown again. -/
def applyBatch (batch : Batch κ ν) (failedDefaults : PropertyMap ν) (resetDone : Bool) (now : Nat) :
    Except (Thrown κ ν) (ApplyStagedParametersResult ν) × CtxSettings κ ν τ :=
  let oldSettings := d.storeCurrentParameters s.members ∅
  let applied := s.applyEntries d batch.parameters failedDefaults
  let staged := s.newSettings d oldSettings applied.staged batch.contextActivated
  let t := { s with members := applied.members }.updateActiveParameters d
  match d.settingsChanged with
  | none => (t.finishApply d batch resetDone applied ∅ none).map .ok id
  | some settingsChanged =>
    if staged.entries = [] then
      (t.finishApply d batch resetDone applied ∅ none).map .ok id
    else
      match settingsChanged t.members oldSettings staged with
      | (members, .ok forwardParameters) =>
        ({ t with members := members }.finishApply d batch resetDone applied forwardParameters none).map .ok id
      | (members, .error error) =>
        let undone := { t with members := members }.undo d batch oldSettings staged now
        if staged.entries.all fun e => e.1 ∈ batch.taggedKeys then
          (undone.finishApply d batch resetDone (applied.withdraw staged) ∅ (some (staged, error))).map .ok id
        else
          (.error (.settingsChanged error), undone)

/-- `applyStagedParameters()`. -/
def applyStagedParameters (readings : Readings) :
    Except (Thrown κ ν) (ApplyStagedParametersResult ν) × CtxSettings κ ν τ :=
  match s.takeBatch.2.resetBatch d s.takeBatch.1 readings with
  | (.error refusal, t) => (.error (.stored refusal), t)
  | (.ok (failedDefaults, batch), t) =>
    t.applyBatch d batch failedDefaults (RESET_DEFAULTS ∈ s.stagedParameters ∧ failedDefaults.entries = []) readings.restored

end CtxSettings

end GnuRadio.Settings
